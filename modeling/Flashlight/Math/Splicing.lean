/-
# Joining lists by their ends

Lists are joined one in front of the other by someone who knows where each list ends, but may
have lost where it begins. A list whose beginning is lost cannot be put in front: what was
joined so far is attached to its end and is lost with it. And the result only gets a beginning
when a list is put in front of another one, not when the first list is met.

`splice` says what remains to be seen of the lists.
-/

import Mathlib.Data.List.Forall2

namespace Flashlight.Math

open scoped List

universe u v

/-- A list with a known end. -/
structure Piece (α : Type u) where
  /-- The items of the list. -/
  items : List α
  /-- Its beginning is known, too. -/
  reachable : Bool
  deriving DecidableEq, Repr

namespace Piece

variable {α : Type u} {β : Type v}

/-- What is seen of the list from its beginning. -/
def visible (piece : Piece α) : List α :=
  if piece.reachable then piece.items else []

/-- The list of the images. -/
def map (f : α → β) (piece : Piece α) : Piece β :=
  ⟨piece.items.map f, piece.reachable⟩

/-- The pieces differ at most in the beginning of an empty list. -/
def Alike (x y : Piece α) : Prop :=
  x.items = y.items ∧ (x.items ≠ [] → x.reachable = y.reachable)

theorem visible_map (f : α → β) (piece : Piece α) :
    (piece.map f).visible = piece.visible.map f := by
  cases h : piece.reachable <;> simp [visible, map, h]

theorem visible_sublist (piece : Piece α) : piece.visible <+ piece.items := by
  unfold visible
  split <;> simp

end Piece

variable {α : Type u} {β : Type v}

/-- A list is put in front of the one that was joined so far. The second component is what the
result begins with. -/
def spliceStep (s : List α × List α) (piece : Piece α) : List α × List α :=
  if piece.items.isEmpty then s
  else if s.1.isEmpty then (piece.visible, s.2)
  else if piece.reachable then (piece.items ++ s.1, piece.items ++ s.1)
  else ([], [])

/-- What is seen of several lists that are joined, the last one in front. A single list is
taken over as it is. -/
def splice : List (Piece α) → List α
  | [piece] => piece.visible
  | pieces => (pieces.foldl spliceStep ([], [])).2

theorem splice_of_length_ne_one {pieces : List (Piece α)} (hone : pieces.length ≠ 1) :
    splice pieces = (pieces.foldl spliceStep ([], [])).2 := by
  unfold splice
  split
  · simp at hone
  · rfl

/-- Joining does not look at the items. -/
theorem spliceStep_map (f : α → β) (s : List α × List α) (piece : Piece α) :
    spliceStep (s.1.map f, s.2.map f) (piece.map f) =
      ((spliceStep s piece).1.map f, (spliceStep s piece).2.map f) := by
  have hitems : (piece.map f).items.isEmpty = piece.items.isEmpty := List.isEmpty_map
  have hjoined : (s.1.map f).isEmpty = s.1.isEmpty := List.isEmpty_map
  unfold spliceStep
  rw [hitems, hjoined, Piece.visible_map]
  split
  · rfl
  · split
    · rfl
    · split
      · next hreach =>
          have hpiece : piece.reachable = true := hreach
          simp [Piece.map, hpiece]
      · next hreach =>
          have hpiece : piece.reachable = false := by simpa [Piece.map] using hreach
          simp [hpiece]

theorem splice_map (f : α → β) (pieces : List (Piece α)) :
    splice (pieces.map (Piece.map f)) = (splice pieces).map f := by
  by_cases hone : pieces.length = 1
  · obtain ⟨piece, rfl⟩ := List.length_eq_one_iff.mp hone
    exact Piece.visible_map f piece
  · have hfold : ∀ s : List α × List α,
        (pieces.map (Piece.map f)).foldl spliceStep (s.1.map f, s.2.map f) =
          ((pieces.foldl spliceStep s).1.map f, (pieces.foldl spliceStep s).2.map f) := by
      clear hone
      induction pieces with
      | nil => exact fun _ => rfl
      | cons piece pieces ih =>
          intro s
          rw [List.map_cons, List.foldl_cons, spliceStep_map, ih, List.foldl_cons]
    rw [splice_of_length_ne_one hone, splice_of_length_ne_one (by rwa [List.length_map])]
    exact congrArg Prod.snd (hfold ([], []))

/-- What is seen is a part of all lists, in their order. -/
theorem sublist_spliceStep {s : List α × List α} {all : List α} (piece : Piece α)
    (hs : s.1 <+ all ∧ s.2 <+ all) : (spliceStep s piece).1 <+ piece.items ++ all ∧
      (spliceStep s piece).2 <+ piece.items ++ all := by
  have hold : ∀ {xs : List α}, xs <+ all → xs <+ piece.items ++ all := fun h =>
    h.trans (List.sublist_append_right _ _)
  have hjoined : piece.items ++ s.1 <+ piece.items ++ all := hs.1.append_left _
  unfold spliceStep
  split
  · exact ⟨hold hs.1, hold hs.2⟩
  · split
    · exact ⟨piece.visible_sublist.trans (List.sublist_append_left _ _), hold hs.2⟩
    · split
      · exact ⟨hjoined, hjoined⟩
      · exact ⟨List.nil_sublist _, List.nil_sublist _⟩

theorem splice_sublist (pieces : List (Piece α)) :
    splice pieces <+ (pieces.map Piece.items).reverse.flatten := by
  by_cases hone : pieces.length = 1
  · obtain ⟨piece, rfl⟩ := List.length_eq_one_iff.mp hone
    simpa [splice] using piece.visible_sublist
  · have hfold : ∀ (s : List α × List α) (all : List α), s.1 <+ all ∧ s.2 <+ all →
        (pieces.foldl spliceStep s).2 <+ (pieces.map Piece.items).reverse.flatten ++ all := by
      clear hone
      induction pieces with
      | nil => exact fun s all hs => hs.2
      | cons piece pieces ih =>
          intro s all hs
          have hrest := ih _ _ (sublist_spliceStep piece hs)
          simpa using hrest
    rw [splice_of_length_ne_one hone]
    simpa using hfold ([], []) [] ⟨List.Sublist.refl _, List.Sublist.refl _⟩

/-- Alike pieces are joined to the same list. -/
theorem splice_congr {xs ys : List (Piece α)} (hpieces : List.Forall₂ Piece.Alike xs ys) :
    splice xs = splice ys := by
  have hvisible : ∀ x y : Piece α, x.Alike y →
      x.visible = y.visible ∧ ∀ s, spliceStep s x = spliceStep s y := by
    rintro ⟨items, first⟩ ⟨items', second⟩ ⟨rfl, hreachable⟩
    cases items with
    | nil => exact ⟨by simp [Piece.visible], fun s => by simp [spliceStep]⟩
    | cons item items =>
        obtain rfl : first = second := hreachable (by simp)
        exact ⟨rfl, fun _ => rfl⟩
  by_cases hone : xs.length = 1
  · obtain ⟨x, rfl⟩ := List.length_eq_one_iff.mp hone
    obtain ⟨y, _, hxy, hrest, rfl⟩ := List.forall₂_cons_left_iff.mp hpieces
    obtain rfl := List.forall₂_nil_left_iff.mp hrest
    exact (hvisible x y hxy).1
  · rw [splice_of_length_ne_one hone,
      splice_of_length_ne_one (hpieces.length_eq ▸ hone)]
    congr 1
    clear hone
    generalize (([], []) : List α × List α) = s
    induction hpieces generalizing s with
    | nil => rfl
    | cons hxy _ ih =>
        rw [List.foldl_cons, List.foldl_cons, (hvisible _ _ hxy).2, ih]

end Flashlight.Math
