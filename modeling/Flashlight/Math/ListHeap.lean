/-
# Singly linked lists on a heap

A heap is the list of the cells allocated so far and a pointer is a position in
it, so allocation never disturbs an address handed out before. `Chain` relates a
start pointer to the cells met by following `next`; its last argument is the
pointer at which the walk stops, so a chain may be cut anywhere and a finite
null-terminated list is a chain that stops at `none`.

The rules below are the ones a list program needs: how chains concatenate, which
writes leave a chain alone, and how one write to the last cell splices two
chains.
-/

import Mathlib.Data.List.Basic
import Mathlib.Data.List.Nodup
import Mathlib.Data.List.Perm.Subperm
import Mathlib.Tactic

namespace Flashlight.Math

universe u

/-- An address on the heap. -/
abbrev Ptr := ℕ

/-- One list cell: a value and the link to the following cell. -/
structure Cell (α : Type u) where
  /-- The value stored in the cell. -/
  value : α
  /-- The following cell, or `none` for the null pointer. -/
  next : Option Ptr
  deriving DecidableEq, Repr

/-- The cells allocated so far; the address of a cell is its position. -/
abbrev ListHeap (α : Type u) := List (Cell α)

namespace ListHeap

variable {α : Type u}

/-- A fresh cell with a null link. -/
def alloc (h : ListHeap α) (a : α) : ListHeap α × Ptr :=
  (h ++ [⟨a, none⟩], h.length)

/-- Overwrite the link of one cell. -/
def setNext (h : ListHeap α) (p : Ptr) (next : Option Ptr) : ListHeap α :=
  h.modify p fun cell => { cell with next := next }

/-- Overwrite the value of one cell. -/
def setValue (h : ListHeap α) (p : Ptr) (a : α) : ListHeap α :=
  h.modify p fun cell => { cell with value := a }

/-- Following `next` from `start` meets exactly `cells` and then holds `stop`. -/
def Chain (h : ListHeap α) : Option Ptr → List (Ptr × α) → Option Ptr → Prop
  | start, [], stop => start = stop
  | start, (p, a) :: cells, stop =>
      start = some p ∧ ∃ next, h[p]? = some ⟨a, next⟩ ∧ Chain h next cells stop

/-- The values met from `start` until the null pointer, if it is met within
`fuel` cells. -/
def walk (h : ListHeap α) : ℕ → Option Ptr → Option (List α)
  | _, none => some []
  | 0, some _ => none
  | fuel + 1, some p =>
      match h[p]? with
      | none => none
      | some cell => (walk h fuel cell.next).map (cell.value :: ·)

/-- The values of the null-terminated list at `start`. A walk that outlasts the
number of cells is on a cycle and never ends. -/
def toList (h : ListHeap α) (start : Option Ptr) : Option (List α) :=
  walk h h.length start

/-- The heaps `h` and `h'` hold the same cells wherever `own` holds of the value:
nothing else is known about the cells of others. -/
def AgreeOn (own : α → Prop) (h h' : ListHeap α) : Prop :=
  ∀ (p : Ptr) (cell : Cell α), h[p]? = some cell → own cell.value → h'[p]? = some cell

/-! ## Reading after a write -/

theorem getElem?_alloc {h : ListHeap α} {a : α} {p : Ptr} {cell : Cell α}
    (hcell : h[p]? = some cell) : (h.alloc a).1[p]? = some cell := by
  have hlt : p < h.length := (List.getElem?_eq_some_iff.mp hcell).1
  simpa [alloc, List.getElem?_append_left hlt] using hcell

@[simp]
theorem getElem?_alloc_self (h : ListHeap α) (a : α) :
    (h.alloc a).1[(h.alloc a).2]? = some ⟨a, none⟩ := by
  simp [alloc]

theorem getElem?_setNext_of_ne {h : ListHeap α} {p q : Ptr} (next : Option Ptr)
    (hne : p ≠ q) : (h.setNext p next)[q]? = h[q]? := by
  simp [setNext, hne]

theorem getElem?_setNext_self {h : ListHeap α} {p : Ptr} {a : α} {old : Option Ptr}
    (next : Option Ptr) (hcell : h[p]? = some ⟨a, old⟩) :
    (h.setNext p next)[p]? = some ⟨a, next⟩ := by
  simp [setNext, hcell]

theorem getElem?_setValue_self {h : ListHeap α} {p : Ptr} {old : α} {next : Option Ptr} (a : α)
    (hcell : h[p]? = some ⟨old, next⟩) : (h.setValue p a)[p]? = some ⟨a, next⟩ := by
  simp [setValue, hcell]

/-! ## Chains -/

namespace Chain

variable {h h' : ListHeap α} {start stop : Option Ptr} {cells : List (Ptr × α)}

@[simp]
theorem nil_iff : Chain h start [] stop ↔ start = stop := Iff.rfl

theorem cons_iff {p : Ptr} {a : α} :
    Chain h start ((p, a) :: cells) stop ↔
      start = some p ∧ ∃ next, h[p]? = some ⟨a, next⟩ ∧ Chain h next cells stop := Iff.rfl

/-- A null-terminated chain is empty if it starts with the null pointer, and only then. -/
theorem eq_nil_iff (hchain : Chain h start cells none) : cells = [] ↔ start = none := by
  cases cells with
  | nil => exact iff_of_true rfl hchain
  | cons cell cells =>
      obtain ⟨p, a⟩ := cell
      obtain ⟨rfl, -⟩ := hchain
      simp

/-- Chains concatenate at the pointer where the first one stops. -/
theorem append_iff {xs ys : List (Ptr × α)} :
    Chain h start (xs ++ ys) stop ↔
      ∃ middle, Chain h start xs middle ∧ Chain h middle ys stop := by
  induction xs generalizing start with
  | nil => simp
  | cons cell xs ih =>
      obtain ⟨p, a⟩ := cell
      simp only [List.cons_append, cons_iff, ih]
      constructor
      · rintro ⟨hstart, next, hcell, middle, hxs, hys⟩
        exact ⟨middle, ⟨hstart, next, hcell, hxs⟩, hys⟩
      · rintro ⟨middle, ⟨hstart, next, hcell, hxs⟩, hys⟩
        exact ⟨hstart, next, hcell, middle, hxs, hys⟩

/-- Every cell of a chain is on the heap with its value. -/
theorem getElem?_of_mem (hchain : Chain h start cells stop) {p : Ptr} {a : α}
    (hmem : (p, a) ∈ cells) : ∃ next, h[p]? = some ⟨a, next⟩ := by
  induction cells generalizing start with
  | nil => simp at hmem
  | cons cell cells ih =>
      obtain ⟨q, b⟩ := cell
      obtain ⟨-, next, hcell, hrest⟩ := hchain
      rcases List.mem_cons.mp hmem with heq | hmem
      · obtain ⟨rfl, rfl⟩ := Prod.mk.inj heq
        exact ⟨next, hcell⟩
      · exact ih hrest hmem

/-- A chain survives every change of the heap outside its own cells. -/
theorem congr (hchain : Chain h start cells stop)
    (hsame : ∀ p ∈ cells.map Prod.fst, h'[p]? = h[p]?) : Chain h' start cells stop := by
  induction cells generalizing start with
  | nil => exact hchain
  | cons cell cells ih =>
      obtain ⟨p, a⟩ := cell
      obtain ⟨hstart, next, hcell, hrest⟩ := hchain
      refine ⟨hstart, next, ?_, ih hrest fun q hq => hsame q (List.mem_cons_of_mem _ hq)⟩
      rw [hsame p (by simp), hcell]

theorem alloc (hchain : Chain h start cells stop) (a : α) :
    Chain (h.alloc a).1 start cells stop := by
  refine hchain.congr fun p hp => ?_
  obtain ⟨⟨_, b⟩, hmem, rfl⟩ := List.mem_map.mp hp
  obtain ⟨next, hcell⟩ := hchain.getElem?_of_mem hmem
  rw [getElem?_alloc hcell, hcell]

theorem setNext (hchain : Chain h start cells stop) {p : Ptr} (next : Option Ptr)
    (hout : p ∉ cells.map Prod.fst) : Chain (h.setNext p next) start cells stop :=
  hchain.congr fun _ hq => getElem?_setNext_of_ne next fun heq => hout (heq ▸ hq)

/-- A chain whose cells all belong to `own` survives every change that spares the
cells of `own`. -/
theorem agreeOn {own : α → Prop} (hchain : Chain h start cells stop)
    (hagree : AgreeOn own h h') (hown : ∀ cell ∈ cells, own cell.2) :
    Chain h' start cells stop := by
  refine hchain.congr fun p hp => ?_
  obtain ⟨⟨_, b⟩, hmem, rfl⟩ := List.mem_map.mp hp
  obtain ⟨next, hcell⟩ := hchain.getElem?_of_mem hmem
  rw [hcell]
  exact hagree _ _ hcell (hown _ hmem)

/-- The links determine the cells of a null-terminated chain. -/
theorem cells_unique {xs ys : List (Ptr × α)} (hxs : Chain h start xs none)
    (hys : Chain h start ys none) : xs = ys := by
  induction xs generalizing start ys with
  | nil =>
      cases ys with
      | nil => rfl
      | cons cell ys =>
          obtain ⟨p, a⟩ := cell
          simp [cons_iff, nil_iff.mp hxs] at hys
  | cons cell xs ih =>
      obtain ⟨p, a⟩ := cell
      obtain ⟨rfl, next, hcell, hrest⟩ := hxs
      cases ys with
      | nil => simp at hys
      | cons cell' ys =>
          obtain ⟨q, b⟩ := cell'
          obtain ⟨hstart, next', hcell', hrest'⟩ := hys
          obtain rfl : p = q := by simpa using hstart
          have hsame : (⟨a, next⟩ : Cell α) = ⟨b, next'⟩ :=
            Option.some.inj (hcell.symm.trans hcell')
          obtain ⟨rfl, rfl⟩ := Cell.mk.inj hsame
          rw [ih hrest hrest']

/-- A null-terminated chain meets no cell twice: a second visit would have to
continue like the first one, forever. -/
theorem nodup (hchain : Chain h start cells none) : (cells.map Prod.fst).Nodup := by
  induction cells generalizing start with
  | nil => simp
  | cons cell cells ih =>
      obtain ⟨p, a⟩ := cell
      have hself := hchain
      obtain ⟨rfl, next, hcell, hrest⟩ := hchain
      refine List.nodup_cons.mpr ⟨fun hagain => ?_, ih hrest⟩
      obtain ⟨⟨q, b⟩, hmem, heq⟩ := List.mem_map.mp hagain
      obtain rfl : q = p := heq
      obtain ⟨xs, ys, rfl⟩ := List.append_of_mem hmem
      obtain ⟨middle, -, htail⟩ := append_iff.mp hrest
      obtain rfl : middle = some q := htail.1
      have hlen := congrArg List.length (cells_unique hself htail)
      simp at hlen
      omega

/-- A cell that is linked to itself heads no null-terminated chain: the rest of the chain would
be the whole chain again. -/
theorem not_of_self_link {p : Ptr} {a : α} (hself : h[p]? = some ⟨a, some p⟩) :
    ¬ Chain h (some p) cells none := by
  intro hchain
  cases cells with
  | nil => cases nil_iff.mp hchain
  | cons cell cells =>
      have hagain := hchain
      obtain ⟨q, b⟩ := cell
      obtain ⟨hstart, next, hcell, hrest⟩ := hchain
      obtain rfl : p = q := Option.some.inj hstart
      obtain ⟨-, rfl⟩ := Cell.mk.inj (Option.some.inj (hself.symm.trans hcell))
      exact List.cons_ne_self _ _ (cells_unique hagain hrest)

/-- A null-terminated chain has at most as many cells as the heap. -/
theorem length_le (hchain : Chain h start cells none) : cells.length ≤ h.length := by
  have hsub : cells.map Prod.fst ⊆ List.range h.length := by
    intro p hp
    obtain ⟨⟨q, b⟩, hmem, rfl⟩ := List.mem_map.mp hp
    obtain ⟨next, hcell⟩ := hchain.getElem?_of_mem hmem
    exact List.mem_range.mpr (List.getElem?_eq_some_iff.mp hcell).1
  simpa using (hchain.nodup.subperm hsub).length_le

theorem walk_eq (hchain : Chain h start cells none) {fuel : ℕ} (hfuel : cells.length ≤ fuel) :
    h.walk fuel start = some (cells.map Prod.snd) := by
  induction cells generalizing start fuel with
  | nil =>
      obtain rfl : start = none := hchain
      cases fuel <;> rfl
  | cons cell cells ih =>
      obtain ⟨p, a⟩ := cell
      obtain ⟨rfl, next, hcell, hrest⟩ := hchain
      cases fuel with
      | zero => simp at hfuel
      | succ fuel =>
          have hwalk := ih hrest (Nat.le_of_succ_le_succ hfuel)
          simp [walk, hcell, hwalk]

/-- Walking a null-terminated chain collects its values. -/
theorem toList_eq (hchain : Chain h start cells none) :
    h.toList start = some (cells.map Prod.snd) :=
  hchain.walk_eq hchain.length_le

/-- A walk that ends has met a chain. -/
theorem exists_of_walk {fuel : ℕ} {values : List α} (hwalk : h.walk fuel start = some values) :
    ∃ cells, Chain h start cells none ∧ cells.map Prod.snd = values := by
  induction fuel generalizing start values with
  | zero =>
      cases start with
      | none => exact ⟨[], rfl, by simpa [walk] using hwalk⟩
      | some p => simp [walk] at hwalk
  | succ fuel ih =>
      cases start with
      | none => exact ⟨[], rfl, by simpa [walk] using hwalk⟩
      | some p =>
          cases hcell : h[p]? with
          | none => simp [walk, hcell] at hwalk
          | some cell =>
              simp only [walk, hcell, Option.map_eq_some_iff] at hwalk
              obtain ⟨rest, hrest, rfl⟩ := hwalk
              obtain ⟨cells, hchain, rfl⟩ := ih hrest
              exact ⟨(p, cell.value) :: cells, ⟨rfl, cell.next, hcell, hchain⟩, rfl⟩

/-- A list is null-terminated if walking it ends. -/
theorem exists_of_toList {values : List α} (hvalues : h.toList start = some values) :
    ∃ cells, Chain h start cells none ∧ cells.map Prod.snd = values :=
  exists_of_walk hvalues

/-- A fresh cell linked to the head of a chain is a longer chain. -/
theorem prepend (hchain : Chain h start cells stop) (a : α) :
    Chain (((h.alloc a).1).setNext (h.alloc a).2 start) (some (h.alloc a).2)
      (((h.alloc a).2, a) :: cells) stop := by
  refine ⟨rfl, start, getElem?_setNext_self start (getElem?_alloc_self h a), ?_⟩
  refine (hchain.alloc a).setNext start fun hmem => ?_
  obtain ⟨⟨q, b⟩, hmem, heq⟩ := List.mem_map.mp hmem
  obtain ⟨next, hcell⟩ := hchain.getElem?_of_mem hmem
  have hlt : q < h.length := (List.getElem?_eq_some_iff.mp hcell).1
  exact absurd heq (Nat.ne_of_lt hlt)

/-- One write to the last cell splices a second list behind the first one. -/
theorem splice {xs ys : List (Ptr × α)} {p : Ptr} {a : α} {second : Option Ptr}
    (hxs : Chain h start (xs ++ [(p, a)]) none) (hys : Chain h second ys none)
    (hout : p ∉ ys.map Prod.fst) :
    Chain (h.setNext p second) start (xs ++ [(p, a)] ++ ys) none := by
  have hnodup := hxs.nodup
  rw [List.map_append, List.nodup_append] at hnodup
  have hpxs : p ∉ xs.map Prod.fst := fun hmem => hnodup.2.2 p hmem p (by simp) rfl
  obtain ⟨middle, hfront, hlast⟩ := append_iff.mp hxs
  obtain ⟨rfl, next, hcell, -⟩ := hlast
  rw [List.append_assoc, append_iff]
  refine ⟨some p, hfront.setNext second hpxs, rfl, second, ?_, hys.setNext second hout⟩
  exact getElem?_setNext_self second hcell

end Chain

/-! ## Ownership -/

theorem AgreeOn.refl (own : α → Prop) (h : ListHeap α) : AgreeOn own h h :=
  fun _ _ hcell _ => hcell

theorem AgreeOn.trans {own : α → Prop} {h h' h'' : ListHeap α} (hfirst : AgreeOn own h h')
    (hsecond : AgreeOn own h' h'') : AgreeOn own h h'' :=
  fun p cell hcell hown => hsecond p cell (hfirst p cell hcell hown) hown

theorem agreeOn_alloc (own : α → Prop) (h : ListHeap α) (a : α) :
    AgreeOn own h (h.alloc a).1 :=
  fun _ _ hcell _ => getElem?_alloc hcell

end ListHeap

end Flashlight.Math
