/-
# Separators in a sequence

A line index of a file is the list of the positions just after each newline.
Nothing in it depends on bytes: the definitions work for any sequence and any
Boolean separator test. `sepEnds` lists the positions just after the separators,
`lineStart k` is the position at which line `k` begins, and `slice` cuts out the
elements between two positions.
-/

import Mathlib.Data.List.Sort
import Mathlib.Tactic

namespace Flashlight.Math

universe u

variable {α : Type u}

/-! ## Slices -/

/-- The elements at the positions `a ≤ i < b`. -/
def slice (xs : List α) (a b : ℕ) : List α :=
  (xs.take b).drop a

@[simp]
theorem length_slice (xs : List α) (a b : ℕ) : (slice xs a b).length = min b xs.length - a := by
  simp [slice]

@[simp]
theorem slice_self (xs : List α) (a : ℕ) : slice xs a a = [] := by
  simp [slice]

theorem slice_zero_length (xs : List α) : slice xs 0 xs.length = xs := by
  simp [slice]

theorem getElem?_slice {xs : List α} {a b i : ℕ} (h : a + i < b) :
    (slice xs a b)[i]? = xs[a + i]? := by
  simp [slice, List.getElem?_drop, List.getElem?_take_of_lt h]

/-- A slice is what a read of `b - a` elements at position `a` returns. -/
theorem slice_eq_take_drop (xs : List α) (a b : ℕ) :
    slice xs a b = (xs.drop a).take (b - a) := by
  simp [slice, List.drop_take]

theorem slice_append_slice (xs : List α) {a b c : ℕ} (hab : a ≤ b) (hbc : b ≤ c) :
    slice xs a b ++ slice xs b c = slice xs a c := by
  have hsplit : (xs.take c).drop a =
      ((xs.take c).drop a).take (b - a) ++ ((xs.take c).drop a).drop (b - a) :=
    (List.take_append_drop _ _).symm
  rw [slice, slice, slice, hsplit, List.drop_drop, Nat.add_sub_cancel' hab]
  congr 1
  rw [← List.drop_take, List.take_take, Nat.min_eq_left hbc]

/-- Consecutive slices put together. -/
theorem flatMap_range_slice (xs : List α) {f : ℕ → ℕ} (hmono : Monotone f) (n : ℕ) :
    (List.range n).flatMap (fun k => slice xs (f k) (f (k + 1))) = slice xs (f 0) (f n) := by
  induction n with
  | zero => simp
  | succ n ih =>
      rw [List.range_succ, List.flatMap_append, ih, List.flatMap_singleton]
      exact slice_append_slice xs (hmono (Nat.zero_le n)) (hmono (Nat.le_succ n))

theorem slice_eq_cons {xs : List α} {a b : ℕ} {x : α} (hx : xs[a]? = some x) (hab : a < b) :
    slice xs a b = x :: slice xs (a + 1) b := by
  rw [← slice_append_slice xs (Nat.le_succ a) hab]
  obtain ⟨hlt, rfl⟩ := List.getElem?_eq_some_iff.mp hx
  have hone : slice xs a (a + 1) = [xs[a]] := by
    rw [slice_eq_take_drop, Nat.add_sub_cancel_left, List.drop_eq_getElem_cons hlt]
    rfl
  rw [hone]
  rfl

/-! ## Positions of the separators -/

/-- The positions just after the separators of a sequence whose first element
stands at position `base`, in increasing order. -/
def sepEnds (sep : α → Bool) : ℕ → List α → List ℕ
  | _, [] => []
  | base, x :: xs =>
      if sep x then (base + 1) :: sepEnds sep (base + 1) xs else sepEnds sep (base + 1) xs

variable {sep : α → Bool}

@[simp]
theorem sepEnds_nil (base : ℕ) : sepEnds sep base [] = [] := rfl

theorem sepEnds_append (base : ℕ) (xs ys : List α) :
    sepEnds sep base (xs ++ ys) = sepEnds sep base xs ++ sepEnds sep (base + xs.length) ys := by
  induction xs generalizing base with
  | nil => simp
  | cons x xs ih =>
      have hbase : base + 1 + xs.length = base + (xs.length + 1) := by omega
      by_cases hx : sep x <;> simp [sepEnds, hx, ih, hbase]

@[simp]
theorem length_sepEnds (base : ℕ) (xs : List α) :
    (sepEnds sep base xs).length = xs.countP sep := by
  induction xs generalizing base with
  | nil => rfl
  | cons x xs ih =>
      by_cases hx : sep x <;> simp [sepEnds, hx, ih]

theorem mem_sepEnds {base e : ℕ} {xs : List α} :
    e ∈ sepEnds sep base xs ↔ ∃ i x, xs[i]? = some x ∧ sep x ∧ e = base + i + 1 := by
  induction xs generalizing base with
  | nil => simp
  | cons x xs ih =>
      constructor
      · intro hmem
        have hcases : (e = base + 1 ∧ sep x) ∨ e ∈ sepEnds sep (base + 1) xs := by
          by_cases hx : sep x
          · rw [sepEnds, if_pos hx, List.mem_cons] at hmem
            exact hmem.imp (fun heq => ⟨heq, hx⟩) id
          · rw [sepEnds, if_neg hx] at hmem
            exact Or.inr hmem
        rcases hcases with ⟨rfl, hx⟩ | hmem
        · exact ⟨0, x, by simp, hx, by omega⟩
        · obtain ⟨i, y, hy, hsep, rfl⟩ := ih.mp hmem
          exact ⟨i + 1, y, by simpa using hy, hsep, by omega⟩
      · rintro ⟨i, y, hy, hsep, rfl⟩
        cases i with
        | zero =>
            obtain rfl : x = y := by simpa using hy
            simp [sepEnds, hsep]
        | succ i =>
            have hmem : base + (i + 1) + 1 ∈ sepEnds sep (base + 1) xs :=
              ih.mpr ⟨i, y, by simpa using hy, hsep, by omega⟩
            by_cases hx : sep x
            · rw [sepEnds, if_pos hx]
              exact List.mem_cons_of_mem _ hmem
            · rwa [sepEnds, if_neg hx]

theorem bounds_of_mem_sepEnds {base e : ℕ} {xs : List α} (h : e ∈ sepEnds sep base xs) :
    base < e ∧ e ≤ base + xs.length := by
  obtain ⟨i, x, hx, -, rfl⟩ := mem_sepEnds.mp h
  have hlt := (List.getElem?_eq_some_iff.mp hx).1
  omega

theorem pairwise_sepEnds (sep : α → Bool) (base : ℕ) (xs : List α) :
    (sepEnds sep base xs).Pairwise (· < ·) := by
  induction xs generalizing base with
  | nil => exact List.Pairwise.nil
  | cons x xs ih =>
      rw [sepEnds]
      split
      · exact List.pairwise_cons.mpr
          ⟨fun e he => (bounds_of_mem_sepEnds he).1, ih (base + 1)⟩
      · exact ih (base + 1)

/-- Consecutive slices have all separators between them. -/
theorem flatMap_range_sepEnds (sep : α → Bool) (xs : List α) {f : ℕ → ℕ} (hmono : Monotone f)
    (hzero : f 0 = 0) (hle : ∀ i, f i ≤ xs.length) (n : ℕ) :
    (List.range n).flatMap (fun i => sepEnds sep (f i) (slice xs (f i) (f (i + 1)))) =
      sepEnds sep 0 (slice xs 0 (f n)) := by
  induction n with
  | zero => simp [hzero]
  | succ n ih =>
      have hlength : 0 + (slice xs 0 (f n)).length = f n := by
        have := hle n
        rw [length_slice]
        omega
      rw [List.range_succ, List.flatMap_append, ih, List.flatMap_singleton,
        ← slice_append_slice xs (Nat.zero_le _) (hmono (Nat.le_succ n)), sepEnds_append, hlength]

/-- The separators of a slice are those of the whole sequence that end in it. -/
theorem mem_sepEnds_slice {xs : List α} {a b e : ℕ} :
    e ∈ sepEnds sep a (slice xs a b) ↔ e ∈ sepEnds sep 0 xs ∧ a < e ∧ e ≤ b := by
  constructor
  · intro hmem
    obtain ⟨i, x, hx, hsep, rfl⟩ := mem_sepEnds.mp hmem
    have hlt := (List.getElem?_eq_some_iff.mp hx).1
    rw [length_slice] at hlt
    rw [getElem?_slice (by omega)] at hx
    exact ⟨mem_sepEnds.mpr ⟨a + i, x, hx, hsep, by omega⟩, by omega, by omega⟩
  · rintro ⟨hmem, hae, heb⟩
    obtain ⟨i, x, hx, hsep, rfl⟩ := mem_sepEnds.mp hmem
    refine mem_sepEnds.mpr ⟨i - a, x, ?_, hsep, by omega⟩
    rw [getElem?_slice (by omega), show a + (i - a) = i by omega, hx]

/-- A list of ascending positions that has the same members as the separators is
the list of the separators. -/
theorem eq_sepEnds {xs : List α} {es : List ℕ} (hsorted : es.Pairwise (· < ·))
    (hmem : ∀ e, e ∈ es ↔ e ∈ sepEnds sep 0 xs) : es = sepEnds sep 0 xs :=
  hsorted.eq_of_mem_iff (pairwise_sepEnds sep 0 xs) (fun {e} => hmem e)

/-! ## Lines -/

/-- The position at which line `k` starts: the beginning for line `0`, the
position after the `k`-th separator, and the end when there are fewer. -/
def lineStart (sep : α → Bool) (xs : List α) (k : ℕ) : ℕ :=
  (0 :: sepEnds sep 0 xs).getD k xs.length

/-- The contents of line `k`, without the separator that ends it. -/
def line (sep : α → Bool) (xs : List α) (k : ℕ) : List α :=
  slice xs (lineStart sep xs k) (lineStart sep xs (k + 1) - 1)

@[simp]
theorem lineStart_zero (xs : List α) : lineStart sep xs 0 = 0 := rfl

theorem lineStart_succ {xs : List α} {k : ℕ} (hk : k < xs.countP sep) :
    (sepEnds sep 0 xs)[k]? = some (lineStart sep xs (k + 1)) := by
  have hlt : k < (sepEnds sep 0 xs).length := by simpa using hk
  rw [lineStart, List.getD_cons_succ, List.getD_eq_getElem?_getD, List.getElem?_eq_getElem hlt]
  rfl

theorem lineStart_eq_length {xs : List α} {k : ℕ} (hk : xs.countP sep < k) :
    lineStart sep xs k = xs.length := by
  obtain ⟨j, rfl⟩ : ∃ j, k = j + 1 := ⟨k - 1, by omega⟩
  have hle : (sepEnds sep 0 xs).length ≤ j := by rw [length_sepEnds]; omega
  rw [lineStart, List.getD_cons_succ, List.getD_eq_getElem?_getD, List.getElem?_eq_none hle]
  rfl

theorem lineStart_le_length (sep : α → Bool) (xs : List α) (k : ℕ) :
    lineStart sep xs k ≤ xs.length := by
  rcases Nat.lt_or_ge (xs.countP sep) k with hk | hk
  · exact (lineStart_eq_length hk).le
  · cases k with
    | zero => simp
    | succ k =>
        have hmem := List.mem_of_getElem? (lineStart_succ hk)
        simpa using (bounds_of_mem_sepEnds hmem).2

theorem lineStart_strictMono {xs : List α} {j k : ℕ} (hjk : j < k) (hk : k ≤ xs.countP sep) :
    lineStart sep xs j < lineStart sep xs k := by
  obtain ⟨k, rfl⟩ : ∃ i, k = i + 1 := ⟨k - 1, by omega⟩
  have hkget := lineStart_succ (show k < xs.countP sep from hk)
  cases j with
  | zero => exact (bounds_of_mem_sepEnds (List.mem_of_getElem? hkget)).1
  | succ j =>
      have hjget := lineStart_succ (show j < xs.countP sep by omega)
      obtain ⟨hjlt, hjeq⟩ := List.getElem?_eq_some_iff.mp hjget
      obtain ⟨hklt, hkeq⟩ := List.getElem?_eq_some_iff.mp hkget
      have hpair := List.pairwise_iff_getElem.mp (pairwise_sepEnds sep 0 xs) j k
        hjlt hklt (by omega)
      rwa [hjeq, hkeq] at hpair

theorem lineStart_mono (sep : α → Bool) (xs : List α) {j k : ℕ} (hjk : j ≤ k) :
    lineStart sep xs j ≤ lineStart sep xs k := by
  rcases Nat.lt_or_ge (xs.countP sep) k with hk | hk
  · rw [lineStart_eq_length hk]
    exact lineStart_le_length sep xs j
  · rcases hjk.eq_or_lt with rfl | hlt
    · exact le_refl _
    · exact (lineStart_strictMono hlt hk).le

/-- Line starts after the first one are exactly the separator ends. -/
theorem mem_sepEnds_iff_lineStart {xs : List α} {e : ℕ} :
    e ∈ sepEnds sep 0 xs ↔ ∃ k < xs.countP sep, e = lineStart sep xs (k + 1) := by
  constructor
  · intro hmem
    obtain ⟨k, hk⟩ := List.getElem?_of_mem hmem
    have hlt : k < xs.countP sep := by
      simpa using (List.getElem?_eq_some_iff.mp hk).1
    exact ⟨k, hlt, Option.some.inj (hk.symm.trans (lineStart_succ hlt))⟩
  · rintro ⟨k, hk, rfl⟩
    exact List.mem_of_getElem? (lineStart_succ hk)

/-- The element before a later line start is a separator. -/
theorem exists_sep_before_lineStart {xs : List α} {k : ℕ} (hk : k < xs.countP sep) :
    ∃ x, xs[lineStart sep xs (k + 1) - 1]? = some x ∧ sep x := by
  have hmem := List.mem_of_getElem? (lineStart_succ hk)
  obtain ⟨i, x, hx, hsep, heq⟩ := mem_sepEnds.mp hmem
  exact ⟨x, by rwa [heq, show 0 + i + 1 - 1 = i by omega], hsep⟩

/-- Between two consecutive line starts the only separator is the last element. -/
theorem not_sep_of_mem_line {xs : List α} {k : ℕ} {x : α} (hx : x ∈ line sep xs k) :
    ¬ sep x := by
  intro hsep
  obtain ⟨i, hi⟩ := List.getElem?_of_mem hx
  have hlt := (List.getElem?_eq_some_iff.mp hi).1
  rw [line, length_slice] at hlt
  rw [line, getElem?_slice (by omega)] at hi
  have hmem : lineStart sep xs k + i + 1 ∈ sepEnds sep 0 xs :=
    mem_sepEnds.mpr ⟨_, x, hi, hsep, by omega⟩
  obtain ⟨j, hj, heq⟩ := mem_sepEnds_iff_lineStart.mp hmem
  -- a separator inside the line would start a line strictly between two neighbours
  have hkj : k < j + 1 := by
    by_contra hle
    have := lineStart_mono sep xs (show j + 1 ≤ k by omega)
    omega
  have hjk : j + 1 < k + 1 := by
    by_contra hle
    have := lineStart_mono sep xs (show k + 1 ≤ j + 1 by omega)
    omega
  omega

/-- A run of lines is its first line, the separator, and the remaining lines. -/
theorem slice_lines_eq_cons {xs : List α} {j k : ℕ} (hjk : j < k) (hk : k ≤ xs.countP sep) :
    ∃ x, sep x ∧ slice xs (lineStart sep xs j) (lineStart sep xs k) =
      line sep xs j ++ x :: slice xs (lineStart sep xs (j + 1)) (lineStart sep xs k) := by
  obtain ⟨x, hx, hsep⟩ := exists_sep_before_lineStart (show j < xs.countP sep by omega)
  have hlt := lineStart_strictMono (show j < j + 1 by omega) (show j + 1 ≤ xs.countP sep by omega)
  have hle := lineStart_mono sep xs (show j + 1 ≤ k by omega)
  refine ⟨x, hsep, ?_⟩
  rw [line,
    ← slice_append_slice xs (show lineStart sep xs j ≤ lineStart sep xs (j + 1) - 1 by omega)
    (show lineStart sep xs (j + 1) - 1 ≤ lineStart sep xs k by omega)]
  rw [slice_eq_cons hx (by omega), show lineStart sep xs (j + 1) - 1 + 1 = lineStart sep xs (j + 1)
    by omega]

/-- Splitting a run of lines at the separators gives the lines, and nothing behind the last
separator. -/
theorem splitOnP_slice_lines {xs : List α} {j k : ℕ} (hjk : j ≤ k) (hk : k ≤ xs.countP sep) :
    (slice xs (lineStart sep xs j) (lineStart sep xs k)).splitOnP sep =
      (List.range' j (k - j)).map (line sep xs) ++ [[]] := by
  induction hcount : k - j generalizing j with
  | zero =>
      obtain rfl : j = k := by omega
      rw [slice_self]
      rfl
  | succ count ih =>
      obtain ⟨x, hx, hslice⟩ := slice_lines_eq_cons (show j < k by omega) hk
      have hline : ∀ y ∈ line sep xs j, sep y = false := fun y hy => by
        simpa using not_sep_of_mem_line hy
      rw [hslice, List.splitOnP_append_cons_of_forall_mem hline x hx, ih (by omega) (by omega),
        List.range'_succ, List.map_cons, List.cons_append]

/-- A piece leaves the separators out. -/
theorem length_add_countP_le_of_mem_splitOnP {xs piece : List α}
    (hpiece : piece ∈ xs.splitOnP sep) : piece.length + xs.countP sep ≤ xs.length := by
  induction xs generalizing piece with
  | nil =>
      obtain rfl : piece = [] := by simpa using hpiece
      exact le_rfl
  | cons x xs ih =>
      rw [List.splitOnP_cons_eq_if_modifyHead] at hpiece
      rw [List.countP_cons, List.length_cons]
      have hcount : xs.countP sep ≤ xs.length := List.countP_le_length
      split at hpiece
      · next hsep =>
          rw [if_pos hsep]
          rcases List.mem_cons.mp hpiece with rfl | hpiece
          · rw [List.length_nil]
            omega
          · have hle := ih hpiece
            omega
      · next hsep =>
          rw [if_neg hsep]
          obtain ⟨first, rest, hsplit⟩ := List.exists_cons_of_ne_nil (List.splitOnP_ne_nil sep xs)
          rw [hsplit, List.modifyHead_cons] at hpiece
          rcases List.mem_cons.mp hpiece with rfl | hpiece
          · have hle := ih (hsplit ▸ List.mem_cons_self)
            rw [List.length_cons]
            omega
          · have hle := ih (hsplit ▸ List.mem_cons_of_mem _ hpiece)
            omega

/-- The positions of the separators in reverse, down to the start: the table of
line starts read from its end. -/
theorem getElem?_reverse_lineStarts {xs : List α} {k : ℕ} (hk : k ≤ xs.countP sep) :
    ((sepEnds sep 0 xs).reverse ++ [0])[xs.countP sep - k]? = some (lineStart sep xs k) := by
  have hrev : (sepEnds sep 0 xs).reverse ++ [0] = (0 :: sepEnds sep 0 xs).reverse := by simp
  have hlen : (0 :: sepEnds sep 0 xs).length = xs.countP sep + 1 := by simp
  rw [hrev, List.getElem?_reverse (by omega), hlen,
    show xs.countP sep + 1 - 1 - (xs.countP sep - k) = k by omega, lineStart]
  rw [List.getD_eq_getElem?_getD]
  have hlt : k < (0 :: sepEnds sep 0 xs).length := by omega
  simp [List.getElem?_eq_getElem hlt]

/-- The line starts reach the end exactly when the last element is a separator. -/
theorem lineStart_countP_eq_length_iff {xs : List α} :
    lineStart sep xs (xs.countP sep) = xs.length ↔
      xs = [] ∨ ∃ x, xs.getLast? = some x ∧ sep x := by
  constructor
  · intro hend
    rcases Nat.eq_zero_or_pos (xs.countP sep) with hzero | hpos
    · rw [hzero, lineStart_zero] at hend
      exact Or.inl (List.length_eq_zero_iff.mp hend.symm)
    · obtain ⟨k, hk⟩ : ∃ k, xs.countP sep = k + 1 := ⟨xs.countP sep - 1, by omega⟩
      obtain ⟨x, hx, hsep⟩ := exists_sep_before_lineStart (show k < xs.countP sep by omega)
      rw [← hk, hend, ← List.getLast?_eq_getElem?] at hx
      exact Or.inr ⟨x, hx, hsep⟩
  · rintro (rfl | ⟨x, hx, hsep⟩)
    · rfl
    · rw [List.getLast?_eq_getElem?] at hx
      have hlt := (List.getElem?_eq_some_iff.mp hx).1
      have hmem : xs.length ∈ sepEnds sep 0 xs :=
        mem_sepEnds.mpr ⟨xs.length - 1, x, hx, hsep, by omega⟩
      obtain ⟨k, hk, heq⟩ := mem_sepEnds_iff_lineStart.mp hmem
      have hle := lineStart_mono sep xs (show k + 1 ≤ xs.countP sep from hk)
      have hle' := lineStart_le_length sep xs (xs.countP sep)
      omega

/-- Consecutive runs of lines put together. -/
theorem flatMap_range_slice_lineStart (xs : List α) (n : ℕ) :
    (List.range n).flatMap (fun k => slice xs (lineStart sep xs k) (lineStart sep xs (k + 1))) =
      slice xs 0 (lineStart sep xs n) :=
  flatMap_range_slice xs (fun _ _ hle => lineStart_mono sep xs hle) n

/-! ## Ranges that do not overlap -/

/-- Where no two members of a list meet a condition, those that meet it are the same. -/
theorem eq_of_pairwise_apart {β : Type*} {xs : List β} {P : β → Prop} {x y : β}
    (hapart : xs.Pairwise fun x y => ¬ (P x ∧ P y)) (hx : x ∈ xs) (hy : y ∈ xs) (hPx : P x)
    (hPy : P y) : x = y := by
  by_contra hne
  have hsymm : Std.Symm fun x y => ¬ (P x ∧ P y) := ⟨fun _ _ hno hboth => hno hboth.symm⟩
  exact hapart.forall hx hy hne ⟨hPx, hPy⟩

/-- Where no two members of a list meet a condition, one that meets it has the only such
position. -/
theorem existsUnique_getElem?_iff {β : Type*} {xs : List β} {P : β → Prop}
    (hapart : xs.Pairwise fun x y => ¬ (P x ∧ P y)) :
    (∃! i : ℕ, ∃ x, xs[i]? = some x ∧ P x) ↔ ∃ x ∈ xs, P x := by
  constructor
  · rintro ⟨i, ⟨x, hx, hP⟩, -⟩
    exact ⟨x, List.mem_of_getElem? hx, hP⟩
  · rintro ⟨x, hmem, hP⟩
    obtain ⟨i, hi, rfl⟩ := List.mem_iff_getElem.mp hmem
    refine ⟨i, ⟨xs[i], List.getElem?_eq_getElem hi, hP⟩, ?_⟩
    rintro j ⟨y, hy, hPy⟩
    obtain ⟨hj, rfl⟩ := List.getElem?_eq_some_iff.mp hy
    rw [List.pairwise_iff_getElem] at hapart
    rcases Nat.lt_trichotomy i j with hlt | heq | hgt
    · exact absurd ⟨hP, hPy⟩ (hapart i j hi hj hlt)
    · exact heq.symm
    · exact absurd ⟨hPy, hP⟩ (hapart j i hj hi hgt)

end Flashlight.Math
