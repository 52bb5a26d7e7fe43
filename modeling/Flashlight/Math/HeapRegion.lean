/-
# Regions of a heap of lists

The cells that were allocated from some point on make up a region of the heap. A region is closed
when none of its links leads out of it, so that walking a list that begins in the region stays in
it. The region is kept by allocation, and by writes of links that lead into it: whatever happens to
the cells before it, the lists of the region do not reach them.
-/

import Flashlight.Math.ListHeap

namespace Flashlight.Math

namespace ListHeap

universe u

variable {α : Type u}

/-- The pointer is null or leads into the region from `base` on. -/
def Within (h : ListHeap α) (base : ℕ) (start : Option Ptr) : Prop :=
  ∀ p, start = some p → base ≤ p ∧ p < h.length

/-- No link leads out of the region from `base` on. -/
def ClosedFrom (h : ListHeap α) (base : ℕ) : Prop :=
  ∀ (p : Ptr) (cell : Cell α), base ≤ p → h[p]? = some cell → h.Within base cell.next

/-- The cells met from `start` until the null pointer, as far as `fuel` goes. -/
def visit (h : ListHeap α) : ℕ → Option Ptr → List Ptr
  | _, none => []
  | 0, some _ => []
  | fuel + 1, some p =>
      match h[p]? with
      | none => []
      | some cell => p :: visit h fuel cell.next

/-- The cells of the list at `start`. -/
def cellsOf (h : ListHeap α) (start : Option Ptr) : List Ptr :=
  visit h h.length start

section

variable {h h' : ListHeap α} {base : ℕ} {start next : Option Ptr} {p : Ptr}

@[simp]
theorem length_alloc (h : ListHeap α) (a : α) : (h.alloc a).1.length = h.length + 1 := by
  simp [alloc]

@[simp]
theorem length_setNext (h : ListHeap α) (p : Ptr) (next : Option Ptr) :
    (h.setNext p next).length = h.length := by
  simp [setNext]

@[simp]
theorem within_none (h : ListHeap α) (base : ℕ) : h.Within base none := by
  simp [Within]

theorem within_some : h.Within base (some p) ↔ base ≤ p ∧ p < h.length := by
  simp [Within]

/-- A pointer into a region stays one when the heap grows. -/
theorem Within.mono (hstart : h.Within base start) (hle : h.length ≤ h'.length) :
    h'.Within base start :=
  fun p heq => ⟨(hstart p heq).1, (hstart p heq).2.trans_le hle⟩

/-- The region that begins at the end of the heap is empty. -/
theorem closedFrom_length (h : ListHeap α) : h.ClosedFrom h.length := by
  intro p cell hle hcell
  exact absurd (List.getElem?_eq_some_iff.mp hcell).1 (Nat.not_lt_of_le hle)

/-- A new cell has no link yet. -/
theorem ClosedFrom.alloc (hclosed : h.ClosedFrom base) (a : α) :
    (h.alloc a).1.ClosedFrom base := by
  intro p cell hle hcell
  rw [ListHeap.alloc, List.getElem?_append] at hcell
  split at hcell
  · exact (hclosed p cell hle hcell).mono (by simp)
  · obtain rfl : cell = ⟨a, none⟩ := by
      have hlt := (List.getElem?_eq_some_iff.mp hcell).1
      have hzero : p - h.length = 0 := by simpa using hlt
      rw [hzero] at hcell
      exact (Option.some.inj hcell).symm
    exact within_none _ _

/-- A link that leads into the region may be written anywhere. -/
theorem ClosedFrom.setNext (hclosed : h.ClosedFrom base) (hnext : h.Within base next) (p : Ptr) :
    (h.setNext p next).ClosedFrom base := by
  intro q cell hle hcell
  have hlength : h.length ≤ (h.setNext p next).length := (length_setNext h p next).ge
  by_cases hpq : p = q
  · subst hpq
    rw [ListHeap.setNext, List.getElem?_modify_eq] at hcell
    obtain ⟨old, -, rfl⟩ := Option.map_eq_some_iff.mp hcell
    exact hnext.mono hlength
  · rw [getElem?_setNext_of_ne next hpq] at hcell
    exact (hclosed q cell hle hcell).mono hlength

/-- **Lists stay in their region.** -/
theorem ClosedFrom.within_visit (hclosed : h.ClosedFrom base) {fuel : ℕ}
    (hstart : h.Within base start) : ∀ p ∈ h.visit fuel start, base ≤ p ∧ p < h.length := by
  induction fuel generalizing start with
  | zero => cases start <;> simp [visit]
  | succ fuel ih =>
      cases start with
      | none => simp [visit]
      | some p =>
          have hp := within_some.mp hstart
          cases hcell : h[p]? with
          | none => simp [visit, hcell]
          | some cell =>
              simp only [visit, hcell, List.mem_cons, forall_eq_or_imp]
              exact ⟨hp, ih (hclosed p cell hp.1 hcell)⟩

theorem ClosedFrom.within_cellsOf (hclosed : h.ClosedFrom base) (hstart : h.Within base start) :
    ∀ p ∈ h.cellsOf start, base ≤ p ∧ p < h.length :=
  hclosed.within_visit hstart

theorem Chain.visit_eq {cells : List (Ptr × α)} (hchain : Chain h start cells none) {fuel : ℕ}
    (hfuel : cells.length ≤ fuel) : h.visit fuel start = cells.map Prod.fst := by
  induction cells generalizing start fuel with
  | nil =>
      obtain rfl : start = none := hchain
      cases fuel <;> rfl
  | cons cell cells ih =>
      obtain ⟨p, a⟩ := cell
      obtain ⟨rfl, next, hcell, hrest⟩ := hchain
      cases fuel with
      | zero => simp at hfuel
      | succ fuel => simp [visit, hcell, ih hrest (Nat.le_of_succ_le_succ hfuel)]

/-- The cells of a list that ends: there is one for each value, and none is met twice. -/
theorem nodup_cellsOf {values : List α} (hvalues : h.toList start = some values) :
    (h.cellsOf start).Nodup ∧ (h.cellsOf start).length = values.length := by
  obtain ⟨cells, hchain, rfl⟩ := Chain.exists_of_toList hvalues
  rw [cellsOf, hchain.visit_eq hchain.length_le]
  exact ⟨hchain.nodup, by simp⟩

end

end ListHeap

end Flashlight.Math
