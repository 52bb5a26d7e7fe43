/-
# Adding up counters that grow

A reader adds up a list of counters one after the other while somebody else increases
them, so the sum it ends with was never there at any one time. It lies between two values
that were: what was read is at most what stands in the counters now, and what was read
together with what is still to be read never decreases.

`whole` is the value of a counter that is complete; the reader knows that the first `done`
counters were complete when it began.
-/

import Mathlib.Algebra.Order.BigOperators.Group.List
import Mathlib.Data.List.Forall2
import Mathlib.Tactic

namespace Flashlight.Math

universe u

variable {M : Type u} [AddCommMonoid M]

/-- What a reader that has found `seen` in the first `p` counters ends with if they stay as
they are. -/
def outlook (counters : List M) (p : ℕ) (seen : M) : M :=
  seen + (counters.drop p).sum

/-- The outlook does not change when a counter is read. -/
theorem outlook_read {counters : List M} {p : ℕ} {seen x : M} (hx : counters[p]? = some x) :
    outlook counters (p + 1) (seen + x) = outlook counters p seen := by
  obtain ⟨hp, rfl⟩ := List.getElem?_eq_some_iff.mp hx
  rw [outlook, outlook, List.drop_eq_getElem_cons hp, List.sum_cons, add_assoc]

/-- At the end the outlook is what was read. -/
theorem outlook_of_le {counters : List M} {p : ℕ} {seen : M} (hp : counters.length ≤ p) :
    outlook counters p seen = seen := by
  rw [outlook, List.drop_eq_nil_of_le hp, List.sum_nil, add_zero]

variable [LinearOrder M]

/-- The reader has read the first `p` counters and found `seen` in them. -/
structure Collecting (counters : List M) (whole : M) (done p : ℕ) (seen : M) : Prop where
  le_length : p ≤ counters.length
  done_le : done ≤ counters.length
  front : ∀ x ∈ counters.take done, whole ≤ x
  seen_le : seen ≤ (counters.take p).sum
  le_seen : min p done • whole ≤ seen

variable {counters counters' : List M} {whole seen x : M} {done p : ℕ}

theorem collecting_zero (hdone : done ≤ counters.length)
    (hfront : ∀ x ∈ counters.take done, whole ≤ x) : Collecting counters whole done 0 0 :=
  ⟨Nat.zero_le _, hdone, hfront, by simp, by simp⟩

/-- When all counters were read the complete ones are in the sum, and the sum is at most
what stands in the counters. -/
theorem Collecting.bounds (h : Collecting counters whole done p seen) (hp : counters.length ≤ p) :
    done • whole ≤ seen ∧ seen ≤ counters.sum := by
  have hle := h.le_seen
  have hge := h.seen_le
  rw [Nat.min_eq_right (h.done_le.trans hp)] at hle
  rw [List.take_of_length_le hp] at hge
  exact ⟨hle, hge⟩

variable [IsOrderedAddMonoid M]

/-- The outlook only grows. -/
theorem outlook_mono (hgrow : List.Forall₂ (· ≤ ·) counters counters') (p : ℕ) (seen : M) :
    outlook counters p seen ≤ outlook counters' p seen :=
  add_le_add_right (List.Forall₂.sum_le_sum (List.forall₂_drop p hgrow)) seen

namespace Collecting

/-- One more counter is read. -/
theorem read (h : Collecting counters whole done p seen) (hx : counters[p]? = some x)
    (hnonneg : 0 ≤ x) : Collecting counters whole done (p + 1) (seen + x) := by
  obtain ⟨hp, rfl⟩ := List.getElem?_eq_some_iff.mp hx
  refine ⟨hp, h.done_le, h.front, ?_, ?_⟩
  · rw [List.sum_take_succ _ _ hp]
    exact add_le_add_left h.seen_le _
  · by_cases hdone : p < done
    · have hwhole : whole ≤ counters[p] := by
        refine h.front _ (List.mem_iff_getElem?.mpr ⟨p, ?_⟩)
        rw [List.getElem?_take_of_lt hdone, hx]
      have hseen := h.le_seen
      rw [Nat.min_eq_left hdone.le] at hseen
      rw [Nat.min_eq_left (by omega), succ_nsmul]
      exact add_le_add hseen hwhole
    · have hseen := h.le_seen
      rw [Nat.min_eq_right (by omega)] at hseen ⊢
      exact le_add_of_le_of_nonneg hseen hnonneg

/-- What was read stays below the counters while they grow. -/
theorem grow (h : Collecting counters whole done p seen)
    (hgrow : List.Forall₂ (· ≤ ·) counters counters') : Collecting counters' whole done p seen := by
  refine ⟨hgrow.length_eq ▸ h.le_length, hgrow.length_eq ▸ h.done_le, fun y hy => ?_, ?_,
    h.le_seen⟩
  · obtain ⟨j, hj, rfl⟩ := List.getElem_of_mem hy
    have htake := List.forall₂_take done hgrow
    have hle := (List.forall₂_iff_get.mp htake).2 j (htake.length_eq ▸ hj) hj
    exact le_trans (h.front _ (List.get_mem _ _)) hle
  · exact h.seen_le.trans (List.Forall₂.sum_le_sum (List.forall₂_take p hgrow))

/-- Starting over does not lower the outlook. -/
theorem outlook_le (h : Collecting counters whole done p seen) :
    outlook counters p seen ≤ outlook counters 0 0 := by
  rw [outlook, outlook, List.drop_zero, zero_add, ← List.sum_take_add_sum_drop counters p]
  exact add_le_add_left h.seen_le _

end Collecting

end Flashlight.Math
