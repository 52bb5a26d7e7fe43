/-
# Schedules

A scheduler picks one allowed action after the other. When no schedule goes on for ever, all of
them are bound to end in a state in which no action is allowed and possible, and what holds in all
these states is what the system delivers whatever the scheduler does.

A system of phases, each of which takes as long as it takes, goes down lexicographically: the
number of phases left, then what is left of the phase.
-/

import Flashlight.Math.Interleaving

namespace Flashlight.Math

universe u v w

section Schedules

variable {S : Type u} {A : Type v} (step : A → S → Option S) (allowed : S → A → Prop)

/-- No schedule of allowed actions goes on for ever. -/
def Terminates (s : S) : Prop :=
  Acc (fun s' s => Via step allowed s s') s

/-- The scheduler has nothing left to pick. -/
def Stuck (s : S) : Prop :=
  ∀ a s', allowed s a → step a s ≠ some s'

variable {step allowed} {s s' : S}

/-- Termination in terms of infinite schedules. -/
theorem terminates_iff_not_exists (step : A → S → Option S) (allowed : S → A → Prop) (s : S) :
    Terminates step allowed s ↔
      ¬ ∃ run : ℕ → S, run 0 = s ∧ ∀ n, Via step allowed (run n) (run (n + 1)) := by
  rw [Terminates, ← not_iff_not, not_not]
  exact not_acc_iff_exists_descending_chain

theorem Terminates.of_reaches (h : Terminates step allowed s)
    (hreach : Reaches step allowed s s') : Terminates step allowed s' := by
  induction hreach with
  | refl => exact h
  | tail _ hvia ih => exact Acc.inv ih hvia

theorem Terminates.mono {allowed' : S → A → Prop} (h : Terminates step allowed' s)
    (himp : ∀ s a, allowed s a → allowed' s a) : Terminates step allowed s :=
  Subrelation.accessible (fun ⟨a, ha, hstep⟩ => ⟨a, himp _ a ha, hstep⟩) h

/-- **Lexicographic rule.** Every step lowers the number of phases that are left, or it raises it
not and lowers what is left of the phase. -/
theorem terminates_of_phases (Inv : S → Prop) (phases left : S → ℕ)
    (hlower : ∀ s a s', Inv s → allowed s a → step a s = some s' → Inv s' ∧
      (phases s' < phases s ∨ phases s' ≤ phases s ∧ left s' < left s))
    (hinv : Inv s) : Terminates step allowed s := by
  induction hphases : phases s using Nat.strong_induction_on generalizing s with
  | _ n ihphases =>
      induction hleft : left s using Nat.strong_induction_on generalizing s with
      | _ m ihleft =>
          refine Acc.intro s fun s' ⟨a, ha, hstep⟩ => ?_
          obtain ⟨hinv', hlt⟩ := hlower s a s' hinv ha hstep
          by_cases hphase : phases s' < phases s
          · exact ihphases (phases s') (hphases ▸ hphase) hinv' rfl
          · have hlt' : left s' < left s := (hlt.resolve_left hphase).2
            have heq : phases s' = n := by omega
            exact ihleft (left s') (hleft ▸ hlt') hinv' heq rfl

/-- **Loop rule.** What can be kept up for ever excludes termination. -/
theorem not_terminates_of_loop (Loop : S → Prop)
    (hloop : ∀ s, Loop s → ∃ a s', allowed s a ∧ step a s = some s' ∧ Loop s') (h : Loop s) :
    ¬ Terminates step allowed s := by
  intro hacc
  induction hacc with
  | intro s _ ih =>
      obtain ⟨a, s', ha, hstep, hnext⟩ := hloop s h
      exact ih s' ⟨a, ha, hstep⟩ hnext

/-- Every schedule that is followed as far as it goes ends. -/
theorem Terminates.exists_stuck (h : Terminates step allowed s) :
    ∃ s', Reaches step allowed s s' ∧ Stuck step allowed s' := by
  induction h with
  | intro s _ ih =>
      by_cases hstuck : Stuck step allowed s
      · exact ⟨s, .refl s, hstuck⟩
      · simp only [Stuck, not_forall, not_not] at hstuck
        obtain ⟨a, s', ha, hstep⟩ := hstuck
        obtain ⟨s'', hreach, hend⟩ := ih s' ⟨a, ha, hstep⟩
        exact ⟨s'', (Reaches.single ha hstep).trans hreach, hend⟩

end Schedules

section Components

variable {Local : Type u} {t : ℕ} {locals : List Local} {here : Local}

theorem sum_map_set (left : Local → ℕ) (hhere : locals[t]? = some here) (here' : Local) :
    ((locals.set t here').map left).sum + left here = (locals.map left).sum + left here' := by
  induction locals generalizing t with
  | nil => simp at hhere
  | cons other locals ih =>
      cases t with
      | zero =>
          obtain rfl : other = here := by simpa using hhere
          simp only [List.set_cons_zero, List.map_cons, List.sum_cons]
          omega
      | succ t =>
          have hrest := ih (t := t) (by simpa using hhere)
          simp only [List.set_cons_succ, List.map_cons, List.sum_cons]
          omega

/-- What is left of the components is less when less is left of one of them. -/
theorem sum_map_set_lt (left : Local → ℕ) (hhere : locals[t]? = some here)
    {here' : Local} (hlt : left here' < left here) :
    ((locals.set t here').map left).sum < (locals.map left).sum := by
  have hsum := sum_map_set left hhere here'
  omega

/-- The components go down lexicographically when one of them does. -/
theorem sum_map_set_phases (phases left : Local → ℕ) (hhere : locals[t]? = some here)
    (here' : Local)
    (hlower : phases here' < phases here ∨ phases here' ≤ phases here ∧ left here' < left here) :
    ((locals.set t here').map phases).sum < (locals.map phases).sum ∨
      ((locals.set t here').map phases).sum ≤ (locals.map phases).sum ∧
        ((locals.set t here').map left).sum < (locals.map left).sum := by
  have hphases := sum_map_set phases hhere here'
  have hleft := sum_map_set left hhere here'
  omega

end Components

end Flashlight.Math
