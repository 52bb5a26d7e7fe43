/-
# Runs of transition systems and of interleaved components

A system is a partial step function that takes an action: the action resolves
whatever the state leaves open, such as which component moves next or whether a
call fails. A component works on a state of its own and on a shared one;
`stepAt` lets one component of a list move.

The rules are the usual ones: a property kept by every step holds after every
run, a measure that falls with every step excludes infinite runs and, when every
unfinished state can step, leads to a finished one. For interleavings the rule
asks that a step of one component keeps what is known about the others.
-/

import Mathlib.Logic.Relation
import Mathlib.Data.List.Basic
import Mathlib.Tactic

namespace Flashlight.Math

universe u v w

/-! ## Runs -/

section Runs

variable {S : Type u} {A : Type v} (step : A → S → Option S) (allowed : S → A → Prop)

/-- One step with an action that is allowed in the state. -/
def Via (s s' : S) : Prop :=
  ∃ a, allowed s a ∧ step a s = some s'

/-- Finitely many steps with allowed actions. -/
def Reaches : S → S → Prop :=
  Relation.ReflTransGen (Via step allowed)

/-- A run together with the states it passes through and the actions taken
there. -/
inductive Run : S → List (S × A) → S → Prop
  | nil (s : S) : Run s [] s
  | cons {s s' s'' : S} {a : A} {trace : List (S × A)}
      (hstep : step a s = some s') (hrest : Run s' trace s'') : Run s ((s, a) :: trace) s''

/-- The states and actions of the run that takes the given actions. -/
def runTrace : List A → S → Option (List (S × A) × S)
  | [], s => some ([], s)
  | a :: actions, s =>
      match step a s with
      | none => none
      | some s' => (runTrace actions s').map fun rest => ((s, a) :: rest.1, rest.2)

variable {step allowed}

theorem Reaches.refl (s : S) : Reaches step allowed s s :=
  Relation.ReflTransGen.refl

theorem Reaches.trans {s s' s'' : S} (hfirst : Reaches step allowed s s')
    (hsecond : Reaches step allowed s' s'') : Reaches step allowed s s'' :=
  Relation.ReflTransGen.trans hfirst hsecond

theorem Reaches.single {s s' : S} {a : A} (ha : allowed s a) (hstep : step a s = some s') :
    Reaches step allowed s s' :=
  Relation.ReflTransGen.single ⟨a, ha, hstep⟩

/-- **Invariant rule.** What holds at the start and is kept by every step holds
in every state a run passes through. -/
theorem Reaches.invariant {Inv : S → Prop} {s s' : S} (hreach : Reaches step allowed s s')
    (hinit : Inv s) (hkeep : ∀ s a s', Inv s → allowed s a → step a s = some s' → Inv s') :
    Inv s' := by
  induction hreach with
  | refl => exact hinit
  | tail _ hvia ih =>
      obtain ⟨a, ha, hstep⟩ := hvia
      exact hkeep _ a _ ih ha hstep

/-- **Termination rule.** If every step lowers the measure there is no infinite
run. -/
theorem acc_of_measure {Inv : S → Prop} (measure : S → ℕ)
    (hlower : ∀ s a s', Inv s → allowed s a → step a s = some s' →
      Inv s' ∧ measure s' < measure s)
    {s : S} (hinv : Inv s) : Acc (fun s' s => Via step allowed s s') s := by
  induction hn : measure s using Nat.strong_induction_on generalizing s with
  | _ n ih =>
      refine Acc.intro s fun s' ⟨a, ha, hstep⟩ => ?_
      obtain ⟨hinv', hlt⟩ := hlower s a s' hinv ha hstep
      exact ih (measure s') (hn ▸ hlt) hinv' rfl

/-- **Progress rule.** If every unfinished state can take a step that lowers the
measure, some run ends in a finished state. -/
theorem exists_reaches_of_measure (Inv Done : S → Prop) (measure : S → ℕ)
    (hprogress : ∀ s, Inv s → ¬ Done s →
      ∃ a s', allowed s a ∧ step a s = some s' ∧ Inv s' ∧ measure s' < measure s)
    {s : S} (hinv : Inv s) : ∃ s', Reaches step allowed s s' ∧ Inv s' ∧ Done s' := by
  induction hn : measure s using Nat.strong_induction_on generalizing s with
  | _ n ih =>
      by_cases hdone : Done s
      · exact ⟨s, .refl s, hinv, hdone⟩
      · obtain ⟨a, s', ha, hstep, hinv', hlt⟩ := hprogress s hinv hdone
        obtain ⟨s'', hreach, hinv'', hdone'⟩ := ih (measure s') (hn ▸ hlt) hinv' rfl
        exact ⟨s'', (Reaches.single ha hstep).trans hreach, hinv'', hdone'⟩

/-- A run with fewer allowed actions is a run. -/
theorem Reaches.mono {allowed' : S → A → Prop} (himp : ∀ s a, allowed s a → allowed' s a) {s s' : S}
    (hreach : Reaches step allowed s s') : Reaches step allowed' s s' :=
  Relation.ReflTransGen.mono (fun s _ ⟨a, ha, hstep⟩ => ⟨a, himp s a ha, hstep⟩) _ _ hreach

/-- What can be computed is a run. -/
theorem run_of_runTrace {actions : List A} {s s' : S} {trace : List (S × A)}
    (h : runTrace step actions s = some (trace, s')) : Run step s trace s' := by
  induction actions generalizing s trace with
  | nil =>
      obtain ⟨rfl, rfl⟩ := Prod.mk.inj (Option.some.inj h)
      exact .nil s
  | cons a actions ih =>
      rw [runTrace] at h
      split at h
      · cases h
      · next next hstep =>
          obtain ⟨⟨rest, last⟩, hrest, heq⟩ := Option.map_eq_some_iff.mp h
          obtain ⟨rfl, rfl⟩ := Prod.mk.inj heq
          exact .cons hstep (ih hrest)

/-- The states along a run are reached one after the other. -/
theorem Run.reaches {s s' : S} {trace : List (S × A)} (hrun : Run step s trace s') :
    Reaches step (fun _ _ => True) s s' := by
  induction hrun with
  | nil s => exact .refl s
  | cons hstep _ ih => exact (Reaches.single trivial hstep).trans ih

/-- A run all of whose actions are allowed. -/
theorem Run.reaches_of_forall {s s' : S} {trace : List (S × A)} (hrun : Run step s trace s')
    (hallowed : ∀ move ∈ trace, allowed move.1 move.2) : Reaches step allowed s s' := by
  induction hrun with
  | nil s => exact .refl s
  | cons hstep _ ih =>
      have hrest := ih fun move hmem => hallowed move (List.mem_cons_of_mem _ hmem)
      exact (Reaches.single (hallowed _ List.mem_cons_self) hstep).trans hrest

/-- **Invariant rule for runs that meet a condition.** The condition may read the
state in which an action is taken. -/
theorem Run.invariant {Inv : S → Prop} {ok : S × A → Prop} {s s' : S} {trace : List (S × A)}
    (hrun : Run step s trace s') (hok : ∀ move ∈ trace, ok move) (hinit : Inv s)
    (hkeep : ∀ s a s', Inv s → ok (s, a) → step a s = some s' → Inv s') : Inv s' := by
  induction hrun with
  | nil s => exact hinit
  | cons hstep _ ih =>
      refine ih (fun move hmem => hok move (List.mem_cons_of_mem _ hmem)) ?_
      exact hkeep _ _ _ hinit (hok _ List.mem_cons_self) hstep

/-- **History rule.** What relates the steps taken so far to the state they lead to. -/
theorem Run.history {Inv : List (S × A) → S → Prop} {ok : S × A → Prop} {s s' : S}
    {trace : List (S × A)} (hrun : Run step s trace s') (hok : ∀ move ∈ trace, ok move)
    (hinit : Inv [] s)
    (hkeep : ∀ past s a s', Inv past s → ok (s, a) → step a s = some s' →
      Inv (past ++ [(s, a)]) s') : Inv trace s' := by
  have hfrom : ∀ past, Inv past s → Inv (past ++ trace) s' := by
    clear hinit
    induction hrun with
    | nil s =>
        intro past hpast
        rwa [List.append_nil]
    | @cons s s' s'' a trace hstep _ ih =>
        intro past hpast
        have hnext := hkeep past s a s' hpast (hok _ List.mem_cons_self) hstep
        have hrest := ih (fun move hmem => hok move (List.mem_cons_of_mem _ hmem)) _ hnext
        rwa [List.append_assoc] at hrest
  exact hfrom [] hinit

/-- **Backward rule.** What holds at the end of a run and holds before a step whenever it
holds after it was true all along; with it comes what each step must then have been. -/
theorem Run.backward {Inv Good : S → Prop} {given ok : S × A → Prop} {s s' : S}
    {trace : List (S × A)} (hrun : Run step s trace s') (hgiven : ∀ move ∈ trace, given move)
    (hinit : Inv s)
    (hkeep : ∀ s a s', Inv s → given (s, a) → step a s = some s' → Inv s')
    (hback : ∀ s a s', Inv s → given (s, a) → step a s = some s' → Good s' → Good s ∧ ok (s, a))
    (hgood : Good s') : Good s ∧ ∀ move ∈ trace, ok move := by
  induction hrun with
  | nil s => exact ⟨hgood, by simp⟩
  | cons hstep _ ih =>
      have hhead := hgiven _ List.mem_cons_self
      obtain ⟨hnext, hrest⟩ := ih (fun move hmem => hgiven move (List.mem_cons_of_mem _ hmem))
        (hkeep _ _ _ hinit hhead hstep) hgood
      obtain ⟨hhere, hok⟩ := hback _ _ _ hinit hhead hstep hnext
      refine ⟨hhere, fun move hmem => ?_⟩
      rcases List.mem_cons.mp hmem with rfl | hmem
      · exact hok
      · exact hrest move hmem

end Runs

/-! ## Interleaved components -/

section Components

variable {Shared : Type u} {Local : Type v} {A : Type w}

/-- Component `t` takes one step; the states of the other components stay. -/
def stepAt (step : A → Shared → Local → Option (Shared × Local)) (t : ℕ) (a : A)
    (shared : Shared) (locals : List Local) : Option (Shared × List Local) :=
  match locals[t]? with
  | none => none
  | some here =>
      match step a shared here with
      | none => none
      | some (shared', here') => some (shared', locals.set t here')

variable {step : A → Shared → Local → Option (Shared × Local)} {t : ℕ} {a : A}
  {shared shared' : Shared} {locals locals' : List Local}

/-- What a component step can do. -/
theorem stepAt_eq_some_iff :
    stepAt step t a shared locals = some (shared', locals') ↔
      ∃ here here', locals[t]? = some here ∧ step a shared here = some (shared', here') ∧
        locals' = locals.set t here' := by
  unfold stepAt
  constructor
  · intro h
    split at h
    · cases h
    · next here hhere =>
        split at h
        · cases h
        · next moved here' hstep =>
            obtain ⟨rfl, rfl⟩ := Prod.mk.inj (Option.some.inj h)
            exact ⟨here, here', hhere, hstep, rfl⟩
  · rintro ⟨here, here', hhere, hstep, rfl⟩
    simp [hhere, hstep]

/-- Components that step alike. -/
theorem stepAt_congr {step' : A → Shared → Local → Option (Shared × Local)}
    (h : ∀ here, locals[t]? = some here → step a shared here = step' a shared here) :
    stepAt step t a shared locals = stepAt step' t a shared locals := by
  unfold stepAt
  cases hhere : locals[t]? with
  | none => rfl
  | some here => simp only [h here hhere]

/-- What the components have produced, after one of them has produced more. -/
theorem flatMap_set_perm {β : Type*} {produced : Local → List β} {here here' : Local}
    {more : List β} (hhere : locals[t]? = some here)
    (hmore : produced here' = produced here ++ more) :
    ((locals.set t here').flatMap produced).Perm (locals.flatMap produced ++ more) := by
  induction locals generalizing t with
  | nil => simp at hhere
  | cons other locals ih =>
      cases t with
      | zero =>
          obtain rfl : other = here := by simpa using hhere
          simp only [List.set_cons_zero, List.flatMap_cons, hmore, List.append_assoc]
          exact List.perm_append_comm.append_left _
      | succ t =>
          simp only [List.set_cons_succ, List.flatMap_cons, List.append_assoc]
          exact (ih (by simpa using hhere)).append_left _

/-- What is said about every component, after one of them has moved. -/
theorem forall_getElem?_set {P : ℕ → Local → Prop} {here : Local} (hhere : P t here)
    (hothers : ∀ (u : ℕ) (other : Local), u ≠ t → locals[u]? = some other → P u other) :
    ∀ (u : ℕ) (other : Local), (locals.set t here)[u]? = some other → P u other := by
  intro u other hother
  rw [List.getElem?_set] at hother
  split at hother
  · next heq =>
      subst heq
      split at hother
      · obtain rfl := Option.some.inj hother
        exact hhere
      · cases hother
  · next hne => exact hothers u other (Ne.symm hne) hother

/-- A component that is a configuration and a state keeps its configuration. -/
theorem map_fst_set {Config State : Type*} {components : List (Config × State)} {config : Config}
    {state state' : State} (hhere : components[t]? = some (config, state)) :
    (components.set t (config, state')).map Prod.fst = components.map Prod.fst := by
  apply List.ext_getElem?
  intro u
  rw [List.getElem?_map, List.getElem?_map, List.getElem?_set]
  split
  · next heq =>
      subst heq
      rw [hhere, if_pos (List.getElem?_eq_some_iff.mp hhere).1]
      rfl
  · rfl

end Components

end Flashlight.Math
