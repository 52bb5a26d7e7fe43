/-
# Searches that return 0

A thread that fails ends with the same progress, or nearly the same, as one that has
finished, and joining it tells the main thread nothing about how it ended. So the code
`0` only says that all threads have ended: the search was complete exactly if every
thread has stopped on the limit or has not given up any of its lines.
-/

import Flashlight.Search.Limit
import Flashlight.Search.Sound

namespace Flashlight.Search

open Flashlight.Math

/-- Every planned thread has stopped on the limit or has handed over all of its lines. -/
def SearchRun.Complete (index : FIndex) (config : FSearcher) (s : SearchRun) : Prop :=
  searcherThreads config index.flookup.len = .ok (s.crew.threads.map Prod.fst) ∧
    ∀ thread ∈ s.crew.threads, thread.2.pc = .exited true ∨
      thread.1.lines index = thread.2.handed.map some

instance (index : FIndex) (config : FSearcher) (s : SearchRun) :
    Decidable (s.Complete index config) :=
  inferInstanceAs (Decidable (_ ∧ _))

/-- In the step thread `t` gives up lines. -/
def SearchRun.GivesUp (regex : Pcre2Code) (index : FIndex) (t : ℕ) (s : SearchRun)
    (a : SearchAction) : Prop :=
  ∃ b thread, a = .searcher t b ∧ s.crew.threads[t]? = some thread ∧
    thread.2.GivesUp regex index thread.1 b

/-- In the step thread `t` reads that the limit is met. -/
def SearchRun.StopsOnLimit (t : ℕ) (s : SearchRun) (a : SearchAction) : Prop :=
  ∃ thread, a = .searcher t .proceed ∧ s.crew.threads[t]? = some thread ∧
    thread.2.ReadsLimit thread.1 ∧ thread.1.resultLimit ≤ s.crew.shared.resultCount

/-- The step looks nothing up with short reads. -/
def SearchAction.Honest (index : FIndex) : SearchAction → Prop
  | .searcher _ b => b.Honest index
  | _ => True

/-- What a step does to thread `t`. -/
inductive ThreadStep (regex : Pcre2Code) (index : FIndex) (t : ℕ) (s : SearchRun)
    (a : SearchAction) (s' : SearchRun) : Prop
  | moved {b : SearcherAction} {config : FSearcherThread} {w w' : Searcher}
      {shared : SearchShared} (ha : a = .searcher t b)
      (hthread : s.crew.threads[t]? = some (config, w))
      (hmove : SearcherMove regex index config s.crew.shared w b shared w')
      (hthread' : s'.crew.threads[t]? = some (config, w'))
  | created {config : FSearcherThread} (ha : ∀ b, a ≠ .searcher t b)
      (hthread : s.crew.threads[t]? = none)
      (hthread' : s'.crew.threads[t]? = some (config, .start))
  | kept (ha : ∀ b, a ≠ .searcher t b) (hthread : s'.crew.threads[t]? = s.crew.threads[t]?)

section

variable {regex : Pcre2Code} {index : FIndex} {config : FSearcher} {s s' : SearchRun}
  {a : SearchAction}

theorem SearchMove.threadStep (hmove : SearchMove regex index config s a s') (t : ℕ) :
    ThreadStep regex index t s a s' := by
  cases hmove with
  | planned _ _ => exact .kept (by simp) rfl
  | @created i thread _ _ =>
      rcases Nat.lt_trichotomy t s.crew.threads.length with hlt | rfl | hgt
      · exact .kept (by simp) (List.getElem?_append_left hlt)
      · exact .created (by simp) (List.getElem?_eq_none le_rfl) List.getElem?_concat_length
      · refine .kept (by simp) ?_
        rw [List.getElem?_eq_none hgt.le, List.getElem?_eq_none]
        simp only [SearchRun.created, List.length_append, List.length_singleton]
        omega
  | allCreated _ _ => exact .kept (by simp) rfl
  | watched _ _ _ => exact .kept (by simp) rfl
  | joined _ _ _ => exact .kept (by simp) rfl
  | allJoined _ _ => exact .kept (by simp) rfl
  | failed ha _ => exact .kept (fun b => ha t b) rfl
  | @searcher u b crew hmove =>
      cases hmove with
      | @thread u b config w w' shared hthread hmove =>
          by_cases heq : u = t
          · subst heq
            refine .moved rfl hthread hmove ?_
            rw [List.getElem?_set_self (List.getElem?_eq_some_iff.mp hthread).1]
          · exact .kept (fun b hb => heq (SearchAction.searcher.inj hb).1)
              (List.getElem?_set_ne heq)

/-- Thread `t`, once it is created, has not stopped on the limit. -/
def SearchRun.Goes (t : ℕ) (s : SearchRun) : Prop :=
  ∀ thread, s.crew.threads[t]? = some thread → thread.2.pc ≠ .exited true

theorem SearchRun.Goes.step {t : ℕ} (h : s.Goes t)
    (hmove : SearchMove regex index config s a s') (hlimit : ¬ s.StopsOnLimit t a) :
    s'.Goes t := by
  intro thread hthread hpc
  cases hmove.threadStep t with
  | @moved b config w w' shared ha hold hmove hnew =>
      obtain rfl : (config, w') = thread := Option.some.inj (hnew.symm.trans hthread)
      obtain ⟨rfl, hreads, hmet, -⟩ := hmove.of_exited_true hpc
      exact hlimit ⟨_, ha, hold, hreads, hmet⟩
  | created _ _ hnew =>
      obtain rfl := Option.some.inj (hnew.symm.trans hthread)
      cases hpc
  | kept _ hkept => exact h thread (hkept ▸ hthread) hpc

theorem SearchRun.Goes.of_step {t : ℕ} (hmove : SearchMove regex index config s a s')
    (h : s'.Goes t) : s.Goes t ∧ ¬ s.StopsOnLimit t a := by
  cases hmove.threadStep t with
  | @moved b config w w' shared ha hold hmove hnew =>
      refine ⟨fun thread hthread hpc => ?_, fun hstops => ?_⟩
      · obtain rfl : (config, w) = thread := Option.some.inj (hold.symm.trans hthread)
        exact hmove.not_exited true hpc
      · obtain ⟨thread, ha', hthread, hreads, hmet⟩ := hstops
        obtain rfl : (config, w) = thread := Option.some.inj (hold.symm.trans hthread)
        exact h _ hnew (hmove.exited_true hreads hmet)
  | created ha hold _ =>
      refine ⟨fun thread hthread => ?_, fun ⟨thread, ha', _⟩ => ha _ ha'⟩
      cases hold.symm.trans hthread
  | kept ha hkept =>
      exact ⟨fun thread hthread => h thread (hkept.trans hthread), fun ⟨_, ha', _⟩ => ha _ ha'⟩

/-- A thread has stopped on the limit exactly if a step of the run was such a stop. -/
theorem goes_iff {trace : List (SearchRun × SearchAction)} (t : ℕ)
    (hrun : Run (searchStep regex index config) .start trace s) :
    s.Goes t ↔ ∀ move ∈ trace, ¬ move.1.StopsOnLimit t move.2 := by
  constructor
  · intro h
    have hback : ∀ (s : SearchRun) a s', True → True →
        searchStep regex index config a s = some s' → s'.Goes t →
        s.Goes t ∧ ¬ (s, a).1.StopsOnLimit t (s, a).2 :=
      fun _ _ _ _ _ hstep h => SearchRun.Goes.of_step (searchMove_of_step hstep) h
    exact (hrun.backward (fun _ _ => trivial) trivial (fun _ _ _ _ _ _ => trivial) hback h).2
  · intro hlimit
    have hkeep : ∀ (s : SearchRun) a s', s.Goes t → ¬ (s, a).1.StopsOnLimit t (s, a).2 →
        searchStep regex index config a s = some s' → s'.Goes t :=
      fun _ _ _ h hno hstep => h.step (searchMove_of_step hstep) hno
    exact hrun.invariant hlimit (by simp [SearchRun.Goes, SearchRun.start]) hkeep

/-- Thread `t`, once it is created, accounts for all of its lines. -/
def SearchRun.Accounts (index : FIndex) (t : ℕ) (s : SearchRun) : Prop :=
  ∀ thread, s.crew.threads[t]? = some thread → thread.2.Kept index thread.1

theorem SearchRun.Accounts.step {t : ℕ} (h : s.Accounts index t) (hs : s.Inv regex index config)
    (hmove : SearchMove regex index config s a s') (hhonest : a.Honest index) (hgoes : s'.Goes t)
    (hgives : ¬ s.GivesUp regex index t a) : s'.Accounts index t := by
  intro thread hthread
  cases hmove.threadStep t with
  | @moved b config w w' shared ha hold hinner hnew =>
      obtain rfl : (config, w') = thread := Option.some.inj (hnew.symm.trans hthread)
      obtain ⟨hbounded, -, hw⟩ := hs.crew.threads _ (List.mem_of_getElem? hold)
      have hb : b.Honest index := by
        rw [ha] at hhonest
        exact hhonest
      have hlines := hinner.linesStep hbounded hb hw.range
      have hno : ¬ w.GivesUp regex index config b := fun hno => hgives ⟨b, _, ha, hold, hno⟩
      have hkept : w.Kept index config := h (config, w) hold
      rcases hlines.kept hno hkept with hpc | hkept'
      · exact absurd hpc (hgoes _ hthread)
      · exact hkept'
  | created _ _ hnew =>
      obtain rfl := Option.some.inj (hnew.symm.trans hthread)
      rfl
  | kept _ hkept => exact h thread (hkept ▸ hthread)

theorem SearchRun.Accounts.of_step {t : ℕ} (hs : s.Inv regex index config)
    (hmove : SearchMove regex index config s a s') (hhonest : a.Honest index) (hgoes : s'.Goes t)
    (h : s'.Accounts index t) : s.Accounts index t ∧ ¬ s.GivesUp regex index t a := by
  cases hmove.threadStep t with
  | @moved b config w w' shared ha hold hinner hnew =>
      obtain ⟨hbounded, -, hw⟩ := hs.crew.threads _ (List.mem_of_getElem? hold)
      have hb : b.Honest index := by
        rw [ha] at hhonest
        exact hhonest
      have hlines := hinner.linesStep hbounded hb hw.range
      have hgoes' : w'.pc ≠ .exited true := hgoes _ hnew
      have hkept' : w'.Kept index config := h (config, w') hnew
      obtain ⟨hkept, hno⟩ := hlines.kept_of_kept hw hgoes' hkept'
      refine ⟨fun thread hthread => ?_, fun ⟨b', thread, hb, hthread, hgives⟩ => ?_⟩
      · obtain rfl : (config, w) = thread := Option.some.inj (hold.symm.trans hthread)
        exact hkept
      · obtain rfl : (config, w) = thread := Option.some.inj (hold.symm.trans hthread)
        obtain rfl : b = b' := (SearchAction.searcher.inj (ha.symm.trans hb)).2
        exact hno hgives
  | created ha hold _ =>
      refine ⟨fun thread hthread => ?_, fun ⟨_, _, ha', _⟩ => ha _ ha'⟩
      cases hold.symm.trans hthread
  | kept ha hkept =>
      exact ⟨fun thread hthread => h thread (hkept.trans hthread), fun ⟨_, _, ha', _⟩ => ha _ ha'⟩

/-- A thread that never stops on the limit accounts for all of its lines exactly if it never
gives up lines. -/
theorem accounts_iff {trace : List (SearchRun × SearchAction)} (t : ℕ)
    (hrun : Run (searchStep regex index config) .start trace s)
    (hhonest : ∀ move ∈ trace, move.2.Honest index)
    (hlimit : ∀ move ∈ trace, ¬ move.1.StopsOnLimit t move.2) :
    s.Accounts index t ↔ ∀ move ∈ trace, ¬ move.1.GivesUp regex index t move.2 := by
  have hgiven : ∀ move ∈ trace, move.2.Honest index ∧ ¬ move.1.StopsOnLimit t move.2 :=
    fun move hmem => ⟨hhonest move hmem, hlimit move hmem⟩
  have hstart : SearchRun.start.Inv regex index config ∧ SearchRun.start.Goes t :=
    ⟨SearchRun.inv_start _ _ _, by simp [SearchRun.Goes, SearchRun.start]⟩
  have hinv : ∀ (s : SearchRun) a s', s.Inv regex index config ∧ s.Goes t →
      (s, a).2.Honest index ∧ ¬ (s, a).1.StopsOnLimit t (s, a).2 →
      searchStep regex index config a s = some s' →
      s'.Inv regex index config ∧ s'.Goes t := by
    rintro s a s' ⟨hs, hgoes⟩ ⟨ha, hno⟩ hstep
    have hmove := searchMove_of_step hstep
    refine ⟨hs.step hmove ?_, hgoes.step hmove hno⟩
    rintro u b rfl
    exact ha
  constructor
  · intro h
    have hback : ∀ (s : SearchRun) a s', s.Inv regex index config ∧ s.Goes t →
        (s, a).2.Honest index ∧ ¬ (s, a).1.StopsOnLimit t (s, a).2 →
        searchStep regex index config a s = some s' → s'.Accounts index t →
        s.Accounts index t ∧ ¬ (s, a).1.GivesUp regex index t (s, a).2 := by
      intro s a s' hs ha hstep h
      exact h.of_step hs.1 (searchMove_of_step hstep) ha.1 (hinv s a s' hs ha hstep).2
    exact (hrun.backward hgiven hstart hinv hback h).2
  · intro hgives
    have hok : ∀ move ∈ trace, (move.2.Honest index ∧ ¬ move.1.StopsOnLimit t move.2) ∧
        ¬ move.1.GivesUp regex index t move.2 :=
      fun move hmem => ⟨hgiven move hmem, hgives move hmem⟩
    have hkeep : ∀ (s : SearchRun) a s',
        (s.Inv regex index config ∧ s.Goes t) ∧ s.Accounts index t →
        ((s, a).2.Honest index ∧ ¬ (s, a).1.StopsOnLimit t (s, a).2) ∧
          ¬ (s, a).1.GivesUp regex index t (s, a).2 →
        searchStep regex index config a s = some s' →
        (s'.Inv regex index config ∧ s'.Goes t) ∧ s'.Accounts index t := by
      rintro s a s' ⟨hs, h⟩ ⟨ha, hno⟩ hstep
      have hs' := hinv s a s' hs ha hstep
      exact ⟨hs', h.step hs.1 (searchMove_of_step hstep) ha.1 hs'.2 hno⟩
    have hend := hrun.invariant hok ⟨hstart, by simp [SearchRun.Accounts, SearchRun.start]⟩ hkeep
    exact hend.2

/-- When a thread has ended, it accounts for its lines by what it has handed over. -/
theorem Searcher.kept_iff_of_exited {thread : FSearcherThread} {w : Searcher} {metLimit : Bool}
    (hpc : w.pc = .exited metLimit) :
    w.Kept index thread ↔ thread.lines index = w.handed.map some := by
  rw [Searcher.Kept, Searcher.left_of_exited hpc, List.append_nil]

/-- A thread that has ended was complete exactly if it has seen the limit met or has given up
no lines. -/
theorem complete_iff_of_exited {trace : List (SearchRun × SearchAction)} {t : ℕ}
    (hrun : Run (searchStep regex index config) .start trace s)
    (hhonest : ∀ move ∈ trace, move.2.Honest index) {thread : SearchThread}
    (hthread : s.crew.threads[t]? = some thread) {metLimit : Bool}
    (hexited : thread.2.pc = .exited metLimit) :
    (thread.2.pc = .exited true ∨ thread.1.lines index = thread.2.handed.map some) ↔
      ((∃ move ∈ trace, move.1.StopsOnLimit t move.2) ∨
        ∀ move ∈ trace, ¬ move.1.GivesUp regex index t move.2) := by
  have hgoes : s.Goes t ↔ thread.2.pc ≠ .exited true := by
    constructor
    · intro h
      exact h thread hthread
    · intro hpc other hother
      obtain rfl : thread = other := Option.some.inj (hthread.symm.trans hother)
      exact hpc
  have haccounts : s.Accounts index t ↔ thread.1.lines index = thread.2.handed.map some := by
    rw [← Searcher.kept_iff_of_exited hexited]
    constructor
    · intro h
      exact h thread hthread
    · intro h other hother
      obtain rfl : thread = other := Option.some.inj (hthread.symm.trans hother)
      exact h
  by_cases hstops : ∃ move ∈ trace, move.1.StopsOnLimit t move.2
  · refine iff_of_true (Or.inl ?_) (Or.inl hstops)
    by_contra hpc
    obtain ⟨move, hmem, hmove⟩ := hstops
    exact (goes_iff t hrun).mp (hgoes.mpr hpc) move hmem hmove
  · have hno : ∀ move ∈ trace, ¬ move.1.StopsOnLimit t move.2 :=
      fun move hmem hmove => hstops ⟨move, hmem, hmove⟩
    have hpc : thread.2.pc ≠ .exited true := hgoes.mp ((goes_iff t hrun).mpr hno)
    rw [or_iff_right hpc, or_iff_right hstops, ← haccounts]
    exact accounts_iff t hrun hhonest hno

/-- What was never created gives up nothing. -/
theorem not_givesUp_of_not_created {trace : List (SearchRun × SearchAction)} {t : ℕ}
    (hrun : Run (searchStep regex index config) .start trace s)
    (hhonest : ∀ move ∈ trace, move.2.Honest index) (hthread : s.crew.threads[t]? = none) :
    ∀ move ∈ trace, ¬ move.1.GivesUp regex index t move.2 := by
  have hgoes : s.Goes t := fun thread h => by cases hthread.symm.trans h
  have haccounts : s.Accounts index t := fun thread h => by cases hthread.symm.trans h
  exact (accounts_iff t hrun hhonest ((goes_iff t hrun).mp hgoes)).mp haccounts

end

/-- **The return code of a search.** A search that returns `0` was complete exactly if every
thread has seen the limit met or has given up no lines: the code itself says neither. -/
theorem complete_iff (regex : Pcre2Code) (index : FIndex) (config : FSearcher) {s : SearchRun}
    {trace : List (SearchRun × SearchAction)}
    (hrun : Run (searchStep regex index config) .start trace s)
    (hhonest : ∀ move ∈ trace, move.2.Honest index) (hreturn : s.pc = .returned 0) :
    s.Complete index config ↔
      ∀ t, (∃ move ∈ trace, move.1.StopsOnLimit t move.2) ∨
        ∀ move ∈ trace, ¬ move.1.GivesUp regex index t move.2 := by
  have hinv : s.Inv regex index config := by
    refine hrun.invariant hhonest (SearchRun.inv_start _ _ _) fun s a s' hs ha hstep => ?_
    refine hs.step (searchMove_of_step hstep) ?_
    rintro u b rfl
    exact ha
  obtain ⟨hplan, hall, hexited⟩ := hinv.of_returned hreturn
  constructor
  · rintro ⟨-, hcomplete⟩ t
    cases hthread : s.crew.threads[t]? with
    | none => exact Or.inr (not_givesUp_of_not_created hrun hhonest hthread)
    | some thread =>
        obtain ⟨metLimit, hpc⟩ := hexited thread (List.mem_of_getElem? hthread)
        exact (complete_iff_of_exited hrun hhonest hthread hpc).mp
          (hcomplete thread (List.mem_of_getElem? hthread))
  · intro h
    refine ⟨hall ▸ hplan, fun thread hmem => ?_⟩
    obtain ⟨t, hthread⟩ := List.mem_iff_getElem?.mp hmem
    obtain ⟨metLimit, hpc⟩ := hexited thread hmem
    exact (complete_iff_of_exited hrun hhonest hthread hpc).mpr (h t)

instance (index : FIndex) (a : SearchAction) : Decidable (a.Honest index) :=
  match a with
  | .searcher _ b => inferInstanceAs (Decidable (b.Honest index))
  | .proceed => .isTrue trivial
  | .fault => .isTrue trivial
  | .invalidRegex => .isTrue trivial

/-- A search of `lineFile` by one thread, up to its first lookup, which runs like this. -/
def searchUpTo (env : LookupEnv) : List SearchAction :=
  [.proceed, .proceed, .proceed, .searcher 0 .proceed, .searcher 0 .proceed,
    .searcher 0 (.lookup env)]

/-- Two threads search `pairFile`, take turns and give up nothing. -/
theorem complete_iff_pair : ∃ trace s,
    Run (searchStep anyLine (pairIndex 97) twoSearchers) .start trace s ∧ s.pc = .returned 0 ∧
      s.crew.threads.length = 2 ∧ s.Complete (pairIndex 97) twoSearchers ∧
      ∀ t, (∃ move ∈ trace, move.1.StopsOnLimit t move.2) ∨
        ∀ move ∈ trace, ¬ move.1.GivesUp anyLine (pairIndex 97) t move.2 := by
  have hsummary : (runTrace (searchStep anyLine (pairIndex 97) twoSearchers) takingTurns
      .start).map (fun run => (run.2.pc, run.2.crew.threads.length,
        run.1.all fun move => decide (move.2.Honest (pairIndex 97)),
        decide (run.2.Complete (pairIndex 97) twoSearchers))) =
      some (.returned 0, 2, true, true) := by decide +kernel
  obtain ⟨⟨trace, s⟩, hrun, hpair⟩ := Option.map_eq_some_iff.mp hsummary
  obtain ⟨hreturn, hpair⟩ := Prod.mk.inj hpair
  obtain ⟨hlength, hpair⟩ := Prod.mk.inj hpair
  obtain ⟨hhonest, hcomplete⟩ := Prod.mk.inj hpair
  have hrun := run_of_runTrace hrun
  have hcomplete : s.Complete (pairIndex 97) twoSearchers := of_decide_eq_true hcomplete
  refine ⟨trace, s, hrun, hreturn, hlength, hcomplete, ?_⟩
  exact (complete_iff anyLine (pairIndex 97) twoSearchers hrun
    (fun move hmove => of_decide_eq_true (List.all_eq_true.mp hhonest move hmove))
    hreturn).mp hcomplete

/-- The target file cannot be read: the thread ends before it has seen the line, and the
search returns `0`. -/
theorem returned_zero_incomplete : ∃ trace s,
    Run (searchStep anyLine lineIndex oneBatch) .start trace s ∧
      (∀ move ∈ trace, move.2.Honest lineIndex) ∧ s.pc = .returned 0 ∧
      ¬ s.Complete lineIndex oneBatch := by
  have hsummary : (runTrace (searchStep anyLine lineIndex oneBatch)
      (searchUpTo { generousEnv 16 with dataRead := none } ++ [.proceed, .proceed, .proceed])
      .start).map (fun run =>
        (run.2.pc, run.1.all fun move => decide (move.2.Honest lineIndex),
          run.2.crew.threads.any fun thread =>
            decide (thread.2.pc ≠ .exited true ∧
              thread.1.lines lineIndex ≠ thread.2.handed.map some))) =
      some (.returned 0, true, true) := by decide +kernel
  obtain ⟨⟨trace, s⟩, hrun, hpair⟩ := Option.map_eq_some_iff.mp hsummary
  obtain ⟨hreturn, hpair⟩ := Prod.mk.inj hpair
  obtain ⟨hhonest, hlost⟩ := Prod.mk.inj hpair
  refine ⟨trace, s, run_of_runTrace hrun, fun move hmove =>
    of_decide_eq_true (List.all_eq_true.mp hhonest move hmove), hreturn, ?_⟩
  rintro ⟨-, hcomplete⟩
  obtain ⟨thread, hthread, hno⟩ := List.any_eq_true.mp hlost
  obtain ⟨hpc, hlines⟩ := of_decide_eq_true hno
  exact (hcomplete thread hthread).elim hpc hlines

end Flashlight.Search
