/-
# The search threads together

The threads of a search run interleaved and share the number of results. Whatever the
order of their steps, the results that went to the callback are those that the threads
delivered, the shared number counts them, and it does not exceed the limit.
-/

import Flashlight.Search.Account

namespace Flashlight.Search

open Flashlight.Math
open scoped List

/-- A search thread: its configuration and its state. -/
abbrev SearchThread := FSearcherThread × Searcher

/-- The search threads and what they share. -/
structure Crew where
  /-- The shared state. -/
  shared : SearchShared
  /-- The threads. -/
  threads : List SearchThread

/-- The state that the threads share before any of them runs. -/
def SearchShared.start : SearchShared where
  resultCount := 0
  delivered := []

/-- These threads, before any of them runs. -/
def Crew.start (configs : List FSearcherThread) : Crew where
  shared := .start
  threads := configs.map fun config => (config, .start)

/-- One step of a thread on the shared state. -/
def searchThreadStep (regex : Pcre2Code) (index : FIndex) (a : SearcherAction)
    (shared : SearchShared) (thread : SearchThread) : Option (SearchShared × SearchThread) :=
  (searcherStep regex index thread.1 a shared thread.2).map fun moved =>
    (moved.1, (thread.1, moved.2))

/-- Thread `a.1` takes a step. -/
def crewStep (regex : Pcre2Code) (index : FIndex) (a : ℕ × SearcherAction) (s : Crew) :
    Option Crew :=
  (stepAt (searchThreadStep regex index) a.1 a.2 s.shared s.threads).map fun moved =>
    ⟨moved.1, moved.2⟩

/-- The steps of the threads. -/
inductive CrewMove (regex : Pcre2Code) (index : FIndex) (s : Crew) :
    ℕ × SearcherAction → Crew → Prop
  | thread {t : ℕ} {a : SearcherAction} {config : FSearcherThread} {w w' : Searcher}
      {shared : SearchShared} (hthread : s.threads[t]? = some (config, w))
      (hmove : SearcherMove regex index config s.shared w a shared w') :
      CrewMove regex index s (t, a) ⟨shared, s.threads.set t (config, w')⟩

/-- What the steps of the threads keep. -/
structure Crew.Inv (regex : Pcre2Code) (index : FIndex) (limit : Int32) (s : Crew) : Prop where
  /-- What holds of each thread. -/
  threads : ∀ thread ∈ s.threads, thread.1.Bounded ∧ thread.1.resultLimit = limit ∧
    thread.2.Inv regex index thread.1
  /-- The callback got what the threads delivered. -/
  delivered : s.shared.delivered ~ s.threads.flatMap fun thread => thread.2.sent
  /-- The shared number counts the results. -/
  count : s.shared.resultCount.toInt = s.shared.delivered.length
  /-- The limit is kept. -/
  bounded : s.shared.resultCount.toInt ≤ max 0 limit.toInt
  /-- A thread that has stopped on the limit was right. -/
  met : ∀ thread ∈ s.threads, thread.2.pc = .exited true → limit ≤ s.shared.resultCount

section

variable {regex : Pcre2Code} {index : FIndex} {limit : Int32} {s s' : Crew}
  {a : ℕ × SearcherAction}

/-- A step of a thread, as a step of the threads. -/
theorem exists_of_crewStep {t : ℕ} {b : SearcherAction}
    (hstep : crewStep regex index (t, b) s = some s') :
    ∃ (config : FSearcherThread) (w w' : Searcher) (shared : SearchShared),
      s.threads[t]? = some (config, w) ∧
      searcherStep regex index config b s.shared w = some (shared, w') ∧
      s' = ⟨shared, s.threads.set t (config, w')⟩ := by
  obtain ⟨⟨shared, threads⟩, hstepAt, rfl⟩ := Option.map_eq_some_iff.mp hstep
  obtain ⟨⟨config, w⟩, thread', hthread, hmoved, rfl⟩ := stepAt_eq_some_iff.mp hstepAt
  obtain ⟨⟨shared', w'⟩, hworker, heq⟩ := Option.map_eq_some_iff.mp hmoved
  obtain ⟨rfl, rfl⟩ := Prod.mk.inj heq
  exact ⟨config, w, w', shared', hthread, hworker, rfl⟩

theorem crewMove_of_step (hstep : crewStep regex index a s = some s') :
    CrewMove regex index s a s' := by
  obtain ⟨config, w, w', shared, hthread, hworker, rfl⟩ := exists_of_crewStep hstep
  exact .thread hthread (searcherMove_of_step hworker)

/-- One more result is counted, below the limit. -/
theorem toInt_resultCount_succ {count : Int32} (hlimit : ¬ limit ≤ count) :
    (count + 1).toInt = count.toInt + 1 ∧ count.toInt + 1 ≤ limit.toInt := by
  rw [Int32.le_iff_toInt_le] at hlimit
  have hmax := limit.toInt_lt
  have hmin := count.le_toInt
  refine ⟨?_, by omega⟩
  rw [Int32.toInt_add, Int32.toInt_one, Int.bmod_eq_of_le] <;> omega

/-- **A step of the threads** keeps the invariant. -/
theorem Crew.Inv.step (h : s.Inv regex index limit) (hmove : CrewMove regex index s a s')
    (hhonest : a.2.Honest index) : s'.Inv regex index limit := by
  cases hmove with
  | @thread t b config w w' shared hthread hmove =>
      obtain ⟨hbounded, hlimit, hw⟩ := h.threads _ (List.mem_of_getElem? hthread)
      have hw' : w'.Inv regex index config := hw.step hmove hbounded hhonest
      have hmem : ∀ thread ∈ s.threads.set t (config, w'),
          thread = (config, w') ∨ thread ∈ s.threads := fun thread hmem =>
        (List.mem_or_eq_of_mem_set hmem).symm
      have hthreads : ∀ thread ∈ s.threads.set t (config, w'), thread.1.Bounded ∧
          thread.1.resultLimit = limit ∧ thread.2.Inv regex index thread.1 := by
        intro thread hset
        rcases hmem thread hset with rfl | hold
        · exact ⟨hbounded, hlimit, hw'⟩
        · exact h.threads thread hold
      have hmet : w'.pc = .exited true → limit ≤ s.shared.resultCount := fun hpc =>
        hlimit ▸ (hmove.of_exited_true hpc).2.2.1
      rcases hmove.shared_cases with ⟨rfl, hsent⟩ | ⟨result, hbelow, rfl, hsent⟩
      · refine ⟨hthreads, ?_, h.count, h.bounded, ?_⟩
        · refine h.delivered.trans ?_
          have hperm : ((s.threads.set t (config, w')).flatMap fun thread => thread.2.sent) ~
              (s.threads.flatMap fun thread => thread.2.sent) ++ [] :=
            flatMap_set_perm hthread (by simpa using hsent)
          rw [List.append_nil] at hperm
          exact hperm.symm
        · intro thread hset hpc
          rcases hmem thread hset with rfl | hold
          · exact hmet hpc
          · exact h.met thread hold hpc
      · rw [hlimit] at hbelow
        obtain ⟨hcount, hle⟩ := toInt_resultCount_succ hbelow
        refine ⟨hthreads, ?_, ?_, ?_, ?_⟩
        · exact (h.delivered.append_right _).trans (flatMap_set_perm hthread hsent).symm
        · rw [hcount, h.count, List.length_append, List.length_singleton]
          rfl
        · rw [hcount]
          exact hle.trans (le_max_right _ _)
        · intro thread hset hpc
          rcases hmem thread hset with rfl | hold
          · exact absurd (hmet hpc) hbelow
          · exact absurd (h.met thread hold hpc) hbelow

/-- A thread that is created joins the others. -/
theorem Crew.Inv.spawn (h : s.Inv regex index limit) {config : FSearcherThread}
    (hbounded : config.Bounded) (hlimit : config.resultLimit = limit) :
    Crew.Inv regex index limit ⟨s.shared, s.threads ++ [(config, .start)]⟩ := by
  have hmem : ∀ thread ∈ s.threads ++ [(config, .start)],
      thread ∈ s.threads ∨ thread = (config, .start) := by
    intro thread hthread
    simpa using hthread
  refine ⟨?_, ?_, h.count, h.bounded, ?_⟩
  · intro thread hthread
    rcases hmem thread hthread with hold | rfl
    · exact h.threads thread hold
    · exact ⟨hbounded, hlimit, Searcher.inv_start _ _ _⟩
  · rw [List.flatMap_append]
    simpa [Searcher.start] using h.delivered
  · intro thread hthread hpc
    rcases hmem thread hthread with hold | rfl
    · exact h.met thread hold hpc
    · cases hpc

/-- Before any thread is created. -/
theorem Crew.inv_nil (regex : Pcre2Code) (index : FIndex) (limit : Int32) :
    Crew.Inv regex index limit ⟨.start, []⟩ :=
  ⟨by simp, by simp [SearchShared.start], by simp [SearchShared.start],
    by simp [SearchShared.start], by simp⟩

theorem Crew.inv_start (regex : Pcre2Code) (index : FIndex) {configs : List FSearcherThread}
    (hconfigs : ∀ config ∈ configs, config.Bounded ∧ config.resultLimit = limit) :
    (Crew.start configs).Inv regex index limit := by
  induction configs using List.reverseRecOn with
  | nil => exact Crew.inv_nil _ _ _
  | append_singleton configs config ih =>
      obtain ⟨hbounded, hlimit⟩ := hconfigs config (by simp)
      have hrest := ih fun other hother => hconfigs other (by simp [hother])
      have hspawn := hrest.spawn hbounded hlimit
      simpa [Crew.start] using hspawn

end

end Flashlight.Search
