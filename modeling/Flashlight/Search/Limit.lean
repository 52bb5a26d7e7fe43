/-
# The limit on the number of results

A thread may stop on the limit at three places, and at two of them it reads the shared
number of results without the lock. A stop is never premature, since the number only
grows; and below the limit every line that matches is delivered. So when all threads
have ended without a failure, the callback was called for every matching line or as
often as the limit allows.
-/

import Flashlight.Search.Crew
import Mathlib.Data.List.ReduceOption

namespace Flashlight.Search

open Flashlight.Math

/-- The lines of a thread that match. -/
def matchingLines (regex : Pcre2Code) (index : FIndex) (config : FSearcherThread) :
    List NumberedLine :=
  accepted regex (config.lines index).reduceOption

/-- No call fails in the step. -/
def Crew.Smooth (regex : Pcre2Code) (index : FIndex) (s : Crew) (a : ℕ × SearcherAction) : Prop :=
  a.2.Honest index ∧ ∀ thread ∈ s.threads[a.1]?, ¬ thread.2.Fails regex index thread.1 a.2

instance (regex : Pcre2Code) (index : FIndex) (s : Crew) (a : ℕ × SearcherAction) :
    Decidable (s.Smooth regex index a) :=
  inferInstanceAs (Decidable (a.2.Honest index ∧
    ∀ thread ∈ s.threads[a.1]?, ¬ thread.2.Fails regex index thread.1 a.2))

/-- A thread that has met no failure delivers the matching lines of its batches, unless it
has stopped on the limit. -/
structure Searcher.Exhaustive (regex : Pcre2Code) (index : FIndex) (config : FSearcherThread)
    (w : Searcher) : Prop where
  found : w.found.Sublist (matchingLines regex index config)
  complete : w.pc = .exited true ∨ w.Kept index config ∧ accepted regex w.handed = w.found

section

variable {regex : Pcre2Code} {index : FIndex} {config : FSearcherThread}
  {shared shared' : SearchShared} {w w' : Searcher} {a : SearcherAction}

theorem reduceOption_map_some (lines : List NumberedLine) :
    (lines.map some).reduceOption = lines := by
  induction lines with
  | nil => rfl
  | cons line rest ih => rw [List.map_cons, List.reduceOption_cons_of_some, ih]

theorem Searcher.Kept.sublist (h : w.Kept index config) :
    (accepted regex w.handed).Sublist (matchingLines regex index config) := by
  have hlines : (config.lines index).reduceOption =
      w.handed ++ (w.left index config).reduceOption := by
    rw [h, List.reduceOption_append, reduceOption_map_some]
  rw [matchingLines, hlines, accepted, accepted, List.filter_append]
  exact List.sublist_append_left _ _

/-- Without failures a thread stays exhaustive. -/
theorem Searcher.Exhaustive.step (h : w.Exhaustive regex index config)
    (hw : w.Inv regex index config) (hcallback : config.onResult = true)
    (hmove : SearcherMove regex index config shared w a shared' w') (hbounded : config.Bounded)
    (hhonest : a.Honest index) (hfails : ¬ w.Fails regex index config a) :
    w'.Exhaustive regex index config := by
  obtain ⟨hkept, hcomplete⟩ := h.complete.resolve_left (hmove.not_exited true)
  have hresults := hmove.resultsStep
  have hlines := (hmove.linesStep hbounded hhonest hw.range).kept
    (fun hgives => hfails hgives.fails) hkept
  have hfound : w'.pc = .exited true ∨ w'.Kept index config ∧
      accepted regex w'.handed = w'.found := by
    rcases hlines with hpc | hkept'
    · exact Or.inl hpc
    · exact (hresults.complete hfails hcallback hcomplete).imp id fun heq => ⟨hkept', heq⟩
  refine ⟨?_, hfound⟩
  rcases hfound with hpc | ⟨hkept', heq⟩
  · refine List.Sublist.trans ?_ h.found
    rw [(hmove.of_exited_true hpc).2.2.2, Searcher.found_of_not_deliver (by simp [Searcher.leave])]
    exact List.sublist_append_left _ _
  · exact heq ▸ hkept'.sublist

theorem Searcher.exhaustive_start (regex : Pcre2Code) (index : FIndex)
    (config : FSearcherThread) : Searcher.start.Exhaustive regex index config :=
  ⟨List.nil_sublist _, Or.inr ⟨rfl, rfl⟩⟩

/-- What an exhaustive thread has delivered when it has ended. -/
theorem Searcher.Exhaustive.length_sent (h : w.Exhaustive regex index config) {metLimit : Bool}
    (hpc : w.pc = .exited metLimit) :
    w.sent.length ≤ (matchingLines regex index config).length ∧
      (metLimit = false → w.sent.length = (matchingLines regex index config).length) := by
  have hfound : w.found = w.sent.map FSearchResult.line :=
    Searcher.found_of_not_deliver (by simp [hpc])
  have hlength : w.found.length = w.sent.length := by rw [hfound, List.length_map]
  refine ⟨hlength ▸ h.found.length_le, ?_⟩
  rintro rfl
  obtain ⟨hkept, haccepted⟩ := h.complete.resolve_left (by simp [hpc])
  have hlines : (config.lines index).reduceOption = w.handed := by
    rw [hkept, Searcher.left_of_exited hpc, List.append_nil, reduceOption_map_some]
  rw [← hlength, ← haccepted, matchingLines, hlines]

end

/-! ## All threads -/

/-- Only the result limit may stop the threads, which all have a callback. -/
structure Crew.Exhaustive (regex : Pcre2Code) (index : FIndex) (limit : Int32)
    (configs : List FSearcherThread) (s : Crew) : Prop where
  inv : s.Inv regex index limit
  configs_eq : s.threads.map Prod.fst = configs
  threads : ∀ thread ∈ s.threads, thread.1.onResult = true ∧
    thread.2.Exhaustive regex index thread.1

section

variable {regex : Pcre2Code} {index : FIndex} {limit : Int32} {configs : List FSearcherThread}
  {s s' : Crew} {a : ℕ × SearcherAction}

theorem Crew.Exhaustive.step (h : s.Exhaustive regex index limit configs)
    (hsmooth : s.Smooth regex index a) (hmove : CrewMove regex index s a s') :
    s'.Exhaustive regex index limit configs := by
  refine ⟨h.inv.step hmove hsmooth.1, ?_, ?_⟩
  · cases hmove with
    | @thread t b config w w' shared hthread hmove =>
        rw [map_fst_set hthread, h.configs_eq]
  · cases hmove with
    | @thread t b config w w' shared hthread hmove =>
        intro thread hset
        rcases List.mem_or_eq_of_mem_set hset with hold | rfl
        · exact h.threads thread hold
        · have hmem := List.mem_of_getElem? hthread
          obtain ⟨hcallback, hw⟩ := h.threads _ hmem
          obtain ⟨hbounded, -, hinv⟩ := h.inv.threads _ hmem
          exact ⟨hcallback, hw.step hinv hcallback hmove hbounded hsmooth.1
            (hsmooth.2 _ hthread)⟩

theorem Crew.exhaustive_start (hconfigs : ∀ config ∈ configs,
    config.Bounded ∧ config.resultLimit = limit ∧ config.onResult = true) :
    (Crew.start configs).Exhaustive regex index limit configs := by
  refine ⟨Crew.inv_start regex index fun config hconfig => ?_, ?_, ?_⟩
  · obtain ⟨hbounded, hlimit, -⟩ := hconfigs config hconfig
    exact ⟨hbounded, hlimit⟩
  · simp [Crew.start, Function.comp_def]
  · intro thread hthread
    obtain ⟨config, hconfig, rfl⟩ := List.mem_map.mp hthread
    exact ⟨(hconfigs config hconfig).2.2, Searcher.exhaustive_start _ _ _⟩

/-- When all threads have ended, every matching line was delivered, or as many as the limit
allows. -/
theorem Crew.Exhaustive.length_delivered (h : s.Exhaustive regex index limit configs)
    (hlimit : 0 ≤ limit.toInt)
    (hended : ∀ thread ∈ s.threads, ∃ metLimit, thread.2.pc = .exited metLimit) :
    s.shared.delivered.length = min limit.toInt.toNat
      (configs.map fun config => (matchingLines regex index config).length).sum := by
  have hcount := h.inv.count
  have hbounded := h.inv.bounded
  have hsum : s.shared.delivered.length =
      (s.threads.map fun thread => thread.2.sent.length).sum := by
    rw [h.inv.delivered.length_eq, List.length_flatMap]
  have hconfigs : (configs.map fun config => (matchingLines regex index config).length).sum =
      (s.threads.map fun thread => (matchingLines regex index thread.1).length).sum := by
    rw [← h.configs_eq, List.map_map]
    rfl
  have hle : ∀ thread ∈ s.threads,
      thread.2.sent.length ≤ (matchingLines regex index thread.1).length := by
    intro thread hthread
    obtain ⟨metLimit, hpc⟩ := hended thread hthread
    exact ((h.threads thread hthread).2.length_sent hpc).1
  have hsumLe := List.sum_le_sum hle
  by_cases hmet : ∃ thread ∈ s.threads, thread.2.pc = .exited true
  · -- whoever has stopped on the limit has seen it met
    obtain ⟨thread, hthread, hpc⟩ := hmet
    have hge := h.inv.met thread hthread hpc
    rw [Int32.le_iff_toInt_le] at hge
    omega
  · have heq : ∀ thread ∈ s.threads,
        thread.2.sent.length = (matchingLines regex index thread.1).length := by
      intro thread hthread
      obtain ⟨metLimit, hpc⟩ := hended thread hthread
      refine ((h.threads thread hthread).2.length_sent hpc).2 ?_
      cases metLimit with
      | false => rfl
      | true => exact absurd ⟨thread, hthread, hpc⟩ hmet
    rw [List.map_congr_left heq] at hsum
    omega

end

/-- **The result limit.** Whatever the order of the steps, the callback is never called
more often than the limit allows, the shared number counts the calls, and when all
threads have ended there were as many calls as matching lines, up to the limit. -/
theorem delivered_limited (regex : Pcre2Code) (index : FIndex) {limit : Int32}
    {configs : List FSearcherThread} (hlimit : 0 ≤ limit.toInt)
    (hconfigs : ∀ config ∈ configs,
      config.Bounded ∧ config.resultLimit = limit ∧ config.onResult = true)
    {s : Crew} (hreach : Reaches (crewStep regex index) (Crew.Smooth regex index)
      (.start configs) s) :
    s.shared.resultCount.toInt = s.shared.delivered.length ∧
    s.shared.delivered.length ≤ limit.toInt.toNat ∧
    ((∀ thread ∈ s.threads, ∃ metLimit, thread.2.pc = .exited metLimit) →
      s.shared.delivered.length = min limit.toInt.toNat
        (configs.map fun config => (matchingLines regex index config).length).sum) := by
  have hs : s.Exhaustive regex index limit configs :=
    hreach.invariant (Crew.exhaustive_start hconfigs)
      fun _ _ _ h hsmooth hstep => h.step hsmooth (crewMove_of_step hstep)
  have hcount := hs.inv.count
  have hbounded := hs.inv.bounded
  exact ⟨hcount, by omega, hs.length_delivered hlimit⟩

/-- The exact index of `lineFile`. -/
def lineIndex : FIndex := ⟨lineFile, ⟨sizeBytes 2 ++ sizeBytes 0, 2⟩⟩

/-- The exact index of `pairFile`, unless its first line is a newline. -/
def pairIndex (first : UInt8) : FIndex :=
  ⟨pairFile first, ⟨sizeBytes 4 ++ sizeBytes 2 ++ sizeBytes 0, 3⟩⟩

/-- An expression that matches the first byte of every line. -/
def anyLine : Pcre2Code := fun _ => ⟨1, [(0, 1)], by decide⟩

/-- The one thread that searches all lines of `lineFile`. -/
def lineSearcher : FSearcherThread := ⟨0, 2, 2, 1, true⟩

/-- Both threads find the line before the first one delivers it. -/
def lineSearch : List (ℕ × SearcherAction) :=
  [(0, .proceed), (0, .proceed), (0, .lookup (generousEnv 16)), (0, .line ⟨true, false, true⟩),
    (1, .proceed), (1, .proceed), (1, .lookup (generousEnv 16)), (1, .line ⟨true, false, true⟩),
    (0, .proceed), (1, .proceed), (0, .line ⟨true, false, true⟩), (0, .line ⟨true, false, true⟩),
    (0, .proceed)]

/-- Two threads search the same lines for at most one result: both find the line, and the
second one stops. -/
theorem delivered_limited_line : ∃ s : Crew,
    Reaches (crewStep anyLine lineIndex) (Crew.Smooth anyLine lineIndex)
      (.start [lineSearcher, lineSearcher]) s ∧
    s.threads.map (fun thread => thread.2.pc) = [.exited false, .exited true] ∧
    s.shared.delivered.length = 1 := by
  have hsummary : (runTrace (crewStep anyLine lineIndex) lineSearch
      (.start [lineSearcher, lineSearcher])).map (fun run =>
        (run.2.threads.map fun thread => thread.2.pc,
          run.1.all fun move => decide (move.1.Smooth anyLine lineIndex move.2))) =
      some ([.exited false, .exited true], true) := by decide +kernel
  obtain ⟨⟨trace, s⟩, hrun, hpair⟩ := Option.map_eq_some_iff.mp hsummary
  obtain ⟨hpcs, hsmooth⟩ := Prod.mk.inj hpair
  have hreach := (run_of_runTrace hrun).reaches_of_forall fun move hmove =>
    of_decide_eq_true (List.all_eq_true.mp hsmooth move hmove)
  obtain ⟨-, -, hdelivered⟩ := delivered_limited anyLine lineIndex
    (show 0 ≤ (1 : Int32).toInt by decide) (by decide) hreach
  refine ⟨s, hreach, hpcs, (hdelivered ?_).trans (by decide +kernel)⟩
  intro thread hthread
  have hpc := List.mem_map_of_mem (f := fun thread : SearchThread => thread.2.pc) hthread
  rw [hpcs] at hpc
  rcases List.mem_cons.mp hpc with hpc | hpc
  · exact ⟨false, hpc⟩
  · exact ⟨true, List.mem_singleton.mp hpc⟩

end Flashlight.Search
