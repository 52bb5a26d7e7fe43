/-
# Failing threads and the loops that wait for them

Both main threads spin on the progress of a thread before they join it and look at its
result. A thread that fails must therefore leave a progress behind that ends the spinning.

No failing exit of an indexing thread sets the progress, so it releases the main thread
only when the progress was complete already. A search thread sets it on all of its failing
exits but two.
-/

import Flashlight.TextIndexer.Progress
import Flashlight.Search.Progress
import Flashlight.Search.Sound

namespace Flashlight

open Flashlight.Math Flashlight.TextIndexer Flashlight.Search

/-- The main thread of a search goes on with a thread as soon as its progress allows it. -/
theorem isSome_searchMainStep_watch (index : FIndex) (config : FSearcher) {s : SearchRun} {i : ℕ}
    {thread : SearchThread} (hpc : s.pc = .watch i) (hthread : s.crew.threads[i]? = some thread) :
    (searchMainStep index config s).isSome ↔ joinableProgress ≤ thread.2.progress := by
  simp only [searchMainStep, hpc, hthread]
  split <;> simp_all

/-- **Failing threads and those who wait for them.** At every point of every run, a thread
that fails leaves a progress that ends the waiting exactly if the step meets the condition;
in the runs in which all steps meet it, every thread that has failed can be joined. -/
theorem failing_exits_release_iff (target : TargetFile) (indexer : FIndexer) (regex : Pcre2Code)
    (index : FIndex) (config : FSearcher) :
    ((∀ s, Reaches (fileStep target indexer) (fun _ _ => True) .start s →
        ∀ (t : ℕ) (thread : FTextThread) (w w' : Worker) (a : WorkerAction) (heap : Heap),
          s.threads[t]? = some (thread, w) →
          workerStep target.bytes thread a s.heap w = some (heap, w') → w'.pc = .exited none →
          (1 ≤ w'.progress ↔ w.Releases thread a)) ∧
      ∀ s, Reaches (fileStep target indexer) FileRun.Releases .start s → s.Joinable) ∧
    ((∀ s, Reaches (searchStep regex index config) (fun _ _ => True) .start s →
        ∀ (t : ℕ) (thread : FSearcherThread) (w w' : Searcher) (a : SearcherAction)
          (shared : SearchShared) (metLimit : Bool), s.crew.threads[t]? = some (thread, w) →
          searcherStep regex index thread a s.crew.shared w = some (shared, w') →
          w'.pc = .exited metLimit →
          (joinableProgress ≤ w'.progress ↔ w.Releases regex thread a)) ∧
      ∀ s, Reaches (searchStep regex index config) (SearchRun.Releases regex) .start s →
        s.Joinable) := by
  refine ⟨⟨fun s hreach t thread w w' a heap hthread hstep hexit => ?_,
    fun s hreach => TextIndexer.joinable_of_reaches hreach⟩,
    fun s hreach t thread w w' a shared metLimit hthread hstep hexit => ?_,
    fun s hreach => Search.joinable_of_reaches hreach⟩
  · obtain ⟨h, hreported⟩ := TextIndexer.reported_of_reaches hreach
    have hw := hreported _ (List.mem_of_getElem? hthread)
    exact (h.threads t _ hthread).2.released_iff hw hstep hexit
  · have hreported := Search.reported_of_reaches hreach
    obtain ⟨hbounded, hcount, hw⟩ := hreported.created _ (List.mem_of_getElem? hthread)
    exact hw.released_iff hbounded hcount hstep hexit

/-- The thread that indexes `lineFile` fails in the reduction, with its progress complete, and the
thread that searches it cannot read it: both main threads go on. -/
theorem failing_exits_release_iff_line :
    (∃ s, Reaches (fileStep lineFile lineIndexer) (fun _ _ => True) .start s ∧
      ∃ (thread : FTextThread) (w : Worker),
        s.threads[0]? = some (thread, w) ∧ w.pc = .reduce ∧ 1 ≤ w.progress) ∧
    ∃ s, Reaches (searchStep anyLine lineIndex oneBatch) (fun _ _ => True) .start s ∧
      ∃ (thread : FSearcherThread) (w w' : Searcher) (shared : SearchShared),
        s.crew.threads[0]? = some (thread, w) ∧
        searcherStep anyLine lineIndex thread (.lookup { generousEnv 16 with dataRead := none })
          s.crew.shared w = some (shared, w') ∧
        w'.pc = .exited false ∧ joinableProgress ≤ w'.progress := by
  obtain ⟨⟨hfile, -⟩, hsearch, -⟩ :=
    failing_exits_release_iff lineFile lineIndexer anyLine lineIndex oneBatch
  constructor
  · have hsummary : (runTrace (fileStep lineFile lineIndexer) (untilReturned [.proceed, .proceed,
        .scan ⟨true, some 2, none, true, true⟩, .proceed, .recv 0, .proceed, .proceed])
        .start).bind (fun run => run.2.threads[0]?.map fun thread =>
          (thread.2.pc, thread.2.ic.length)) = some (.reduce, 1) := by
      decide +kernel
    obtain ⟨⟨trace, s⟩, hrun, hthread⟩ := Option.bind_eq_some_iff.mp hsummary
    obtain ⟨⟨thread, w⟩, hthread, heq⟩ := Option.map_eq_some_iff.mp hthread
    have hpc : w.pc = .reduce := congrArg Prod.fst heq
    have hlength : w.ic.length = 1 := congrArg Prod.snd heq
    have hreach := (run_of_runTrace hrun).reaches
    have hstep : workerStep lineFile.bytes thread .fault s.heap w =
        some (s.heap, { w with pc := .exited none }) := by
      simp only [workerStep, hpc]
    refine ⟨s, hreach, thread, w, hthread, hpc,
      (hfile s hreach 0 thread w _ .fault s.heap hthread hstep rfl).mpr ?_⟩
    simp only [Worker.Releases, hpc]
    rintro hnil
    simp [hnil] at hlength
  · have hsummary : (runTrace (searchStep anyLine lineIndex oneBatch)
        [.proceed, .proceed, .proceed, .searcher 0 .proceed, .searcher 0 .proceed] .start).bind
          (fun run => run.2.crew.threads[0]?.bind fun thread =>
            (searcherStep anyLine lineIndex thread.1
              (.lookup { generousEnv 16 with dataRead := none }) run.2.crew.shared
              thread.2).map fun moved => (thread.2.pc, moved.2.pc)) =
        some (.lookup 0, .exited false) := by
      decide +kernel
    obtain ⟨⟨trace, s⟩, hrun, hthread⟩ := Option.bind_eq_some_iff.mp hsummary
    obtain ⟨⟨thread, w⟩, hthread, hmoved⟩ := Option.bind_eq_some_iff.mp hthread
    obtain ⟨⟨shared, w'⟩, hstep, heq⟩ := Option.map_eq_some_iff.mp hmoved
    have hpc : w.pc = .lookup 0 := congrArg Prod.fst heq
    have hexit : w'.pc = .exited false := congrArg Prod.snd heq
    have hreach := (run_of_runTrace hrun).reaches
    refine ⟨s, hreach, thread, w, w', shared, hthread, hstep, hexit,
      (hsearch s hreach 0 thread w w' _ shared false hthread hstep hexit).mpr ?_⟩
    simp only [Searcher.Releases, hpc]

/-- An indexing thread that finds no memory, and a search thread that gets no match data,
leave their main threads spinning for good. -/
theorem failing_exits_strand :
    (∃ s, Reaches (fileStep lineFile lineIndexer) (fun _ _ => True) .start s ∧
      s.watching.map (fun thread => (thread.2.progress, thread.2.pc)) =
        some (0, .exited none) ∧ mainStep lineFile lineIndexer s = none) ∧
    ∃ s, Reaches (searchStep anyLine lineIndex oneBatch) (fun _ _ => True) .start s ∧
      s.crew.threads.map (fun thread => (thread.2.progress, thread.2.pc)) =
        [(0, .exited false)] ∧ s.pc = .watch 0 ∧
      searchMainStep lineIndex oneBatch s = none := by
  constructor
  · have hsummary : (runTrace (fileStep lineFile lineIndexer) (untilReturned [.fault])
        .start).map (fun run =>
          (run.2.watching.map fun thread => (thread.2.progress, thread.2.pc),
            (mainStep lineFile lineIndexer run.2).isNone)) =
        some (some (0, .exited none), true) := by
      decide +kernel
    obtain ⟨⟨trace, s⟩, hrun, hpair⟩ := Option.map_eq_some_iff.mp hsummary
    obtain ⟨hwatching, hstuck⟩ := Prod.mk.inj hpair
    exact ⟨s, (run_of_runTrace hrun).reaches, hwatching, Option.isNone_iff_eq_none.mp hstuck⟩
  · have hsummary : (runTrace (searchStep anyLine lineIndex oneBatch)
        [.proceed, .proceed, .proceed, .searcher 0 .fault] .start).map (fun run =>
          (run.2.crew.threads.map fun thread => (thread.2.progress, thread.2.pc), run.2.pc)) =
        some ([(0, .exited false)], .watch 0) := by
      decide +kernel
    obtain ⟨⟨trace, s⟩, hrun, hpair⟩ := Option.map_eq_some_iff.mp hsummary
    obtain ⟨hthreads, hpc⟩ := Prod.mk.inj hpair
    obtain ⟨thread, hthread, heq⟩ := List.map_eq_singleton_iff.mp hthreads
    have hzero : thread.2.progress = 0 := congrArg Prod.fst heq
    have hfirst : s.crew.threads[0]? = some thread := by
      rw [hthread]
      rfl
    have hstuck := isSome_searchMainStep_watch lineIndex oneBatch hpc hfirst
    refine ⟨s, (run_of_runTrace hrun).reaches, hthreads, hpc, ?_⟩
    rw [hzero] at hstuck
    exact Option.not_isSome_iff_eq_none.mp fun h => not_joinableProgress_le_zero (hstuck.mp h)

end Flashlight
