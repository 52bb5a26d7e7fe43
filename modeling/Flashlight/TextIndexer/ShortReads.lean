/-
# Short reads

A coroutine takes whatever its one `pread` delivers for the whole chunk. Nothing
compares the number of bytes that were read with the number that was asked for, and
so nothing that happens later notices a short read: when the call returns an index,
the bytes of all chunks have been examined exactly if no read was short.
-/

import Flashlight.TextIndexer.FileInvariant
import Flashlight.TextIndexer.Smooth

namespace Flashlight.TextIndexer

open Flashlight.Math Flashlight.Indexer
open scoped List

/-- The chunk is planned for the thread with this configuration, in window `itc`. -/
structure Planned (target : TargetFile) (indexer : FIndexer) (itc : ℕ) (config : FTextThread)
    (chunk : FIndexerChunk) : Prop where
  window : ∃ count, threadItCount (.ofNat target.bytes.length) indexer.maxBytesPerIteration =
    .ok count ∧ itc < count
  thread : ∃ it, windowPlan target indexer itc = .ok it ∧ config ∈ textThreads indexer it
  chunk : ∃ ic, config.plan = .ok ic ∧ chunk ∈ ic.chunks

/-- The scan of the chunk went through the byte at position `p`. -/
def FileRun.ExaminedAt (s : FileRun) (itc : ℕ) (config : FTextThread) (chunk : FIndexerChunk)
    (p : ℕ) : Prop :=
  ∃ threads w n, (itc, threads) ∈ s.history ∧ (config, w) ∈ threads ∧ (chunk, n) ∈ w.examined ∧
    chunk.fromOffset.toNat ≤ p ∧ p < chunk.fromOffset.toNat + n

/-- The scan of every planned chunk went through all of its bytes in the file. -/
def FileRun.AllExamined (target : TargetFile) (indexer : FIndexer) (s : FileRun) : Prop :=
  ∀ itc config chunk, Planned target indexer itc config chunk → ∀ p, chunk.Covers p →
    p < target.bytes.length → s.ExaminedAt itc config chunk p

/-- The step starts a coroutine whose `pread` does not deliver all bytes of the chunk in
the file. -/
def FileRun.ReadsShort (target : TargetFile) (s : FileRun) : FileAction → Prop
  | .worker t a => ∃ config w, s.threads[t]? = some (config, w) ∧ w.Skips target.bytes a
  | _ => False

/-- All threads, of the current window and of those that are done, scanned what was due. -/
structure FileRun.InFull (bytes : List UInt8) (s : FileRun) : Prop where
  threads : ∀ thread ∈ s.threads, thread.2.InFull bytes
  history : ∀ entry ∈ s.history, ∀ thread ∈ entry.2, thread.2.InFull bytes

/-- No scan of these threads stopped before the end of its chunk. -/
def ScannedAll (bytes : List UInt8) (threads : List TextThread) : Prop :=
  ∀ thread ∈ threads, ∀ entry ∈ thread.2.examined,
    entry.2 = (chunkBuffer bytes entry.1).length

section

variable {target : TargetFile} {indexer : FIndexer} {s s' : FileRun} {a : FileAction}
  {itc : ℕ} {threads : List TextThread} {config : FTextThread} {chunk : FIndexerChunk}

/-- A step of the main thread changes neither what the threads have examined nor what the
threads of earlier windows have. -/
theorem FileRun.Inv.threads_of_move (h : s.Inv target indexer)
    (hmove : FileMove target indexer s a s') (ha : ∀ t b, a ≠ .worker t b) :
    (s'.threads = s.threads ∧ s'.history = s.history) ∨
      (s.threads = [] ∧ (∀ thread ∈ s'.threads, thread.2 = .start) ∧ s'.history = s.history) ∨
      (s'.threads = [] ∧ ∃ itc, s'.history = s.history ++ [(itc, s.threads)]) := by
  have hstage := h.stage
  cases hmove with
  | opened _ _ => exact Or.inl ⟨rfl, rfl⟩
  | unopened _ _ _ => exact Or.inl ⟨rfl, rfl⟩
  | windowsDone _ => exact Or.inl ⟨rfl, rfl⟩
  | spawned hpc _ =>
      simp only [FileRun.Stage, hpc] at hstage
      refine Or.inr (Or.inl ⟨hstage.1, ?_, rfl⟩)
      intro thread hthread
      obtain ⟨config, -, rfl⟩ := List.mem_map.mp hthread
      rfl
  | unplanned _ _ _ => exact Or.inl ⟨rfl, rfl⟩
  | watched _ _ _ => exact Or.inl ⟨rfl, rfl⟩
  | allJoined _ _ => exact Or.inl ⟨rfl, rfl⟩
  | @joined itc i thread result _ _ _ =>
      left
      cases result with
      | none => exact ⟨rfl, rfl⟩
      | some ret =>
          rw [FileRun.joined]
          split <;> exact ⟨rfl, rfl⟩
  | @finished itc hpc =>
      simp only [FileRun.Stage, hpc] at hstage
      obtain ⟨heap, chunk, lookup, -, -, heq⟩ := h.exists_finished hstage.1
      rw [heq]
      exact Or.inr (Or.inr ⟨rfl, itc, rfl⟩)
  | closed _ => exact Or.inl ⟨rfl, rfl⟩
  | fault _ => exact Or.inl ⟨rfl, rfl⟩
  | worker _ _ => exact absurd rfl (ha _ _)

/-- What was scanned in full at the end of a step was so before, and the step did not
read short. -/
theorem FileRun.Inv.inFull_of_move (h : s.Inv target indexer)
    (hmove : FileMove target indexer s a s') (hfull : s'.InFull target.bytes) :
    s.InFull target.bytes ∧ ¬ s.ReadsShort target a := by
  by_cases ha : ∃ t b, a = .worker t b
  · obtain ⟨t, b, rfl⟩ := ha
    cases hmove with
    | @worker _ _ config w w' heap hthread hmove =>
        obtain ⟨-, hw⟩ := h.threads t _ hthread
        have ht := (List.getElem?_eq_some_iff.mp hthread).1
        obtain ⟨hfull', hskip⟩ := hw.inFull_of_move hmove
          (hfull.threads (config, w') (List.mem_of_getElem? (List.getElem?_set_self ht)))
        refine ⟨⟨fun thread hmem => ?_, hfull.history⟩, ?_⟩
        · obtain ⟨u, hu⟩ := List.getElem?_of_mem hmem
          by_cases hne : t = u
          · subst hne
            obtain rfl : (config, w) = thread := Option.some.inj (hthread.symm.trans hu)
            exact hfull'
          · have hget : (s.threads.set t (config, w'))[u]? = some thread := by
              rw [List.getElem?_set_ne hne, hu]
            exact hfull.threads thread (List.mem_of_getElem? hget)
        · rintro ⟨config', w'', hthread', hskip'⟩
          obtain ⟨rfl, rfl⟩ := Prod.mk.inj (Option.some.inj (hthread.symm.trans hthread'))
          exact hskip hskip'
  · have ha' : ∀ t b, a ≠ .worker t b := fun t b heq => ha ⟨t, b, heq⟩
    refine ⟨?_, ?_⟩
    · rcases h.threads_of_move hmove ha' with ⟨hthreads, hhistory⟩ | ⟨hnil, -, hhistory⟩ |
        ⟨hnil, itc, hhistory⟩
      · exact ⟨by rw [← hthreads]; exact hfull.threads, by rw [← hhistory]; exact hfull.history⟩
      · exact ⟨by simp [hnil], by rw [← hhistory]; exact hfull.history⟩
      · have hhist := hfull.history
        rw [hhistory] at hhist
        exact ⟨hhist (itc, s.threads) (List.mem_append_right _ (List.mem_singleton.mpr rfl)),
          fun entry hentry => hhist entry (List.mem_append_left _ hentry)⟩
    · cases a with
      | proceed => exact id
      | fault => exact id
      | worker t b => exact absurd rfl (ha' t b)

/-- A step that does not read short keeps all scans complete. -/
theorem FileRun.Inv.scannedAll_of_move (h : s.Inv target indexer)
    (hmove : FileMove target indexer s a s') (hshort : ¬ s.ReadsShort target a)
    (hscanned : ScannedAll target.bytes s.threads ∧
      ∀ entry ∈ s.history, ScannedAll target.bytes entry.2) :
    ScannedAll target.bytes s'.threads ∧
      ∀ entry ∈ s'.history, ScannedAll target.bytes entry.2 := by
  obtain ⟨hthreads, hhistory⟩ := hscanned
  by_cases ha : ∃ t b, a = .worker t b
  · obtain ⟨t, b, rfl⟩ := ha
    cases hmove with
    | @worker _ _ config w w' heap hthread hmove =>
        refine ⟨fun thread hmem => ?_, hhistory⟩
        rcases List.mem_or_eq_of_mem_set hmem with hmem | rfl
        · exact hthreads thread hmem
        · obtain ⟨-, hw⟩ := h.threads t _ hthread
          exact hw.scanned_eq_of_move hmove (fun hskip => hshort ⟨config, w, hthread, hskip⟩)
            (hthreads (config, w) (List.mem_of_getElem? hthread))
  · rcases h.threads_of_move hmove (fun t b heq => ha ⟨t, b, heq⟩) with
      ⟨hthreads', hhistory'⟩ | ⟨-, hstart, hhistory'⟩ | ⟨hnil, itc, hhistory'⟩
    · exact ⟨by rw [hthreads']; exact hthreads, by rw [hhistory']; exact hhistory⟩
    · refine ⟨fun thread hthread => ?_, by rw [hhistory']; exact hhistory⟩
      rw [hstart thread hthread]
      simp [Worker.start]
    · refine ⟨by simp [ScannedAll, hnil], fun entry hentry => ?_⟩
      rw [hhistory'] at hentry
      rcases List.mem_append.mp hentry with hentry | hentry
      · exact hhistory entry hentry
      · rw [List.mem_singleton.mp hentry]
        exact hthreads

/-- In a window that is done, every planned chunk was scanned by its thread, once. -/
theorem WindowDone.exists_examined (h : WindowDone target indexer itc threads)
    (hplanned : Planned target indexer itc config chunk) :
    ∃ w n, (config, w) ∈ threads ∧ (chunk, n) ∈ w.examined := by
  obtain ⟨it, hplan, hconfigs⟩ := h.threadsOf
  obtain ⟨it', hplan', hconfig⟩ := hplanned.thread
  obtain rfl : it = it' := Except.ok.inj (hplan.symm.trans hplan')
  rw [← hconfigs] at hconfig
  obtain ⟨⟨config', w⟩, hthread, rfl⟩ := List.mem_map.mp hconfig
  obtain ⟨heap, ret, hdone⟩ := h.done _ hthread
  obtain ⟨ic, hic, hw, hwritten⟩ := hdone.written_eq
  obtain ⟨ic', hic', hchunk⟩ := hplanned.chunk
  obtain rfl : ic = ic' := Except.ok.inj (hic.symm.trans hic')
  obtain ⟨k, hk⟩ := List.getElem?_of_mem hchunk
  have hindex : k ∈ w.examined.map fun entry => entry.1.index.toNat := by
    rw [(hw.complete hwritten).2.1, List.mem_range]
    exact (List.getElem?_eq_some_iff.mp hk).1
  obtain ⟨⟨chunk', n⟩, hentry, heq⟩ := List.mem_map.mp hindex
  have hget := (hw.planned _ hentry).1
  rw [show chunk'.index.toNat = k from heq, hk] at hget
  obtain rfl : chunk = chunk' := Option.some.inj hget
  exact ⟨w, n, hthread, hentry⟩

/-- When all bytes are examined, no scan stopped early. -/
theorem FileRun.inFull_of_allExamined {index : FIndex} (h : s.Inv target indexer)
    (hpc : s.pc = .returned (some index)) (hall : s.AllExamined target indexer) :
    s.InFull target.bytes := by
  obtain ⟨hnil, hpast, -, -⟩ := h.returned hpc
  refine ⟨by simp [hnil], ?_⟩
  rintro ⟨itc, threads⟩ hentry ⟨config, w⟩ hthread
  have hdone := hpast.done _ hentry
  obtain ⟨heap, ret, hthreadDone⟩ := hdone.done _ hthread
  obtain ⟨ic, hic, hw, hwritten⟩ := hthreadDone.written_eq
  refine ⟨?_, ?_⟩
  · have hlength := congrArg List.length (hw.complete hwritten).2.1
    rw [List.length_map, List.length_range] at hlength
    have hpc : w.pc = .exited (some ret) := hthreadDone.pc_eq
    have hic : w.ic = ic.chunks := hw.ic_eq
    simp only [Worker.started, hpc, hic, hlength]
  · rintro ⟨chunk, n⟩ hchunk
    obtain ⟨hget, -, hle⟩ := hw.planned _ hchunk
    have hplanned : Planned target indexer itc config chunk := by
      obtain ⟨count, hcount, -⟩ := hpast.windows
      obtain ⟨it, hplan, hconfigs⟩ := hdone.threadsOf
      have hitc := (hpast.mem_history hcount).mp (List.mem_map_of_mem hentry)
      refine ⟨⟨count, hcount, hitc.2⟩, ⟨it, hplan, ?_⟩, ic, hic, List.mem_of_getElem? hget⟩
      rw [← hconfigs]
      exact List.mem_map_of_mem hthread
    by_contra hshort
    have hlength := length_chunkBuffer target.bytes chunk
    simp only at hle hshort
    -- the first byte that the scan did not reach
    obtain ⟨threads', w', n', hentry', hthread', hchunk', -, hlt⟩ := hall itc config chunk hplanned
      (chunk.fromOffset.toNat + n) ⟨by omega, by omega⟩ (by omega)
    obtain rfl : threads = threads' := hpast.eq_of_mem hentry hentry'
    obtain rfl : w = w' := hdone.threadsOf.eq_of_mem hthread hthread'
    have hsame : (chunk, n) = (chunk, n') := by
      have hself := hw.examined_getElem? hwritten hchunk
      exact Option.some.inj (hself.symm.trans (hw.examined_getElem? hwritten hchunk'))
    obtain rfl : n = n' := congrArg Prod.snd hsame
    omega

/-- **Short reads go unnoticed.** In a run that returns an index, the bytes of all planned
chunks were examined exactly if no read of the run was short. -/
theorem allExamined_iff {trace : List (FileRun × FileAction)} {index : FIndex}
    (hrun : Run (fileStep target indexer) .start trace s)
    (hreturned : s.pc = .returned (some index)) :
    s.AllExamined target indexer ↔ ∀ move ∈ trace, ¬ move.1.ReadsShort target move.2 := by
  have hinv := (FileRun.inv_start target indexer).of_run hrun
  have hstep : ∀ (s : FileRun) a s', s.Inv target indexer →
      fileStep target indexer a s = some s' → s'.Inv target indexer :=
    fun _ _ _ h hstep => h.step (fileMove_of_step hstep)
  constructor
  · intro hall
    have hback : ∀ (s : FileRun) a s', s.Inv target indexer → True →
        fileStep target indexer a s = some s' → s'.InFull target.bytes →
        s.InFull target.bytes ∧ ¬ (s, a).1.ReadsShort target (s, a).2 :=
      fun _ _ _ h _ hstep hfull => h.inFull_of_move (fileMove_of_step hstep) hfull
    exact (hrun.backward (fun _ _ => trivial) (FileRun.inv_start target indexer)
      (fun s a s' h _ => hstep s a s' h) hback
      (FileRun.inFull_of_allExamined hinv hreturned hall)).2
  · intro hshort
    have hkeep : ∀ (s : FileRun) a s', s.Inv target indexer ∧ ScannedAll target.bytes s.threads ∧
        (∀ entry ∈ s.history, ScannedAll target.bytes entry.2) →
        ¬ (s, a).1.ReadsShort target (s, a).2 → fileStep target indexer a s = some s' →
        s'.Inv target indexer ∧ ScannedAll target.bytes s'.threads ∧
          ∀ entry ∈ s'.history, ScannedAll target.bytes entry.2 := by
      rintro s a s' ⟨h, hscanned⟩ hok hmove
      exact ⟨hstep s a s' h hmove, h.scannedAll_of_move (fileMove_of_step hmove) hok hscanned⟩
    obtain ⟨-, -, hscanned⟩ := hrun.invariant hshort
      ⟨FileRun.inv_start target indexer, by simp [ScannedAll, FileRun.start],
        by simp [FileRun.start]⟩ hkeep
    obtain ⟨-, hpast, -, -⟩ := hinv.returned hreturned
    intro itc config chunk hplanned p hcovers hp
    obtain ⟨count, hcount, hitc⟩ := hplanned.window
    obtain ⟨threads, hentry⟩ := hpast.exists_threads hcount (Nat.zero_le itc) hitc
    obtain ⟨w, n, hthread, hchunk⟩ := (hpast.done _ hentry).exists_examined hplanned
    have hn := hscanned _ hentry _ hthread _ hchunk
    rw [length_chunkBuffer] at hn
    obtain ⟨hlow, hhigh⟩ := hcovers
    simp only at hn
    exact ⟨threads, w, n, hentry, hthread, hchunk, hlow, by omega⟩

end

/-- Indexing `lineFile` with a full read. -/
theorem allExamined_iff_line : ∃ trace s, Run (fileStep lineFile lineIndexer) .start trace s ∧
    s.pc = .returned (some ⟨lineFile, ⟨sizeBytes 2 ++ sizeBytes 0, 2⟩⟩) ∧
    (s.AllExamined lineFile lineIndexer ↔
      ∀ move ∈ trace, ¬ move.1.ReadsShort lineFile move.2) := by
  have hsummary : (runTrace (fileStep lineFile lineIndexer) (lineActions (some 2)) .start).map
      (fun run => run.2.summary) =
      some (some ⟨sizeBytes 2 ++ sizeBytes 0, 2⟩, [(⟨0, 0, 2⟩, 2)]) := by decide +kernel
  obtain ⟨trace, s, hrun, hpc, -⟩ := exists_run_of_summary hsummary
  exact ⟨trace, s, hrun, hpc, allExamined_iff hrun hpc⟩

/-- The read of `lineFile` delivers nothing, and yet an index is returned: an empty
table. -/
theorem shortRead_unnoticed : ¬ ∀ (target : TargetFile) (indexer : FIndexer) trace s index,
    Run (fileStep target indexer) .start trace s → s.pc = .returned (some index) →
    s.AllExamined target indexer := by
  intro halways
  have hsummary : (runTrace (fileStep lineFile lineIndexer) (lineActions (some 0)) .start).map
      (fun run => run.2.summary) = some (some ⟨sizeBytes 0, 1⟩, [(⟨0, 0, 2⟩, 0)]) := by
    decide +kernel
  obtain ⟨trace, s, hrun, hpc, hexamined⟩ := exists_run_of_summary hsummary
  have hfull := FileRun.inFull_of_allExamined ((FileRun.inv_start _ _).of_run hrun) hpc
    (halways _ _ _ _ _ hrun hpc)
  have hmem : (⟨0, 0, 2⟩, 0) ∈ s.examined := by
    rw [hexamined]
    exact List.mem_singleton.mpr rfl
  obtain ⟨entry, hentry, hmem⟩ := List.mem_flatMap.mp hmem
  obtain ⟨thread, hthread, hmem⟩ := List.mem_flatMap.mp hmem
  exact absurd ((hfull.history entry hentry thread hthread).scanned_eq _ hmem) (by decide)

end Flashlight.TextIndexer
