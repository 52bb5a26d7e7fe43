/-
# Windows that fit into a buffer

The indexer goes wrong where a window is divided: threads leave gaps between their ranges, and a
list of newlines that is alone among empty ones is lost. A window that fits into one buffer is not
divided. It has one thread with one chunk, whatever the configured numbers of threads and
coroutines are, so the index of such a configuration is exact for every file that is not empty and
whose lines an `unsigned int` can count.
-/

import Flashlight.IndexLookup
import Flashlight.TextIndexer.LineCounts
import Flashlight.TextIndexer.Termination

namespace Flashlight.TextIndexer

open Flashlight.Math Flashlight.Indexer

/-- A file with something to index, and a configuration whose buffer holds a window. -/
structure BuffersWindows (target : TargetFile) (indexer : FIndexer) : Prop where
  nonempty : 0 < target.bytes.length
  length_lt : target.bytes.length < 2 ^ 53
  threads : 1 ≤ indexer.threads.toInt
  concurrency : 1 ≤ indexer.concurrency.toInt
  window : 1 ≤ indexer.maxBytesPerIteration.toNat
  buffer : indexer.maxBytesPerIteration.toNat ≤ indexer.bufferSize.toNat
  /-- The platform transfers a window at once. -/
  transfer : indexer.maxBytesPerIteration.toNat ≤ maxTransfer
  buffer_lt : indexer.bufferSize.toNat < 2 ^ 53
  windows_lt : target.bytes.length ⌈/⌉ indexer.maxBytesPerIteration.toNat < 2 ^ 31

instance (target : TargetFile) (indexer : FIndexer) : Decidable (BuffersWindows target indexer) :=
  decidable_of_iff (0 < target.bytes.length ∧ target.bytes.length < 2 ^ 53 ∧
      1 ≤ indexer.threads.toInt ∧ 1 ≤ indexer.concurrency.toInt ∧
      1 ≤ indexer.maxBytesPerIteration.toNat ∧
      indexer.maxBytesPerIteration.toNat ≤ indexer.bufferSize.toNat ∧
      indexer.maxBytesPerIteration.toNat ≤ maxTransfer ∧ indexer.bufferSize.toNat < 2 ^ 53 ∧
      target.bytes.length ⌈/⌉ indexer.maxBytesPerIteration.toNat < 2 ^ 31)
    ⟨fun ⟨h₁, h₂, h₃, h₄, h₅, h₆, h₇, h₈, h₉⟩ => ⟨h₁, h₂, h₃, h₄, h₅, h₆, h₇, h₈, h₉⟩,
      fun ⟨h₁, h₂, h₃, h₄, h₅, h₆, h₇, h₈, h₉⟩ => ⟨h₁, h₂, h₃, h₄, h₅, h₆, h₇, h₈, h₉⟩⟩

/-- The only thread of a window. -/
def windowThread (target : TargetFile) (indexer : FIndexer) (itc : ℕ) : FTextThread where
  fromOffset := threadItStart indexer.maxBytesPerIteration itc
  toOffset := localMaxBytes (.ofNat target.bytes.length) indexer.maxBytesPerIteration itc +
    threadItStart indexer.maxBytesPerIteration itc
  totalBytesCount := indexer.maxBytesPerIteration
  bufferSize := indexer.bufferSize
  concurrency := indexer.concurrency
  thread := 0

/-- Its only chunk is the window. -/
def windowChunk (target : TargetFile) (indexer : FIndexer) (itc : ℕ) : FIndexerChunk :=
  plainChunk (windowStart target.bytes.length indexer.maxBytesPerIteration.toNat itc)
    (windowStart target.bytes.length indexer.maxBytesPerIteration.toNat (itc + 1))
    indexer.bufferSize.toNat 0

section

variable {target : TargetFile} {indexer : FIndexer} {itc : ℕ}

/-- A window is not empty, and no longer than a buffer. -/
theorem BuffersWindows.window_bounds (h : BuffersWindows target indexer)
    (hitc : itc < windowCount target.bytes.length indexer.maxBytesPerIteration.toNat) :
    windowStart target.bytes.length indexer.maxBytesPerIteration.toNat itc <
        windowStart target.bytes.length indexer.maxBytesPerIteration.toNat (itc + 1) ∧
      windowStart target.bytes.length indexer.maxBytesPerIteration.toNat (itc + 1) ≤
        windowStart target.bytes.length indexer.maxBytesPerIteration.toNat itc +
          indexer.maxBytesPerIteration.toNat ∧
      windowStart target.bytes.length indexer.maxBytesPerIteration.toNat (itc + 1) ≤
        target.bytes.length := by
  have hwindow := h.window
  have hnonempty := h.nonempty
  have hpos : 0 < target.bytes.length ⌈/⌉ indexer.maxBytesPerIteration.toNat :=
    (lt_ceilDiv_iff hwindow).mpr (by omega)
  rw [windowCount] at hitc
  have hlt := (lt_ceilDiv_iff hwindow).mp
    (show itc < target.bytes.length ⌈/⌉ indexer.maxBytesPerIteration.toNat by omega)
  rw [Nat.mul_comm] at hlt
  rw [windowStart, windowStart, Nat.succ_mul]
  omega

theorem BuffersWindows.windowConfigs_eq (h : BuffersWindows target indexer)
    (hitc : itc < windowCount target.bytes.length indexer.maxBytesPerIteration.toNat) :
    (∃ it, windowPlan target indexer itc = .ok it) ∧
      windowConfigs target indexer itc = [windowThread target indexer itc] := by
  obtain ⟨hlt, hle, hend⟩ := h.window_bounds hitc
  have hlength := h.length_lt
  have hbuffer := h.buffer
  have hthreads := h.threads
  obtain ⟨hstart, hsize⟩ :=
    windowStart_eq hlength h.window (h.buffer.trans_lt h.buffer_lt) hitc
  have hceil : (localMaxBytes (.ofNat target.bytes.length) indexer.maxBytesPerIteration
      itc).toNat ⌈/⌉ indexer.bufferSize.toNat = 1 := ceilDiv_eq_one (by omega) (by omega)
  obtain ⟨it, hit, hloop⟩ := fIndexerThreadsInit_eq_ok indexer.threads
    (threadItStart indexer.maxBytesPerIteration itc) (show 0 < indexer.threads.toInt by omega)
    (show 0 < (localMaxBytes (.ofNat target.bytes.length) indexer.maxBytesPerIteration
      itc).toNat by omega) (by omega) (show 0 < indexer.bufferSize.toNat by omega) h.buffer_lt
    (by omega)
  have hone : threadCount indexer.threads (localMaxBytes (.ofNat target.bytes.length)
      indexer.maxBytesPerIteration itc).toNat indexer.bufferSize.toNat = 1 := by
    rw [threadCount, hceil]
    omega
  rw [hone, Nat.div_one, show (1 : ℕ) = 1 + 0 from rfl,
    threadsLoop_of_fits (by omega) 0 (by omega), threadsLoop, List.append_nil] at hloop
  refine ⟨⟨it, hit⟩, ?_⟩
  have hplan : windowPlan target indexer itc = .ok it := hit
  simp only [windowConfigs, hplan, textThreads, hloop]
  simp [plainThread, textThread, windowThread]

/-- The thread has one chunk and one coroutine. -/
theorem BuffersWindows.plan_windowThread (h : BuffersWindows target indexer)
    (hitc : itc < windowCount target.bytes.length indexer.maxBytesPerIteration.toNat) :
    ∃ ic, (windowThread target indexer itc).plan = .ok ic ∧
      ic.chunks = [windowChunk target indexer itc] ∧ ic.concurrency.toInt = 1 := by
  obtain ⟨hlt, hle, hend⟩ := h.window_bounds hitc
  have hlength := h.length_lt
  have hbuffer := h.buffer
  have hbuffer' := h.buffer_lt
  have hconcurrency := h.concurrency
  obtain ⟨hstart, hsize⟩ :=
    windowStart_eq hlength h.window (h.buffer.trans_lt h.buffer_lt) hitc
  have hto : (windowThread target indexer itc).toOffset.toNat =
      windowStart target.bytes.length indexer.maxBytesPerIteration.toNat (itc + 1) := by
    rw [windowThread, UInt64.toNat_add]
    omega
  have hfrom : (windowThread target indexer itc).fromOffset.toNat =
      windowStart target.bytes.length indexer.maxBytesPerIteration.toNat itc := hstart
  have hceil : ((windowThread target indexer itc).toOffset.toNat -
      (windowThread target indexer itc).fromOffset.toNat) ⌈/⌉ indexer.bufferSize.toNat = 1 :=
    ceilDiv_eq_one (by omega) (by omega)
  obtain ⟨ic, hplan, hchunks, hclamp⟩ := fIndexerChunksInit_eq_ok indexer.concurrency
    indexer.maxBytesPerIteration
    (show (windowThread target indexer itc).fromOffset.toNat ≤
      (windowThread target indexer itc).toOffset.toNat by omega)
    (by omega) (show 0 < indexer.bufferSize.toNat by omega) hbuffer' (by omega) (by omega)
  rw [hceil, hfrom, hto] at hchunks
  rw [hceil] at hclamp
  refine ⟨ic, hplan, hchunks, ?_⟩
  rw [hclamp, toInt_clampCount (by omega) (by decide)]
  have hone : (UInt32.ofNat 1).toNat = 1 := rfl
  omega

theorem BuffersWindows.chunks_windowThread (h : BuffersWindows target indexer)
    (hitc : itc < windowCount target.bytes.length indexer.maxBytesPerIteration.toNat) :
    (windowThread target indexer itc).chunks = [windowChunk target indexer itc] := by
  obtain ⟨ic, hplan, hchunks, -⟩ := h.plan_windowThread hitc
  rw [chunks_eq hplan, hchunks]

/-- The chunk is the window. -/
theorem BuffersWindows.chunkBuffer_eq (h : BuffersWindows target indexer)
    (hitc : itc < windowCount target.bytes.length indexer.maxBytesPerIteration.toNat) :
    (windowChunk target indexer itc).fromOffset.toNat =
        windowStart target.bytes.length indexer.maxBytesPerIteration.toNat itc ∧
      chunkBuffer target.bytes (windowChunk target indexer itc) =
        slice target.bytes
          (windowStart target.bytes.length indexer.maxBytesPerIteration.toNat itc)
          (windowStart target.bytes.length indexer.maxBytesPerIteration.toNat (itc + 1)) := by
  obtain ⟨hlt, hle, hend⟩ := h.window_bounds hitc
  have hlength := h.length_lt
  have hbuffer := h.buffer
  have hbuffer' := h.buffer_lt
  constructor
  · rw [windowChunk, toNat_fromOffset_plainChunk (by omega), Nat.zero_mul, Nat.add_zero]
  · rw [windowChunk, chunkBuffer_plainChunk (by omega) (by omega) (by omega)]
    congr 1 <;> omega

/-- The threads of all windows can come to their ends. -/
theorem BuffersWindows.completable (h : BuffersWindows target indexer) :
    Completable target indexer
      (windowCount target.bytes.length indexer.maxBytesPerIteration.toNat) := by
  refine ⟨fun itc hitc => (h.windowConfigs_eq hitc).1, fun itc hitc config hconfig => ?_⟩
  rw [(h.windowConfigs_eq hitc).2, List.mem_singleton] at hconfig
  subst hconfig
  obtain ⟨ic, hplan, hchunks, hconcurrency⟩ := h.plan_windowThread hitc
  obtain ⟨hlt, hle, hend⟩ := h.window_bounds hitc
  have hlength := h.length_lt
  have htransfer := h.transfer
  refine ⟨ic, hplan, fun i hi _ => ?_, by omega, by simp [hchunks], fun chunk hchunk => ?_⟩
  · rw [hchunks, List.length_singleton] at hi
    omega
  · rw [hchunks, List.mem_singleton] at hchunk
    subst hchunk
    obtain ⟨hfrom, hbuffer⟩ := h.chunkBuffer_eq hitc
    rw [hfrom, hbuffer, length_slice]
    omega

/-- The chunks of the plan are the windows. -/
theorem BuffersWindows.plannedChunks_eq (h : BuffersWindows target indexer) :
    plannedChunks target indexer
        (windowCount target.bytes.length indexer.maxBytesPerIteration.toNat) =
      (List.range (windowCount target.bytes.length indexer.maxBytesPerIteration.toNat)).map
        (windowChunk target indexer) := by
  rw [plannedChunks, ← List.flatMap_singleton' (List.map _ _), List.flatMap_map]
  refine List.flatMap_congr fun itc hitc => ?_
  rw [(h.windowConfigs_eq (List.mem_range.mp hitc)).2, List.flatMap_singleton,
    h.chunks_windowThread (List.mem_range.mp hitc)]

theorem BuffersWindows.chunkEnds_eq (h : BuffersWindows target indexer)
    (hitc : itc < windowCount target.bytes.length indexer.maxBytesPerIteration.toNat) :
    chunkEnds target.bytes (windowChunk target indexer itc) =
      windowEnds target.bytes indexer.maxBytesPerIteration.toNat itc := by
  obtain ⟨hfrom, hbuffer⟩ := h.chunkBuffer_eq hitc
  rw [chunkEnds, hfrom, hbuffer, windowEnds]

/-- Each window is read by a thread of its own, from one end of the file to the other. -/
theorem BuffersWindows.readsInOrder (h : BuffersWindows target indexer) :
    ReadsInOrder target indexer
      (windowCount target.bytes.length indexer.maxBytesPerIteration.toNat) where
  covered e he := by
    rw [← flatMap_windowEnds h.window] at he
    obtain ⟨itc, hitc, hmem⟩ := List.mem_flatMap.mp he
    refine ⟨windowChunk target indexer itc, ?_, ?_⟩
    · rw [h.plannedChunks_eq]
      exact List.mem_map_of_mem hitc
    · rwa [h.chunkEnds_eq (List.mem_range.mp hitc)]
  ascending := by
    rw [h.plannedChunks_eq, List.pairwise_map]
    refine List.pairwise_lt_range.imp_of_mem fun {i j} hi hj hlt d hd e he => ?_
    rw [h.chunkEnds_eq (List.mem_range.mp hi), windowEnds] at hd
    rw [h.chunkEnds_eq (List.mem_range.mp hj), windowEnds] at he
    have hupper := (mem_sepEnds_slice.mp hd).2.2
    have hlower := (mem_sepEnds_slice.mp he).2.1
    have hmono := monotone_windowStart target.bytes.length indexer.maxBytesPerIteration.toNat
      (show i + 1 ≤ j from hlt)
    omega
  chunks itc hitc config hconfig := by
    rw [(h.windowConfigs_eq hitc).2, List.mem_singleton] at hconfig
    subst hconfig
    rw [h.chunks_windowThread hitc]
    exact Or.inl rfl
  threads itc hitc := by
    rw [(h.windowConfigs_eq hitc).2]
    exact Or.inl rfl

theorem BuffersWindows.threadItCount_eq (h : BuffersWindows target indexer) :
    threadItCount (.ofNat target.bytes.length) indexer.maxBytesPerIteration =
      .ok (windowCount target.bytes.length indexer.maxBytesPerIteration.toNat) := by
  have hnat := target.toNat_length
  have hcount := TextIndexer.threadItCount_eq (by rw [hnat]; exact h.length_lt) h.window
    (h.buffer.trans_lt h.buffer_lt) (by rw [hnat]; exact h.windows_lt)
  rwa [hnat] at hcount

theorem BuffersWindows.indexable (h : BuffersWindows target indexer) :
    Indexable target indexer :=
  ⟨_, h.threadItCount_eq, fun _ hitc _ => h.completable.windowDefined hitc, fun _ => h.readsInOrder⟩

/-- **Total correctness for windows that fit.** When nothing goes wrong, every schedule of a call
whose buffer holds a window ends. It ends with the exact index of the file, and line by line the
index gives the file back up to its last newline. -/
theorem windows_delivered (h : BuffersWindows target indexer)
    (hnewlines : newlineCount target.bytes < 2 ^ 32 - 1) :
    Terminates (fileStep target indexer) (FileRun.Smooth target) .start ∧
      ∀ s, Reaches (fileStep target indexer) (FileRun.Smooth target) .start s →
        Stuck (fileStep target indexer) (FileRun.Smooth target) s →
          ∃ index, s.pc = .returned (some index) ∧ index.target = target ∧ index.Exact ∧
            ∀ env : ℕ → LookupEnv, (∀ i, (env i).Reliable index) →
              readLineByLine env index =
                slice target.bytes 0 (lineOffset target.bytes (newlineCount target.bytes)) := by
  refine ⟨h.completable.terminates h.threadItCount_eq, fun s hreach hstuck => ?_⟩
  obtain ⟨hundisturbed, index, hpc⟩ :=
    h.completable.returned_of_stuck h.threadItCount_eq hreach hstuck
  obtain ⟨rfl, hexact⟩ := hundisturbed.exact h.indexable hnewlines hpc
  exact ⟨index, hpc, rfl, hexact, fun env henv => readLineByLine_eq hexact henv⟩

/-! ## One index for all configurations -/

/-- **The configuration does not show.** Calls in which nothing goes wrong return the same index of
a file, whatever their schedules and their numbers of threads and coroutines, the sizes of their
buffers and of their windows are. -/
theorem index_independent {indexer₁ indexer₂ : FIndexer} (hindexable₁ : Indexable target indexer₁)
    (hindexable₂ : Indexable target indexer₂) {s₁ s₂ : FileRun} {index₁ index₂ : FIndex}
    (hreach₁ : Reaches (fileStep target indexer₁) (FileRun.Smooth target) .start s₁)
    (hreach₂ : Reaches (fileStep target indexer₂) (FileRun.Smooth target) .start s₂)
    (hpc₁ : s₁.pc = .returned (some index₁)) (hpc₂ : s₂.pc = .returned (some index₂)) :
    index₁ = index₂ := by
  obtain ⟨count₁, hcount₁, hdefined₁, -⟩ := id hindexable₁
  obtain ⟨count₂, hcount₂, hdefined₂, -⟩ := id hindexable₂
  have h₁ := FileRun.undisturbed_of_reaches hcount₁ hdefined₁ hreach₁
  have h₂ := FileRun.undisturbed_of_reaches hcount₂ hdefined₂ hreach₂
  exact (h₁.index_eq hindexable₁ hpc₁).trans (h₂.index_eq hindexable₂ hpc₂).symm

end

/-- A configuration with windows of one byte. -/
def bytewiseIndexer : FIndexer :=
  { lineIndexer with maxBytesPerIteration := 1 }

theorem buffersWindows_lineFile :
    BuffersWindows lineFile lineIndexer ∧ BuffersWindows lineFile bytewiseIndexer := by
  decide +kernel

/-- The small file, indexed byte by byte and read back line by line. -/
theorem windows_delivered_line :
    Terminates (fileStep lineFile bytewiseIndexer) (FileRun.Smooth lineFile) .start ∧
      ∀ s, Reaches (fileStep lineFile bytewiseIndexer) (FileRun.Smooth lineFile) .start s →
        Stuck (fileStep lineFile bytewiseIndexer) (FileRun.Smooth lineFile) s →
          ∃ index, s.pc = .returned (some index) ∧ index.target = lineFile ∧ index.Exact ∧
            ∀ env : ℕ → LookupEnv, (∀ i, (env i).Reliable index) →
              readLineByLine env index = lineFile.bytes := by
  obtain ⟨hends, hindex⟩ := windows_delivered buffersWindows_lineFile.2 (by decide)
  refine ⟨hends, fun s hreach hstuck => ?_⟩
  obtain ⟨index, hpc, htarget, hexact, hread⟩ := hindex s hreach hstuck
  exact ⟨index, hpc, htarget, hexact, fun env henv => (hread env henv).trans (by decide +kernel)⟩

/-- The small file as a whole and byte by byte. -/
theorem index_independent_line : ∃ s₁ s₂ index₁ index₂,
    Reaches (fileStep lineFile lineIndexer) (FileRun.Smooth lineFile) .start s₁ ∧
    Reaches (fileStep lineFile bytewiseIndexer) (FileRun.Smooth lineFile) .start s₂ ∧
    s₁.pc = .returned (some index₁) ∧ s₂.pc = .returned (some index₂) ∧ index₁ = index₂ := by
  obtain ⟨h₁, h₂⟩ := buffersWindows_lineFile
  obtain ⟨s₁, index₁, hreach₁, hpc₁⟩ := exists_returned h₁.threadItCount_eq h₁.completable
  obtain ⟨s₂, index₂, hreach₂, hpc₂⟩ := exists_returned h₂.threadItCount_eq h₂.completable
  exact ⟨s₁, s₂, index₁, index₂, hreach₁, hreach₂, hpc₁, hpc₂, index_independent h₁.indexable
    h₂.indexable hreach₁ hreach₂ hpc₁ hpc₂⟩

end Flashlight.TextIndexer
