/-
# The batch loop

The batch loop of `f_index_text_chunk` ends, and in whatever order the messages of a
batch arrive it ends with the same array: every slot has been written once and holds
the scan of its chunk, and the newlines of all chunks have been counted.
-/

import Flashlight.Indexer.Clamping
import Flashlight.TextIndexer.Smooth

namespace Flashlight.TextIndexer

open Flashlight.Math Flashlight.Indexer
open scoped List

/-! ## The counter of the batches -/

/-- A counter that advances stays an `int` exactly if the chunks, rounded up to whole batches, are
fewer than `2 ^ 31`. -/
theorem countsOn_iff {ic : FIndexerChunks} (hpos : 0 < ic.concurrency.toInt.toNat) :
    CountsOn ic ↔
      ic.chunks.length ⌈/⌉ ic.concurrency.toInt.toNat * ic.concurrency.toInt.toNat < 2 ^ 31 := by
  set c := ic.concurrency.toInt.toNat
  set batches := ic.chunks.length ⌈/⌉ c with hbatches
  constructor
  · intro h
    rcases Nat.eq_zero_or_pos batches with hzero | hsome
    · simp [hzero]
    · have hlast : c * (batches - 1) < ic.chunks.length := (lt_ceilDiv_iff hpos).mp (by omega)
      calc batches * c
        _ = c * (batches - 1) + c := by
          rw [← Nat.mul_add_one, Nat.sub_add_cancel hsome, Nat.mul_comm]
        _ < 2 ^ 31 := h _ hlast (Nat.dvd_mul_right _ _)
  · rintro h i hi ⟨k, rfl⟩
    have hk : k < batches := (lt_ceilDiv_iff hpos).mpr hi
    calc c * k + c
      _ = (k + 1) * c := by rw [Nat.mul_comm, Nat.add_one_mul]
      _ ≤ batches * c := Nat.mul_le_mul_right c hk
      _ < 2 ^ 31 := h

/-- With a clamped concurrency `i += ic->concurrency` advances, and as long as there are at most
`2 ^ 30` chunks it does not overflow. -/
theorem countsOn_of_chunksClamped {concurrency : Int32}
    {bufferSize totalBytes fromOffset toOffset : UInt64}
    (h : ChunksClamped concurrency bufferSize totalBytes fromOffset toOffset) :
    ∃ ic, fIndexerChunksInit concurrency bufferSize totalBytes fromOffset toOffset = .ok ic ∧
      0 < ic.concurrency.toInt.toNat ∧ (ic.chunks.length ≤ 2 ^ 30 → CountsOn ic) := by
  obtain ⟨ic, hic, hlow, hhigh⟩ := h
  refine ⟨ic, hic, by omega, fun hfew i hi _ => ?_⟩
  have hlen := ic.len_eq
  omega

/-! ## Termination -/

/-- A bound on the number of steps that are left, for a plan of `len` chunks. -/
def Worker.remaining (len : ℕ) (w : Worker) : ℕ :=
  match w.pc with
  | .enter => 10 * len + 3
  | .batch i => 10 * (len - i) + 2
  | .launch i c => 5 * (len - i) + 5 * (len - (i + c)) + 1
  | .receive i c => 5 * (len - i) + 5 * (len - min (i + w.concurrency) len) - c
  | .reduce => 1
  | .exited _ => 0
  | .undefined => 0

section

variable {bytes : List UInt8} {config : FTextThread} {heap heap' : Heap} {w w' : Worker}
  {a : WorkerAction} {ic : FIndexerChunks}

/-- Every step brings the end nearer. -/
theorem Worker.Undisturbed.remaining_lt (h : w.Undisturbed bytes config heap)
    (hplan : config.plan = .ok ic)
    (hconcurrency : 0 < ic.concurrency.toInt.toNat)
    (hmove : WorkerMove bytes config heap w a heap' w') :
    w'.remaining ic.chunks.length < w.remaining ic.chunks.length := by
  cases hmove with
  | planned hpc hic =>
      simp [Worker.planned, Worker.remaining, hpc]
  | unplanned _ hic _ =>
      rw [hplan] at hic
      cases hic
  | fault hpc =>
      simp only [Worker.remaining]
      cases hpc' : w.pc with
      | enter => simp
      | batch i => simp
      | launch i c => simp
      | receive i c =>
          have hw := h.working hplan (by simp [hpc'])
          have hposition := hw.position
          simp only [Worker.Position, hpc'] at hposition
          simp only
          omega
      | reduce => simp
      | exited result => exact absurd (Or.inr ⟨result, hpc'⟩) hpc
      | undefined => exact absurd (Or.inl hpc') hpc
  | @batch i hpc =>
      have hw := h.working hplan (by simp [hpc])
      simp only [Worker.remaining, hpc, hw.ic_eq]
      by_cases hi : i < ic.chunks.length
      · simp only [if_pos hi]
        omega
      · simp only [if_neg hi]
        omega
  | @launchDone i c hpc hchunk =>
      have hw := h.working hplan (by simp [hpc])
      have hposition := hw.position
      simp only [Worker.Position, hpc] at hposition
      have heq := hw.chunkAt_eq_none hchunk hposition.2.2.1 hposition.2.2.2.1
      simp only [Worker.remaining, hpc]
      omega
  | @scan i c chunk env _ outcome hpc hchunk hscan =>
      have hw := h.working hplan (by simp [hpc])
      obtain ⟨-, -, -, hlt⟩ := hw.chunkAt_eq_some hchunk
      cases outcome with
      | sent message n =>
          simp only [Worker.launched, Worker.remaining, hpc]
          omega
      | silent =>
          simp only [Worker.launched, Worker.remaining, hpc]
          omega
      | undefined =>
          simp only [Worker.launched, Worker.remaining, hpc]
          omega
  | @batchDone i c hpc hchunk =>
      have hw := h.working hplan (by simp [hpc])
      have hposition := hw.position
      simp only [Worker.Position, hpc] at hposition
      have heq := hw.chunkAt_eq_none hchunk hposition.2.2.1 hposition.2.2.2.1
      have hcc := hw.concurrency_eq
      simp only [Worker.finished, Worker.remaining, hpc]
      by_cases hi : i + w.concurrency < 2 ^ 31
      · simp only [if_pos hi]
        omega
      · simp only [if_neg hi]
        omega
  | @recv i c k chunk message hpc hchunk hmessage =>
      have hw := h.working hplan (by simp [hpc])
      obtain ⟨hc, -, -, hlt⟩ := hw.chunkAt_eq_some hchunk
      have hpc' := (hw.received hpc hchunk hmessage).2
      have hcc : (w.received i c k message).concurrency = w.concurrency := by
        rw [Worker.received]
        split <;> rfl
      simp only [Worker.remaining, hpc, hpc', hcc]
      omega
  | reduce hpc =>
      have hw := h.working hplan (by simp [hpc])
      obtain ⟨-, ⟨ret, heq⟩, -⟩ := hw.reduced hpc
      rw [heq]
      simp [Worker.remaining, hpc]

end

/-! ## The end of the loop -/

section

variable {bytes : List UInt8} {thread : ℕ} {heap : Heap} {w : Worker} {ic : FIndexerChunks}

/-- All newlines of the chunks are counted, up to the size of the counter. -/
theorem Worker.Working.lineCount_complete (h : w.Working bytes thread ic heap)
    (hwritten : w.written.length = ic.chunks.length)
    (hscanned : ∀ entry ∈ w.examined, entry.2 = (chunkBuffer bytes entry.1).length) :
    w.lineCount = .ofNat ((ic.chunks.flatMap (chunkBuffer bytes)).countP isNewline) := by
  have hline := h.lineCount_eq
  rw [(h.complete hwritten).1, h.examined_eq hwritten hscanned, examinedNewlines,
    List.map_map] at hline
  simpa [scannedBytes, List.countP_flatMap, Function.comp_def] using hline

end

/-- A chunk of the plan holds a piece of the range. -/
theorem chunkBuffer_plainChunk {bytes : List UInt8} {fromOffset toOffset bufferSize k : ℕ}
    (hbuffer : bufferSize < 2 ^ 64) (hk : fromOffset + k * bufferSize < toOffset)
    (hto : toOffset < 2 ^ 64) :
    chunkBuffer bytes (plainChunk fromOffset toOffset bufferSize k) =
      slice bytes (min (fromOffset + k * bufferSize) toOffset)
        (min (fromOffset + (k + 1) * bufferSize) toOffset) := by
  rw [chunkBuffer, slice_eq_take_drop, toNat_fromOffset_plainChunk (by omega),
    toNat_count_plainChunk hbuffer, Nat.succ_mul]
  congr 2 <;> omega

/-- The chunks of the plan hold the range, piece after piece. -/
theorem flatMap_chunkBuffer_plainChunk {bytes : List UInt8} {fromOffset toOffset bufferSize : ℕ}
    (hle : fromOffset ≤ toOffset) (hto : toOffset < 2 ^ 64) (hbuffer : 0 < bufferSize)
    (hbuffer' : bufferSize < 2 ^ 64) :
    ((List.range ((toOffset - fromOffset) ⌈/⌉ bufferSize)).map
        (plainChunk fromOffset toOffset bufferSize)).flatMap (chunkBuffer bytes) =
      slice bytes fromOffset toOffset := by
  have hmono : Monotone fun k => min (fromOffset + k * bufferSize) toOffset := fun _ _ hle =>
    min_le_min_right _ (Nat.add_le_add_left (Nat.mul_le_mul_right _ hle) _)
  have hall := flatMap_range_slice bytes hmono ((toOffset - fromOffset) ⌈/⌉ bufferSize)
  have hlast : toOffset - fromOffset ≤ bufferSize * ((toOffset - fromOffset) ⌈/⌉ bufferSize) :=
    (ceilDiv_le_iff_le_mul hbuffer).mp (le_refl _)
  rw [Nat.mul_comm] at hlast
  simp only [Nat.zero_mul, Nat.add_zero, Nat.min_eq_left hle] at hall
  rw [Nat.min_eq_right (by omega)] at hall
  rw [List.flatMap_map, ← hall]
  refine List.flatMap_congr fun k hk => ?_
  have hlt := (lt_ceilDiv_iff hbuffer).mp (List.mem_range.mp hk)
  rw [Nat.mul_comm] at hlt
  exact chunkBuffer_plainChunk hbuffer' (by omega) hto

/-- One thread on the shared heap. -/
def workerSystem (bytes : List UInt8) (config : FTextThread) (a : WorkerAction)
    (s : Heap × Worker) : Option (Heap × Worker) :=
  workerStep bytes config a s.1 s.2

/-- The steps in which nothing goes wrong. -/
def smoothly (bytes : List UInt8) (s : Heap × Worker) (a : WorkerAction) : Prop :=
  s.2.Smooth bytes a

/-- What is expected of the batch loop with the plan `ic`, when nothing goes wrong. -/
structure BatchLoopComplete (bytes : List UInt8) (config : FTextThread) (heap : Heap)
    (ic : FIndexerChunks) : Prop where
  /-- There is no infinite run. -/
  terminates : Acc (fun s' s => Via (workerSystem bytes config) (smoothly bytes) s s')
    (heap, Worker.start)
  /-- No run goes astray. -/
  defined : ∀ (heap' : Heap) (w : Worker), Reaches (workerSystem bytes config) (smoothly bytes)
    (heap, Worker.start) (heap', w) → w.pc ≠ .undefined ∧ w.pc ≠ .exited none
  /-- No run gets stuck, if the platform can transfer every chunk at once. -/
  progresses : (∀ chunk ∈ ic.chunks, (chunkBuffer bytes chunk).length ≤ maxTransfer) →
    ∀ (heap' : Heap) (w : Worker), Reaches (workerSystem bytes config) (smoothly bytes)
      (heap, Worker.start) (heap', w) → (∀ ret, w.pc ≠ .exited (some ret)) →
      ∃ next, Via (workerSystem bytes config) (smoothly bytes) (heap', w) next
  /-- Behind the loop every slot has been written, and written once. -/
  written : ∀ (heap' : Heap) (w : Worker), Reaches (workerSystem bytes config) (smoothly bytes)
    (heap, Worker.start) (heap', w) → w.pc = .reduce →
    w.written ~ List.range ic.chunks.length
  /-- Behind the loop every slot holds the scan of its whole chunk. -/
  slots : ∀ (heap' : Heap) (w : Worker), Reaches (workerSystem bytes config) (smoothly bytes)
    (heap, Worker.start) (heap', w) → w.pc = .reduce →
    ∀ (k : ℕ) (chunk : FIndexerChunk), ic.chunks[k]? = some chunk →
      ∃ message, w.chunkArray[k]? = some (some message) ∧
        IsScan bytes config.thread heap' chunk (chunkBuffer bytes chunk).length message
  /-- Behind the loop all chunks and all newlines have been counted. -/
  counts : ∀ (heap' : Heap) (w : Worker), Reaches (workerSystem bytes config) (smoothly bytes)
    (heap, Worker.start) (heap', w) → w.pc = .reduce →
    w.chunksFinished = ic.len.toInt ∧
      w.lineCount.toNat =
        (slice bytes config.fromOffset.toNat config.toOffset.toNat).countP isNewline

/-- Every state of a smooth run is undisturbed. -/
theorem undisturbed_of_reaches {bytes : List UInt8} {config : FTextThread} {heap : Heap}
    {ic : FIndexerChunks} (hplan : config.plan = .ok ic) (hcounts : CountsOn ic)
    {s : Heap × Worker} (hreach : Reaches (workerSystem bytes config) (smoothly bytes)
      (heap, Worker.start) s) : s.2.Undisturbed bytes config s.1 := by
  have hkeep : ∀ s a s', s.2.Undisturbed bytes config s.1 → smoothly bytes s a →
      workerSystem bytes config a s = some s' → s'.2.Undisturbed bytes config s'.1 :=
    fun _ _ _ h hsmooth hstep => h.step hplan hcounts hsmooth (workerMove_of_step hstep)
  exact hreach.invariant (Worker.undisturbed_start bytes config heap) hkeep

/-- **The batch loop loses nothing**, whatever the order in which messages arrive. -/
theorem batchLoop_complete (bytes : List UInt8) (config : FTextThread) (heap : Heap)
    (hrange : config.fromOffset.toNat ≤ config.toOffset.toNat)
    (hto : config.toOffset.toNat < 2 ^ 53) (hbuffer : 1 ≤ config.bufferSize.toNat)
    (hbuffer' : config.bufferSize.toNat < 2 ^ 53) (hconcurrency : 1 ≤ config.concurrency.toInt)
    (hchunks : (config.toOffset.toNat - config.fromOffset.toNat) ⌈/⌉ config.bufferSize.toNat <
      2 ^ 30)
    (hnewlines : (slice bytes config.fromOffset.toNat config.toOffset.toNat).countP isNewline <
      2 ^ 32) :
    ∃ ic, config.plan = .ok ic ∧ BatchLoopComplete bytes config heap ic := by
  obtain ⟨ic, hplan, hplain, hclamp⟩ := fIndexerChunksInit_eq_ok config.concurrency
    config.totalBytesCount hrange (by omega) hbuffer hbuffer' (by omega) (by omega)
  set count := (config.toOffset.toNat - config.fromOffset.toNat) ⌈/⌉ config.bufferSize.toNat
    with hcountdef
  have hlength : ic.chunks.length = count := by rw [hplain]; simp
  have hnat : (UInt32.ofNat count).toNat = count :=
    UInt32.toNat_ofNat_of_lt' (by simp only [UInt32.size]; omega)
  have hle := ic.concurrency_le
  have hlen := ic.len_eq
  have hpos : 0 < ic.concurrency.toInt.toNat := by
    rw [hclamp]
    rcases Nat.eq_zero_or_pos count with hzero | hpos
    · rw [hzero, clampCount, if_pos (show UInt32.ofNat 0 = 0 from rfl)]
      decide
    · rw [toInt_clampCount (by omega) (by omega)]
      omega
  have hcounts : CountsOn ic := by
    intro i hi _
    omega
  have hfrom : ∀ chunk ∈ ic.chunks, chunk.fromOffset.toNat < 2 ^ 63 := by
    intro chunk hchunk
    rw [hplain] at hchunk
    obtain ⟨k, hk, rfl⟩ := List.mem_map.mp hchunk
    have hlt := (lt_ceilDiv_iff hbuffer).mp (List.mem_range.mp hk)
    rw [Nat.mul_comm] at hlt
    rw [toNat_fromOffset_plainChunk (by omega)]
    omega
  have hstate := fun {s} (hreach : Reaches (workerSystem bytes config) (smoothly bytes)
    (heap, Worker.start) s) => undisturbed_of_reaches hplan hcounts hreach
  have hworking : ∀ {s : Heap × Worker}, Reaches (workerSystem bytes config) (smoothly bytes)
      (heap, Worker.start) s → s.2.pc = .reduce → s.2.Working bytes config.thread ic s.1 :=
    fun hreach hpc => (hstate hreach).working hplan (by simp [hpc])
  have hwritten : ∀ {s : Heap × Worker}, Reaches (workerSystem bytes config) (smoothly bytes)
      (heap, Worker.start) s → s.2.pc = .reduce → s.2.written.length = ic.chunks.length := by
    intro s hreach hpc
    have hposition := (hworking hreach hpc).position
    simpa only [Worker.Position, hpc] using hposition
  refine ⟨ic, hplan, ⟨?_, ?_, ?_, ?_, ?_, ?_⟩⟩
  · have hlower : ∀ (s : Heap × Worker) a s', s.2.Undisturbed bytes config s.1 →
        smoothly bytes s a → workerSystem bytes config a s = some s' →
        s'.2.Undisturbed bytes config s'.1 ∧
          s'.2.remaining ic.chunks.length < s.2.remaining ic.chunks.length := by
      intro s a s' h hsmooth hstep
      have hmove := workerMove_of_step hstep
      exact ⟨h.step hplan hcounts hsmooth hmove, h.remaining_lt hplan hpos hmove⟩
    exact acc_of_measure (fun s => s.2.remaining ic.chunks.length) hlower
      (Worker.undisturbed_start bytes config heap)
  · intro heap' w hreach
    exact ⟨(hstate hreach).defined, (hstate hreach).notFailed⟩
  · intro hsizes heap' w hreach hrunning
    obtain ⟨a, hsmooth, hstep⟩ := (hstate hreach).exists_step hplan
      (fun chunk hchunk => ⟨hfrom chunk hchunk, hsizes chunk hchunk⟩) hrunning
    obtain ⟨next, hnext⟩ := Option.isSome_iff_exists.mp hstep
    exact ⟨next, a, hsmooth, hnext⟩
  · intro heap' w hreach hpc
    exact ((hworking hreach hpc).complete (hwritten hreach hpc)).2.2
  · intro heap' w hreach hpc k chunk hchunk
    obtain ⟨message, n, hslot, hentry, hscan⟩ := (hworking hreach hpc).slot_complete
      (by simp [hpc]) (hwritten hreach hpc) hchunk
    have hn := (hstate hreach).inFull.scanned_eq _ (List.mem_of_getElem? hentry)
    obtain rfl : n = (chunkBuffer bytes chunk).length := hn
    exact ⟨message, hslot, hscan⟩
  · intro heap' w hreach hpc
    refine ⟨?_, ?_⟩
    · rw [(hworking hreach hpc).finished_eq, hwritten hreach hpc, hlen]
    · rw [(hworking hreach hpc).lineCount_complete (hwritten hreach hpc)
        (hstate hreach).inFull.scanned_eq, hplain,
        flatMap_chunkBuffer_plainChunk hrange (by omega) hbuffer (by omega)]
      exact UInt32.toNat_ofNat_of_lt' hnewlines

/-- The batch loop over `lineFile`, byte by byte in one batch. -/
theorem batchLoop_complete_line :
    ∃ ic, fIndexerChunksInit 2 1 2 0 2 = .ok ic ∧
      BatchLoopComplete lineFile.bytes ⟨0, 2, 2, 1, 2, 0⟩ [] ic :=
  batchLoop_complete lineFile.bytes ⟨0, 2, 2, 1, 2, 0⟩ [] (by decide) (by decide) (by decide)
    (by decide) (by decide) (by decide) (by decide)

end Flashlight.TextIndexer
