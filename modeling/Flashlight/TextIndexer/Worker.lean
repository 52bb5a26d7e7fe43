/-
# One indexing thread

`f_index_text_chunk` plans the chunks of its range and works through them in batches:
it starts one coroutine for each chunk of the batch and then receives as many chunks
from the channel, in whatever order they arrive. The chunks end up in an array,
indexed by their position in the plan, which is reduced to a single chunk at the end.

A coroutine reads and scans its chunk as soon as it is started and then waits until
the thread takes its message. One action of the machine below is one step of the
thread; the heap is shared with the other threads.
-/

import Flashlight.Math.Interleaving
import Flashlight.TextIndexer.Scan

namespace Flashlight.TextIndexer

open Flashlight.Math Flashlight.Indexer

/-- The configuration of one thread. -/
structure FTextThread where
  /-- The start offset to read from the target. -/
  fromOffset : UInt64
  /-- The end offset. -/
  toOffset : UInt64
  /-- The total number of bytes. -/
  totalBytesCount : UInt64
  /-- The computed buffer size. -/
  bufferSize : UInt64
  /-- The wanted concurrency. -/
  concurrency : Int32
  /-- The thread index. -/
  thread : ℕ
  deriving DecidableEq, Repr

/-- The chunks that the thread will read. -/
def FTextThread.plan (config : FTextThread) : Except Fault FIndexerChunks :=
  fIndexerChunksInit config.concurrency config.bufferSize config.totalBytesCount
    config.fromOffset config.toOffset

/-- Where the thread is. -/
inductive WorkerPc
  /-- Before the plan. -/
  | enter
  /-- At the head of the loop over the batches. -/
  | batch (i : ℕ)
  /-- Starting coroutine `c` of the batch at `i`. -/
  | launch (i c : ℕ)
  /-- Receiving message `c` of the batch at `i`. -/
  | receive (i c : ℕ)
  /-- Behind the loop. -/
  | reduce
  /-- The thread has ended with this result. -/
  | exited (result : Option FChunk)
  /-- The thread has done something that has no meaning. -/
  | undefined
  deriving DecidableEq, Repr

/-- What the environment decides about the next step. -/
inductive WorkerAction
  /-- Nothing goes wrong. -/
  | proceed
  /-- The call that comes next reports an error. -/
  | fault
  /-- The next coroutine runs like this. -/
  | scan (env : ScanEnv)
  /-- The pending message `k` is received. -/
  | recv (k : ℕ)
  deriving DecidableEq, Repr

/-- The state of the thread. The last two fields only record what happened. -/
structure Worker where
  /-- Where the thread is. -/
  pc : WorkerPc
  /-- The plan. -/
  ic : List FIndexerChunk
  /-- The concurrency of the plan. -/
  concurrency : ℕ
  /-- The coroutines that wait for the thread to take their chunk. -/
  pending : List FChunk
  /-- The array of received chunks; a slot that was never written has no value. -/
  chunkArray : List (Option FChunk)
  /-- The number of received chunks. -/
  chunksFinished : ℕ
  /-- The number of newlines in them. -/
  lineCount : UInt32
  /-- The progress that the main thread watches. -/
  progress : ℚ
  /-- The chunks scanned so far, with the number of bytes scanned. -/
  examined : List (FIndexerChunk × ℕ)
  /-- The slots of the array in the order in which they were written. -/
  written : List ℕ
  deriving DecidableEq, Repr

/-- A thread that was just created. -/
def Worker.start : Worker where
  pc := .enter
  ic := []
  concurrency := 0
  pending := []
  chunkArray := []
  chunksFinished := 0
  lineCount := 0
  progress := 0
  examined := []
  written := []

/-- The chunk that step `c` of the batch at `i` is about. -/
def Worker.chunkAt (w : Worker) (i c : ℕ) : Option FIndexerChunk :=
  if c < w.concurrency then w.ic[i + c]? else none

/-- The planner's result is taken over, and the array gets its slots. -/
def Worker.planned (w : Worker) (ic : FIndexerChunks) : Worker :=
  { w with
    pc := .batch 0
    ic := ic.chunks
    concurrency := ic.concurrency.toInt.toNat
    chunkArray := List.replicate ic.chunks.length none }

/-- A coroutine was started and ended like this. -/
def Worker.launched (w : Worker) (i c : ℕ) (chunk : FIndexerChunk) : ScanOutcome → Worker
  | .sent message scanned => { w with
      pc := .launch i (c + 1)
      pending := w.pending ++ [message]
      examined := w.examined ++ [(chunk, scanned)] }
  | .silent => { w with pc := .launch i (c + 1) }
  | .undefined => { w with pc := .undefined }

/-- A message was taken. A slot outside of the array cannot be written. -/
def Worker.received (w : Worker) (i c k : ℕ) (chunk : FChunk) : Worker :=
  if chunk.current.toNat < w.chunkArray.length then
    { w with
      pc := .receive i (c + 1)
      pending := w.pending.eraseIdx k
      chunkArray := w.chunkArray.set chunk.current.toNat (some chunk)
      chunksFinished := w.chunksFinished + 1
      lineCount := w.lineCount + chunk.lineCount
      written := w.written ++ [chunk.current.toNat] }
  else { w with pc := .undefined }

/-- A batch is complete: its progress is published, and the loop counter, an `int`,
moves on. -/
def Worker.finished (w : Worker) (i : ℕ) : Worker :=
  { w with
    progress := w.chunksFinished / w.ic.length
    pc := if i + w.concurrency < 2 ^ 31 then .batch (i + w.concurrency) else .undefined }

/-- The array is reduced; reading a slot that was never written has no meaning. -/
def Worker.reduced (w : Worker) (heap : Heap) (thread : ℕ) : Heap × Worker :=
  if w.chunkArray.all Option.isSome then
    match fChunkArrayReverseReduce heap (.ofNat thread) w.chunkArray.reduceOption with
    | none => (heap, { w with pc := .undefined })
    | some (heap, ret) =>
        (heap, { w with pc := .exited (some { ret with lineCount := w.lineCount }) })
  else (heap, { w with pc := .undefined })

/-- One step of `f_index_text_chunk`. -/
def workerStep (bytes : List UInt8) (config : FTextThread) (a : WorkerAction) (heap : Heap)
    (w : Worker) : Option (Heap × Worker) :=
  match w.pc with
  | .enter =>
      match a with
      | .proceed =>
          match config.plan with
          | .ok ic => some (heap, w.planned ic)
          | .error .refused => some (heap, { w with pc := .exited none })
          | .error .undefined => some (heap, { w with pc := .undefined })
      | .fault => some (heap, { w with pc := .exited none })
      | _ => none
  | .batch i =>
      match a with
      | .proceed =>
          some (heap, { w with pc := if i < w.ic.length then .launch i 0 else .reduce })
      | _ => none
  | .launch i c =>
      match w.chunkAt i c, a with
      | none, .proceed => some (heap, { w with pc := .receive i 0 })
      | some _, .fault => some (heap, { w with pc := .exited none })
      | some chunk, .scan env =>
          let (heap, outcome) := fIndexTextBytes bytes env heap chunk config.thread
          some (heap, w.launched i c chunk outcome)
      | _, _ => none
  | .receive i c =>
      match w.chunkAt i c, a with
      | none, .proceed => some (heap, w.finished i)
      | some _, .fault => some (heap, { w with pc := .exited none })
      | some _, .recv k =>
          match w.pending[k]? with
          | none => none
          | some chunk => some (heap, w.received i c k chunk)
      | _, _ => none
  | .reduce =>
      match a with
      | .proceed => some (w.reduced heap config.thread)
      | .fault => some (heap, { w with pc := .exited none })
      | _ => none
  | .exited _ => none
  | .undefined => none

/-! ## What a step can do -/

/-- The thread has ended or lost its meaning. -/
def Worker.Ended (w : Worker) : Prop :=
  w.pc = .undefined ∨ ∃ result, w.pc = .exited result

/-- The steps of a thread, one constructor for each. -/
inductive WorkerMove (bytes : List UInt8) (config : FTextThread) (heap : Heap) (w : Worker) :
    WorkerAction → Heap → Worker → Prop
  | planned {ic : FIndexerChunks} (hpc : w.pc = .enter)
      (hic : config.plan = .ok ic) :
      WorkerMove bytes config heap w .proceed heap (w.planned ic)
  | unplanned {fault : Fault} {pc : WorkerPc} (hpc : w.pc = .enter)
      (hic : config.plan = .error fault)
      (hended : pc = .exited none ∨ pc = .undefined) :
      WorkerMove bytes config heap w .proceed heap { w with pc := pc }
  | fault (hpc : ¬ w.Ended) :
      WorkerMove bytes config heap w .fault heap { w with pc := .exited none }
  | batch {i : ℕ} (hpc : w.pc = .batch i) :
      WorkerMove bytes config heap w .proceed heap
        { w with pc := if i < w.ic.length then .launch i 0 else .reduce }
  | launchDone {i c : ℕ} (hpc : w.pc = .launch i c) (hchunk : w.chunkAt i c = none) :
      WorkerMove bytes config heap w .proceed heap { w with pc := .receive i 0 }
  | scan {i c : ℕ} {chunk : FIndexerChunk} {env : ScanEnv} {heap' : Heap} {outcome : ScanOutcome}
      (hpc : w.pc = .launch i c) (hchunk : w.chunkAt i c = some chunk)
      (hscan : fIndexTextBytes bytes env heap chunk config.thread = (heap', outcome)) :
      WorkerMove bytes config heap w (.scan env) heap' (w.launched i c chunk outcome)
  | batchDone {i c : ℕ} (hpc : w.pc = .receive i c) (hchunk : w.chunkAt i c = none) :
      WorkerMove bytes config heap w .proceed heap (w.finished i)
  | recv {i c k : ℕ} {chunk : FIndexerChunk} {message : FChunk} (hpc : w.pc = .receive i c)
      (hchunk : w.chunkAt i c = some chunk) (hmessage : w.pending[k]? = some message) :
      WorkerMove bytes config heap w (.recv k) heap (w.received i c k message)
  | reduce (hpc : w.pc = .reduce) :
      WorkerMove bytes config heap w .proceed (w.reduced heap config.thread).1
        (w.reduced heap config.thread).2

/-- Every step is one of these. -/
theorem workerMove_of_step {bytes : List UInt8} {config : FTextThread} {a : WorkerAction}
    {heap heap' : Heap} {w w' : Worker}
    (hstep : workerStep bytes config a heap w = some (heap', w')) :
    WorkerMove bytes config heap w a heap' w' := by
  unfold workerStep at hstep
  cases hpc : w.pc with
  | enter =>
      simp only [hpc] at hstep
      cases a with
      | proceed =>
          simp only at hstep
          split at hstep
          · next ic hic =>
              obtain ⟨rfl, rfl⟩ := Prod.mk.inj (Option.some.inj hstep)
              exact .planned hpc hic
          · next hic =>
              obtain ⟨rfl, rfl⟩ := Prod.mk.inj (Option.some.inj hstep)
              exact .unplanned hpc hic (Or.inl rfl)
          · next hic =>
              obtain ⟨rfl, rfl⟩ := Prod.mk.inj (Option.some.inj hstep)
              exact .unplanned hpc hic (Or.inr rfl)
      | fault =>
          obtain ⟨rfl, rfl⟩ := Prod.mk.inj (Option.some.inj hstep)
          exact .fault (by simp [Worker.Ended, hpc])
      | scan env => cases hstep
      | recv k => cases hstep
  | batch i =>
      simp only [hpc] at hstep
      cases a with
      | proceed =>
          obtain ⟨rfl, rfl⟩ := Prod.mk.inj (Option.some.inj hstep)
          exact .batch hpc
      | fault => cases hstep
      | scan env => cases hstep
      | recv k => cases hstep
  | launch i c =>
      simp only [hpc] at hstep
      cases hchunk : w.chunkAt i c with
      | none =>
          cases a with
          | proceed =>
              simp only [hchunk] at hstep
              obtain ⟨rfl, rfl⟩ := Prod.mk.inj (Option.some.inj hstep)
              exact .launchDone hpc hchunk
          | fault => simp [hchunk] at hstep
          | scan env => simp [hchunk] at hstep
          | recv k => simp [hchunk] at hstep
      | some chunk =>
          cases a with
          | proceed => simp [hchunk] at hstep
          | fault =>
              simp only [hchunk] at hstep
              obtain ⟨rfl, rfl⟩ := Prod.mk.inj (Option.some.inj hstep)
              exact .fault (by simp [Worker.Ended, hpc])
          | scan env =>
              simp only [hchunk] at hstep
              obtain ⟨rfl, rfl⟩ := Prod.mk.inj (Option.some.inj hstep)
              exact .scan hpc hchunk rfl
          | recv k => simp [hchunk] at hstep
  | receive i c =>
      simp only [hpc] at hstep
      cases hchunk : w.chunkAt i c with
      | none =>
          cases a with
          | proceed =>
              simp only [hchunk] at hstep
              obtain ⟨rfl, rfl⟩ := Prod.mk.inj (Option.some.inj hstep)
              exact .batchDone hpc hchunk
          | fault => simp [hchunk] at hstep
          | scan env => simp [hchunk] at hstep
          | recv k => simp [hchunk] at hstep
      | some chunk =>
          cases a with
          | proceed => simp [hchunk] at hstep
          | fault =>
              simp only [hchunk] at hstep
              obtain ⟨rfl, rfl⟩ := Prod.mk.inj (Option.some.inj hstep)
              exact .fault (by simp [Worker.Ended, hpc])
          | scan env => simp [hchunk] at hstep
          | recv k =>
              simp only [hchunk] at hstep
              split at hstep
              · cases hstep
              · next message hmessage =>
                  obtain ⟨rfl, rfl⟩ := Prod.mk.inj (Option.some.inj hstep)
                  exact .recv hpc hchunk hmessage
  | reduce =>
      simp only [hpc] at hstep
      cases a with
      | proceed =>
          have hpair : w.reduced heap config.thread = (heap', w') := Option.some.inj hstep
          obtain rfl : (w.reduced heap config.thread).1 = heap' := congrArg Prod.fst hpair
          obtain rfl : (w.reduced heap config.thread).2 = w' := congrArg Prod.snd hpair
          exact .reduce hpc
      | fault =>
          obtain ⟨rfl, rfl⟩ := Prod.mk.inj (Option.some.inj hstep)
          exact .fault (by simp [Worker.Ended, hpc])
      | scan env => cases hstep
      | recv k => cases hstep
  | exited result => simp [hpc] at hstep
  | undefined => simp [hpc] at hstep

end Flashlight.TextIndexer
