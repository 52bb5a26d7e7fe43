/-
# Indexing a file

`f_index_text_file` goes through the windows of the target file from the last one to
the first one. For each window it starts the planned threads, watches the progress of
one thread after the other until it reaches `1`, joins that thread, reduces the results
of all threads to one chunk and hands it to the lookup file.

One action of the machine below is a step of the main thread or of one of the threads
that it started. The threads share the heap; nothing is assumed about the order of
their steps.

Every look at the progress of a thread is taken to be fresh and atomic. In the source
`progress` is a plain `double` that its thread writes and the main thread polls, and
C promises neither: without a callback in the polling loop a compiler may read it
once, and the loop then spins although the thread is done. The machine does not have
these executions.
-/

import Flashlight.Math.Interleaving
import Flashlight.TextIndexer.Windows
import Flashlight.TextIndexer.Worker

namespace Flashlight.TextIndexer

open Flashlight.Math Flashlight.Indexer

/-- The configuration to supply to the indexer. -/
structure FIndexer where
  /-- The number of threads to spawn during indexing. -/
  threads : Int32
  /-- The number of concurrent calls to make in each thread. -/
  concurrency : Int32
  /-- The buffer to use for each concurrent call. -/
  bufferSize : UInt64
  /-- A hard limit on how many bytes to index at one time. -/
  maxBytesPerIteration : UInt64
  deriving DecidableEq, Repr

/-- A thread of the indexer: its configuration and its state. -/
abbrev TextThread := FTextThread × Worker

/-- Where the main thread is. Windows count down: `itc` is the number of windows that
are left after the current one. -/
inductive FilePc
  /-- Before the file is opened. -/
  | enter
  /-- At the head of the loop, with `left` windows to go. -/
  | window (left : ℕ)
  /-- Watching the progress of thread `i` of window `itc`. -/
  | watch (itc i : ℕ)
  /-- Joining thread `i` of window `itc`. -/
  | join (itc i : ℕ)
  /-- All threads of window `itc` are joined. -/
  | finish (itc : ℕ)
  /-- Behind the loop. -/
  | close
  /-- The function has returned an index, or null. -/
  | returned (index : Option FIndex)
  /-- The main thread has done something that has no meaning. -/
  | undefined

/-- Who moves, and how. -/
inductive FileAction
  /-- The main thread moves on. -/
  | proceed
  /-- A call of the main thread fails. -/
  | fault
  /-- Thread `t` of the current window takes a step. -/
  | worker (t : ℕ) (a : WorkerAction)
  deriving DecidableEq, Repr

/-- The state of `f_index_text_file`. The last field only records the windows that are
done, with their threads. -/
structure FileRun where
  /-- Where the main thread is. -/
  pc : FilePc
  /-- The nodes. -/
  heap : Heap
  /-- The threads of the current window. -/
  threads : List TextThread
  /-- The results of the threads that were joined; the other slots have no value. -/
  chunks : List (Option FChunk)
  /-- The number of newlines in these results. -/
  lineCount : UInt32
  /-- The lookup file, once it was created. -/
  lookup : Option FLookupFile
  /-- The windows that are done. -/
  history : List (ℕ × List TextThread)

/-- Before the call. -/
def FileRun.start : FileRun where
  pc := .enter
  heap := []
  threads := []
  chunks := []
  lineCount := 0
  lookup := none
  history := []

/-- The threads planned for window `itc`. -/
def windowPlan (target : TargetFile) (indexer : FIndexer) (itc : ℕ) :
    Except Fault FIndexerThreads :=
  fIndexerThreadsInit indexer.threads
    (localMaxBytes (.ofNat target.bytes.length) indexer.maxBytesPerIteration itc)
    indexer.bufferSize (threadItStart indexer.maxBytesPerIteration itc)

/-- The configuration that thread `i` gets. -/
def textThread (indexer : FIndexer) (i : ℕ) (thread : FIndexerThread) : FTextThread where
  fromOffset := thread.fromOffset
  toOffset := thread.toOffset
  totalBytesCount := indexer.maxBytesPerIteration
  bufferSize := thread.bufferSize
  concurrency := indexer.concurrency
  thread := i

/-- The configurations of all threads. -/
def textThreads (indexer : FIndexer) (it : FIndexerThreads) : List FTextThread :=
  it.threads.mapIdx (textThread indexer)

/-- The threads of a window are started, all in one step. A failure on the way is a failure
of the call before this step: the threads that the source has created by then go on after a
failed `malloc`, and are signalled after a failed `pthread_create`; neither is followed. -/
def FileRun.spawned (s : FileRun) (indexer : FIndexer) (itc : ℕ) (it : FIndexerThreads) :
    FileRun :=
  { s with
    pc := .watch itc 0
    threads := (textThreads indexer it).map fun config => (config, .start)
    chunks := List.replicate it.threads.length none
    lineCount := 0 }

/-- Thread `i` is joined: a null result ends the call. The source first signals the threads
from `i` on with `SIGINT`, the one that it has just joined included; where the signal kills
the process, nothing is returned any more. -/
def FileRun.joined (s : FileRun) (itc i : ℕ) : Option FChunk → FileRun
  | none => { s with pc := .returned none }
  | some result =>
      if result.current.toNat < s.chunks.length then
        { s with
          pc := .watch itc (i + 1)
          chunks := s.chunks.set result.current.toNat (some result)
          lineCount := s.lineCount + result.lineCount }
      else { s with pc := .undefined }

/-- The results of a window are reduced and appended to the lookup file. -/
def FileRun.finished (s : FileRun) (itc : ℕ) : FileRun :=
  if s.chunks.all Option.isSome then
    match fChunkArrayReverseReduce s.heap 0 s.chunks.reduceOption with
    | none => { s with pc := .undefined }
    | some (heap, finalChunk) =>
        match fLookupFileFromChunk heap s.lookup { finalChunk with lineCount := s.lineCount }
            s.lookup.isNone (itc == 0) with
        | none => { s with pc := .undefined }
        | some lookup => { s with
            pc := .window itc
            heap := heap
            threads := []
            lookup := some lookup
            history := s.history ++ [(itc, s.threads)] }
  else { s with pc := .undefined }

/-- One step of the main thread, when no call fails. It spins while the progress it
watches is below `1` and waits while the thread it joins is running. -/
def mainStep (target : TargetFile) (indexer : FIndexer) (s : FileRun) : Option FileRun :=
  match s.pc with
  | .enter =>
      match threadItCount (.ofNat target.bytes.length) indexer.maxBytesPerIteration with
      | .ok count => some { s with pc := .window count }
      | .error .refused => some { s with pc := .returned none }
      | .error .undefined => some { s with pc := .undefined }
  | .window 0 => some { s with pc := .close }
  | .window (itc + 1) =>
      match windowPlan target indexer itc with
      | .ok it => some (s.spawned indexer itc it)
      | .error .refused => some { s with pc := .returned none }
      | .error .undefined => some { s with pc := .undefined }
  | .watch itc i =>
      match s.threads[i]? with
      | none => some { s with pc := .finish itc }
      | some thread => if 1 ≤ thread.2.progress then some { s with pc := .join itc i } else none
  | .join itc i =>
      match s.threads[i]? with
      | none => none
      | some thread =>
          match thread.2.pc with
          | .exited result => some (s.joined itc i result)
          | _ => none
  | .finish itc => some (s.finished itc)
  | .close =>
      some { s with pc := .returned (s.lookup.map fun lookup => ⟨target, lookup⟩) }
  | .returned _ => none
  | .undefined => none

/-- The calls of the main thread that can fail. -/
def FilePc.canFail : FilePc → Bool
  | .enter => true
  | .window _ => true
  | .watch _ _ => false
  | .join _ _ => false
  | .finish _ => true
  | .close => true
  | .returned _ => false
  | .undefined => false

/-- One step of a thread on the shared heap. -/
def threadStep (bytes : List UInt8) (a : WorkerAction) (heap : Heap) (thread : TextThread) :
    Option (Heap × TextThread) :=
  (workerStep bytes thread.1 a heap thread.2).map fun moved => (moved.1, (thread.1, moved.2))

/-- One step of `f_index_text_file` and its threads. -/
def fileStep (target : TargetFile) (indexer : FIndexer) (a : FileAction) (s : FileRun) :
    Option FileRun :=
  match a with
  | .proceed => mainStep target indexer s
  | .fault => if s.pc.canFail then some { s with pc := .returned none } else none
  | .worker t a =>
      (stepAt (threadStep target.bytes) t a s.heap s.threads).map fun moved =>
        { s with heap := moved.1, threads := moved.2 }

/-! ## What a step can do -/

/-- The steps of the call, one constructor for each. -/
inductive FileMove (target : TargetFile) (indexer : FIndexer) (s : FileRun) :
    FileAction → FileRun → Prop
  | opened {count : ℕ} (hpc : s.pc = .enter)
      (hcount : threadItCount (.ofNat target.bytes.length) indexer.maxBytesPerIteration =
        .ok count) :
      FileMove target indexer s .proceed { s with pc := .window count }
  | unopened {fault : Fault} {pc : FilePc} (hpc : s.pc = .enter)
      (hcount : threadItCount (.ofNat target.bytes.length) indexer.maxBytesPerIteration =
        .error fault)
      (hended : pc = .returned none ∨ pc = .undefined) :
      FileMove target indexer s .proceed { s with pc := pc }
  | windowsDone (hpc : s.pc = .window 0) :
      FileMove target indexer s .proceed { s with pc := .close }
  | spawned {itc : ℕ} {it : FIndexerThreads} (hpc : s.pc = .window (itc + 1))
      (hplan : windowPlan target indexer itc = .ok it) :
      FileMove target indexer s .proceed (s.spawned indexer itc it)
  | unplanned {itc : ℕ} {fault : Fault} {pc : FilePc} (hpc : s.pc = .window (itc + 1))
      (hplan : windowPlan target indexer itc = .error fault)
      (hended : pc = .returned none ∨ pc = .undefined) :
      FileMove target indexer s .proceed { s with pc := pc }
  | watched {itc i : ℕ} {thread : TextThread} (hpc : s.pc = .watch itc i)
      (hthread : s.threads[i]? = some thread) (hprogress : 1 ≤ thread.2.progress) :
      FileMove target indexer s .proceed { s with pc := .join itc i }
  | allJoined {itc i : ℕ} (hpc : s.pc = .watch itc i) (hthread : s.threads[i]? = none) :
      FileMove target indexer s .proceed { s with pc := .finish itc }
  | joined {itc i : ℕ} {thread : TextThread} {result : Option FChunk} (hpc : s.pc = .join itc i)
      (hthread : s.threads[i]? = some thread) (hresult : thread.2.pc = .exited result) :
      FileMove target indexer s .proceed (s.joined itc i result)
  | finished {itc : ℕ} (hpc : s.pc = .finish itc) :
      FileMove target indexer s .proceed (s.finished itc)
  | closed (hpc : s.pc = .close) :
      FileMove target indexer s .proceed
        { s with pc := .returned (s.lookup.map fun lookup => ⟨target, lookup⟩) }
  | fault (hpc : s.pc.canFail = true) :
      FileMove target indexer s .fault { s with pc := .returned none }
  | worker {t : ℕ} {a : WorkerAction} {config : FTextThread} {w w' : Worker} {heap : Heap}
      (hthread : s.threads[t]? = some (config, w))
      (hmove : WorkerMove target.bytes config s.heap w a heap w') :
      FileMove target indexer s (.worker t a)
        { s with heap := heap, threads := s.threads.set t (config, w') }

theorem fileMove_of_mainStep {target : TargetFile} {indexer : FIndexer} {s s' : FileRun}
    (hstep : mainStep target indexer s = some s') :
    FileMove target indexer s .proceed s' := by
  unfold mainStep at hstep
  split at hstep
  · next hpc =>
      split at hstep
      · next count hcount =>
          obtain rfl := Option.some.inj hstep
          exact .opened hpc hcount
      · next hcount =>
          obtain rfl := Option.some.inj hstep
          exact .unopened hpc hcount (Or.inl rfl)
      · next hcount =>
          obtain rfl := Option.some.inj hstep
          exact .unopened hpc hcount (Or.inr rfl)
  · next hpc =>
      obtain rfl := Option.some.inj hstep
      exact .windowsDone hpc
  · next itc hpc =>
      split at hstep
      · next it hplan =>
          obtain rfl := Option.some.inj hstep
          exact .spawned hpc hplan
      · next hplan =>
          obtain rfl := Option.some.inj hstep
          exact .unplanned hpc hplan (Or.inl rfl)
      · next hplan =>
          obtain rfl := Option.some.inj hstep
          exact .unplanned hpc hplan (Or.inr rfl)
  · next itc i hpc =>
      split at hstep
      · next hthread =>
          obtain rfl := Option.some.inj hstep
          exact .allJoined hpc hthread
      · next thread hthread =>
          split at hstep
          · next hprogress =>
              obtain rfl := Option.some.inj hstep
              exact .watched hpc hthread hprogress
          · cases hstep
  · next itc i hpc =>
      split at hstep
      · cases hstep
      · next thread hthread =>
          split at hstep
          · next result hresult =>
              obtain rfl := Option.some.inj hstep
              exact .joined hpc hthread hresult
          · cases hstep
  · next itc hpc =>
      obtain rfl := Option.some.inj hstep
      exact .finished hpc
  · next hpc =>
      obtain rfl := Option.some.inj hstep
      exact .closed hpc
  · cases hstep
  · cases hstep

/-- A step of a thread, as a step of the call. -/
theorem exists_of_fileStep_worker {target : TargetFile} {indexer : FIndexer} {t : ℕ}
    {a : WorkerAction} {s s' : FileRun}
    (hstep : fileStep target indexer (.worker t a) s = some s') :
    ∃ (config : FTextThread) (w w' : Worker) (heap : Heap), s.threads[t]? = some (config, w) ∧
      workerStep target.bytes config a s.heap w = some (heap, w') ∧
      s' = { s with heap := heap, threads := s.threads.set t (config, w') } := by
  obtain ⟨⟨heap, threads⟩, hstepAt, rfl⟩ := Option.map_eq_some_iff.mp hstep
  obtain ⟨⟨config, w⟩, thread', hthread, hmoved, rfl⟩ := stepAt_eq_some_iff.mp hstepAt
  obtain ⟨⟨heap', w'⟩, hworker, heq⟩ := Option.map_eq_some_iff.mp hmoved
  obtain ⟨rfl, rfl⟩ := Prod.mk.inj heq
  exact ⟨config, w, w', heap', hthread, hworker, rfl⟩

/-- Every step is one of these. -/
theorem fileMove_of_step {target : TargetFile} {indexer : FIndexer} {a : FileAction}
    {s s' : FileRun} (hstep : fileStep target indexer a s = some s') :
    FileMove target indexer s a s' := by
  cases a with
  | proceed => exact fileMove_of_mainStep hstep
  | fault =>
      simp only [fileStep] at hstep
      split at hstep
      · next hpc =>
          obtain rfl := Option.some.inj hstep
          exact .fault hpc
      · cases hstep
  | worker t a =>
      obtain ⟨config, w, w', heap, hthread, hworker, rfl⟩ := exists_of_fileStep_worker hstep
      exact .worker hthread (workerMove_of_step hworker)

/-- Where a thread of the next state comes from. -/
inductive ThreadOrigin (target : TargetFile) (s : FileRun) (a : FileAction)
    (thread : TextThread) : Prop
  | kept (hold : thread ∈ s.threads)
  | spawned (hstart : thread.2 = .start)
  | moved {t : ℕ} {b : WorkerAction} {w : Worker} {heap : Heap} (ha : a = .worker t b)
      (hthread : s.threads[t]? = some (thread.1, w))
      (hstep : workerStep target.bytes thread.1 b s.heap w = some (heap, thread.2))

theorem FileRun.threads_joined (s : FileRun) (itc i : ℕ) (result : Option FChunk) :
    (s.joined itc i result).threads = s.threads := by
  cases result with
  | none => rfl
  | some ret =>
      rw [FileRun.joined]
      split <;> rfl

theorem FileRun.threads_finished (s : FileRun) (itc : ℕ) :
    (s.finished itc).threads = s.threads ∨ (s.finished itc).threads = [] := by
  unfold FileRun.finished
  split
  · split
    · exact Or.inl rfl
    · split
      · exact Or.inl rfl
      · exact Or.inr rfl
  · exact Or.inl rfl

/-- A thread is an old one, a new one, or the one that took the step. -/
theorem threadOrigin_of_step {target : TargetFile} {indexer : FIndexer} {a : FileAction}
    {s s' : FileRun} (hstep : fileStep target indexer a s = some s') {thread : TextThread}
    (hmem : thread ∈ s'.threads) : ThreadOrigin target s a thread := by
  cases fileMove_of_step hstep with
  | opened _ _ => exact .kept hmem
  | unopened _ _ _ => exact .kept hmem
  | windowsDone _ => exact .kept hmem
  | spawned _ _ =>
      obtain ⟨config, -, rfl⟩ := List.mem_map.mp hmem
      exact .spawned rfl
  | unplanned _ _ _ => exact .kept hmem
  | watched _ _ _ => exact .kept hmem
  | allJoined _ _ => exact .kept hmem
  | joined _ _ _ =>
      rw [FileRun.threads_joined] at hmem
      exact .kept hmem
  | @finished itc _ =>
      rcases s.threads_finished itc with hsame | hnil
      · exact .kept (hsame ▸ hmem)
      · rw [hnil] at hmem
        cases hmem
  | closed _ => exact .kept hmem
  | fault _ => exact .kept hmem
  | worker _ _ =>
      obtain ⟨config, w, w', heap, hthread, hworker, heq⟩ := exists_of_fileStep_worker hstep
      rw [heq] at hmem
      rcases List.mem_or_eq_of_mem_set hmem with hold | rfl
      · exact .kept hold
      · exact .moved rfl hthread hworker

end Flashlight.TextIndexer
