/-
# Calls come to an end

A window takes as many steps as its threads and the loops over them take, and every window is one
less. The one way to go on for ever is a thread whose batches have no coroutines: `i` never grows.
The planner lowers a concurrency that is too large, negative ones included, but it keeps a zero.

When nothing goes wrong and every thread has something to do, the main thread never waits for
something that does not come, and so every schedule that is followed to its end returns an index.
-/

import Flashlight.Math.Schedules
import Flashlight.TextIndexer.Completion
import Flashlight.TextIndexer.Sequential

namespace Flashlight.TextIndexer

open Flashlight.Math Flashlight.Indexer
open scoped List

/-! ## What is left -/

/-- The batches of the thread have coroutines. -/
def FTextThread.Advances (config : FTextThread) : Prop :=
  ∀ ic, config.plan = .ok ic → 0 < ic.concurrency.toInt.toNat

/-- A bound on the number of steps that the thread has left. -/
def threadLeft (thread : TextThread) : ℕ :=
  thread.2.remaining thread.1.chunks.length

/-- The number of windows that are still to be begun, with `count` windows in all. -/
def FilePc.windowsLeft (count : ℕ) : FilePc → ℕ
  | .enter => count + 1
  | .window left => left
  | .watch itc _ => itc
  | .join itc _ => itc
  | .finish itc => itc
  | .close => 0
  | .returned _ => 0
  | .undefined => 0

/-- A bound on the number of steps that the main thread has left before the next window, with
`threads` threads. -/
def FilePc.stepsLeft (threads : ℕ) : FilePc → ℕ
  | .enter => 0
  | .window _ => 2
  | .watch _ i => 2 * (threads - i) + 4
  | .join _ i => 2 * (threads - i) + 3
  | .finish _ => 3
  | .close => 1
  | .returned _ => 0
  | .undefined => 0

/-- A bound on the number of steps before the next window. -/
def FileRun.windowLeft (s : FileRun) : ℕ :=
  s.pc.stepsLeft s.threads.length + (s.threads.map threadLeft).sum

section

variable {bytes : List UInt8} {config : FTextThread} {heap heap' : Heap} {w w' : Worker}
  {a : WorkerAction} {ic : FIndexerChunks}

/-- The clamped number is zero only if zero was wanted where there is something to do. -/
theorem zero_lt_clampCount_iff (wanted : Int32) {chunksCount : UInt32}
    (hcount : chunksCount.toNat < 2 ^ 31) :
    0 < (clampCount wanted chunksCount).toInt ↔ wanted ≠ 0 ∨ chunksCount = 0 := by
  have hint := toInt_toInt32 hcount
  have hbounds := clampCount_bounds wanted hcount
  by_cases hzero : chunksCount = 0
  · simp [clampCount, hzero]
  · have hpos : 0 < chunksCount.toNat := by
      rw [Nat.pos_iff_ne_zero]
      exact fun h => hzero (UInt32.toNat_inj.mp h)
    rw [clampCount, if_neg hzero] at hbounds ⊢
    simp only [hzero, or_false]
    split
    · next hgt =>
        rw [hint]
        refine ⟨?_, fun _ => by omega⟩
        rintro - rfl
        exact absurd hgt (UInt32.not_lt.mpr (UInt32.zero_le))
    · next hle =>
        rw [if_neg hle] at hbounds
        rw [lt_iff_le_and_ne, and_iff_right hbounds.1, ne_comm, not_iff_not, ← Int32.toInt_zero]
        exact Int32.toInt_inj

theorem advances_iff : config.Advances ↔ config.concurrency ≠ 0 ∨ config.chunks = [] := by
  unfold FTextThread.Advances
  cases hplan : config.plan with
  | error fault => simp [FTextThread.chunks, hplan]
  | ok ic =>
      rw [chunks_eq hplan]
      simp only [Except.ok.injEq, forall_eq', Int.lt_toNat, Nat.cast_zero]
      rw [FTextThread.plan, fIndexerChunksInit] at hplan
      split at hplan
      · cases hplan
      · next chunksCount _ =>
          split at hplan
          · next hcount =>
              obtain rfl := Except.ok.inj hplan
              simp only [zero_lt_clampCount_iff _ hcount]
              rw [← List.length_eq_zero_iff, length_chunksLoop, ← UInt32.toNat_inj]
              rfl
          · cases hplan

/-- Every step of a thread with a plan brings its end nearer. -/
theorem Worker.Working.remaining_lt {thread : ℕ} (h : w.Working bytes thread ic heap)
    (hthread : config.thread = thread) (hconcurrency : 0 < ic.concurrency.toInt.toNat)
    (hmove : WorkerMove bytes config heap w a heap' w') :
    w'.remaining ic.chunks.length < w.remaining ic.chunks.length := by
  have hposition := h.position
  have hcc := h.concurrency_eq
  cases hmove with
  | planned hpc _ => simp [Worker.Position, hpc] at hposition
  | unplanned hpc _ _ => simp [Worker.Position, hpc] at hposition
  | fault hpc =>
      simp only [Worker.remaining]
      cases hpc' : w.pc with
      | enter => simp
      | batch i => simp
      | launch i c => simp
      | receive i c =>
          simp only [Worker.Position, hpc'] at hposition
          simp only
          omega
      | reduce => simp
      | exited result => exact absurd (Or.inr ⟨result, hpc'⟩) hpc
      | undefined => exact absurd (Or.inl hpc') hpc
  | @batch i hpc =>
      simp only [Worker.remaining, hpc, h.ic_eq]
      by_cases hi : i < ic.chunks.length
      · simp only [if_pos hi]
        omega
      · simp only [if_neg hi]
        omega
  | @launchDone i c hpc hchunk =>
      simp only [Worker.Position, hpc] at hposition
      have heq := h.chunkAt_eq_none hchunk hposition.2.2.1 hposition.2.2.2.1
      simp only [Worker.remaining, hpc]
      omega
  | @scan i c chunk env _ outcome hpc hchunk hscan =>
      obtain ⟨-, -, -, hlt⟩ := h.chunkAt_eq_some hchunk
      cases outcome with
      | sent message n =>
          simp only [Worker.launched, Worker.remaining, hpc]
          omega
      | silent =>
          simp only [Worker.launched, Worker.remaining, hpc]
          omega
      | undefined =>
          simp only [Worker.launched, Worker.remaining, hpc]
          omega
  | @batchDone i c hpc hchunk =>
      simp only [Worker.Position, hpc] at hposition
      have heq := h.chunkAt_eq_none hchunk hposition.2.2.1 hposition.2.2.2.1
      simp only [Worker.finished, Worker.remaining, hpc]
      by_cases hi : i + w.concurrency < 2 ^ 31
      · simp only [if_pos hi]
        omega
      · simp only [if_neg hi]
        omega
  | @recv i c k chunk message hpc hchunk hmessage =>
      obtain ⟨hc, -, -, hlt⟩ := h.chunkAt_eq_some hchunk
      have hpc' := (h.received hpc hchunk hmessage).2
      have hkept : (w.received i c k message).concurrency = w.concurrency := by
        rw [Worker.received]
        split <;> rfl
      simp only [Worker.remaining, hpc, hpc', hkept]
      omega
  | reduce hpc =>
      subst hthread
      obtain ⟨-, ⟨ret, heq⟩, -⟩ := h.reduced hpc
      rw [heq]
      simp [Worker.remaining, hpc]

/-- Every step of a thread brings its end nearer. -/
theorem Worker.Inv.remaining_lt (h : w.Inv bytes config heap) (hadvances : config.Advances)
    (hmove : WorkerMove bytes config heap w a heap' w') :
    w'.remaining config.chunks.length < w.remaining config.chunks.length := by
  cases h with
  | @unplanned pc hpc hw =>
      subst hw
      rcases hpc with rfl | rfl | rfl
      · cases hmove with
        | planned _ hic => simp [Worker.planned, Worker.remaining]
        | unplanned _ _ hended => rcases hended with rfl | rfl <;> simp [Worker.remaining]
        | fault _ => simp [Worker.remaining]
        | _ hpc => cases hpc
      · exact absurd rfl (hmove.not_exited none)
      · cases hmove with
        | fault hpc => exact absurd (Or.inl rfl) hpc
        | _ hpc => cases hpc
  | @working ic hplan h =>
      rw [chunks_eq hplan]
      exact h.remaining_lt rfl (hadvances ic hplan) hmove

end

/-! ## Every schedule ends -/

/-- The batches of all threads have coroutines. -/
def FileRun.Advances (s : FileRun) : Prop :=
  ∀ thread ∈ s.threads, thread.1.Advances

section

variable {target : TargetFile} {indexer : FIndexer} {s s' : FileRun} {a : FileAction}
  {count : ℕ}

/-- A step begins the next window, or it brings it nearer. -/
theorem FileRun.Inv.windowLeft_lt (h : s.Inv target indexer)
    (hcount : ∀ n, threadItCount (.ofNat target.bytes.length) indexer.maxBytesPerIteration =
      .ok n → n ≤ count) (hadvances : s.Advances) (hmove : FileMove target indexer s a s') :
    s'.pc.windowsLeft count < s.pc.windowsLeft count ∨
      s'.pc.windowsLeft count ≤ s.pc.windowsLeft count ∧ s'.windowLeft < s.windowLeft := by
  cases hmove with
  | @opened n hpc hcount' =>
      left
      simpa [FilePc.windowsLeft, hpc, Nat.lt_succ_iff] using hcount n hcount'
  | unopened hpc _ hended =>
      rcases hended with rfl | rfl <;> exact Or.inl (by simp [FilePc.windowsLeft, hpc])
  | windowsDone hpc =>
      right
      simp [FilePc.windowsLeft, FileRun.windowLeft, FilePc.stepsLeft, hpc]
  | spawned hpc _ => exact Or.inl (by simp [FilePc.windowsLeft, FileRun.spawned, hpc])
  | unplanned hpc _ hended =>
      rcases hended with rfl | rfl <;> exact Or.inl (by simp [FilePc.windowsLeft, hpc])
  | watched hpc _ _ =>
      right
      simp [FilePc.windowsLeft, FileRun.windowLeft, FilePc.stepsLeft, hpc]
  | allJoined hpc _ =>
      right
      simp [FilePc.windowsLeft, FileRun.windowLeft, FilePc.stepsLeft, hpc]
  | @joined itc i thread result hpc hthread hresult =>
      have hi := (List.getElem?_eq_some_iff.mp hthread).1
      right
      cases result with
      | none => simp [FileRun.joined, FilePc.windowsLeft, FileRun.windowLeft, FilePc.stepsLeft, hpc]
      | some ret =>
          simp only [FileRun.joined]
          split
          · simp only [FilePc.windowsLeft, FileRun.windowLeft, FilePc.stepsLeft, hpc]
            omega
          · simp [FilePc.windowsLeft, FileRun.windowLeft, FilePc.stepsLeft, hpc]
  | @finished itc hpc =>
      right
      have hstage := h.stage
      simp only [FileRun.Stage, hpc] at hstage
      obtain ⟨heap, chunk, lookup, -, -, heq⟩ := h.exists_finished hstage.1
      rw [heq]
      simp [FilePc.windowsLeft, FileRun.windowLeft, FilePc.stepsLeft, hpc]
      omega
  | closed hpc =>
      right
      simp [FilePc.windowsLeft, FileRun.windowLeft, FilePc.stepsLeft, hpc]
  | fault hpc =>
      cases hpc' : s.pc with
      | enter => exact Or.inl (by simp [FilePc.windowsLeft])
      | window left =>
          right
          simp [FilePc.windowsLeft, FileRun.windowLeft, FilePc.stepsLeft, hpc']
      | finish itc =>
          right
          simp [FilePc.windowsLeft, FileRun.windowLeft, FilePc.stepsLeft, hpc']
      | close =>
          right
          simp [FilePc.windowsLeft, FileRun.windowLeft, FilePc.stepsLeft, hpc']
      | _ => simp [FilePc.canFail, hpc'] at hpc
  | @worker t a config w w' heap hthread hwork =>
      right
      have hinv := (h.threads t _ hthread).2
      have hlt : threadLeft (config, w') < threadLeft (config, w) :=
        hinv.remaining_lt (hadvances _ (List.mem_of_getElem? hthread)) hwork
      have hsum := sum_map_set_lt threadLeft hthread hlt
      simp only [FileRun.windowLeft, List.length_set]
      omega

theorem mem_textThreads_concurrency {it : FIndexerThreads} {config : FTextThread}
    (hmem : config ∈ textThreads indexer it) : config.concurrency = indexer.concurrency := by
  obtain ⟨i, -, rfl⟩ := List.mem_mapIdx.mp hmem
  rfl

theorem mem_windowConfigs_concurrency {itc : ℕ} {config : FTextThread}
    (hmem : config ∈ windowConfigs target indexer itc) :
    config.concurrency = indexer.concurrency := by
  unfold windowConfigs at hmem
  split at hmem
  · exact mem_textThreads_concurrency hmem
  · simp at hmem

/-- The threads of a call want the concurrency of the call. -/
theorem concurrency_eq_of_step
    (h : ∀ thread ∈ s.threads, thread.1.concurrency = indexer.concurrency)
    (hmove : FileMove target indexer s a s') :
    ∀ thread ∈ s'.threads, thread.1.concurrency = indexer.concurrency := by
  cases hmove with
  | spawned _ hplan =>
      intro thread hmem
      obtain ⟨config, hconfig, rfl⟩ := List.mem_map.mp hmem
      exact mem_textThreads_concurrency hconfig
  | @joined itc i thread result _ _ _ =>
      rwa [FileRun.threads_joined]
  | @finished itc _ =>
      rcases FileRun.threads_finished s itc with heq | heq <;> rw [heq]
      · exact h
      · simp
  | @worker t _ config w w' heap hthread _ =>
      intro thread hmem
      rcases List.mem_or_eq_of_mem_set hmem with hmem | rfl
      · exact h thread hmem
      · exact h (config, w) (List.mem_of_getElem? hthread)
  | _ => exact h

/-- **Windows run out**: no schedule goes on for ever as long as the batches of all threads have
coroutines, whatever the threads do and whatever fails. -/
theorem terminates_of_advances (Inv : FileRun → Prop) (hstart : Inv .start)
    (hkeep : ∀ s a s', Inv s → fileStep target indexer a s = some s' → Inv s')
    (hinv : ∀ s, Inv s → s.Inv target indexer ∧ s.Advances) :
    Terminates (fileStep target indexer) (fun _ _ => True) .start := by
  obtain ⟨count, hcount⟩ : ∃ count, ∀ n, threadItCount (.ofNat target.bytes.length)
      indexer.maxBytesPerIteration = .ok n → n ≤ count := by
    cases threadItCount (.ofNat target.bytes.length) indexer.maxBytesPerIteration with
    | error fault => exact ⟨0, by simp⟩
    | ok count => exact ⟨count, fun n hn => (Except.ok.inj hn).ge⟩
  refine terminates_of_phases Inv (fun s => s.pc.windowsLeft count)
    FileRun.windowLeft ?_ hstart
  intro s a s' h _ hstep
  obtain ⟨hs, hadvances⟩ := hinv s h
  exact ⟨hkeep s a s' h hstep, hs.windowLeft_lt hcount hadvances (fileMove_of_step hstep)⟩

theorem terminates_of_concurrency (hconcurrency : indexer.concurrency ≠ 0) :
    Terminates (fileStep target indexer) (fun _ _ => True) .start := by
  refine terminates_of_advances (fun s => s.Inv target indexer ∧
      ∀ thread ∈ s.threads, thread.1.concurrency = indexer.concurrency)
    ⟨FileRun.inv_start _ _, by simp [FileRun.start]⟩ ?_ ?_
  · rintro s a s' ⟨hinv, hthreads⟩ hstep
    have hmove := fileMove_of_step hstep
    exact ⟨hinv.step hmove, concurrency_eq_of_step hthreads hmove⟩
  · rintro s ⟨hinv, hthreads⟩
    exact ⟨hinv, fun thread hmem =>
      advances_iff.mpr (Or.inl (hthreads thread hmem ▸ hconcurrency))⟩

end

/-! ## No concurrency -/

/-- Before the end of the first window to be read, which is the last one of the file. -/
def FileRun.AtFirst (target : TargetFile) (indexer : FIndexer) (s : FileRun) : Prop :=
  match s.pc with
  | .enter => True
  | .window left => threadItCount (.ofNat target.bytes.length) indexer.maxBytesPerIteration =
      .ok left
  | .watch itc i => i = 0 ∧ s.threads ≠ [] ∧
      threadItCount (.ofNat target.bytes.length) indexer.maxBytesPerIteration = .ok (itc + 1)
  | .returned none => True
  | .undefined => True
  | _ => False

/-- The main thread waits for the first window, whose threads receive nothing. -/
structure FileRun.Blocked (target : TargetFile) (indexer : FIndexer) (s : FileRun) : Prop where
  inv : s.Inv target indexer
  atFirst : s.AtFirst target indexer
  idle : ∀ thread ∈ s.threads, thread.2.progress = 0
  configs : ∀ thread ∈ s.threads, ∃ count, threadItCount (.ofNat target.bytes.length)
    indexer.maxBytesPerIteration = .ok count ∧ thread.1 ∈ windowConfigs target indexer (count - 1)

section

variable {bytes : List UInt8} {config : FTextThread} {heap heap' : Heap} {w w' : Worker}
  {b : WorkerAction}

/-- A thread without concurrency receives nothing, and so it reports nothing. -/
theorem Worker.Inv.progress_eq_zero (h : w.Inv bytes config heap) (hzero : config.concurrency = 0)
    (hidle : w.progress = 0) (hmove : WorkerMove bytes config heap w b heap' w') :
    w'.progress = 0 := by
  cases hmove with
  | @batchDone i c hpc hchunk =>
      obtain ⟨ic, hplan, hw⟩ := h.exists_working hpc (by simp) (by simp) (by simp)
      have hposition := hw.position
      simp only [Worker.Position, hpc] at hposition
      obtain ⟨hdvd, hi, hc, -, hwritten, -⟩ := hposition
      have hnone : ic.concurrency.toInt.toNat = 0 := by
        by_contra hne
        have hadvances : config.Advances := by
          intro ic' hplan'
          obtain rfl := Except.ok.inj (hplan.symm.trans hplan')
          exact Nat.pos_of_ne_zero hne
        rcases advances_iff.mp hadvances with hne | hnil
        · exact hne hzero
        · rw [← chunks_eq hplan, hnil] at hi
          exact absurd hi (Nat.not_lt_zero _)
      rw [hw.concurrency_eq, hnone] at hdvd hc
      obtain rfl := Nat.eq_zero_of_zero_dvd hdvd
      obtain rfl := Nat.le_zero.mp hc
      simp [Worker.finished, hw.finished_eq, hwritten]
  | planned _ _ => exact hidle
  | unplanned _ _ _ => exact hidle
  | fault _ => exact hidle
  | batch _ => exact hidle
  | launchDone _ _ => exact hidle
  | @scan i c chunk env _ outcome _ _ _ => cases outcome <;> exact hidle
  | recv _ _ _ =>
      rw [Worker.received]
      split <;> exact hidle
  | reduce _ =>
      rw [Worker.reduced]
      split
      · split <;> exact hidle
      · exact hidle

end

section

variable {target : TargetFile} {indexer : FIndexer} {s s' : FileRun} {a : FileAction}

/-- The main thread waits for ever. -/
theorem FileRun.Blocked.step (h : s.Blocked target indexer) (hzero : indexer.concurrency = 0)
    (hmove : FileMove target indexer s a s') : s'.Blocked target indexer := by
  have hinv := h.inv.step hmove
  have hat := h.atFirst
  unfold FileRun.AtFirst at hat
  cases hmove with
  | opened _ hcount => exact ⟨hinv, hcount, h.idle, h.configs⟩
  | unopened _ _ hended =>
      rcases hended with rfl | rfl <;> exact ⟨hinv, trivial, h.idle, h.configs⟩
  | windowsDone hpc =>
      simp only [hpc] at hat
      exact absurd (threadItCount_pos hat) (lt_irrefl 0)
  | @spawned itc it hpc hplan =>
      simp only [hpc] at hat
      refine ⟨hinv, ⟨rfl, ?_, hat⟩, ?_, ?_⟩
      · have hpos := it.len_pos
        simp only [FileRun.spawned, textThreads, ne_eq, ← List.length_eq_zero_iff, List.length_map,
          List.length_mapIdx]
        omega
      · intro thread hmem
        obtain ⟨config, -, rfl⟩ := List.mem_map.mp hmem
        rfl
      · intro thread hmem
        obtain ⟨config, hconfig, rfl⟩ := List.mem_map.mp hmem
        refine ⟨itc + 1, hat, ?_⟩
        simpa only [windowConfigs, Nat.add_sub_cancel, hplan] using hconfig
  | unplanned _ _ hended =>
      rcases hended with rfl | rfl <;> exact ⟨hinv, trivial, h.idle, h.configs⟩
  | watched hpc hthread hprogress =>
      rw [h.idle _ (List.mem_of_getElem? hthread)] at hprogress
      exact absurd hprogress (by norm_num)
  | allJoined hpc hthread =>
      simp only [hpc] at hat
      obtain ⟨rfl, hne, -⟩ := hat
      rw [List.getElem?_eq_none_iff] at hthread
      exact absurd (List.length_eq_zero_iff.mp (Nat.le_zero.mp hthread)) hne
  | joined hpc _ _ => simp only [hpc] at hat
  | finished hpc => simp only [hpc] at hat
  | closed hpc => simp only [hpc] at hat
  | fault _ => exact ⟨hinv, trivial, h.idle, h.configs⟩
  | @worker t _ config w w' heap hthread hwork =>
      have hmem := List.mem_of_getElem? hthread
      obtain ⟨count, hcount, hconfig⟩ := h.configs _ hmem
      have hwanted : config.concurrency = 0 := hzero ▸ mem_windowConfigs_concurrency hconfig
      refine ⟨hinv, ?_, ?_, ?_⟩
      · unfold FileRun.AtFirst
        simp only [ne_eq, List.set_eq_nil_iff]
        exact hat
      · intro thread hset
        rcases List.mem_or_eq_of_mem_set hset with hset | rfl
        · exact h.idle thread hset
        · exact (h.inv.threads t _ hthread).2.progress_eq_zero hwanted (h.idle _ hmem) hwork
      · intro thread hset
        rcases List.mem_or_eq_of_mem_set hset with hset | rfl
        · exact h.configs thread hset
        · exact ⟨count, hcount, hconfig⟩

/-- Every run of a call without concurrency is blocked. -/
theorem blocked_of_reaches (hzero : indexer.concurrency = 0)
    (hreach : Reaches (fileStep target indexer) (fun _ _ => True) .start s) :
    s.Blocked target indexer :=
  hreach.invariant ⟨FileRun.inv_start _ _, trivial, by simp [FileRun.start],
      by simp [FileRun.start]⟩
    fun _ _ _ h _ hstep => h.step hzero (fileMove_of_step hstep)

/-! ## The loop -/

/-- The thread goes round the batch loop without getting on. -/
def Worker.Spins (w : Worker) : Prop :=
  w.concurrency = 0 ∧ w.ic ≠ [] ∧ (w.pc = .batch 0 ∨ w.pc = .launch 0 0 ∨ w.pc = .receive 0 0)

theorem Worker.Spins.exists_step {w : Worker} (h : w.Spins) (bytes : List UInt8)
    (config : FTextThread) (heap : Heap) :
    ∃ w', workerStep bytes config .proceed heap w = some (heap, w') ∧ w'.Spins := by
  obtain ⟨hzero, hne, hpc⟩ := h
  have hpos := List.length_pos_iff.mpr hne
  have hnone : w.chunkAt 0 0 = none := by simp [Worker.chunkAt, hzero]
  rcases hpc with hpc | hpc | hpc
  · refine ⟨{ w with pc := .launch 0 0 }, ?_, hzero, hne, Or.inr (Or.inl rfl)⟩
    simp only [workerStep, hpc, if_pos hpos]
  · refine ⟨{ w with pc := .receive 0 0 }, ?_, hzero, hne, Or.inr (Or.inr rfl)⟩
    simp only [workerStep, hpc, hnone]
  · refine ⟨w.finished 0, ?_, hzero, hne, Or.inl ?_⟩
    · simp only [workerStep, hpc, hnone]
    · simp [Worker.finished, hzero]

/-- A thread of the current window goes round. -/
def FileRun.Spins (s : FileRun) : Prop :=
  ∃ thread ∈ s.threads, thread.2.Spins

theorem FileRun.Spins.exists_step (h : s.Spins) :
    ∃ a s', fileStep target indexer a s = some s' ∧ s'.Spins := by
  obtain ⟨⟨config, w⟩, hmem, hspins⟩ := h
  obtain ⟨t, hthread⟩ := List.mem_iff_getElem?.mp hmem
  obtain ⟨w', hstep, hspins'⟩ := hspins.exists_step target.bytes config s.heap
  refine ⟨.worker t .proceed, _, fileStep_worker hthread hstep, (config, w'), ?_, hspins'⟩
  exact List.mem_set (List.getElem?_eq_some_iff.mp hthread).1 _

/-- A thread with something to do and no concurrency gets into the loop. -/
theorem exists_spins (hzero : indexer.concurrency = 0) {count : ℕ}
    (hcount : threadItCount (.ofNat target.bytes.length) indexer.maxBytesPerIteration = .ok count)
    {config : FTextThread} (hconfig : config ∈ windowConfigs target indexer (count - 1))
    (hchunks : config.chunks ≠ []) :
    ∃ s, Reaches (fileStep target indexer) (fun _ _ => True) .start s ∧ s.Spins := by
  obtain ⟨itc, rfl⟩ := Nat.exists_eq_succ_of_ne_zero (threadItCount_pos hcount).ne'
  rw [Nat.succ_sub_one] at hconfig
  -- the window is planned, or it had no threads
  obtain ⟨it, hplan⟩ : ∃ it, windowPlan target indexer itc = .ok it := by
    cases hplan : windowPlan target indexer itc with
    | ok it => exact ⟨it, rfl⟩
    | error fault => simp [windowConfigs, hplan] at hconfig
  obtain ⟨ic, hic⟩ : ∃ ic, config.plan = .ok ic := by
    cases hic : config.plan with
    | ok ic => exact ⟨ic, rfl⟩
    | error fault => simp [FTextThread.chunks, hic] at hchunks
  have hnone : ic.concurrency.toInt.toNat = 0 := by
    by_contra hne
    have hadvances : config.Advances := by
      intro ic' hic'
      obtain rfl := Except.ok.inj (hic.symm.trans hic')
      exact Nat.pos_of_ne_zero hne
    rcases advances_iff.mp hadvances with hwanted | hnil
    · exact hwanted ((mem_windowConfigs_concurrency hconfig).trans hzero)
    · exact hchunks hnil
  simp only [windowConfigs, hplan] at hconfig
  obtain ⟨t, hget⟩ := List.mem_iff_getElem?.mp hconfig
  let opened : FileRun := { FileRun.start with pc := .window (itc + 1) }
  have hopened : fileStep target indexer .proceed .start = some opened := by
    simp only [fileStep, mainStep, FileRun.start, hcount, opened]
  have hspawned : fileStep target indexer .proceed opened =
      some (opened.spawned indexer itc it) := by
    simp only [fileStep, mainStep, opened, hplan]
  have hthread : (opened.spawned indexer itc it).threads[t]? = some (config, Worker.start) := by
    simp [FileRun.spawned, hget]
  have hplanned : workerStep target.bytes config .proceed (opened.spawned indexer itc it).heap
      Worker.start = some ((opened.spawned indexer itc it).heap, Worker.start.planned ic) := by
    simp only [workerStep, Worker.start, hic]
  refine ⟨_, ((Reaches.single trivial hopened).trans (Reaches.single trivial hspawned)).trans
    (Reaches.single (a := .worker t .proceed) trivial (fileStep_worker hthread hplanned)),
    (config, Worker.start.planned ic),
    List.mem_set (List.getElem?_eq_some_iff.mp hthread).1 _, ?_⟩
  refine ⟨hnone, ?_, Or.inl rfl⟩
  rw [chunks_eq hic] at hchunks
  exact hchunks

/-- **Termination.** A call has no infinite schedule exactly if its concurrency is not zero or the
threads of its first window have no chunks; and without concurrency it never returns an index. -/
theorem call_terminates_iff (target : TargetFile) (indexer : FIndexer) :
    ((¬ ∃ run : ℕ → FileRun, run 0 = .start ∧
        ∀ n, ∃ a, fileStep target indexer a (run n) = some (run (n + 1))) ↔
      indexer.concurrency ≠ 0 ∨ ∀ count, threadItCount (.ofNat target.bytes.length)
        indexer.maxBytesPerIteration = .ok count →
          ∀ config ∈ windowConfigs target indexer (count - 1), config.chunks = []) ∧
    (indexer.concurrency = 0 → ∀ s index,
      Reaches (fileStep target indexer) (fun _ _ => True) .start s →
        s.pc ≠ .returned (some index)) := by
  constructor
  · have hiff := terminates_iff_not_exists (fileStep target indexer) (fun _ _ => True) .start
    simp only [Via, true_and] at hiff
    rw [← hiff]
    constructor
    · intro hends
      by_contra hnot
      simp only [not_or, not_not, not_forall] at hnot
      obtain ⟨hzero, count, hcount, config, hconfig, hchunks⟩ := hnot
      obtain ⟨s, hreach, hspins⟩ := exists_spins hzero hcount hconfig hchunks
      refine not_terminates_of_loop FileRun.Spins ?_ hspins (hends.of_reaches hreach)
      intro s h
      obtain ⟨a, s', hstep, hnext⟩ := h.exists_step
      exact ⟨a, s', trivial, hstep, hnext⟩
    · intro hwork
      by_cases hzero : indexer.concurrency = 0
      · have hnil := hwork.resolve_left (not_not.mpr hzero)
        refine terminates_of_advances (FileRun.Blocked target indexer)
          (blocked_of_reaches hzero (.refl _))
          (fun s a s' h hstep => h.step hzero (fileMove_of_step hstep)) fun s h => ⟨h.inv, ?_⟩
        intro thread hmem
        obtain ⟨count, hcount, hconfig⟩ := h.configs thread hmem
        exact advances_iff.mpr (Or.inr (hnil count hcount _ hconfig))
      · exact terminates_of_concurrency hzero
  · intro hzero s index hreach hpc
    have hat := (blocked_of_reaches hzero hreach).atFirst
    simp only [FileRun.AtFirst, hpc] at hat

/-! ## Every smooth schedule returns -/

/-- The state of a call in which nothing has gone wrong and which has not given up. -/
structure FileRun.Healthy (target : TargetFile) (indexer : FIndexer) (s : FileRun) : Prop where
  calm : s.Calm target indexer
  notFailed : s.pc ≠ .returned none
  lookup : s.lookup = none → s.history = []

theorem FileRun.healthy_start (target : TargetFile) (indexer : FIndexer) :
    FileRun.start.Healthy target indexer :=
  ⟨FileRun.calm_start target indexer, by simp [FileRun.start], fun _ => rfl⟩

/-- A thread of a window can be completed. -/
theorem FileRun.Joining.completable {count itc i : ℕ} {thread : TextThread}
    (h : s.Joining target indexer itc i) (hpast : s.Past target indexer (itc + 1))
    (hcount : threadItCount (.ofNat target.bytes.length) indexer.maxBytesPerIteration = .ok count)
    (hcompletable : Completable target indexer count) (hthread : thread ∈ s.threads) :
    thread.1.Completable target.bytes := by
  obtain ⟨count', hcount', hle, -⟩ := hpast.windows
  obtain rfl : count = count' := Except.ok.inj (hcount.symm.trans hcount')
  refine hcompletable.threads itc hle _ ?_
  rw [windowConfigs_eq h.threadsOf]
  exact List.mem_map_of_mem hthread

/-- A thread that has not ended can take a smooth step, and if it has ended it has reported it. -/
theorem FileRun.Calm.thread_step (h : s.Calm target indexer) {t : ℕ} {thread : TextThread}
    (hthread : s.threads[t]? = some thread) (hcompletable : thread.1.Completable target.bytes) :
    (∃ a s', s.Smooth target a ∧ fileStep target indexer a s = some s') ∨
      1 ≤ thread.2.progress ∧ ∃ ret, thread.2.pc = .exited (some ret) := by
  obtain ⟨config, w⟩ := thread
  have hmem := List.mem_of_getElem? hthread
  have hw := (h.undisturbed.threads _ hmem).2
  obtain ⟨ic, hplan, -, -, hne, hread⟩ := hcompletable
  by_cases hexited : ∃ ret, w.pc = .exited (some ret)
  · right
    obtain ⟨ret, hpc⟩ := hexited
    have hic : w.ic ≠ [] := by rwa [(hw.working hplan (by simp [hpc])).ic_eq]
    refine ⟨?_, ret, hpc⟩
    rw [(h.reported _ hmem).progress_eq hpc, if_neg hic]
  · left
    obtain ⟨a, hsmooth, hsome⟩ := hw.exists_step hplan hread fun ret hpc => hexited ⟨ret, hpc⟩
    obtain ⟨⟨heap, w'⟩, hmoved⟩ := Option.isSome_iff_exists.mp hsome
    refine ⟨.worker t a, _, ?_, fileStep_worker hthread hmoved⟩
    intro thread hmem
    obtain rfl := Option.some.inj (hthread.symm.trans hmem)
    exact hsmooth

/-- **No deadlock**: a healthy call that has not returned can take a smooth step. -/
theorem FileRun.Healthy.exists_step {count : ℕ} (h : s.Healthy target indexer)
    (hcount : threadItCount (.ofNat target.bytes.length) indexer.maxBytesPerIteration = .ok count)
    (hcompletable : Completable target indexer count)
    (hrunning : ∀ index, s.pc ≠ .returned (some index)) :
    ∃ a s', s.Smooth target a ∧ fileStep target indexer a s = some s' := by
  have hstage := h.calm.undisturbed.inv.stage
  unfold FileRun.Stage at hstage
  have hproceed : (mainStep target indexer s).isSome →
      ∃ a s', s.Smooth target a ∧ fileStep target indexer a s = some s' := by
    intro hsome
    obtain ⟨s', hstep⟩ := Option.isSome_iff_exists.mp hsome
    exact ⟨.proceed, s', trivial, hstep⟩
  cases hpc : s.pc with
  | enter => exact hproceed (by simp only [mainStep, hpc, hcount, Option.isSome_some])
  | window left =>
      cases left with
      | zero => exact hproceed (by simp only [mainStep, hpc, Option.isSome_some])
      | succ itc =>
          simp only [hpc] at hstage
          obtain ⟨count', hcount', hle, -⟩ := hstage.2.windows
          obtain rfl : count = count' := Except.ok.inj (hcount.symm.trans hcount')
          obtain ⟨it, hplan⟩ := hcompletable.plan itc hle
          exact hproceed (by simp only [mainStep, hpc, hplan, Option.isSome_some])
  | watch itc i =>
      simp only [hpc] at hstage
      cases hthread : s.threads[i]? with
      | none => exact hproceed (by simp only [mainStep, hpc, hthread, Option.isSome_some])
      | some thread =>
          have hwork := hstage.1.completable hstage.2 hcount hcompletable
            (List.mem_of_getElem? hthread)
          rcases h.calm.thread_step hthread hwork with hstep | ⟨hprogress, -⟩
          · exact hstep
          · exact hproceed ((isSome_mainStep_watch target indexer hpc hthread).mpr hprogress)
  | join itc i =>
      simp only [hpc] at hstage
      obtain ⟨hjoining, hpast, thread, hthread, -⟩ := hstage
      have hwork := hjoining.completable hpast hcount hcompletable (List.mem_of_getElem? hthread)
      rcases h.calm.thread_step hthread hwork with hstep | ⟨-, ret, hexited⟩
      · exact hstep
      · exact hproceed (by simp only [mainStep, hpc, hthread, hexited, Option.isSome_some])
  | finish itc => exact hproceed (by simp only [mainStep, hpc, Option.isSome_some])
  | close => exact hproceed (by simp only [mainStep, hpc, Option.isSome_some])
  | returned index =>
      cases index with
      | none => exact absurd hpc h.notFailed
      | some index => exact absurd hpc (hrunning index)
  | undefined => exact absurd hpc h.calm.undisturbed.defined

theorem FileRun.Healthy.step {count : ℕ} (h : s.Healthy target indexer)
    (hcount : threadItCount (.ofNat target.bytes.length) indexer.maxBytesPerIteration = .ok count)
    (hcompletable : Completable target indexer count) (hsmooth : s.Smooth target a)
    (hstep : fileStep target indexer a s = some s') : s'.Healthy target indexer := by
  have hcalm := h.calm.step hcount hcompletable hsmooth hstep
  have hstage := h.calm.undisturbed.inv.stage
  unfold FileRun.Stage at hstage
  cases fileMove_of_step hstep with
  | opened _ _ => exact ⟨hcalm, by simp, h.lookup⟩
  | unopened _ hcount' _ =>
      rw [hcount] at hcount'
      cases hcount'
  | windowsDone _ => exact ⟨hcalm, by simp, h.lookup⟩
  | spawned _ _ => exact ⟨hcalm, by simp [FileRun.spawned], h.lookup⟩
  | @unplanned itc _ _ hpc hplan _ =>
      simp only [hpc] at hstage
      obtain ⟨count', hcount', hle, -⟩ := hstage.2.windows
      obtain rfl : count = count' := Except.ok.inj (hcount.symm.trans hcount')
      obtain ⟨it, hplan'⟩ := hcompletable.plan itc hle
      rw [hplan] at hplan'
      cases hplan'
  | watched _ _ _ => exact ⟨hcalm, by simp, h.lookup⟩
  | allJoined _ _ => exact ⟨hcalm, by simp, h.lookup⟩
  | @joined itc i thread result _ hthread hresult =>
      cases result with
      | none =>
          have hw := (h.calm.undisturbed.threads _ (List.mem_of_getElem? hthread)).2
          exact absurd hresult hw.notFailed
      | some ret =>
          simp only [FileRun.joined] at hcalm ⊢
          split
          · next hlt => exact ⟨by rwa [if_pos hlt] at hcalm, by simp, h.lookup⟩
          · next hlt => exact ⟨by rwa [if_neg hlt] at hcalm, by simp, h.lookup⟩
  | @finished itc hpc =>
      simp only [hpc] at hstage
      obtain ⟨heap, chunk, lookup, -, -, heq⟩ :=
        h.calm.undisturbed.inv.exists_finished hstage.1
      rw [heq] at hcalm ⊢
      exact ⟨hcalm, by simp, by simp⟩
  | closed hpc =>
      simp only [hpc] at hstage
      refine ⟨hcalm, ?_, h.lookup⟩
      obtain ⟨count', hcount', -, hwindows, -⟩ := hstage.2.windows
      have hpos := threadItCount_pos hcount'
      cases hlookup : s.lookup with
      | some lookup => simp
      | none =>
          have hlength := congrArg List.length hwindows
          simp [h.lookup hlookup] at hlength
          omega
  | fault _ => exact absurd hsmooth id
  | worker _ _ => exact ⟨hcalm, h.notFailed, h.lookup⟩

/-- Smooth schedules of a call whose threads have something to do end. -/
theorem Completable.terminates {count : ℕ} (h : Completable target indexer count)
    (hcount : threadItCount (.ofNat target.bytes.length) indexer.maxBytesPerIteration = .ok count) :
    Terminates (fileStep target indexer) (FileRun.Smooth target) .start := by
  obtain ⟨itc, rfl⟩ := Nat.exists_eq_succ_of_ne_zero (threadItCount_pos hcount).ne'
  obtain ⟨it, hplan⟩ := h.plan itc (Nat.lt_succ_self itc)
  obtain ⟨config, hconfig⟩ : ∃ config, config ∈ windowConfigs target indexer itc := by
    simp only [windowConfigs, hplan]
    refine List.exists_mem_of_length_pos ?_
    rw [textThreads, List.length_mapIdx]
    exact it.len_pos
  obtain ⟨ic, hic, -, hpos, hne, -⟩ := h.threads itc (Nat.lt_succ_self itc) _ hconfig
  have hadvances : config.Advances := by
    intro ic' hic'
    obtain rfl := Except.ok.inj (hic.symm.trans hic')
    exact hpos
  have hwanted := (advances_iff.mp hadvances).resolve_right (by rwa [chunks_eq hic])
  rw [mem_windowConfigs_concurrency hconfig] at hwanted
  exact (terminates_of_concurrency hwanted).mono fun _ _ _ => trivial

/-- Where a smooth call is stuck it has returned an index. -/
theorem Completable.returned_of_stuck {count : ℕ} (h : Completable target indexer count)
    (hcount : threadItCount (.ofNat target.bytes.length) indexer.maxBytesPerIteration = .ok count)
    (hreach : Reaches (fileStep target indexer) (FileRun.Smooth target) .start s)
    (hstuck : Stuck (fileStep target indexer) (FileRun.Smooth target) s) :
    s.Undisturbed target indexer ∧ ∃ index, s.pc = .returned (some index) := by
  have hhealthy : s.Healthy target indexer :=
    hreach.invariant (FileRun.healthy_start target indexer)
      fun _ _ _ hs hsmooth hstep => hs.step hcount h hsmooth hstep
  refine ⟨hhealthy.calm.undisturbed, ?_⟩
  by_contra hnot
  obtain ⟨a, s', hsmooth, hstep⟩ := hhealthy.exists_step hcount h
    fun index hpc => hnot ⟨index, hpc⟩
  exact hstuck a s' hsmooth hstep

/-- **Total correctness.** When nothing goes wrong and the threads of all windows have something to
do, every schedule of a call ends, and it ends with the index of the sequential program. -/
theorem call_delivers {count : ℕ}
    (hcount : threadItCount (.ofNat target.bytes.length) indexer.maxBytesPerIteration = .ok count)
    (hcompletable : Completable target indexer count) :
    Terminates (fileStep target indexer) (FileRun.Smooth target) .start ∧
      ∀ s, Reaches (fileStep target indexer) (FileRun.Smooth target) .start s →
        Stuck (fileStep target indexer) (FileRun.Smooth target) s →
          ∃ index, s.pc = .returned (some index) ∧
            indexSequentially target indexer = .ok index := by
  refine ⟨hcompletable.terminates hcount, fun s hreach hstuck => ?_⟩
  obtain ⟨hundisturbed, index, hpc⟩ := hcompletable.returned_of_stuck hcount hreach hstuck
  obtain ⟨hinv, htabulated⟩ := tabulated_of_reaches (hreach.mono fun _ _ _ => trivial)
  refine ⟨index, hpc, htabulated.indexSequentially_eq hinv ?_ hpc⟩
  exact fun entry hentry thread hthread =>
    (hundisturbed.history entry hentry thread hthread).scanned

end

/-- Every schedule of the two windows of `windowsFile`, with two threads in each, returns the same
lookup file. -/
theorem call_delivers_windows :
    Terminates (fileStep windowsFile windowsIndexer) (FileRun.Smooth windowsFile) .start ∧
      ∀ s, Reaches (fileStep windowsFile windowsIndexer) (FileRun.Smooth windowsFile) .start s →
        Stuck (fileStep windowsFile windowsIndexer) (FileRun.Smooth windowsFile) s →
          ∃ index, s.pc = .returned (some index) ∧ index.flookup = windowsIndex.flookup := by
  have hcount : threadItCount (.ofNat windowsFile.bytes.length)
      windowsIndexer.maxBytesPerIteration = .ok 2 := by decide +kernel
  have hcompletable : Completable windowsFile windowsIndexer 2 := by decide +kernel
  obtain ⟨hends, hindex⟩ := call_delivers hcount hcompletable
  refine ⟨hends, fun s hreach hstuck => ?_⟩
  obtain ⟨index, hpc, hsequential⟩ := hindex s hreach hstuck
  have hlookup : (indexSequentially windowsFile windowsIndexer).toOption.map FIndex.flookup =
      some windowsIndex.flookup := by decide +kernel
  rw [hsequential] at hlookup
  exact ⟨index, hpc, Option.some.inj hlookup⟩

end Flashlight.TextIndexer
