/-
# The messages of a batch

After the coroutines of a batch were started, the thread receives as many messages as
there are chunks in the batch and waits without a deadline. A coroutine that fails
delivers nothing: the null pointer that it passes to `chsend` is not a message.

The account of a batch is exact. The messages received, those that wait for the thread
and the coroutines that failed add up to the coroutines that were started. So a batch gets
all of its messages exactly if none of its coroutines fails, and after a failure the
thread will wait for a message that nobody sends.
-/

import Flashlight.TextIndexer.Progress

namespace Flashlight.TextIndexer

open Flashlight.Math Flashlight.Indexer

/-- `chsend` takes every message that is not null. -/
def WorkerAction.Delivers : WorkerAction → Prop
  | .scan env => env.send = true
  | _ => True

instance (a : WorkerAction) : Decidable a.Delivers :=
  match a with
  | .proceed => .isTrue trivial
  | .fault => .isTrue trivial
  | .scan env => inferInstanceAs (Decidable (env.send = true))
  | .recv _ => .isTrue trivial

/-- The coroutine that a step of the batch at `i` starts: its chunk, and how it runs. -/
def coroutineOf (i : ℕ) (move : (Heap × Worker) × WorkerAction) :
    Option (FIndexerChunk × ScanEnv) :=
  match move.1.2.pc, move.2 with
  | .launch j c, .scan env =>
      if j = i then (move.1.2.chunkAt j c).map fun chunk => (chunk, env) else none
  | _, _ => none

/-- The coroutines that were started in the batch at `i`. -/
def coroutines (i : ℕ) (trace : List ((Heap × Worker) × WorkerAction)) :
    List (FIndexerChunk × ScanEnv) :=
  trace.filterMap (coroutineOf i)

/-- The number of coroutines of the batch at `i` that failed. -/
def failures (bytes : List UInt8) (i : ℕ) (trace : List ((Heap × Worker) × WorkerAction)) : ℕ :=
  (coroutines i trace).countP fun coroutine => ScanFails bytes coroutine.2 coroutine.1

section

variable {i c : ℕ} {trace : List ((Heap × Worker) × WorkerAction)} {s : Heap × Worker}
  {a : WorkerAction} {bytes : List UInt8}

/-- A step that starts no coroutine in the batch leaves its coroutines alone. -/
theorem coroutines_of_none {move : (Heap × Worker) × WorkerAction}
    (hmove : coroutineOf i move = none) :
    coroutines i (trace ++ [move]) = coroutines i trace := by
  rw [coroutines, List.filterMap_append, List.filterMap_cons_none hmove, List.filterMap_nil,
    List.append_nil]
  rfl

theorem coroutines_of_some {move : (Heap × Worker) × WorkerAction}
    {coroutine : FIndexerChunk × ScanEnv} (hmove : coroutineOf i move = some coroutine) :
    coroutines i (trace ++ [move]) = coroutines i trace ++ [coroutine] := by
  rw [coroutines, List.filterMap_append, List.filterMap_cons_some hmove, List.filterMap_nil]
  rfl

theorem failures_eq_zero_iff : failures bytes i trace = 0 ↔
    ∀ coroutine ∈ coroutines i trace, ¬ ScanFails bytes coroutine.2 coroutine.1 := by
  simp [failures, List.countP_eq_zero]

theorem coroutineOf_eq_none (hscan : ∀ env, a ≠ .scan env) : coroutineOf i (s, a) = none := by
  unfold coroutineOf
  split
  · next hpc ha => exact absurd ha (hscan _)
  · rfl

theorem coroutineOf_launch {j : ℕ} {chunk : FIndexerChunk} (env : ScanEnv)
    (hpc : s.2.pc = .launch j c) (hchunk : s.2.chunkAt j c = some chunk) :
    coroutineOf i (s, .scan env) = if j = i then some (chunk, env) else none := by
  simp only [coroutineOf, hpc, hchunk, Option.map_some]

end

/-! ## The account -/

/-- The messages and the failures of the current batch, in which `trace` are the steps of
the thread so far. Later batches have not begun. -/
def Worker.Accounted (bytes : List UInt8) (trace : List ((Heap × Worker) × WorkerAction))
    (w : Worker) : Prop :=
  match w.pc with
  | .enter => w.pending = [] ∧ ∀ i, coroutines i trace = []
  | .batch j => w.pending = [] ∧ ∀ i, j ≤ i → coroutines i trace = []
  | .launch j c => (coroutines j trace).length = c ∧
      w.pending.length + failures bytes j trace = c ∧ ∀ i, j < i → coroutines i trace = []
  | .receive j c => (coroutines j trace).length = min (j + w.concurrency) w.ic.length - j ∧
      c + w.pending.length + failures bytes j trace = (coroutines j trace).length ∧
      ∀ i, j < i → coroutines i trace = []
  | .reduce => True
  | .exited _ => True
  | .undefined => True

section

variable {bytes : List UInt8} {config : FTextThread} {heap heap' : Heap} {w w' : Worker}
  {a : WorkerAction} {trace : List ((Heap × Worker) × WorkerAction)}

/-- Starting a coroutine: it sends a message, or it fails. -/
theorem Worker.Accounted.launched (hw : w.Accounted bytes trace) {j c : ℕ}
    {chunk : FIndexerChunk} {env : ScanEnv} {outcome : ScanOutcome} (hpc : w.pc = .launch j c)
    (hchunk : w.chunkAt j c = some chunk) (hsend : env.send = true)
    (hscan : fIndexTextBytes bytes env heap chunk config.thread = (heap', outcome)) :
    (w.launched j c chunk outcome).Accounted bytes (trace ++ [((heap, w), .scan env)]) := by
  simp only [Worker.Accounted, hpc] at hw
  obtain ⟨hstarted, hmessages, hlater⟩ := hw
  have hself : coroutines j (trace ++ [((heap, w), .scan env)]) =
      coroutines j trace ++ [(chunk, env)] :=
    coroutines_of_some ((coroutineOf_launch env hpc hchunk).trans (if_pos rfl))
  have hother : ∀ i, j < i → coroutines i (trace ++ [((heap, w), .scan env)]) = [] := by
    intro i hi
    rw [coroutines_of_none ((coroutineOf_launch env hpc hchunk).trans (if_neg (by omega)))]
    exact hlater i hi
  have hlength : (coroutines j (trace ++ [((heap, w), .scan env)])).length = c + 1 := by
    rw [hself, List.length_append, hstarted]
    rfl
  have hfailures : failures bytes j (trace ++ [((heap, w), .scan env)]) =
      failures bytes j trace + if ScanFails bytes env chunk then 1 else 0 := by
    simp [failures, hself]
  cases outcome with
  | sent message n =>
      have hfails : ¬ ScanFails bytes env chunk := fun h => by
        cases (silent_iff_scanFails hsend hscan (by simp)).mpr h
      rw [if_neg hfails] at hfailures
      refine ⟨hlength, ?_, hother⟩
      rw [hfailures, Worker.launched, List.length_append, List.length_singleton]
      omega
  | silent =>
      have hfails := (silent_iff_scanFails hsend hscan (by simp)).mp rfl
      rw [if_pos hfails] at hfailures
      refine ⟨hlength, ?_, hother⟩
      change w.pending.length + failures bytes j (trace ++ [((heap, w), .scan env)]) = c + 1
      omega
  | undefined => exact trivial

/-- **A step keeps the account.** -/
theorem Worker.Inv.accounted (h : w.Inv bytes config heap)
    (hmove : WorkerMove bytes config heap w a heap' w') (hdelivers : a.Delivers)
    (hw : w.Accounted bytes trace) : w'.Accounted bytes (trace ++ [((heap, w), a)]) := by
  have hsame : (∀ env, a ≠ .scan env) →
      ∀ i, coroutines i (trace ++ [((heap, w), a)]) = coroutines i trace :=
    fun hscan i => coroutines_of_none (coroutineOf_eq_none hscan)
  cases hmove with
  | planned hpc _ =>
      simp only [Worker.Accounted, hpc] at hw
      simp only [Worker.Accounted, Worker.planned, hsame (by simp)]
      exact ⟨hw.1, fun i _ => hw.2 i⟩
  | unplanned _ _ hended => rcases hended with rfl | rfl <;> exact trivial
  | fault _ => exact trivial
  | @batch j hpc =>
      simp only [Worker.Accounted, hpc] at hw
      obtain ⟨hpending, hlater⟩ := hw
      by_cases hj : j < w.ic.length
      · simp only [Worker.Accounted, if_pos hj, failures, hsame (by simp), hpending,
          hlater j le_rfl]
        exact ⟨rfl, rfl, fun i hi => hlater i hi.le⟩
      · simp only [Worker.Accounted, if_neg hj]
  | @launchDone j c hpc hchunk =>
      obtain ⟨ic, -, hworking⟩ := h.exists_working hpc (by simp) (by simp) (by simp)
      have hposition := hworking.position
      simp only [Worker.Position, hpc] at hposition
      obtain ⟨-, -, hc, hlen, -, -⟩ := hposition
      have hall := hworking.chunkAt_eq_none hchunk hc hlen
      rw [← hworking.ic_eq] at hall
      simp only [Worker.Accounted, hpc] at hw
      obtain ⟨hstarted, hmessages, hlater⟩ := hw
      simp only [Worker.Accounted, failures, hsame (by simp)]
      rw [failures] at hmessages
      exact ⟨by omega, by omega, hlater⟩
  | scan hpc hchunk hscan => exact hw.launched hpc hchunk hdelivers hscan
  | @batchDone j c hpc hchunk =>
      obtain ⟨ic, -, hworking⟩ := h.exists_working hpc (by simp) (by simp) (by simp)
      have hposition := hworking.position
      simp only [Worker.Position, hpc] at hposition
      obtain ⟨-, -, hc, hlen, -, -⟩ := hposition
      have hall := hworking.chunkAt_eq_none hchunk hc hlen
      rw [← hworking.ic_eq] at hall
      simp only [Worker.Accounted, hpc] at hw
      obtain ⟨hstarted, hmessages, hlater⟩ := hw
      unfold Worker.Accounted Worker.finished
      by_cases hj : j + w.concurrency < 2 ^ 31
      · simp only [if_pos hj, hsame (by simp)]
        refine ⟨List.length_eq_zero_iff.mp (by omega), fun i hi => ?_⟩
        rcases Nat.lt_or_ge j i with hlt | hge
        · exact hlater i hlt
        · -- batches of no chunks never get any further
          obtain rfl : i = j := by omega
          exact List.length_eq_zero_iff.mp (by omega)
      · simp only [if_neg hj]
  | @recv j c k chunk message hpc _ hmessage =>
      simp only [Worker.Accounted, hpc] at hw
      obtain ⟨hstarted, hmessages, hlater⟩ := hw
      have hk : k < w.pending.length := (List.getElem?_eq_some_iff.mp hmessage).1
      rw [Worker.received]
      split
      · simp only [Worker.Accounted, failures, hsame (by simp), List.length_eraseIdx_of_lt hk]
        rw [failures] at hmessages
        exact ⟨hstarted, by omega, hlater⟩
      · exact trivial
  | reduce hpc =>
      obtain ⟨ic, -, hworking⟩ := h.exists_working hpc (by simp) (by simp) (by simp)
      obtain ⟨-, ⟨ret, heq⟩, -⟩ := hworking.reduced hpc
      rw [heq]
      exact trivial

/-- **The account of a run**: what was received, what waits and what failed are all
coroutines that were started. -/
theorem accounted_of_run {s : Heap × Worker}
    (hrun : Run (workerSystem bytes config) (heap, Worker.start) trace s)
    (hdelivers : ∀ move ∈ trace, move.2.Delivers) : s.2.Accounted bytes trace := by
  have hstart : Worker.start.Inv bytes config heap ∧ Worker.start.Accounted bytes [] :=
    ⟨.unplanned (Or.inl rfl) rfl, rfl, fun _ => rfl⟩
  have hkeep : ∀ (past : List ((Heap × Worker) × WorkerAction)) (s : Heap × Worker) a s',
      s.2.Inv bytes config s.1 ∧ s.2.Accounted bytes past → (s, a).2.Delivers →
      workerSystem bytes config a s = some s' →
      s'.2.Inv bytes config s'.1 ∧ s'.2.Accounted bytes (past ++ [(s, a)]) := by
    rintro past s a s' ⟨h, hw⟩ ha hstep
    have hmove := workerMove_of_step hstep
    exact ⟨(h.step hmove).1, h.accounted hmove ha hw⟩
  exact (hrun.history hdelivers hstart hkeep).2

/-- What is expected of the batch at `i` once its coroutines are started, when the thread
has received `c` messages: each coroutine has delivered one, and the thread never waits for a
message that nobody sends. -/
structure MessagesComplete (i c : ℕ) (trace : List ((Heap × Worker) × WorkerAction))
    (w : Worker) : Prop where
  delivered : c + w.pending.length = (coroutines i trace).length
  awaited : w.chunkAt i c ≠ none → w.pending ≠ []

/-- **The messages of a batch are complete** exactly if none of its coroutines fails. -/
theorem messagesComplete_iff {s : Heap × Worker} {i c : ℕ}
    (hrun : Run (workerSystem bytes config) (heap, Worker.start) trace s)
    (hdelivers : ∀ move ∈ trace, move.2.Delivers) (hpc : s.2.pc = .receive i c) :
    MessagesComplete i c trace s.2 ↔
      ∀ coroutine ∈ coroutines i trace, ¬ ScanFails bytes coroutine.2 coroutine.1 := by
  have haccount := accounted_of_run hrun hdelivers
  simp only [Worker.Accounted, hpc] at haccount
  obtain ⟨hstarted, hmessages, -⟩ := haccount
  rw [← failures_eq_zero_iff]
  constructor
  · rintro ⟨hdelivered, -⟩
    omega
  · intro hnone
    refine ⟨by omega, fun hdue hempty => ?_⟩
    obtain ⟨chunk, hchunk⟩ := Option.ne_none_iff_exists'.mp hdue
    obtain ⟨h, -⟩ := inv_of_reaches hrun.reaches
    obtain ⟨ic, -, hworking⟩ := h.exists_working hpc (by simp) (by simp) (by simp)
    obtain ⟨hc, -, -, hlen⟩ := hworking.chunkAt_eq_some hchunk
    rw [← hworking.ic_eq] at hlen
    rw [hempty, List.length_nil] at hmessages
    omega

/-- After a failure the thread never gets through its batch. -/
theorem failures_of_received {s : Heap × Worker} {i c : ℕ}
    (hrun : Run (workerSystem bytes config) (heap, Worker.start) trace s)
    (hdelivers : ∀ move ∈ trace, move.2.Delivers) (hpc : s.2.pc = .receive i c)
    (hreceived : s.2.chunkAt i c = none) : failures bytes i trace = 0 := by
  have haccount := accounted_of_run hrun hdelivers
  simp only [Worker.Accounted, hpc] at haccount
  obtain ⟨hstarted, hmessages, -⟩ := haccount
  obtain ⟨h, -⟩ := inv_of_reaches hrun.reaches
  obtain ⟨ic, -, hworking⟩ := h.exists_working hpc (by simp) (by simp) (by simp)
  have hposition := hworking.position
  simp only [Worker.Position, hpc] at hposition
  obtain ⟨-, -, hc, hlen, -, -⟩ := hposition
  have hall := hworking.chunkAt_eq_none hreceived hc hlen
  rw [← hworking.ic_eq] at hall
  omega

end

/-- A thread up to its first wait, with coroutines that run like these. -/
def untilWaiting (envs : List ScanEnv) : List WorkerAction :=
  [.proceed, .proceed] ++ envs.map .scan ++ [.proceed]

/-- Two coroutines read `pairFile`, and each delivers its message. -/
theorem messagesComplete_iff_pair : ∃ trace s,
    Run (workerSystem (pairFile 97).bytes ⟨0, 4, 4, 2, 2, 0⟩) ([], Worker.start) trace s ∧
      (coroutines 0 trace).length = 2 ∧ MessagesComplete 0 0 trace s.2 := by
  have hsummary : (runTrace (workerSystem (pairFile 97).bytes ⟨0, 4, 4, 2, 2, 0⟩)
      (untilWaiting (List.replicate 2 ⟨true, some 2, none, true, true⟩))
      ([], Worker.start)).map (fun run =>
        (run.2.2.pc, run.1.all fun move => decide move.2.Delivers, (coroutines 0 run.1).length,
          (coroutines 0 run.1).all fun coroutine =>
            decide (¬ ScanFails (pairFile 97).bytes coroutine.2 coroutine.1))) =
      some (.receive 0 0, true, 2, true) := by decide +kernel
  obtain ⟨⟨trace, s⟩, hrun, hpair⟩ := Option.map_eq_some_iff.mp hsummary
  obtain ⟨hpc, hpair⟩ := Prod.mk.inj hpair
  obtain ⟨hdelivers, hpair⟩ := Prod.mk.inj hpair
  obtain ⟨hstarted, hfails⟩ := Prod.mk.inj hpair
  have hrun := run_of_runTrace hrun
  refine ⟨trace, s, hrun, hstarted, (messagesComplete_iff hrun ?_ hpc).mpr ?_⟩
  · intro move hmove
    exact of_decide_eq_true (List.all_eq_true.mp hdelivers move hmove)
  · intro coroutine hcoroutine
    exact of_decide_eq_true (List.all_eq_true.mp hfails coroutine hcoroutine)

/-- The only coroutine of a batch cannot allocate its buffer: it was started, nothing was
delivered, and the thread waits for its message. -/
theorem messages_incomplete_on_fault : ∃ trace s,
    Run (workerSystem lineFile.bytes ⟨0, 2, 2, 2, 1, 0⟩) ([], Worker.start) trace s ∧
      (∀ move ∈ trace, move.2.Delivers) ∧ s.2.pc = .receive 0 0 ∧
      (coroutines 0 trace).length = 1 ∧ s.2.pending = [] ∧ s.2.chunkAt 0 0 ≠ none ∧
      ¬ MessagesComplete 0 0 trace s.2 := by
  have hsummary : (runTrace (workerSystem lineFile.bytes ⟨0, 2, 2, 2, 1, 0⟩)
      (untilWaiting [⟨false, some 2, none, true, true⟩]) ([], Worker.start)).map (fun run =>
        (run.2.2.pc, run.1.all fun move => decide move.2.Delivers, (coroutines 0 run.1).length,
          run.2.2.pending, run.2.2.chunkAt 0 0)) =
      some (.receive 0 0, true, 1, [], some ⟨0, 0, 2⟩) := by decide +kernel
  obtain ⟨⟨trace, s⟩, hrun, hpair⟩ := Option.map_eq_some_iff.mp hsummary
  obtain ⟨hpc, hpair⟩ := Prod.mk.inj hpair
  obtain ⟨hdelivers, hpair⟩ := Prod.mk.inj hpair
  obtain ⟨hstarted, hpair⟩ := Prod.mk.inj hpair
  obtain ⟨hpending, hchunk⟩ := Prod.mk.inj hpair
  have hdue : s.2.chunkAt 0 0 ≠ none := fun hnone => by cases hchunk.symm.trans hnone
  refine ⟨trace, s, run_of_runTrace hrun, fun move hmove =>
    of_decide_eq_true (List.all_eq_true.mp hdelivers move hmove), hpc, hstarted, hpending,
    hdue, fun hcomplete => hcomplete.awaited hdue hpending⟩

end Flashlight.TextIndexer
