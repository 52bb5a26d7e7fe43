/-
# Threads that miss nothing

The coroutines of a batch are started one after the other, and their messages are
received in any order. When every call succeeds and every read delivers its whole
chunk, the thread never waits in vain, it comes to the end of its loop, and by then
each slot of the array has been written exactly once.

The other direction is what short reads are about: a thread that ends up with all
bytes of its chunks has had no short read on the way.
-/

import Flashlight.TextIndexer.Batches

namespace Flashlight.TextIndexer

open Flashlight.Math Flashlight.Indexer
open scoped List

/-! ## Threads that miss nothing -/

/-- The number of coroutines that were due so far. -/
def Worker.started (w : Worker) : ℕ :=
  match w.pc with
  | .enter => 0
  | .batch i => min i w.ic.length
  | .launch i c => i + c
  | .receive i _ => min (i + w.concurrency) w.ic.length
  | .reduce => w.ic.length
  | .exited _ => w.ic.length
  | .undefined => w.ic.length

/-- Every coroutine that was due has scanned its chunk to the end. -/
structure Worker.InFull (bytes : List UInt8) (w : Worker) : Prop where
  length_eq : w.examined.length = w.started
  scanned_eq : ∀ entry ∈ w.examined, entry.2 = (chunkBuffer bytes entry.1).length

/-- The chunk that the next coroutine is started for. -/
def Worker.next (w : Worker) : Option FIndexerChunk :=
  match w.pc with
  | .launch i c => w.chunkAt i c
  | _ => none

theorem Worker.next_eq {w : Worker} {i c : ℕ} {chunk : FIndexerChunk} (hpc : w.pc = .launch i c)
    (hchunk : w.chunkAt i c = some chunk) : w.next = some chunk := by
  simp only [Worker.next, hpc, hchunk]

/-- The step starts a coroutine that does not read its chunk to the end. -/
def Worker.Skips (bytes : List UInt8) (w : Worker) : WorkerAction → Prop
  | .scan env => ∃ chunk ∈ w.next,
      pread bytes chunk.count chunk.fromOffset.toInt64 env.read ≠ some (chunkBuffer bytes chunk)
  | _ => False

/-- Nothing goes wrong in a step: all calls succeed, and the read of a coroutine
delivers the whole chunk. -/
def Worker.Smooth (bytes : List UInt8) (w : Worker) : WorkerAction → Prop
  | .proceed => True
  | .recv _ => True
  | .fault => False
  | .scan env => env.Allocates ∧ ∀ chunk ∈ w.next, env.ReadsAll bytes chunk

instance (bytes : List UInt8) (w : Worker) (a : WorkerAction) : Decidable (w.Smooth bytes a) :=
  match a with
  | .proceed => .isTrue trivial
  | .recv _ => .isTrue trivial
  | .fault => .isFalse id
  | .scan env => inferInstanceAs
      (Decidable (env.Allocates ∧ ∀ chunk ∈ w.next, env.ReadsAll bytes chunk))

section

variable {bytes : List UInt8} {config : FTextThread} {heap heap' : Heap} {w w' : Worker}
  {a : WorkerAction} {ic : FIndexerChunks}

theorem Worker.Working.length_le {thread n : ℕ} (h : w.Working bytes thread ic heap)
    (hbelow : w.ExaminedBelow n) : w.examined.length ≤ n := by
  have hnodup : (w.examined.map fun entry => entry.1.index.toNat).Nodup :=
    (List.pairwise_map.mpr h.increasing).imp Nat.ne_of_lt
  have hsub : (w.examined.map fun entry => entry.1.index.toNat) ⊆ List.range n := by
    intro k hk
    obtain ⟨entry, hentry, rfl⟩ := List.mem_map.mp hk
    exact List.mem_range.mpr (hbelow entry hentry)
  simpa using (hnodup.subperm hsub).length_le

/-- No coroutine scans twice. -/
theorem Worker.Working.length_examined_le {thread : ℕ} (h : w.Working bytes thread ic heap) :
    w.examined.length ≤ w.started ∧ w.started ≤ ic.chunks.length := by
  have hposition := h.position
  have hall : w.ExaminedBelow ic.chunks.length := fun entry hentry =>
    (List.getElem?_eq_some_iff.mp (h.planned entry hentry).1).1
  unfold Worker.Position at hposition
  unfold Worker.started
  rw [h.ic_eq]
  cases hpc : w.pc with
  | enter => simp only [hpc] at hposition
  | batch i =>
      simp only [hpc] at hposition
      exact ⟨h.length_le hposition.2.2, Nat.min_le_right _ _⟩
  | launch i c =>
      simp only [hpc] at hposition
      exact ⟨h.length_le hposition.2.2.2.2.2, hposition.2.2.2.1⟩
  | receive i c =>
      simp only [hpc] at hposition
      exact ⟨h.length_le hposition.2.2.2.2.2, Nat.min_le_right _ _⟩
  | reduce => exact ⟨h.length_le hall, le_refl _⟩
  | exited result => exact ⟨h.length_le hall, le_refl _⟩
  | undefined => exact ⟨h.length_le hall, le_refl _⟩

theorem Worker.Inv.length_examined_le (h : w.Inv bytes config heap) :
    w.examined.length ≤ w.started := by
  cases h with
  | unplanned _ hw =>
      subst hw
      exact Nat.zero_le _
  | working _ h => exact h.length_examined_le.1

/-- Apart from the start of a coroutine, a step examines nothing, and no less is due. -/
theorem Worker.Inv.started_mono (h : w.Inv bytes config heap)
    (hmove : WorkerMove bytes config heap w a heap' w') (hscan : ∀ env, a ≠ .scan env) :
    w'.examined = w.examined ∧ w.started ≤ w'.started := by
  cases hmove with
  | planned hpc _ => exact ⟨rfl, by simp [Worker.started, hpc]⟩
  | unplanned hpc _ _ => exact ⟨rfl, by simp [Worker.started, hpc]⟩
  | fault hpc =>
      refine ⟨rfl, ?_⟩
      cases h with
      | unplanned hpc' hw =>
          subst hw
          rcases hpc' with rfl | rfl | rfl <;> exact Nat.zero_le _
      | working _ h =>
          have hle := h.length_examined_le.2
          rw [← h.ic_eq] at hle
          exact hle
  | @batch i hpc =>
      refine ⟨rfl, ?_⟩
      simp only [Worker.started, hpc]
      by_cases hi : i < w.ic.length
      · simp only [if_pos hi]
        omega
      · simp only [if_neg hi]
        omega
  | @launchDone i c hpc hchunk =>
      refine ⟨rfl, ?_⟩
      obtain ⟨ic, -, hw⟩ := h.exists_working hpc (by simp) (by simp) (by simp)
      have hposition := hw.position
      simp only [Worker.Position, hpc] at hposition
      have heq := hw.chunkAt_eq_none hchunk hposition.2.2.1 hposition.2.2.2.1
      simp only [Worker.started, hpc, hw.ic_eq]
      omega
  | scan _ _ _ => exact absurd rfl (hscan _)
  | @batchDone i c hpc hchunk =>
      refine ⟨rfl, ?_⟩
      simp only [Worker.finished, Worker.started, hpc]
      by_cases hi : i + w.concurrency < 2 ^ 31
      · simp only [if_pos hi]
        exact le_refl _
      · simp only [if_neg hi]
        exact Nat.min_le_right _ _
  | @recv i c k chunk message hpc hchunk hmessage =>
      obtain ⟨ic, -, hw⟩ := h.exists_working hpc (by simp) (by simp) (by simp)
      have hpc' := (hw.received hpc hchunk hmessage).2
      simp only [Worker.started, hpc, hpc']
      simp only [Worker.received]
      split <;> exact ⟨rfl, le_refl _⟩
  | reduce hpc =>
      obtain ⟨ic, -, hw⟩ := h.exists_working hpc (by simp) (by simp) (by simp)
      obtain ⟨-, ⟨ret, heq⟩, -⟩ := hw.reduced hpc
      rw [heq]
      exact ⟨rfl, by simp [Worker.started, hpc]⟩

/-- **A skipped chunk is never made up for**: a thread that has everything at the end of
a step had everything before, and the step skipped nothing. -/
theorem Worker.Inv.inFull_of_move (h : w.Inv bytes config heap)
    (hmove : WorkerMove bytes config heap w a heap' w') (hfull : w'.InFull bytes) :
    w.InFull bytes ∧ ¬ w.Skips bytes a := by
  have hle := h.length_examined_le
  by_cases hscan : ∃ env, a = .scan env
  · obtain ⟨env, rfl⟩ := hscan
    cases hmove with
    | @scan i c chunk _ _ outcome hpc hchunk hscan =>
        obtain ⟨ic, -, hw⟩ := h.exists_working hpc (by simp) (by simp) (by simp)
        obtain ⟨-, -, -, hlt⟩ := hw.chunkAt_eq_some hchunk
        obtain ⟨hlength, hscanned⟩ := hfull
        simp only [Worker.started, hpc] at hle
        cases outcome with
        | sent message n =>
            obtain ⟨-, -, hread, -⟩ := (fIndexTextBytes_cases hscan).2 message n rfl
            simp only [Worker.launched, Worker.started, List.length_append,
              List.length_singleton] at hlength
            refine ⟨⟨?_, fun entry hentry => hscanned entry (List.mem_append_left _ hentry)⟩, ?_⟩
            · simp only [Worker.started, hpc]
              omega
            · rintro ⟨chunk', hnext, hskip⟩
              obtain rfl := Option.some.inj ((Worker.next_eq hpc hchunk).symm.trans hnext)
              have hn := hscanned (chunk, n) (List.mem_append_right _ (List.mem_singleton.mpr rfl))
              rw [hread, show n = (chunkBuffer bytes chunk).length from hn,
                List.take_length] at hskip
              exact hskip rfl
        | silent =>
            simp only [Worker.launched, Worker.started] at hlength
            omega
        | undefined =>
            simp only [Worker.launched, Worker.started, hw.ic_eq] at hlength
            omega
  · have hscan' : ∀ env, a ≠ .scan env := fun env heq => hscan ⟨env, heq⟩
    obtain ⟨hexamined, hmono⟩ := h.started_mono hmove hscan'
    obtain ⟨hlength, hscanned⟩ := hfull
    rw [hexamined] at hlength hscanned
    refine ⟨⟨by omega, hscanned⟩, ?_⟩
    cases a with
    | scan env => exact absurd rfl (hscan' env)
    | proceed => exact id
    | fault => exact id
    | recv k => exact id

/-- A step adds at most one entry: the chunk whose coroutine it starts, with what its
`pread` delivered. -/
theorem Worker.Inv.forall_examined_of_move {P : FIndexerChunk × ℕ → Prop}
    (h : w.Inv bytes config heap) (hmove : WorkerMove bytes config heap w a heap' w')
    (hold : ∀ entry ∈ w.examined, P entry)
    (hnew : ∀ env chunk n, a = .scan env → chunk ∈ w.next → n ≤ (chunkBuffer bytes chunk).length →
      pread bytes chunk.count chunk.fromOffset.toInt64 env.read =
        some ((chunkBuffer bytes chunk).take n) → P (chunk, n)) :
    ∀ entry ∈ w'.examined, P entry := by
  by_cases hscan : ∃ env, a = .scan env
  · obtain ⟨env, rfl⟩ := hscan
    cases hmove with
    | @scan i c chunk _ _ outcome hpc hchunk hscan =>
        cases outcome with
        | sent message n =>
            obtain ⟨-, hle, hread, -⟩ := (fIndexTextBytes_cases hscan).2 message n rfl
            intro entry hentry
            rcases List.mem_append.mp hentry with hentry | hentry
            · exact hold entry hentry
            · rw [List.mem_singleton.mp hentry]
              exact hnew env chunk n rfl (Worker.next_eq hpc hchunk) hle hread
        | silent => exact hold
        | undefined => exact hold
  · rw [(h.started_mono hmove fun env heq => hscan ⟨env, heq⟩).1]
    exact hold

/-- A step that skips nothing keeps the scans complete. -/
theorem Worker.Inv.scanned_eq_of_move (h : w.Inv bytes config heap)
    (hmove : WorkerMove bytes config heap w a heap' w') (hskip : ¬ w.Skips bytes a)
    (hscanned : ∀ entry ∈ w.examined, entry.2 = (chunkBuffer bytes entry.1).length) :
    ∀ entry ∈ w'.examined, entry.2 = (chunkBuffer bytes entry.1).length := by
  refine h.forall_examined_of_move hmove hscanned ?_
  rintro env chunk n rfl hnext hle hread
  by_contra hne
  refine hskip ⟨chunk, hnext, fun hall => hne ?_⟩
  have hlength := congrArg List.length (Option.some.inj (hread.symm.trans hall))
  rw [List.length_take] at hlength
  simp only
  omega

/-- A smooth step skips nothing. -/
theorem Worker.Smooth.not_skips (h : w.Smooth bytes a) : ¬ w.Skips bytes a := by
  intro hskip
  cases a with
  | scan env =>
      obtain ⟨chunk, hnext, hskip⟩ := hskip
      exact hskip (h.2 chunk hnext).read
  | proceed => exact hskip
  | fault => exact hskip
  | recv k => exact hskip

end

/-! ## Smooth runs -/

/-- The loop counter of the batches, an `int`, does not overflow. -/
def CountsOn (ic : FIndexerChunks) : Prop :=
  ∀ i < ic.chunks.length, ic.concurrency.toInt.toNat ∣ i →
    i + ic.concurrency.toInt.toNat < 2 ^ 31

section

variable {bytes : List UInt8} {config : FTextThread} {heap heap' : Heap} {w w' : Worker}
  {a : WorkerAction} {ic : FIndexerChunks}

/-- The state of a thread after a smooth run. -/
structure Worker.Undisturbed (bytes : List UInt8) (config : FTextThread) (heap : Heap)
    (w : Worker) : Prop where
  inv : w.Inv bytes config heap
  inFull : w.InFull bytes
  transferred : ∀ entry ∈ w.examined, (chunkBuffer bytes entry.1).length ≤ maxTransfer
  defined : w.pc ≠ .undefined
  notFailed : w.pc ≠ .exited none

theorem Worker.undisturbed_start (bytes : List UInt8) (config : FTextThread) (heap : Heap) :
    Worker.start.Undisturbed bytes config heap where
  inv := .unplanned (Or.inl rfl) rfl
  inFull := ⟨rfl, by simp [Worker.start]⟩
  transferred := by simp [Worker.start]
  defined := by simp [Worker.start]
  notFailed := by simp [Worker.start]

/-- A thread with a plan works on that plan. -/
theorem Worker.Undisturbed.working (h : w.Undisturbed bytes config heap)
    (hplan : config.plan = .ok ic) (hpc : w.pc ≠ .enter) :
    w.Working bytes config.thread ic heap := by
  obtain ⟨ic', hplan', hw⟩ := h.inv.exists_working rfl hpc h.notFailed h.defined
  obtain rfl : ic' = ic := Except.ok.inj (hplan'.symm.trans hplan)
  exact hw

/-- **Smooth steps** keep a thread undisturbed. -/
theorem Worker.Undisturbed.step (h : w.Undisturbed bytes config heap)
    (hplan : config.plan = .ok ic) (hcounts : CountsOn ic)
    (hsmooth : w.Smooth bytes a) (hmove : WorkerMove bytes config heap w a heap' w') :
    w'.Undisturbed bytes config heap' := by
  have hinv := (h.inv.step hmove).1
  have hscanned := h.inv.scanned_eq_of_move hmove hsmooth.not_skips h.inFull.scanned_eq
  have htransferred : ∀ entry ∈ w'.examined, (chunkBuffer bytes entry.1).length ≤ maxTransfer := by
    refine h.inv.forall_examined_of_move hmove h.transferred ?_
    rintro env chunk n rfl hnext - -
    exact (hsmooth.2 chunk hnext).length_le
  have hlength := h.inFull.length_eq
  cases hmove with
  | planned hpc _ =>
      obtain rfl := h.inv.eq_start hpc
      refine ⟨hinv, ⟨?_, hscanned⟩, htransferred, by simp [Worker.planned],
        by simp [Worker.planned]⟩
      simp [Worker.planned, Worker.started, Worker.start]
  | unplanned _ hic _ =>
      rw [hplan] at hic
      cases hic
  | fault _ => exact hsmooth.elim
  | @batch i hpc =>
      refine ⟨hinv, ⟨?_, hscanned⟩, htransferred, by split <;> simp, by split <;> simp⟩
      simp only [Worker.started, hpc] at hlength ⊢
      by_cases hi : i < w.ic.length
      · simp only [if_pos hi]
        omega
      · simp only [if_neg hi]
        omega
  | @launchDone i c hpc hchunk =>
      have hw := h.working hplan (by simp [hpc])
      have hposition := hw.position
      simp only [Worker.Position, hpc] at hposition
      have heq := hw.chunkAt_eq_none hchunk hposition.2.2.1 hposition.2.2.2.1
      refine ⟨hinv, ⟨?_, hscanned⟩, htransferred, by simp, by simp⟩
      simp only [Worker.started, hpc, hw.ic_eq] at hlength ⊢
      omega
  | @scan i c chunk env _ outcome hpc hchunk hscan =>
      obtain ⟨hread, hle⟩ := hsmooth.2 chunk (Worker.next_eq hpc hchunk)
      obtain ⟨_, message, hsent⟩ := fIndexTextBytes_sent heap config.thread hsmooth.1 hread
        (by rw [maxTransfer] at hle; omega)
      obtain ⟨rfl, rfl⟩ := Prod.mk.inj (hscan.symm.trans hsent)
      refine ⟨hinv, ⟨?_, hscanned⟩, htransferred, by simp [Worker.launched],
        by simp [Worker.launched]⟩
      simp only [Worker.launched, Worker.started, hpc, List.length_append,
        List.length_singleton] at hlength ⊢
      omega
  | @batchDone i c hpc hchunk =>
      have hw := h.working hplan (by simp [hpc])
      have hposition := hw.position
      simp only [Worker.Position, hpc] at hposition
      have hcount : i + w.concurrency < 2 ^ 31 := by
        have hdvd := hposition.1
        rw [hw.concurrency_eq] at hdvd ⊢
        exact hcounts i hposition.2.1 hdvd
      simp only [Worker.finished, if_pos hcount] at hinv hscanned htransferred ⊢
      refine ⟨hinv, ⟨?_, hscanned⟩, htransferred, by simp, by simp⟩
      simp only [Worker.started, hpc] at hlength ⊢
      exact hlength
  | @recv i c k chunk message hpc hchunk hmessage =>
      have hw := h.working hplan (by simp [hpc])
      have hpc' := (hw.received hpc hchunk hmessage).2
      refine ⟨hinv, ⟨?_, hscanned⟩, htransferred, by simp [hpc'], by simp [hpc']⟩
      rw [Worker.received] at hpc' ⊢
      split at hpc'
      · next hslot =>
          simp only [if_pos hslot, Worker.started, hpc] at hlength ⊢
          exact hlength
      · cases hpc'
  | reduce hpc =>
      have hw := h.working hplan (by simp [hpc])
      obtain ⟨-, ⟨ret, heq⟩, -⟩ := hw.reduced hpc
      rw [heq] at hinv hscanned htransferred ⊢
      refine ⟨hinv, ⟨?_, hscanned⟩, htransferred, by simp, by simp⟩
      simp only [Worker.started, hpc] at hlength ⊢
      exact hlength

/-- **No deadlock**: as long as the chunks can be read at once, an undisturbed thread
that has not ended can take a smooth step. -/
theorem Worker.Undisturbed.exists_step (h : w.Undisturbed bytes config heap)
    (hplan : config.plan = .ok ic)
    (hread : ∀ chunk ∈ ic.chunks, chunk.fromOffset.toNat < 2 ^ 63 ∧
      (chunkBuffer bytes chunk).length ≤ maxTransfer)
    (hrunning : ∀ ret, w.pc ≠ .exited (some ret)) :
    ∃ a, w.Smooth bytes a ∧ (workerStep bytes config a heap w).isSome := by
  unfold workerStep
  cases hpc : w.pc with
  | enter =>
      refine ⟨.proceed, trivial, ?_⟩
      simp only [hplan, Option.isSome_some]
  | batch i => exact ⟨.proceed, trivial, rfl⟩
  | launch i c =>
      have hw := h.working hplan (by simp [hpc])
      cases hchunk : w.chunkAt i c with
      | none =>
          refine ⟨.proceed, trivial, ?_⟩
          simp only [hchunk, Option.isSome_some]
      | some chunk =>
          obtain ⟨-, hget, -, -⟩ := hw.chunkAt_eq_some hchunk
          obtain ⟨hfrom, hlength⟩ := hread chunk (List.mem_of_getElem? hget)
          refine ⟨.scan (.smooth bytes), ⟨ScanEnv.allocates_smooth bytes, ?_⟩, ?_⟩
          · intro chunk' hnext
            obtain rfl := Option.some.inj ((Worker.next_eq hpc hchunk).symm.trans hnext)
            exact ScanEnv.readsAll_smooth hfrom hlength
          · simp only [hchunk, Option.isSome_some]
  | receive i c =>
      have hw := h.working hplan (by simp [hpc])
      cases hchunk : w.chunkAt i c with
      | none =>
          refine ⟨.proceed, trivial, ?_⟩
          simp only [hchunk, Option.isSome_some]
      | some chunk =>
          obtain ⟨hc, -, -, hlt⟩ := hw.chunkAt_eq_some hchunk
          have hposition := hw.position
          simp only [Worker.Position, hpc] at hposition
          have hlength := h.inFull.length_eq
          simp only [Worker.started, hpc, hw.ic_eq] at hlength
          have hperm := hw.arrivals.length_eq
          rw [List.length_append, List.length_map, List.length_map, hposition.2.2.2.2.1,
            hlength] at hperm
          -- as many messages are on their way as are still waited for
          have hpending : 0 < w.pending.length := by omega
          refine ⟨.recv 0, trivial, ?_⟩
          simp only [hchunk, List.getElem?_eq_getElem hpending, Option.isSome_some]
  | reduce => exact ⟨.proceed, trivial, rfl⟩
  | exited result =>
      cases result with
      | none => exact absurd hpc h.notFailed
      | some ret => exact absurd hpc (hrunning ret)
  | undefined => exact absurd hpc h.defined

end

end Flashlight.TextIndexer
