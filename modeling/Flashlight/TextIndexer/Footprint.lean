/-
# What an indexing thread takes at a time

A thread has at most four blocks of its own and four for each chunk of its plan. The nodes that it
allocates lie in the chunks that it has read: there are no more of them than bytes in its plan,
whether its coroutines fail or not.
-/

import Flashlight.TextIndexer.Owners
import Flashlight.TextIndexer.Exactness

namespace Flashlight.TextIndexer

open Flashlight.Math Flashlight.Indexer

/-! ## Blocks of a thread -/

/-- The chunk that a variable is for. -/
def TextVar.slot : TextVar → Option ℕ
  | .icChunk k => some k
  | .buffer k => some k
  | .bytes k => some k
  | .chunk k => some k
  | _ => none

/-- The variables of a thread with a plan of `n` chunks. -/
def threadVars (n : ℕ) : Finset TextVar :=
  {.ic, .icChunks, .chunkArray, .ret} ∪
    ((Finset.range n).image .icChunk ∪ (Finset.range n).image .buffer ∪
      (Finset.range n).image .bytes ∪ (Finset.range n).image .chunk)

theorem mem_threadVars {n : ℕ} {x : TextVar} :
    x ∈ threadVars n ↔ ∀ k, x.slot = some k → k < n := by
  cases x <;> simp [threadVars, TextVar.slot]

theorem card_threadVars_le (n : ℕ) : (threadVars n).card ≤ 4 + 4 * n := by
  have himage : ∀ f : ℕ → TextVar, ((Finset.range n).image f).card ≤ n := fun f =>
    Finset.card_image_le.trans (Finset.card_range n).le
  have hfour : ({.ic, .icChunks, .chunkArray, .ret} : Finset TextVar).card = 4 := rfl
  refine (Finset.card_union_le _ _).trans ?_
  rw [hfour]
  refine Nat.add_le_add_left ?_ 4
  calc ((Finset.range n).image TextVar.icChunk ∪ (Finset.range n).image .buffer ∪
        (Finset.range n).image .bytes ∪ (Finset.range n).image .chunk).card
    _ ≤ n + n + n + n :=
      (Finset.card_union_le _ _).trans (Nat.add_le_add ((Finset.card_union_le _ _).trans
        (Nat.add_le_add ((Finset.card_union_le _ _).trans
          (Nat.add_le_add (himage _) (himage _))) (himage _))) (himage _))
    _ = 4 * n := by omega

theorem not_gains_onFile {ops : List (MemOp FileVar)} {x : (_ : ℕ) × TextVar} :
    ¬ Gains (onFile ops) (.inr (.inr x)) := by
  intro h
  obtain ⟨y, heq, h⟩ := gains_of_map h
  obtain ⟨z, rfl, -⟩ := gains_of_map h
  cases heq

theorem not_gains_onNodes {ops : List (MemOp NodeVar)} {x : (_ : ℕ) × TextVar} :
    ¬ Gains (onNodes ops) (.inr (.inr x)) := by
  intro h
  obtain ⟨y, heq, -⟩ := gains_of_map h
  cases heq

theorem gains_of_onThread {ops : List (MemOp TextVar)} {t : ℕ} {x : TextVar}
    (h : Gains (onThread t ops) (.inr (.inr ⟨t, x⟩))) : Gains ops x := by
  obtain ⟨y, heq, hy⟩ := gains_of_map h
  obtain ⟨z, rfl, hz⟩ := gains_of_map hy
  obtain rfl : z = x := by simpa using heq
  exact hz

section

variable {bytes : List UInt8} {config : FTextThread} {heap heap' : Heap} {w w' : Worker}
  {a : WorkerAction} {t k n blocks : ℕ} {x : TextVar}

theorem gains_chunkConfigOps (h : Gains (chunkConfigOps n) x) : x ∈ threadVars n := by
  obtain ⟨k, hk, h⟩ := gains_flatMap h
  obtain rfl : x = .icChunk k := by simpa [Gains] using h
  simpa [threadVars] using hk

theorem gains_planOps (h : Gains (planOps n) x) : x ∈ threadVars n := by
  rw [planOps, gains_append, gains_append] at h
  rcases h with (h | h) | h
  · have hx : x = .ic ∨ x = .icChunks := by simpa [Gains] using h
    rcases hx with rfl | rfl <;> simp [threadVars]
  · exact gains_chunkConfigOps h
  · obtain rfl : x = .chunkArray := by simpa [Gains] using h
    simp [threadVars]

theorem gains_planFaultOps (h : Gains (planFaultOps n blocks) x) : x ∈ threadVars n := by
  cases blocks with
  | zero => simp [planFaultOps, Gains] at h
  | succ blocks =>
      cases blocks with
      | zero =>
          obtain rfl : x = .ic := by simpa [planFaultOps, Gains] using h
          simp [threadVars]
      | succ blocks =>
          rw [planFaultOps, gains_append, gains_append] at h
          rcases h with (h | h) | h
          · have hx : x = .ic ∨ x = .icChunks := by simpa [Gains] using h
            rcases hx with rfl | rfl <;> simp [threadVars]
          · refine mem_threadVars.mpr fun k hk => ?_
            exact (mem_threadVars.mp (gains_chunkConfigOps h) k hk).trans_le (Nat.min_le_right _ _)
          · split at h
            · simp [Gains] at h
            · rw [← List.singleton_append, gains_append, gains_mallocs] at h
              rcases h with h | hmem
              · simp [Gains] at h
              · rw [List.mem_singleton.mp (List.mem_of_mem_take hmem)]
                simp [threadVars]

theorem gains_scannedOps {env : ScanEnv} {buffer : List UInt8} {ok : Bool}
    (h : Gains (scannedOps env buffer ok k blocks) x) : x.slot = some k := by
  unfold scannedOps at h
  split at h
  · rw [List.mem_singleton.mp (List.mem_of_mem_take (gains_mallocs.mp h))]
    rfl
  · split at h
    · simp [Gains] at h
    · split at h
      · obtain rfl : x = .chunk k := by simpa [Gains] using h
        rfl
      · simp [Gains] at h

theorem gains_coroutineOps {env : ScanEnv} {ic : FIndexerChunk}
    (h : Gains (coroutineOps bytes env heap ic t k blocks) (.inr (.inr ⟨t, x⟩))) :
    x.slot = some k := by
  unfold coroutineOps at h
  rw [gains_append] at h
  rcases h with h | h
  · have huse := gains_of_onThread h
    simp [Gains] at huse
  · split at h
    · simp [Gains] at h
    · rw [gains_append] at h
      rcases h with h | h
      · obtain rfl : x = .buffer k := by simpa [Gains] using gains_of_onThread h
        rfl
      · split at h
        · simp [Gains] at h
        · rcases gains_append.mp h with h | h
          · exact absurd h not_gains_onNodes
          · exact gains_scannedOps (gains_of_onThread h)

/-- **The blocks of a thread** are those of its variables. -/
theorem gains_workerOps (h : Gains (workerOps bytes config t blocks a heap w) (.inr (.inr ⟨t, x⟩)))
    (hchunk : ∀ i c chunk, w.chunkAt i c = some chunk → i + c < config.chunks.length) :
    x ∈ threadVars config.chunks.length := by
  -- a thread allocates when it plans, in its coroutines, and when it reduces
  have huses : ∀ xs : List TextVar, ¬ Gains (onThread t (xs.map .use)) (.inr (.inr ⟨t, x⟩)) := by
    intro xs hgains
    have hxs := gains_of_onThread hgains
    simp [Gains] at hxs
  unfold workerOps at h
  split at h
  · rw [gains_append, or_iff_right not_gains_onFile] at h
    split at h
    · next ic hplan =>
        have hlength : config.chunks.length = ic.chunks.length := by
          rw [FTextThread.chunks, hplan]
        rw [hlength]
        exact gains_planOps (gains_of_onThread h)
    · obtain rfl : x = .ic := by simpa [Gains] using gains_of_onThread h
      simp [threadVars]
  · rw [gains_append, or_iff_right not_gains_onFile] at h
    split at h
    · next ic hplan =>
        have hlength : config.chunks.length = ic.chunks.length := by
          rw [FTextThread.chunks, hplan]
        rw [hlength]
        exact gains_planFaultOps (gains_of_onThread h)
    · simp [Gains] at h
  · exact absurd h (huses [.ic])
  · exact absurd h (huses [.ic])
  · next i c env _ =>
      split at h
      · simp [Gains] at h
      · next chunk hchunkAt =>
          rw [gains_append, gains_append, or_iff_left not_gains_onFile] at h
          rcases h with h | h
          · exact absurd h (huses [.ic, .icChunks, .icChunk (i + c)])
          · refine mem_threadVars.mpr fun j hj => ?_
            obtain rfl := Option.some.inj (hj.symm.trans (gains_coroutineOps h))
            exact hchunk i c chunk hchunkAt
  · next i c _ =>
      split at h
      · simp [Gains] at h
      · rw [gains_append, or_iff_left not_gains_onFile] at h
        exact absurd h (huses [.ic, .icChunks, .icChunk (i + c)])
  · split at h
    · simp [Gains] at h
    · next message _ =>
        exact absurd h (huses [.ic, .chunk message.current.toNat, .chunkArray])
  · rw [gains_append, or_iff_left not_gains_onFile] at h
    exact absurd h (huses [.ic])
  · exact absurd h (huses [.ic])
  · simp only [gains_append, or_iff_left not_gains_onFile, or_iff_left not_gains_onNodes] at h
    rcases h with (h | h) | h
    · exact absurd h (huses [.ic])
    · obtain rfl : x = .ret := by
        simpa [Gains, messageUses] using gains_of_onThread h
      simp [threadVars]
    · have hfree := gains_of_onThread h
      simp [Gains, messageFreeOps, planFreeOps] at hfree
  · rw [gains_append, or_iff_left not_gains_onFile] at h
    exact absurd h (huses [.ic])
  · simp [Gains] at h

end

/-! ## Nodes of a thread -/

/-- How many bytes the chunks have. -/
def chunkBytes (chunks : List FIndexerChunk) : ℕ :=
  (chunks.map fun chunk => chunk.count.toNat).sum

/-- Where the chunks begin whose coroutines were not started. -/
def Worker.reach (w : Worker) : ℕ :=
  match w.pc with
  | .enter => 0
  | .batch i => i
  | .launch i c => i + c
  | .receive i _ => i + w.concurrency
  | _ => w.ic.length

/-- The bytes for which a thread may have started coroutines. -/
def Worker.budget (w : Worker) : ℕ :=
  chunkBytes (w.ic.take w.reach)

theorem chunkBytes_le_of_sublist {xs ys : List FIndexerChunk} (h : xs.Sublist ys) :
    chunkBytes xs ≤ chunkBytes ys :=
  (h.map _).sum_le_sum fun _ _ => Nat.zero_le _

theorem chunkBytes_take_le (chunks : List FIndexerChunk) {n m : ℕ} (h : n ≤ m) :
    chunkBytes (chunks.take n) ≤ chunkBytes (chunks.take m) := by
  have htake : chunks.take n = (chunks.take m).take n := by
    rw [List.take_take, Nat.min_eq_left h]
  rw [htake]
  exact chunkBytes_le_of_sublist (List.take_sublist _ _)

/-- A step that goes on with the plan. -/
theorem Worker.budget_mono {w w' : Worker} (hic : w'.ic = w.ic)
    (hreach : w.reach ≤ w'.reach ∨ w'.reach = w.ic.length) : w.budget ≤ w'.budget := by
  rw [Worker.budget, Worker.budget, hic]
  rcases hreach with hreach | hreach
  · exact chunkBytes_take_le _ hreach
  · rw [hreach, List.take_length]
    exact chunkBytes_le_of_sublist (List.take_sublist _ _)

theorem length_scanLoop_le {owner : Owner} {failAt : Option ℕ} {bytes : List UInt8}
    {s s' : ScanState} {ok : Bool} (hloop : scanLoop owner failAt bytes s = (s', ok)) :
    s'.heap.length ≤ s.heap.length + bytes.length := by
  induction bytes generalizing s failAt with
  | nil =>
      obtain ⟨rfl, rfl⟩ := Prod.mk.inj hloop
      exact le_rfl
  | cons byte bytes ih =>
      rw [scanLoop] at hloop
      rw [List.length_cons]
      by_cases hbyte : isNewline byte
      · simp only [hbyte, if_true] at hloop
        by_cases hfail : failAt = some 0
        · rw [if_pos hfail] at hloop
          obtain ⟨rfl, rfl⟩ := Prod.mk.inj hloop
          exact Nat.le_add_right _ _
        · rw [if_neg hfail] at hloop
          have hrest := ih hloop
          rw [length_scanNewline] at hrest
          simp only at hrest
          omega
      · simp only [hbyte, Bool.false_eq_true, if_false] at hloop
        have hrest := ih hloop
        simp only at hrest
        omega

/-- A coroutine allocates no more nodes than its chunk has bytes. -/
theorem length_fIndexTextBytes_le {bytes : List UInt8} {env : ScanEnv} {heap heap' : Heap}
    {ic : FIndexerChunk} {thread : ℕ} {outcome : ScanOutcome}
    (hscan : fIndexTextBytes bytes env heap ic thread = (heap', outcome)) :
    heap'.length ≤ heap.length + ic.count.toNat := by
  unfold fIndexTextBytes at hscan
  split at hscan
  · obtain ⟨rfl, rfl⟩ := Prod.mk.inj hscan
    exact Nat.le_add_right _ _
  · split at hscan
    · obtain ⟨rfl, rfl⟩ := Prod.mk.inj hscan
      exact Nat.le_add_right _ _
    · next buffer hread =>
        have hbuffer : buffer.length ≤ ic.count.toNat := by
          have hlength := congrArg List.length (pread_chunk hread).2
          rw [List.length_take, chunkBuffer, List.length_take] at hlength
          omega
        have hloop : ∀ s ok, scanLoop ⟨thread, ic.index.toNat⟩ env.failAt (buffer.take (2 ^ 31))
            (.init heap ic.fromOffset) = (s, ok) →
            s.heap.length ≤ heap.length + ic.count.toNat := by
          intro s ok hloop
          have hle := length_scanLoop_le hloop
          rw [List.length_take] at hle
          simp only [ScanState.init] at hle
          omega
        split at hscan
        · next s heq =>
            obtain ⟨rfl, rfl⟩ := Prod.mk.inj hscan
            exact hloop s _ heq
        · next s heq =>
            have hs := hloop s _ heq
            split at hscan
            · obtain ⟨rfl, rfl⟩ := Prod.mk.inj hscan
              exact hs
            · split at hscan
              · obtain ⟨rfl, rfl⟩ := Prod.mk.inj hscan
                exact hs
              · obtain ⟨rfl, rfl⟩ := Prod.mk.inj hscan
                exact hs

/-- **The nodes of a thread** are paid for by the bytes of the chunks that it reads. -/
theorem WorkerMove.budget_le {bytes : List UInt8} {config : FTextThread} {heap heap' : Heap}
    {w w' : Worker} {a : WorkerAction} {base : ℕ}
    (hmove : WorkerMove bytes config heap w a heap' w') (hinv : w.Inv bytes config heap)
    (hclosed : heap.ClosedFrom base) (hwithin : w.Within heap base) :
    heap'.length + w.budget ≤ heap.length + w'.budget := by
  have hkeeps : w.budget ≤ w'.budget → heap.length + w.budget ≤ heap.length + w'.budget :=
    fun hle => Nat.add_le_add_left hle _
  cases hmove with
  | planned hpc hic =>
      refine hkeeps ?_
      simp [Worker.budget, Worker.reach, hpc, chunkBytes]
  | unplanned hpc hic hended =>
      refine hkeeps ?_
      simp [Worker.budget, Worker.reach, hpc, chunkBytes]
  | fault hpc => exact hkeeps (Worker.budget_mono rfl (Or.inr rfl))
  | @batch i hpc =>
      refine hkeeps (Worker.budget_mono rfl ?_)
      by_cases hi : i < w.ic.length
      · simp [Worker.reach, hpc, hi]
      · simp [Worker.reach, hi]
  | @launchDone i c hpc hchunk =>
      obtain ⟨ic, -, hw⟩ := hinv.exists_working hpc (by simp) (by simp) (by simp)
      have hposition := hw.position
      simp only [Worker.Position, hpc] at hposition
      refine hkeeps (Worker.budget_mono rfl (Or.inl ?_))
      simp only [Worker.reach, hpc]
      omega
  | @scan i c chunk env _ outcome hpc hchunk hscan =>
      have hget : w.ic[i + c]? = some chunk := by
        rw [Worker.chunkAt] at hchunk
        split at hchunk
        · exact hchunk
        · cases hchunk
      have hlength := length_fIndexTextBytes_le hscan
      have hbefore : w.budget = chunkBytes (w.ic.take (i + c)) := by
        rw [Worker.budget, Worker.reach, hpc]
      have hnext : chunkBytes (w.ic.take (i + c + 1)) =
          chunkBytes (w.ic.take (i + c)) + chunk.count.toNat := by
        rw [List.take_add_one, hget]
        simp [chunkBytes]
      have hafter : chunkBytes (w.ic.take (i + c + 1)) ≤
          (w.launched i c chunk outcome).budget := by
        cases outcome with
        | sent message scanned => exact le_rfl
        | silent => exact le_rfl
        | undefined =>
            refine chunkBytes_le_of_sublist ?_
            simp only [Worker.launched, Worker.reach, List.take_length]
            exact List.take_sublist _ _
      omega
  | @batchDone i c hpc hchunk =>
      refine hkeeps (Worker.budget_mono rfl ?_)
      by_cases hi : i + w.concurrency < 2 ^ 31
      · simp only [Worker.reach, hpc, Worker.finished, if_pos hi]
        exact Or.inl le_rfl
      · simp only [Worker.reach, Worker.finished, if_neg hi]
        exact Or.inr trivial
  | @recv i c k chunk message hpc hchunk hmessage =>
      refine hkeeps ?_
      rw [Worker.received]
      split
      · exact Worker.budget_mono rfl (Or.inl (by simp [Worker.reach, hpc]))
      · exact Worker.budget_mono rfl (Or.inr rfl)
  | reduce hpc =>
      obtain ⟨hlength, hic, hreach⟩ : (w.reduced heap config.thread).1.length = heap.length ∧
          (w.reduced heap config.thread).2.ic = w.ic ∧
          (w.reduced heap config.thread).2.reach = w.ic.length := by
        unfold Worker.reduced
        split
        · split
          · exact ⟨rfl, rfl, rfl⟩
          · next heap' ret hreduce =>
              obtain ⟨-, hlength, -, -⟩ := fChunkArrayReverseReduce_within hclosed
                (fun chunk hmem => hwithin.chunkArray chunk (List.reduceOption_mem_iff.mp hmem))
                hreduce
              exact ⟨hlength, rfl, rfl⟩
        · exact ⟨rfl, rfl, rfl⟩
      rw [hlength]
      exact hkeeps (Worker.budget_mono hic (Or.inr hreach))

/-- The chunks of a thread are those of its plan. -/
theorem Worker.Inv.chunkAt_lt {bytes : List UInt8} {config : FTextThread} {heap : Heap} {w : Worker}
    (hinv : w.Inv bytes config heap) {i c : ℕ} {chunk : FIndexerChunk}
    (hchunk : w.chunkAt i c = some chunk) : i + c < config.chunks.length := by
  rw [Worker.chunkAt] at hchunk
  split at hchunk
  · have hlt := (List.getElem?_eq_some_iff.mp hchunk).1
    cases hinv with
    | unplanned hpc hw =>
        rw [hw] at hlt
        exact absurd hlt (Nat.not_lt_zero _)
    | working hplan hw =>
        rw [hw.ic_eq] at hlt
        rwa [FTextThread.chunks, hplan]
  · cases hchunk

/-- What a thread may have allocated lies in its plan. -/
theorem Worker.Inv.budget_le {bytes : List UInt8} {config : FTextThread} {heap : Heap} {w : Worker}
    (hinv : w.Inv bytes config heap) : w.budget ≤ chunkBytes config.chunks := by
  refine (chunkBytes_le_of_sublist (List.take_sublist _ _)).trans ?_
  cases hinv with
  | unplanned hpc hw =>
      rw [hw]
      exact Nat.zero_le _
  | working hplan hw =>
      rw [hw.ic_eq, FTextThread.chunks, hplan]

/-- A bound for each component bounds the sum. -/
theorem sum_range_le_sum_map {α : Type*} (xs : List α) (f : α → ℕ) {g : ℕ → ℕ}
    (hle : ∀ (t : ℕ) (ht : t < xs.length), g t ≤ f xs[t]) :
    ∑ t ∈ Finset.range xs.length, g t ≤ (xs.map f).sum := by
  rw [Finset.sum_range, ← Fin.sum_univ_fun_getElem]
  exact Finset.sum_le_sum fun t _ => hle t.1 t.2

end Flashlight.TextIndexer
