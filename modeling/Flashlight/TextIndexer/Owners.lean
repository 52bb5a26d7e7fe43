/-
# What the indexing threads own

The nodes of a window make up a region of the heap that no link leaves. What threads read and write
of it was allocated in the window, so it is not one of the nodes that were freed with an earlier
window. The other blocks of a thread have one owner each; when a thread ends with a result it has
freed all of them but the result.
-/

import Flashlight.TextIndexer.Blocks

namespace Flashlight.TextIndexer

open Flashlight.Math Flashlight.Indexer

/-! ## Scans -/

/-- The list that the loop has built lies in the region from `base` on. -/
structure ScanState.Within (s : ScanState) (base : ℕ) : Prop where
  closed : s.heap.ClosedFrom base
  base_le : base ≤ s.heap.length
  startNode : s.heap.Within base s.startNode
  lastChunkNode : s.heap.Within base s.lastChunkNode

theorem length_scanNewline (owner : Owner) (s : ScanState) :
    (scanNewline owner s).heap.length = s.heap.length + 1 := by
  cases hstart : s.startNode with
  | none => simp [scanNewline_of_none owner hstart]
  | some start => simp [scanNewline_of_some owner hstart]

/-- A newline allocates in the region, and links to it. -/
theorem ScanState.Within.newline {s : ScanState} {base : ℕ} (h : s.Within base) (owner : Owner) :
    (scanNewline owner s).Within base := by
  have hlength := length_scanNewline owner s
  have hlt : s.heap.length < (scanNewline owner s).heap.length := by omega
  have hnew : (scanNewline owner s).heap.Within base (some s.heap.length) :=
    ListHeap.within_some.mpr ⟨h.base_le, hlt⟩
  have hlast : (scanNewline owner s).heap.Within base
      (if s.head then some s.heap.length else s.lastChunkNode) := by
    split
    · exact hnew
    · exact h.lastChunkNode.mono hlt.le
  have hbase := h.base_le.trans hlt.le
  have halloc := h.closed.alloc (⟨⟨true, s.totalBytesOffset⟩, owner⟩ : FBytesNode)
  cases hstart : s.startNode with
  | none =>
      rw [scanNewline_of_none owner hstart] at hnew hlast hbase ⊢
      exact ⟨halloc, hbase, hnew, hlast⟩
  | some start =>
      have hold := h.startNode
      rw [hstart] at hold
      rw [scanNewline_of_some owner hstart] at hnew hlast hbase ⊢
      exact ⟨halloc.setNext (hold.mono (by simp)) _, hbase, hnew, hlast⟩

/-- The loop allocates one node for each newline, as far as it gets. -/
theorem scanLoop_within {owner : Owner} {failAt : Option ℕ} {bytes : List UInt8}
    {s s' : ScanState} {ok : Bool} {base : ℕ} (h : s.Within base)
    (hloop : scanLoop owner failAt bytes s = (s', ok)) :
    s'.Within base ∧ s.heap.length ≤ s'.heap.length ∧
      (ok = true → s'.heap.length = s.heap.length + bytes.countP isNewline) := by
  induction bytes generalizing s failAt with
  | nil =>
      obtain ⟨rfl, rfl⟩ := Prod.mk.inj hloop
      exact ⟨h, le_rfl, fun _ => rfl⟩
  | cons byte bytes ih =>
      have hnext : ScanState.Within { s with totalBytesOffset := s.totalBytesOffset + 1 } base :=
        ⟨h.closed, h.base_le, h.startNode, h.lastChunkNode⟩
      rw [scanLoop] at hloop
      by_cases hbyte : isNewline byte
      · simp only [hbyte, if_true] at hloop
        by_cases hfail : failAt = some 0
        · rw [if_pos hfail] at hloop
          obtain ⟨rfl, rfl⟩ := Prod.mk.inj hloop
          exact ⟨hnext, le_rfl, by simp⟩
        · rw [if_neg hfail] at hloop
          obtain ⟨hwithin, hle, hcount⟩ := ih (hnext.newline owner) hloop
          rw [length_scanNewline] at hle hcount
          refine ⟨hwithin, (Nat.le_succ _).trans hle, fun hok => ?_⟩
          rw [hcount hok, List.countP_cons_of_pos hbyte]
          simp only
          omega
      · simp only [hbyte, Bool.false_eq_true, if_false] at hloop
        obtain ⟨hwithin, hle, hcount⟩ := ih hnext hloop
        refine ⟨hwithin, hle, fun hok => ?_⟩
        rw [hcount hok, List.countP_cons_of_neg hbyte]

/-- **A coroutine** allocates in the region. If it sends a chunk it has allocated one node for each
newline that it has scanned. -/
theorem fIndexTextBytes_within {bytes : List UInt8} {env : ScanEnv} {heap heap' : Heap}
    {ic : FIndexerChunk} {thread base : ℕ} {outcome : ScanOutcome} (hclosed : heap.ClosedFrom base)
    (hbase : base ≤ heap.length)
    (hscan : fIndexTextBytes bytes env heap ic thread = (heap', outcome)) :
    heap'.ClosedFrom base ∧ heap.length ≤ heap'.length ∧
      ∀ message n, outcome = .sent message n → message.Within heap' base ∧
        heap'.length = heap.length + (scannedBytes bytes (ic, n)).countP isNewline := by
  have hinit : (ScanState.init heap ic.fromOffset).Within base :=
    ⟨hclosed, hbase, ListHeap.within_none _ _, ListHeap.within_none _ _⟩
  unfold fIndexTextBytes at hscan
  split at hscan
  · obtain ⟨rfl, rfl⟩ := Prod.mk.inj hscan
    exact ⟨hclosed, le_rfl, by simp⟩
  · split at hscan
    · obtain ⟨rfl, rfl⟩ := Prod.mk.inj hscan
      exact ⟨hclosed, le_rfl, by simp⟩
    · next buffer hread =>
        split at hscan
        · next s hloop =>
            obtain ⟨rfl, rfl⟩ := Prod.mk.inj hscan
            obtain ⟨hwithin, hle, -⟩ := scanLoop_within hinit hloop
            exact ⟨hwithin.closed, hle, by simp⟩
        · next s hloop =>
            obtain ⟨hwithin, hle, hcount⟩ := scanLoop_within hinit hloop
            split at hscan
            · obtain ⟨rfl, rfl⟩ := Prod.mk.inj hscan
              exact ⟨hwithin.closed, hle, by simp⟩
            · next hsize =>
                rw [List.take_of_length_le (by omega)] at hcount
                split at hscan
                · obtain ⟨rfl, rfl⟩ := Prod.mk.inj hscan
                  refine ⟨hwithin.closed, hle, fun message n heq => ?_⟩
                  obtain ⟨rfl, rfl⟩ := ScanOutcome.sent.inj heq
                  refine ⟨⟨hwithin.startNode, hwithin.lastChunkNode⟩, ?_⟩
                  rw [scannedBytes, ← (pread_chunk hread).2]
                  exact hcount rfl
                · obtain ⟨rfl, rfl⟩ := Prod.mk.inj hscan
                  exact ⟨hwithin.closed, hle, by simp⟩

/-! ## What a thread owns -/

/-- The coroutine that a variable belongs to. -/
def TextVar.coroutine : TextVar → Option ℕ
  | .buffer k => some k
  | .bytes k => some k
  | .chunk k => some k
  | _ => none

/-- How many coroutines were started. -/
def Worker.begun (w : Worker) : ℕ :=
  match w.pc with
  | .batch i => min i w.ic.length
  | .launch i c => i + c
  | .receive i _ => min (i + w.concurrency) w.ic.length
  | .reduce => w.ic.length
  | _ => 0

/-- Coroutine `k` has sent its chunk. -/
def Worker.Sent (w : Worker) (k : ℕ) : Prop :=
  ∃ entry ∈ w.examined, entry.1.index.toNat = k

/-- A thread at work has its plan and a message of each coroutine that has sent one. What else it
has was left behind by the other coroutines. -/
structure Worker.Holds (w : Worker) (owned : Finset TextVar) : Prop where
  plan : ∀ x, x.coroutine = none → (x ∈ owned ↔ x ∈ planOwners w.ic.length)
  sent : ∀ k, w.Sent k → .chunk k ∈ owned
  started : ∀ x ∈ owned, ∀ k, x.coroutine = some k → k < w.begun ∧ (w.Sent k → x = .chunk k)

/-- What a thread owns, and how many of its nodes belong to coroutines that sent nothing: none, as
long as all coroutines have sent their chunks. -/
def Worker.Owns (w : Worker) (owned : Finset TextVar) (spare : ℕ) : Prop :=
  match w.pc with
  | .enter => owned = ∅ ∧ spare = 0
  | .exited (some _) => owned = {.ret} ∧ spare = 0
  | .exited none => True
  | .undefined => True
  | _ => w.Holds owned ∧ ((∀ k < w.begun, w.Sent k) → spare = 0)

/-- The lists that a thread has lie in the region from `base` on. -/
structure Worker.Within (w : Worker) (heap : Heap) (base : ℕ) : Prop where
  pending : ∀ message ∈ w.pending, message.Within heap base
  chunkArray : ∀ message, some message ∈ w.chunkArray → message.Within heap base
  result : ∀ ret, w.pc = .exited (some ret) → ret.Within heap base

theorem Worker.Within.mono {w : Worker} {heap heap' : Heap} {base : ℕ} (h : w.Within heap base)
    (hle : heap.length ≤ heap'.length) : w.Within heap' base :=
  ⟨fun message hmem => (h.pending message hmem).mono hle,
    fun message hmem => (h.chunkArray message hmem).mono hle,
    fun ret hpc => (h.result ret hpc).mono hle⟩

theorem Worker.within_start (heap : Heap) (base : ℕ) : Worker.start.Within heap base :=
  ⟨by simp [Worker.start], by simp [Worker.start], by simp [Worker.start]⟩

section

variable {bytes : List UInt8} {config : FTextThread} {heap heap' : Heap} {w w' : Worker}
  {a : WorkerAction} {base : ℕ}

/-- **The region of a window** is kept by the steps of its threads. -/
theorem Worker.Within.step (h : w.Within heap base) (hclosed : heap.ClosedFrom base)
    (hbase : base ≤ heap.length) (hmove : WorkerMove bytes config heap w a heap' w') :
    w'.Within heap' base ∧ heap'.ClosedFrom base ∧ heap.length ≤ heap'.length := by
  cases hmove with
  | planned _ _ =>
      refine ⟨⟨h.pending, fun message hmem => ?_, fun ret hpc => by cases hpc⟩, hclosed, le_rfl⟩
      exact absurd (List.eq_of_mem_replicate hmem) (by simp)
  | unplanned _ _ hended =>
      refine ⟨⟨h.pending, h.chunkArray, fun ret hpc => ?_⟩, hclosed, le_rfl⟩
      rcases hended with rfl | rfl <;> cases hpc
  | fault _ =>
      exact ⟨⟨h.pending, h.chunkArray, fun ret hpc => by cases hpc⟩, hclosed, le_rfl⟩
  | batch _ =>
      refine ⟨⟨h.pending, h.chunkArray, fun ret hpc => ?_⟩, hclosed, le_rfl⟩
      simp only at hpc
      split at hpc <;> cases hpc
  | launchDone _ _ =>
      exact ⟨⟨h.pending, h.chunkArray, fun ret hpc => by cases hpc⟩, hclosed, le_rfl⟩
  | @scan i c chunk env _ outcome _ _ hscan =>
      obtain ⟨hclosed', hle, hsent⟩ := fIndexTextBytes_within hclosed hbase hscan
      have hold := h.mono hle
      refine ⟨?_, hclosed', hle⟩
      cases outcome with
      | sent message n =>
          refine ⟨fun message' hmem => ?_, hold.chunkArray, fun ret hpc => by cases hpc⟩
          rcases List.mem_append.mp hmem with hmem | hmem
          · exact hold.pending message' hmem
          · rw [List.mem_singleton.mp hmem]
            exact (hsent message n rfl).1
      | silent => exact ⟨hold.pending, hold.chunkArray, fun ret hpc => by cases hpc⟩
      | undefined => exact ⟨hold.pending, hold.chunkArray, fun ret hpc => by cases hpc⟩
  | batchDone _ _ =>
      refine ⟨⟨h.pending, h.chunkArray, fun ret hpc => ?_⟩, hclosed, le_rfl⟩
      simp only [Worker.finished] at hpc
      split at hpc <;> cases hpc
  | @recv i c k chunk message _ _ hmessage =>
      refine ⟨?_, hclosed, le_rfl⟩
      rw [Worker.received]
      split
      · refine ⟨fun message' hmem => h.pending message' (List.mem_of_mem_eraseIdx hmem),
          fun message' hmem => ?_, fun ret hpc => by cases hpc⟩
        rcases List.mem_or_eq_of_mem_set hmem with hmem | heq
        · exact h.chunkArray message' hmem
        · rw [Option.some.inj heq]
          exact h.pending message (List.mem_of_getElem? hmessage)
      · exact ⟨h.pending, h.chunkArray, fun ret hpc => by cases hpc⟩
  | reduce _ =>
      unfold Worker.reduced
      split
      · split
        · exact ⟨⟨h.pending, h.chunkArray, fun ret hpc => by cases hpc⟩, hclosed, le_rfl⟩
        · next heap' ret hreduce =>
            obtain ⟨hclosed', hlength, hret, -⟩ := fChunkArrayReverseReduce_within hclosed
              (fun chunk hmem => h.chunkArray chunk (List.reduceOption_mem_iff.mp hmem)) hreduce
            have hold := h.mono hlength.ge
            refine ⟨⟨hold.pending, hold.chunkArray, fun ret' hpc => ?_⟩, hclosed', hlength.ge⟩
            obtain rfl := Option.some.inj (WorkerPc.exited.inj hpc)
            exact ⟨hret.first, hret.last⟩
      · exact ⟨⟨h.pending, h.chunkArray, fun ret hpc => by cases hpc⟩, hclosed, le_rfl⟩

end

/-! ## Coroutines -/

/-- A step of thread `t` that has put the nodes between `first` and `last` on the heap. -/
def Holdings.moved (h : Holdings) (first last t : ℕ) (owned : Finset TextVar) : Holdings where
  nodes := h.nodes ∪ Finset.Ico first last
  file := h.file
  thread := Function.update h.thread t owned

@[simp]
theorem Holdings.moved_self (h : Holdings) (n t : ℕ) : h.moved n n t (h.thread t) = h := by
  simp [Holdings.moved]

@[simp]
theorem Holdings.moved_thread_self (h : Holdings) (first last t : ℕ) (owned : Finset TextVar) :
    (h.moved first last t owned).thread t = owned :=
  Function.update_self _ _ _

/-- The other threads keep what they have. -/
theorem Holdings.moved_thread_of_ne {t u : ℕ} (h : Holdings) (first last : ℕ)
    (owned : Finset TextVar) (hne : u ≠ t) :
    (h.moved first last t owned).thread u = h.thread u :=
  Function.update_of_ne hne _ _

/-- A thread goes on behind such a step. -/
theorem Takes.onThread_moved {count t first last : ℕ} {h : Holdings} {ops : List (MemOp TextVar)}
    {owned owned' : Finset TextVar} (ht : t < count)
    (hops : ownersAfter owned ops = some owned') :
    Takes count (h.moved first last t owned) (TextIndexer.onThread t ops)
      (h.moved first last t owned') := by
  rw [← h.moved_thread_self first last t owned] at hops
  have htakes := Takes.onThread ht hops
  simpa only [Holdings.moved, Function.update_idem] using htakes

/-- The nodes that were put on the heap. -/
theorem takes_nodeNewOps (count : ℕ) (h : Holdings) {first last : ℕ}
    (hnodes : ∀ p ∈ h.nodes, p < first) (hle : first ≤ last) :
    Takes count h (onNodes (nodeNewOps (List.range' first (last - first))))
      { h with nodes := h.nodes ∪ Finset.Ico first last } := by
  have hnews : (List.range' first (last - first)).toFinset = Finset.Ico first last := by
    ext p
    rw [List.mem_toFinset, List.mem_range'_1, Finset.mem_Ico]
    omega
  rw [← hnews]
  refine .onNodes (ownersAfter_nodeNewOps (List.nodup_range' 1) fun p hp hold => ?_)
  exact absurd (List.mem_range'_1.mp hp).1 (Nat.not_le_of_lt (hnodes p hold))

section

variable {bytes : List UInt8} {config : FTextThread} {heap heap' : Heap} {w w' : Worker}
  {a : WorkerAction} {base count t : ℕ} {h : Holdings}

/-- Behind its loop a coroutine owns its buffer, or its message if it sends one. -/
theorem ownersAfter_scannedOps {env : ScanEnv} {buffer : List UInt8} {ok : Bool} {k : ℕ}
    {owned : Finset TextVar} (hfresh : ∀ x ∈ owned, x.coroutine ≠ some k) (blocks : ℕ) :
    ∃ owned', ownersAfter (insert (.buffer k) owned) (scannedOps env buffer ok k blocks) =
        some owned' ∧ owned ⊆ owned' ∧ (∀ x ∈ owned', x ∉ owned → x.coroutine = some k) ∧
      (ok = true → buffer.length < 2 ^ 31 → env.chunkAlloc = true →
        owned' = insert (.chunk k) owned) := by
  have hbuffer : TextVar.buffer k ∉ owned := fun hmem => hfresh _ hmem rfl
  have hbytes : TextVar.bytes k ∉ owned := fun hmem => hfresh _ hmem rfl
  have hchunk : TextVar.chunk k ∉ owned := fun hmem => hfresh _ hmem rfl
  have hkept : (insert (TextVar.buffer k) owned).erase (.buffer k) = owned :=
    Finset.erase_insert hbuffer
  unfold scannedOps
  split
  · next hok =>
      subst hok
      cases blocks with
      | zero =>
          refine ⟨_, rfl, Finset.subset_insert _ _, fun x hx hold => ?_, by simp⟩
          rw [(Finset.mem_insert.mp hx).resolve_right hold]
          rfl
      | succ n =>
          refine ⟨insert (.bytes k) (insert (.buffer k) owned),
            by simp [ownersAfter, ownersStep, hbytes],
            (Finset.subset_insert _ _).trans (Finset.subset_insert _ _), fun x hx hold => ?_,
            by simp⟩
          rcases Finset.mem_insert.mp hx with rfl | hx
          · rfl
          · rw [(Finset.mem_insert.mp hx).resolve_right hold]
            rfl
  · split
    · next hsize =>
        refine ⟨_, rfl, Finset.subset_insert _ _, fun x hx hold => ?_, by omega⟩
        rw [(Finset.mem_insert.mp hx).resolve_right hold]
        rfl
    · cases hchunkAlloc : env.chunkAlloc with
      | true =>
          refine ⟨insert (.chunk k) owned, by simp [ownersAfter, ownersStep, hkept, hchunk],
            Finset.subset_insert _ _, fun x hx hold => ?_, fun _ _ _ => rfl⟩
          rw [(Finset.mem_insert.mp hx).resolve_right hold]
          rfl
      | false =>
          exact ⟨owned, by simp [ownersAfter, ownersStep, hkept], subset_rfl,
            fun x hx hold => absurd hx hold, by simp⟩

/-- **What a coroutine does to the owners.** Its nodes are new. If it sends its chunk, the thread
owns the message and nothing else of it. -/
theorem takes_coroutineOps {env : ScanEnv} {ic : FIndexerChunk} {k : ℕ} {outcome : ScanOutcome}
    (ht : t < count) (hic : .icChunk k ∈ h.thread t)
    (hfresh : ∀ x ∈ h.thread t, x.coroutine ≠ some k) (hnodes : ∀ p ∈ h.nodes, p < heap.length)
    (hscan : fIndexTextBytes bytes env heap ic t = (heap', outcome)) (blocks : ℕ) :
    ∃ owned, Takes count h (coroutineOps bytes env heap ic t k blocks)
        (h.moved heap.length heap'.length t owned) ∧ h.thread t ⊆ owned ∧
      (∀ x ∈ owned, x ∉ h.thread t → x.coroutine = some k) ∧
      ∀ message n, outcome = .sent message n → owned = insert (.chunk k) (h.thread t) := by
  have huse : Takes count h (onThread t ([TextVar.icChunk k].map .use)) h :=
    .threadUses [.icChunk k] ht (by simpa using hic)
  have hle := (fIndexTextBytes_within (ListHeap.closedFrom_length heap) le_rfl hscan).2.1
  unfold fIndexTextBytes at hscan
  split at hscan
  · next hbuffer =>
      obtain ⟨rfl, rfl⟩ := Prod.mk.inj hscan
      rw [coroutineOps, if_pos hbuffer]
      refine ⟨h.thread t, ?_, subset_rfl, fun x hx hold => absurd hx hold, by simp⟩
      rw [Holdings.moved_self]
      exact huse.append (.nil _ _)
  · next hbuffer =>
      have hnew : TextVar.buffer k ∉ h.thread t := fun hmem => hfresh _ hmem rfl
      have hmalloc : ownersAfter (h.thread t) [.malloc (.buffer k), .use (.buffer k)] =
          some (insert (.buffer k) (h.thread t)) := by
        simp [ownersAfter, ownersStep, hnew]
      have hfirst := huse.append (.onThread ht hmalloc)
      split at hscan
      · next hread =>
          obtain ⟨rfl, rfl⟩ := Prod.mk.inj hscan
          simp only [coroutineOps, if_neg hbuffer, hread]
          refine ⟨insert (.buffer k) (h.thread t), ?_, Finset.subset_insert _ _,
            fun x hx hold => ?_, by simp⟩
          · have hsame : h.moved heap.length heap.length t (insert (.buffer k) (h.thread t)) =
                { h with
                  thread := Function.update h.thread t (insert (.buffer k) (h.thread t)) } := by
              simp [Holdings.moved]
            rw [hsame]
            exact hfirst.append (.nil _ _)
          · rw [(Finset.mem_insert.mp hx).resolve_right hold]
            rfl
      · next buffer hread =>
          simp only [coroutineOps, if_neg hbuffer, hread]
          cases hloop : scanLoop ⟨t, ic.index.toNat⟩ env.failAt (buffer.take (2 ^ 31))
              (.init heap ic.fromOffset) with
          | mk s ok =>
              obtain ⟨rfl, hsent⟩ : s.heap = heap' ∧ ∀ message n, outcome = .sent message n →
                  ok = true ∧ buffer.length < 2 ^ 31 ∧ env.chunkAlloc = true := by
                rw [hloop] at hscan
                cases ok with
                | false =>
                    obtain ⟨rfl, rfl⟩ := Prod.mk.inj hscan
                    exact ⟨rfl, by simp⟩
                | true =>
                    simp only at hscan
                    split at hscan
                    · obtain ⟨rfl, rfl⟩ := Prod.mk.inj hscan
                      exact ⟨rfl, by simp⟩
                    · next hsize =>
                        split at hscan
                        · next halloc =>
                            obtain ⟨rfl, rfl⟩ := Prod.mk.inj hscan
                            exact ⟨rfl, fun _ _ _ => ⟨rfl, Nat.lt_of_not_le hsize, halloc.1⟩⟩
                        · obtain ⟨rfl, rfl⟩ := Prod.mk.inj hscan
                          exact ⟨rfl, by simp⟩
              obtain ⟨owned, hops, hsub, hnews, hmessage⟩ :=
                @ownersAfter_scannedOps env buffer ok k _ hfresh blocks
              refine ⟨owned, ?_, hsub, hnews, fun message n heq => ?_⟩
              · have hnodeOps : Takes count
                    { h with
                      thread := Function.update h.thread t (insert (.buffer k) (h.thread t)) }
                    (onNodes (nodeNewOps (List.range' heap.length (s.heap.length - heap.length))))
                    (h.moved heap.length s.heap.length t (insert (.buffer k) (h.thread t))) :=
                  takes_nodeNewOps count _ hnodes hle
                have hthreadOps : Takes count
                    (h.moved heap.length s.heap.length t (insert (.buffer k) (h.thread t)))
                    (onThread t (scannedOps env buffer ok k blocks))
                    (h.moved heap.length s.heap.length t owned) := .onThread_moved ht hops
                rw [← List.append_assoc]
                exact hfirst.append (hnodeOps.append hthreadOps)
              · obtain ⟨hok, hsize, halloc⟩ := hsent message n heq
                exact hmessage hok hsize halloc

end

/-! ## Steps of a thread -/

section

variable {bytes : List UInt8} {config : FTextThread} {heap heap' : Heap} {w w' : Worker}
  {a : WorkerAction} {base count t spare : ℕ} {h : Holdings} {owned : Finset TextVar}

/-- What a thread has does not change while its coroutines stay as they are. -/
theorem Worker.Holds.congr (hw : w.Holds owned) (hic : w'.ic = w.ic)
    (hexamined : w'.examined = w.examined) (hbegun : w'.begun = w.begun) : w'.Holds owned where
  plan := hic ▸ hw.plan
  sent k hk := hw.sent k (by rwa [Worker.Sent, hexamined] at hk)
  started x hx k hk := by
    rw [hbegun, Worker.Sent, hexamined]
    exact hw.started x hx k hk

/-- A thread at work. -/
theorem Worker.Owns.holds (hw : w.Owns owned spare) {pc : WorkerPc} (hpc : w.pc = pc)
    (henter : pc ≠ .enter) (hexited : ∀ result, pc ≠ .exited result)
    (hundefined : pc ≠ .undefined) :
    w.Holds owned ∧ ((∀ k < w.begun, w.Sent k) → spare = 0) := by
  subst hpc
  unfold Worker.Owns at hw
  split at hw
  · next hpc => exact absurd hpc henter
  · next hpc => exact absurd hpc (hexited _)
  · next hpc => exact absurd hpc (hexited _)
  · next hpc => exact absurd hpc hundefined
  · exact hw

/-- A thread that only moves on. -/
theorem Worker.Holds.owns (hw : w'.Holds owned) (hspare : (∀ k < w'.begun, w'.Sent k) → spare = 0)
    (henter : w'.pc ≠ .enter) (hexited : ∀ result, w'.pc ≠ .exited result) :
    w'.Owns owned spare := by
  unfold Worker.Owns
  split
  · next hpc => exact absurd hpc henter
  · next hpc => exact absurd hpc (hexited _)
  · trivial
  · trivial
  · exact ⟨hw, hspare⟩

theorem Worker.Holds.mem_plan (hw : w.Holds owned) {x : TextVar} (hx : x ∈ planOwners w.ic.length)
    (hnone : x.coroutine = none) : x ∈ owned :=
  (hw.plan x hnone).mpr hx

/-- A coroutine that has sent its chunk has added a message. -/
theorem Worker.Holds.launched_sent (hw : w.Holds owned) {i c n : ℕ} {chunk : FIndexerChunk}
    {message : FChunk} (hpc : w.pc = .launch i c) (hindex : chunk.index.toNat = i + c) :
    (w.launched i c chunk (.sent message n)).Holds (insert (.chunk (i + c)) owned) ∧
      ∀ k < i + c, (w.launched i c chunk (.sent message n)).Sent k → w.Sent k := by
  have hbegun : w.begun = i + c := by rw [Worker.begun, hpc]
  have hsent : ∀ k, (w.launched i c chunk (.sent message n)).Sent k → k ≠ i + c → w.Sent k := by
    rintro k ⟨entry, hentry, rfl⟩ hne
    rcases List.mem_append.mp hentry with hentry | hentry
    · exact ⟨entry, hentry, rfl⟩
    · rw [List.mem_singleton.mp hentry] at hne
      exact absurd hindex hne
  refine ⟨⟨fun x hx => ?_, fun k hk => ?_, fun x hx k hk => ?_⟩,
    fun k hlt hk => hsent k hk hlt.ne⟩
  · rw [Finset.mem_insert, or_iff_right (by rintro rfl; cases hx)]
    exact hw.plan x hx
  · by_cases heq : k = i + c
    · exact heq ▸ Finset.mem_insert_self _ _
    · exact Finset.mem_insert_of_mem (hw.sent k (hsent k hk heq))
  · rcases Finset.mem_insert.mp hx with rfl | hx
    · obtain rfl := Option.some.inj hk
      exact ⟨Nat.lt_succ_self _, fun _ => rfl⟩
    · obtain ⟨hlt, heq⟩ := hw.started x hx k hk
      rw [hbegun] at hlt
      exact ⟨hlt.trans (Nat.lt_succ_self _), fun hk => heq (hsent k hk hlt.ne)⟩

/-- What a coroutine that has sent nothing leaves behind. -/
theorem Worker.Holds.launched_silent (hw : w.Holds owned) {i c : ℕ} {owned' : Finset TextVar}
    (hpc : w.pc = .launch i c) (hsub : owned ⊆ owned')
    (hnews : ∀ x ∈ owned', x ∉ owned → x.coroutine = some (i + c)) (hsilent : ¬ w.Sent (i + c)) :
    Worker.Holds { w with pc := .launch i (c + 1) } owned' where
  plan x hx := by
    refine ⟨fun hmem => ?_, fun hmem => hsub (hw.mem_plan hmem hx)⟩
    by_cases hold : x ∈ owned
    · exact (hw.plan x hx).mp hold
    · exact absurd (hnews x hmem hold) (by simp [hx])
  sent k hk := hsub (hw.sent k hk)
  started x hx k hk := by
    have hbegun : w.begun = i + c := by rw [Worker.begun, hpc]
    by_cases hold : x ∈ owned
    · obtain ⟨hlt, heq⟩ := hw.started x hold k hk
      rw [hbegun] at hlt
      exact ⟨hlt.trans (Nat.lt_succ_self _), heq⟩
    · obtain rfl := Option.some.inj (hk.symm.trans (hnews x hx hold))
      exact ⟨Nat.lt_succ_self _, fun hk => absurd hk hsilent⟩

/-- All messages are there when the thread reduces them. -/
theorem Worker.Holds.eq_of_reduce {ic : FIndexerChunks} (hw : w.Holds owned)
    (hworking : w.Working bytes t ic heap) (hpc : w.pc = .reduce) :
    owned = planOwners w.ic.length ∪ (Finset.range w.ic.length).image .chunk ∧
      ∀ k < w.begun, w.Sent k := by
  have hwritten : w.written.length = ic.chunks.length := by
    have hposition := hworking.position
    simpa only [Worker.Position, hpc] using hposition
  have hbegun : w.begun = w.ic.length := by rw [Worker.begun, hpc]
  have hall : ∀ k < w.ic.length, w.Sent k := by
    intro k hk
    rw [hworking.ic_eq, ← List.mem_range, ← (hworking.complete hwritten).2.1] at hk
    exact List.mem_map.mp hk
  refine ⟨?_, hbegun ▸ hall⟩
  have hnone : ∀ x ∈ planOwners w.ic.length, x.coroutine = none := by
    intro x hx
    cases x <;> simp_all [planOwners, TextVar.coroutine]
  ext x
  rw [Finset.mem_union]
  constructor
  · intro hx
    cases hcoroutine : x.coroutine with
    | none => exact Or.inl ((hw.plan x hcoroutine).mp hx)
    | some k =>
        obtain ⟨hk, heq⟩ := hw.started x hx k hcoroutine
        rw [hbegun] at hk
        exact Or.inr (Finset.mem_image.mpr ⟨k, Finset.mem_range.mpr hk, (heq (hall k hk)).symm⟩)
  · rintro (hx | hx)
    · exact hw.mem_plan hx (hnone x hx)
    · obtain ⟨k, hk, rfl⟩ := Finset.mem_image.mp hx
      exact hw.sent k (hall k (Finset.mem_range.mp hk))

end

/-- The parts of a call in which a thread moves. -/
structure Holdings.Ready (h : Holdings) (count t : ℕ) (heap : Heap) (base : ℕ) : Prop where
  lt : t < count
  config : .tthread t ∈ h.file
  nodes : ∀ p ∈ h.nodes, p < heap.length
  live : ∀ p, base ≤ p → p < heap.length → p ∈ h.nodes
  closed : heap.ClosedFrom base
  base_le : base ≤ heap.length

/-- What a step of a thread does to the owners. The nodes that it allocates are counted, whether
their coroutine sends its chunk or not. -/
def Worker.Advances (bytes : List UInt8) (count t : ℕ) (h : Holdings) (w : Worker) (spare : ℕ)
    (heap : Heap) (ops : List (MemOp IndexBlock)) (w' : Worker) (heap' : Heap) : Prop :=
  ∃ owned spare', Takes count h ops (h.moved heap.length heap'.length t owned) ∧
    w'.Owns owned spare' ∧
    heap'.length + examinedNewlines bytes w.examined + spare =
      heap.length + examinedNewlines bytes w'.examined + spare'

section

variable {bytes : List UInt8} {config : FTextThread} {heap heap' : Heap} {w w' : Worker}
  {a : WorkerAction} {base count t spare : ℕ} {h : Holdings} {ops : List (MemOp IndexBlock)}

/-- A step that allocates and frees nothing. -/
theorem Worker.Advances.stays (hops : Takes count h ops h)
    (howns : w'.Owns (h.thread t) spare) (hexamined : w'.examined = w.examined) :
    w.Advances bytes count t h spare heap ops w' heap :=
  ⟨h.thread t, spare, by rwa [Holdings.moved_self], howns, by rw [hexamined]⟩

/-- A step that leaves the nodes alone. -/
theorem Worker.Advances.own {owned : Finset TextVar}
    (hops : Takes count h ops { h with thread := Function.update h.thread t owned })
    (howns : w'.Owns owned spare) (hexamined : w'.examined = w.examined) :
    w.Advances bytes count t h spare heap ops w' heap := by
  refine ⟨owned, spare, ?_, howns, by rw [hexamined]⟩
  simpa [Holdings.moved] using hops

/-- The uses of a thread at work. -/
theorem takes_useOps (hready : h.Ready count t heap base) (xs : List TextVar)
    (hxs : ∀ x ∈ xs, x ∈ h.thread t) :
    Takes count h (onThread t (xs.map .use) ++ onFile [.use (.tthread t)]) h :=
  (Takes.threadUses xs hready.lt hxs).append (.fileUses [.tthread t] (by simpa using hready.config))

/-- A step that ends the thread without a result. -/
theorem Worker.Advances.ends {owned : Finset TextVar}
    (hops : Takes count h ops { h with thread := Function.update h.thread t owned })
    (hpc : w'.pc = .exited none ∨ w'.pc = .undefined) (hexamined : w'.examined = w.examined) :
    w.Advances bytes count t h spare heap ops w' heap := by
  refine .own hops ?_ hexamined
  unfold Worker.Owns
  rcases hpc with hpc | hpc <;> rw [hpc] <;> trivial

theorem Worker.Owns.planned (howns : w.Owns (h.thread t) spare) (hready : h.Ready count t heap base)
    (hpc : w.pc = .enter) {ic : FIndexerChunks} (hic : config.plan = .ok ic) (hstart : w = .start)
    (blocks : ℕ) :
    w.Advances bytes count t h spare heap (workerOps bytes config t blocks .proceed heap w)
      (w.planned ic) heap := by
  simp only [Worker.Owns, hpc] at howns
  obtain ⟨hempty, rfl⟩ := howns
  have hops : Takes count h (onFile [.use (.tthread t)] ++ onThread t (planOps ic.chunks.length))
      { h with thread := Function.update h.thread t (planOwners ic.chunks.length) } := by
    refine Takes.append (.fileUses [.tthread t] (by simpa using hready.config))
      (.onThread hready.lt ?_)
    rw [hempty]
    exact ownersAfter_planOps _
  have hholds : (w.planned ic).Holds (planOwners ic.chunks.length) := by
    subst hstart
    refine ⟨fun x _ => Iff.rfl, fun k hk => ?_, fun x hx k hk => ?_⟩
    · obtain ⟨entry, hentry, -⟩ := hk
      cases hentry
    · cases x <;> simp_all [planOwners, TextVar.coroutine]
  simp only [workerOps, hpc, hic]
  exact .own hops (hholds.owns (fun _ => rfl) (by simp [Worker.planned])
    (by simp [Worker.planned])) rfl

theorem Worker.Owns.unplanned (howns : w.Owns (h.thread t) spare)
    (hready : h.Ready count t heap base) (hpc : w.pc = .enter) {fault : Fault}
    (hic : config.plan = .error fault) {pc : WorkerPc}
    (hended : pc = .exited none ∨ pc = .undefined)
    (blocks : ℕ) :
    w.Advances bytes count t h spare heap (workerOps bytes config t blocks .proceed heap w)
      { w with pc := pc } heap := by
  simp only [Worker.Owns, hpc] at howns
  have hops : Takes count h (onFile [.use (.tthread t)] ++ onThread t [.malloc .ic])
      { h with thread := Function.update h.thread t {.ic} } := by
    refine Takes.append (.fileUses [.tthread t] (by simpa using hready.config))
      (.onThread hready.lt ?_)
    rw [howns.1]
    rfl
  simp only [workerOps, hpc, hic]
  exact .ends hops hended rfl

theorem Worker.Owns.fault (howns : w.Owns (h.thread t) spare) (hready : h.Ready count t heap base)
    (hended : ¬ w.Ended) (hic : ∀ i c chunk, w.chunkAt i c = some chunk → i + c < w.ic.length)
    (blocks : ℕ) :
    w.Advances bytes count t h spare heap (workerOps bytes config t blocks .fault heap w)
      { w with pc := .exited none } heap := by
  have hsame : { h with thread := Function.update h.thread t (h.thread t) } = h := by simp
  have hstays : ∀ {ops}, Takes count h ops h →
      w.Advances bytes count t h spare heap ops { w with pc := .exited none } heap :=
    fun hops => .ends (by rwa [hsame]) (Or.inl rfl) rfl
  have hfile : Takes count h (onFile [.use (.tthread t)]) h :=
    .fileUses [.tthread t] (by simpa using hready.config)
  cases hpc : w.pc with
  | enter =>
      simp only [Worker.Owns, hpc] at howns
      simp only [workerOps, hpc]
      cases config.plan with
      | ok ic =>
          obtain ⟨owned, hfault⟩ := exists_ownersAfter_planFaultOps ic.chunks.length blocks
          rw [← howns.1] at hfault
          exact .ends (hfile.append (.onThread hready.lt hfault)) (Or.inl rfl) rfl
      | error fault => exact hstays (hfile.append (.nil _ _))
  | batch i =>
      simp only [workerOps, hpc]
      exact hstays (.nil _ _)
  | launch i c =>
      obtain ⟨hholds, -⟩ := howns.holds hpc (by simp) (by simp) (by simp)
      simp only [workerOps, hpc]
      cases hchunk : w.chunkAt i c with
      | none => exact hstays (.nil _ _)
      | some chunk =>
          refine hstays (takes_useOps hready [.ic, .icChunks, .icChunk (i + c)] fun x hx => ?_)
          refine hholds.mem_plan ?_ ?_
          · have hlt := hic i c chunk hchunk
            fin_cases hx <;> simp [planOwners, hlt]
          · fin_cases hx <;> rfl
  | receive i c =>
      obtain ⟨hholds, -⟩ := howns.holds hpc (by simp) (by simp) (by simp)
      simp only [workerOps, hpc]
      refine hstays (.threadUses [.ic] hready.lt ?_)
      simpa using hholds.mem_plan (by simp [planOwners]) rfl
  | reduce =>
      obtain ⟨hholds, -⟩ := howns.holds hpc (by simp) (by simp) (by simp)
      simp only [workerOps, hpc]
      refine hstays (takes_useOps hready [.ic] ?_)
      simpa using hholds.mem_plan (by simp [planOwners]) rfl
  | exited result => exact absurd (Or.inr ⟨result, hpc⟩) hended
  | undefined => exact absurd (Or.inl hpc) hended

/-- The steps between the loops. -/
theorem Worker.Holds.stays (hholds : w.Holds (h.thread t))
    (hspare : (∀ k < w.begun, w.Sent k) → spare = 0) (hops : Takes count h ops h)
    (hic : w'.ic = w.ic) (hexamined : w'.examined = w.examined)
    (hpc : w'.pc = .undefined ∨ w'.begun = w.begun ∧ w'.pc ≠ .enter ∧
      ∀ result, w'.pc ≠ .exited result) :
    w.Advances bytes count t h spare heap ops w' heap := by
  refine .stays hops ?_ hexamined
  rcases hpc with hundefined | ⟨hbegun, henter, hexited⟩
  · unfold Worker.Owns
    rw [hundefined]
    trivial
  · have hsent : ∀ k, w'.Sent k ↔ w.Sent k := fun k => by rw [Worker.Sent, hexamined, Worker.Sent]
    refine (hholds.congr hic hexamined hbegun).owns (fun hall => hspare fun k hk => ?_) henter
      hexited
    exact (hsent k).mp (hall k (hbegun ▸ hk))

theorem Worker.Owns.scan {ic : FIndexerChunks} (howns : w.Owns (h.thread t) spare)
    (hready : h.Ready count t heap base) (hw : w.Working bytes t ic heap) {i c : ℕ}
    {chunk : FIndexerChunk} {env : ScanEnv} {outcome : ScanOutcome} (hpc : w.pc = .launch i c)
    (hchunk : w.chunkAt i c = some chunk)
    (hscan : fIndexTextBytes bytes env heap chunk t = (heap', outcome)) (blocks : ℕ) :
    w.Advances bytes count t h spare heap (workerOps bytes config t blocks (.scan env) heap w)
      (w.launched i c chunk outcome) heap' := by
  obtain ⟨hholds, hspare⟩ := howns.holds hpc (by simp) (by simp) (by simp)
  have hbegun : w.begun = i + c := by rw [Worker.begun, hpc]
  obtain ⟨-, -, hindex, hlt⟩ := hw.chunkAt_eq_some hchunk
  have hplan : ∀ x ∈ [TextVar.ic, .icChunks, .icChunk (i + c)], x ∈ h.thread t := by
    rw [← hw.ic_eq] at hlt
    intro x hx
    refine hholds.mem_plan ?_ ?_
    · fin_cases hx <;> simp [planOwners, hlt]
    · fin_cases hx <;> rfl
  have hfresh : ∀ x ∈ h.thread t, x.coroutine ≠ some (i + c) := fun x hx heq =>
    absurd (hholds.started x hx _ heq).1 (by rw [hbegun]; exact lt_irrefl _)
  have hbelow : w.ExaminedBelow (i + c) := by
    have hposition := hw.position
    simp only [Worker.Position, hpc] at hposition
    exact hposition.2.2.2.2.2
  have hsilent : ¬ w.Sent (i + c) := by
    rintro ⟨entry, hentry, heq⟩
    exact absurd (hbelow entry hentry) (by rw [heq]; exact lt_irrefl _)
  obtain ⟨owned, hops, hsub, hnews, hmessage⟩ := takes_coroutineOps hready.lt
    (hplan _ (by simp)) hfresh hready.nodes hscan blocks
  have hall : Takes count h (workerOps bytes config t blocks (.scan env) heap w)
      (h.moved heap.length heap'.length t owned) := by
    simp only [workerOps, hpc, hchunk]
    exact (takes_useOps hready _ hplan).append hops
  obtain ⟨-, hle, hsent⟩ := fIndexTextBytes_within hready.closed hready.base_le hscan
  cases outcome with
  | sent message n =>
      obtain ⟨hholds', hold⟩ :=
        @Worker.Holds.launched_sent _ _ hholds i c n chunk message hpc hindex
      rw [hmessage message n rfl] at hall
      refine ⟨_, spare, hall, hholds'.owns (fun hall => hspare fun k hk => ?_) ?_ ?_, ?_⟩
      · rw [hbegun] at hk
        exact hold k hk (hall k (hk.trans (Nat.lt_succ_self _)))
      · simp [Worker.launched]
      · simp [Worker.launched]
      · rw [(hsent message n rfl).2]
        simp only [Worker.launched, examinedNewlines, List.map_append, List.map_cons, List.map_nil,
          List.sum_append, List.sum_singleton]
        omega
  | silent =>
      have hholds' := hholds.launched_silent hpc hsub hnews hsilent
      refine ⟨owned, spare + (heap'.length - heap.length), hall,
        hholds'.owns (fun hall => ?_) ?_ ?_, ?_⟩
      · exact absurd (hall (i + c) (Nat.lt_succ_self _)) hsilent
      · simp
      · simp
      · simp only [Worker.launched]
        omega
  | undefined =>
      refine ⟨owned, spare + (heap'.length - heap.length), hall, trivial, ?_⟩
      simp only [Worker.launched]
      omega

theorem Worker.Owns.recv {ic : FIndexerChunks} (howns : w.Owns (h.thread t) spare)
    (hready : h.Ready count t heap base) (hw : w.Working bytes t ic heap) {i c k : ℕ}
    {chunk : FIndexerChunk} {message : FChunk} (hpc : w.pc = .receive i c)
    (hchunk : w.chunkAt i c = some chunk) (hmessage : w.pending[k]? = some message) (blocks : ℕ) :
    w.Advances bytes count t h spare heap (workerOps bytes config t blocks (.recv k) heap w)
      (w.received i c k message) heap := by
  obtain ⟨hholds, hspare⟩ := howns.holds hpc (by simp) (by simp) (by simp)
  obtain ⟨entry, hentry, hscan⟩ := hw.pending_spec message (List.mem_of_getElem? hmessage)
  have hops : Takes count h (workerOps bytes config t blocks (.recv k) heap w) h := by
    simp only [workerOps, hpc, hmessage]
    refine .threadUses [.ic, .chunk message.current.toNat, .chunkArray] hready.lt fun x hx => ?_
    fin_cases hx
    · exact hholds.mem_plan (by simp [planOwners]) rfl
    · exact hholds.sent _ ⟨entry, hentry, by rw [hscan.current_eq]⟩
    · exact hholds.mem_plan (by simp [planOwners]) rfl
  have hpc' := (hw.received hpc hchunk hmessage).2
  have hframe : (w.received i c k message).ic = w.ic ∧
      (w.received i c k message).examined = w.examined ∧
      (w.received i c k message).concurrency = w.concurrency := by
    rw [Worker.received]
    split <;> exact ⟨rfl, rfl, rfl⟩
  refine hholds.stays hspare hops hframe.1 hframe.2.1 (Or.inr ⟨?_, by simp [hpc'], by simp [hpc']⟩)
  simp only [Worker.begun, hpc, hpc', hframe.1, hframe.2.2]

theorem Worker.Owns.reduce {ic : FIndexerChunks} (howns : w.Owns (h.thread t) spare)
    (hready : h.Ready count t heap base) (hw : w.Working bytes t ic heap)
    (hwithin : w.Within heap base) (hpc : w.pc = .reduce) (blocks : ℕ) :
    w.Advances bytes count t h spare heap (workerOps bytes config t blocks .proceed heap w)
      (w.reduced heap t).2 (w.reduced heap t).1 := by
  obtain ⟨hholds, hspare⟩ := howns.holds hpc (by simp) (by simp) (by simp)
  obtain ⟨howned, hall⟩ := hholds.eq_of_reduce hw hpc
  obtain ⟨-, ⟨ret, hret⟩, -⟩ := hw.reduced hpc
  obtain ⟨hlength, hnodes⟩ : (w.reduced heap t).1.length = heap.length ∧
      ∀ p ∈ reverseReduceUses heap w.chunkArray.reduceOption, base ≤ p ∧ p < heap.length := by
    unfold Worker.reduced at hret ⊢
    split at hret
    · next hslots =>
        rw [if_pos hslots]
        split at hret
        · cases congrArg Worker.pc hret
        · next heap' result hreduce =>
            obtain ⟨-, hlength, -, huses⟩ := fChunkArrayReverseReduce_within hready.closed
              (fun chunk hmem => hwithin.chunkArray chunk (List.reduceOption_mem_iff.mp hmem))
              hreduce
            exact ⟨hlength, huses⟩
    · cases congrArg Worker.pc hret
  let messages : Finset TextVar := insert .ret (planOwners w.ic.length) ∪
    (Finset.range w.ic.length).image .chunk
  have hmalloc : ownersAfter (h.thread t) (.malloc .ret :: messageUses w.ic.length) =
      some messages := by
    have hnew : TextVar.ret ∉ h.thread t := by simp [howned, planOwners]
    have hret : insert TextVar.ret (h.thread t) = messages := by
      rw [howned, ← Finset.insert_union]
    rw [ownersAfter_malloc hnew, hret, messageUses]
    refine ownersAfter_flatMap_range (fun _ => messages) fun k hk => ?_
    refine @ownersAfter_uses _ _ messages [.chunkArray, .chunk k] fun x hx => ?_
    fin_cases hx
    · simp [messages, planOwners]
    · simp [messages, hk]
  have hfree : ownersAfter messages
      (.use .ret :: messageFreeOps w.ic.length ++ planFreeOps w.ic.length) = some {.ret} := by
    have huse : ownersAfter messages (.use .ret :: messageFreeOps w.ic.length) =
        some ({.ret, .ic, .icChunks} ∪ (Finset.range w.ic.length).image .icChunk) := by
      rw [ownersAfter_use (by simp [messages])]
      exact ownersAfter_messageFreeOps _
    rw [ownersAfter_append_of huse]
    exact ownersAfter_planFreeOps _
  have hmessages : Takes count h (onThread t (.malloc .ret :: messageUses w.ic.length))
      (h.moved heap.length heap.length t messages) := by
    simpa [Holdings.moved] using Takes.onThread hready.lt hmalloc
  have hic : ∀ x ∈ [TextVar.ic], x ∈ h.thread t := by
    simpa using hholds.mem_plan (by simp [planOwners]) rfl
  refine ⟨{.ret}, 0, ?_, ?_, ?_⟩
  · rw [hlength]
    simp only [workerOps, hpc]
    refine Takes.append (Takes.append ((takes_useOps hready [.ic] hic).append hmessages)
      (.nodeUses fun p hp => ?_)) (.onThread_moved hready.lt hfree)
    exact Finset.mem_union_left _ (hready.live p (hnodes p hp).1 (hnodes p hp).2)
  · rw [hret]
    exact ⟨rfl, rfl⟩
  · rw [hlength, hspare hall, hret]

/-- **What a step of a thread does to the owners.** It does not use a block that is not there, and
frees none that it does not own. -/
theorem Worker.Owns.step (howns : w.Owns (h.thread t) spare) (hready : h.Ready count t heap base)
    (hinv : w.Inv bytes config heap) (hthread : config.thread = t) (hwithin : w.Within heap base)
    (hmove : WorkerMove bytes config heap w a heap' w') (blocks : ℕ) :
    w.Advances bytes count t h spare heap (workerOps bytes config t blocks a heap w) w' heap' := by
  have hworking : ∀ {pc : WorkerPc}, w.pc = pc → pc ≠ .enter → pc ≠ .exited none →
      pc ≠ .undefined → ∃ ic, w.Working bytes t ic heap := by
    intro pc hpc henter hexited hundefined
    obtain ⟨ic, -, hw⟩ := hinv.exists_working hpc henter hexited hundefined
    exact ⟨ic, hthread ▸ hw⟩
  cases hmove with
  | planned hpc hic => exact howns.planned hready hpc hic (hinv.eq_start hpc) blocks
  | unplanned hpc hic hended => exact howns.unplanned hready hpc hic hended blocks
  | fault hended =>
      refine howns.fault hready hended (fun i c chunk hchunk => ?_) blocks
      rw [Worker.chunkAt] at hchunk
      split at hchunk
      · exact (List.getElem?_eq_some_iff.mp hchunk).1
      · cases hchunk
  | @batch i hpc =>
      obtain ⟨hholds, hspare⟩ := howns.holds hpc (by simp) (by simp) (by simp)
      have hops : Takes count h (workerOps bytes config t blocks .proceed heap w) h := by
        simp only [workerOps, hpc]
        refine .threadUses [.ic] hready.lt ?_
        simpa using hholds.mem_plan (by simp [planOwners]) rfl
      refine hholds.stays hspare hops rfl rfl (Or.inr ⟨?_, ?_, fun result => ?_⟩)
      · simp only [Worker.begun, hpc]
        by_cases hi : i < w.ic.length
        · simp only [if_pos hi]
          omega
        · simp only [if_neg hi]
          omega
      · simp only
        split <;> simp
      · simp only
        split <;> simp
  | @launchDone i c hpc hchunk =>
      obtain ⟨hholds, hspare⟩ := howns.holds hpc (by simp) (by simp) (by simp)
      obtain ⟨ic, hw⟩ := hworking hpc (by simp) (by simp) (by simp)
      have hops : Takes count h (workerOps bytes config t blocks .proceed heap w) h := by
        simp only [workerOps, hpc]
        refine .threadUses [.ic] hready.lt ?_
        simpa using hholds.mem_plan (by simp [planOwners]) rfl
      have hposition := hw.position
      simp only [Worker.Position, hpc] at hposition
      have hlast := hw.chunkAt_eq_none hchunk hposition.2.2.1 hposition.2.2.2.1
      refine hholds.stays hspare hops rfl rfl (Or.inr ⟨?_, by simp, by simp⟩)
      simp only [Worker.begun, hpc, hlast, hw.ic_eq]
  | @scan i c chunk env _ outcome hpc hchunk hscan =>
      obtain ⟨ic, hw⟩ := hworking hpc (by simp) (by simp) (by simp)
      exact howns.scan hready hw hpc hchunk (hthread ▸ hscan) blocks
  | @batchDone i c hpc hchunk =>
      obtain ⟨hholds, hspare⟩ := howns.holds hpc (by simp) (by simp) (by simp)
      have hops : Takes count h (workerOps bytes config t blocks .proceed heap w) h := by
        simp only [workerOps, hpc]
        refine takes_useOps hready [.ic] ?_
        simpa using hholds.mem_plan (by simp [planOwners]) rfl
      refine hholds.stays hspare hops rfl rfl ?_
      by_cases hi : i + w.concurrency < 2 ^ 31
      · refine Or.inr ⟨?_, ?_, fun result => ?_⟩
        · simp only [Worker.finished, if_pos hi, Worker.begun, hpc]
        · simp only [Worker.finished, if_pos hi, ne_eq, reduceCtorEq, not_false_eq_true]
        · simp only [Worker.finished, if_pos hi, ne_eq, reduceCtorEq, not_false_eq_true]
      · exact Or.inl (by simp only [Worker.finished, if_neg hi])
  | recv hpc hchunk hmessage =>
      obtain ⟨ic, hw⟩ := hworking hpc (by simp) (by simp) (by simp)
      exact howns.recv hready hw hpc hchunk hmessage blocks
  | reduce hpc =>
      obtain ⟨ic, hw⟩ := hworking hpc (by simp) (by simp) (by simp)
      rw [hthread]
      exact howns.reduce hready hw hwithin hpc blocks

end

end Flashlight.TextIndexer
