/-
# What the indexing threads allocate

An indexing thread allocates its plan and the array for the messages of its coroutines. A coroutine
allocates a buffer, a message, and two blocks for each newline: a node and its offset. The nodes are
linked across the lists of coroutines, threads and windows, and whoever hands a list on does not own
its nodes any more.

The operations on these blocks are listed step by step, and the blocks of a call are divided among
its parts: the nodes, the main thread, and each of the other threads.
-/

import Flashlight.ChunkRegion
import Flashlight.Math.Ownership
import Flashlight.TextIndexer.FileInvariant

namespace Flashlight.TextIndexer

open Flashlight.Math Flashlight.Indexer

/-- The blocks of a node. -/
inductive NodeVar
  /-- `node->bytes` -/
  | bytes (p : Ptr)
  /-- The node. -/
  | node (p : Ptr)
  deriving DecidableEq, Repr

/-- The variables of `f_index_text_file` that point to blocks. -/
inductive FileVar
  /-- `index_filename`, later the path of the lookup file -/
  | indexFilename
  /-- `lookup` -/
  | lookup
  /-- `index` -/
  | index
  /-- `it` -/
  | it
  /-- `it->threads` -/
  | itThreads
  /-- `chunks` -/
  | chunks
  /-- `tthreads` -/
  | tthreads
  /-- `thread_ids` -/
  | threadIds
  /-- `tthreads[i]` -/
  | tthread (i : ℕ)
  /-- `final_chunk` -/
  | finalChunk
  deriving DecidableEq, Repr

/-- The variables of `f_index_text_chunk` that point to blocks, and those of its coroutines, with
their chunk. -/
inductive TextVar
  /-- `ic` -/
  | ic
  /-- `ic->chunks` -/
  | icChunks
  /-- `ic->chunks[k]` -/
  | icChunk (k : ℕ)
  /-- `chunk_array` -/
  | chunkArray
  /-- `ret` -/
  | ret
  /-- `buffer` of the coroutine -/
  | buffer (k : ℕ)
  /-- `bytes` of the coroutine, while there is no node for it -/
  | bytes (k : ℕ)
  /-- `chunk` of the coroutine, later `chunk_array[k]` -/
  | chunk (k : ℕ)
  deriving DecidableEq, Repr

/-- The variables of a call: the nodes, the main thread and the other threads. -/
abbrev IndexBlock := NodeVar ⊕ FileVar ⊕ (_ : ℕ) × TextVar

/-- Operations on nodes. -/
def onNodes (ops : List (MemOp NodeVar)) : List (MemOp IndexBlock) :=
  ops.map (MemOp.map Sum.inl)

/-- Operations on the blocks of the main thread. -/
def onFile (ops : List (MemOp FileVar)) : List (MemOp IndexBlock) :=
  (ops.map (MemOp.map Sum.inl)).map (MemOp.map Sum.inr)

/-- Operations on the blocks of thread `t`. -/
def onThread (t : ℕ) (ops : List (MemOp TextVar)) : List (MemOp IndexBlock) :=
  (ops.map (MemOp.map fun x => Sum.inr ⟨t, x⟩)).map (MemOp.map Sum.inr)

/-! ## Nodes -/

/-- `f_bytes_new`, `f_bytes_node_new` and `f_bytes_node_prepend`, which writes to the new node. -/
def nodeNewOps (nodes : List Ptr) : List (MemOp NodeVar) :=
  nodes.flatMap fun p => [.malloc (.bytes p), .use (.bytes p), .malloc (.node p), .use (.node p)]

/-- The nodes that a loop over a list reads and frees. -/
def nodeFreeOps (nodes : List Ptr) : List (MemOp NodeVar) :=
  nodes.flatMap fun p => [.use (.node p), .use (.bytes p), .free (.bytes p), .free (.node p)]

/-! ## Threads -/

/-- `f_indexer_chunks_init` of `n` chunks, behind the two blocks for its result. -/
def chunkConfigOps (n : ℕ) : List (MemOp TextVar) :=
  (List.range n).flatMap fun k => [.malloc (.icChunk k), .use (.icChunk k), .use .icChunks]

/-- A thread has planned `n` chunks. -/
def planOps (n : ℕ) : List (MemOp TextVar) :=
  [.malloc .ic, .use .ic, .malloc .icChunks] ++ chunkConfigOps n ++ [.use .ic, .malloc .chunkArray]

/-- The plan fails behind the allocation of `blocks` blocks. `f_indexer_chunks_init` frees its
result and the array of its chunks, but not the chunks. -/
def planFaultOps (n blocks : ℕ) : List (MemOp TextVar) :=
  match blocks with
  | 0 => []
  | 1 => [.malloc .ic, .use .ic, .free .ic]
  | blocks + 2 =>
      [.malloc .ic, .use .ic, .malloc .icChunks] ++ chunkConfigOps (min blocks n) ++
        if blocks < n then [.use .ic, .free .icChunks, .free .ic]
        else .use .ic :: ([TextVar.chunkArray].take (blocks - n)).map .malloc

/-- The coroutine for chunk `k` behind its loop; `ok` tells whether all nodes could be allocated,
and otherwise `blocks` of the blocks of the next one could be. -/
def scannedOps (env : ScanEnv) (buffer : List UInt8) (ok : Bool) (k blocks : ℕ) :
    List (MemOp TextVar) :=
  if ok = false then ([TextVar.bytes k].take blocks).map .malloc
  else if 2 ^ 31 ≤ buffer.length then []
  else
    .free (.buffer k) :: if env.chunkAlloc then [.malloc (.chunk k), .use (.chunk k)] else []

/-- What `f_index_text_bytes` does with its blocks. -/
def coroutineOps (bytes : List UInt8) (env : ScanEnv) (heap : Heap) (ic : FIndexerChunk)
    (thread k blocks : ℕ) : List (MemOp IndexBlock) :=
  onThread thread [.use (.icChunk k)] ++
    if env.bufferAlloc = false then []
    else
      onThread thread [.malloc (.buffer k), .use (.buffer k)] ++
        match pread bytes ic.count ic.fromOffset.toInt64 env.read with
        | none => []
        | some buffer =>
            let scanned := scanLoop ⟨thread, ic.index.toNat⟩ env.failAt (buffer.take (2 ^ 31))
              (.init heap ic.fromOffset)
            let nodes := List.range' heap.length (scanned.1.heap.length - heap.length)
            onNodes (nodeNewOps nodes) ++
              onThread thread (scannedOps env buffer scanned.2 k blocks)

/-- A thread reduces its `n` messages to one. -/
def messageUses (n : ℕ) : List (MemOp TextVar) :=
  (List.range n).flatMap fun k => [.use .chunkArray, .use (.chunk k)]

/-- `f_chunk_array_free` -/
def messageFreeOps (n : ℕ) : List (MemOp TextVar) :=
  (List.range n).flatMap (fun k => [.use .chunkArray, .free (.chunk k)]) ++ [.free .chunkArray]

/-- `f_indexer_chunks_free` -/
def planFreeOps (n : ℕ) : List (MemOp TextVar) :=
  (List.range n).flatMap (fun k => [.use .ic, .use .icChunks, .free (.icChunk k)]) ++
    [.use .ic, .free .icChunks, .free .ic]

/-- What a step of thread `t` does with the blocks. When a call fails, `blocks` of the blocks that
it asks for could be allocated. -/
def workerOps (bytes : List UInt8) (config : FTextThread) (t blocks : ℕ) (a : WorkerAction)
    (heap : Heap) (w : Worker) : List (MemOp IndexBlock) :=
  match w.pc, a with
  | .enter, .proceed =>
      onFile [.use (.tthread t)] ++
        match config.plan with
        | .ok ic => onThread t (planOps ic.chunks.length)
        | .error _ => onThread t [.malloc .ic]
  | .enter, .fault =>
      onFile [.use (.tthread t)] ++
        match config.plan with
        | .ok ic => onThread t (planFaultOps ic.chunks.length blocks)
        | .error _ => []
  | .batch _, .proceed => onThread t [.use .ic]
  | .launch _ _, .proceed => onThread t [.use .ic]
  | .launch i c, .scan env =>
      match w.chunkAt i c with
      | none => []
      | some chunk =>
          onThread t [.use .ic, .use .icChunks, .use (.icChunk (i + c))] ++
            onFile [.use (.tthread t)] ++ coroutineOps bytes env heap chunk t (i + c) blocks
  | .launch i c, .fault =>
      match w.chunkAt i c with
      | none => []
      | some _ =>
          onThread t [.use .ic, .use .icChunks, .use (.icChunk (i + c))] ++
            onFile [.use (.tthread t)]
  | .receive _ _, .recv k =>
      match w.pending[k]? with
      | none => []
      | some message =>
          onThread t [.use .ic, .use (.chunk message.current.toNat), .use .chunkArray]
  | .receive _ _, .proceed => onThread t [.use .ic] ++ onFile [.use (.tthread t)]
  | .receive _ _, .fault => onThread t [.use .ic]
  | .reduce, .proceed =>
      onThread t [.use .ic] ++ onFile [.use (.tthread t)] ++
        onThread t (.malloc .ret :: messageUses w.ic.length) ++
        onNodes ((reverseReduceUses heap w.chunkArray.reduceOption).map fun p => .use (.node p)) ++
        onThread t (.use .ret :: messageFreeOps w.ic.length ++ planFreeOps w.ic.length)
  | .reduce, .fault => onThread t [.use .ic] ++ onFile [.use (.tthread t)]
  | _, _ => []

/-! ## Who owns what -/

/-- What the parts of a call own. -/
structure Holdings where
  /-- The nodes that were not freed. -/
  nodes : Finset Ptr
  /-- The blocks of the main thread. -/
  file : Finset FileVar
  /-- The blocks of the other threads. -/
  thread : ℕ → Finset TextVar

/-- Both blocks of each node. -/
def nodeOwners (nodes : Finset Ptr) : Finset NodeVar :=
  nodes.image .bytes ∪ nodes.image .node

@[simp]
theorem bytes_mem_nodeOwners {nodes : Finset Ptr} {p : Ptr} :
    .bytes p ∈ nodeOwners nodes ↔ p ∈ nodes := by
  simp [nodeOwners]

@[simp]
theorem node_mem_nodeOwners {nodes : Finset Ptr} {p : Ptr} :
    .node p ∈ nodeOwners nodes ↔ p ∈ nodes := by
  simp [nodeOwners]

/-- The owners in a call with `count` threads. -/
def Holdings.owners (h : Holdings) (count : ℕ) : Finset IndexBlock :=
  (nodeOwners h.nodes).disjSum (together h.file count h.thread)

/-- The operations are not refused, and afterwards the parts of the call own `h'`. -/
def Takes (count : ℕ) (h : Holdings) (ops : List (MemOp IndexBlock)) (h' : Holdings) : Prop :=
  ownersAfter (h.owners count) ops = some (h'.owners count)

section

variable {count t : ℕ} {h h₁ h₂ : Holdings} {ops more : List (MemOp IndexBlock)}

theorem card_nodeOwners (nodes : Finset Ptr) : (nodeOwners nodes).card = 2 * nodes.card := by
  rw [nodeOwners, Finset.card_union_of_disjoint, Finset.card_image_of_injective,
    Finset.card_image_of_injective, Nat.two_mul]
  · exact fun p q heq => NodeVar.node.inj heq
  · exact fun p q heq => NodeVar.bytes.inj heq
  · simp [Finset.disjoint_left]

theorem Takes.nil (count : ℕ) (h : Holdings) : Takes count h [] h := rfl

theorem Takes.append (hfirst : Takes count h ops h₁) (hsecond : Takes count h₁ more h₂) :
    Takes count h (ops ++ more) h₂ :=
  (ownersAfter_append_of hfirst more).trans hsecond

theorem Takes.onNodes {ops : List (MemOp NodeVar)} {nodes : Finset Ptr}
    (hops : ownersAfter (nodeOwners h.nodes) ops = some (nodeOwners nodes)) :
    Takes count h (onNodes ops) { h with nodes := nodes } :=
  ownersAfter_disjSum_left hops

theorem Takes.onFile {ops : List (MemOp FileVar)} {file : Finset FileVar}
    (hops : ownersAfter h.file ops = some file) :
    Takes count h (onFile ops) { h with file := file } :=
  ownersAfter_disjSum_right (ownersAfter_together_main hops)

theorem Takes.onThread {ops : List (MemOp TextVar)} {owned : Finset TextVar} (ht : t < count)
    (hops : ownersAfter (h.thread t) ops = some owned) :
    Takes count h (onThread t ops) { h with thread := Function.update h.thread t owned } :=
  ownersAfter_disjSum_right (ownersAfter_together_thread ht hops)

theorem Takes.fileUses (xs : List FileVar) (hxs : ∀ x ∈ xs, x ∈ h.file) :
    Takes count h (TextIndexer.onFile (xs.map .use)) h :=
  .onFile (ownersAfter_uses hxs)

theorem Takes.threadUses (xs : List TextVar) (ht : t < count) (hxs : ∀ x ∈ xs, x ∈ h.thread t) :
    Takes count h (TextIndexer.onThread t (xs.map .use)) h := by
  have huses := Takes.onThread ht (ownersAfter_uses hxs)
  rwa [Function.update_eq_self] at huses

theorem Takes.nodeUses {nodes : List Ptr} (hnodes : ∀ p ∈ nodes, p ∈ h.nodes) :
    Takes count h (TextIndexer.onNodes (nodes.map fun p => .use (.node p))) h := by
  refine .onNodes ?_
  have huses : ∀ x ∈ nodes.map NodeVar.node, x ∈ nodeOwners h.nodes := by
    simpa using hnodes
  have hops := ownersAfter_uses huses
  rwa [List.map_map] at hops

end

/-- New nodes get both of their blocks. -/
theorem ownersAfter_nodeNewOps {nodes : Finset Ptr} {news : List Ptr} (hnodup : news.Nodup)
    (hfresh : ∀ p ∈ news, p ∉ nodes) :
    ownersAfter (nodeOwners nodes) (nodeNewOps news) =
      some (nodeOwners (nodes ∪ news.toFinset)) := by
  induction news generalizing nodes with
  | nil => simp [nodeNewOps, ownersAfter]
  | cons p news ih =>
      obtain ⟨hp, hnodup⟩ := List.nodup_cons.mp hnodup
      have hnew : p ∉ nodes := hfresh p List.mem_cons_self
      have hone : ownersAfter (nodeOwners nodes)
          [.malloc (.bytes p), .use (.bytes p), .malloc (.node p), .use (.node p)] =
            some (nodeOwners (insert p nodes)) := by
        have heq : insert (NodeVar.node p) (insert (NodeVar.bytes p) (nodeOwners nodes)) =
            nodeOwners (insert p nodes) := by
          ext x
          cases x <;> simp
        simp [ownersAfter, ownersStep, hnew, heq]
      have hrest := @ih (insert p nodes) hnodup fun q hq hmem => by
        rcases Finset.mem_insert.mp hmem with rfl | hmem
        · exact hp hq
        · exact hfresh q (List.mem_cons_of_mem _ hq) hmem
      rw [nodeNewOps, List.flatMap_cons, ownersAfter_append_of hone]
      refine hrest.trans ?_
      rw [List.toFinset_cons, Finset.insert_union, Finset.union_insert]

/-- A list that is there is freed, and nothing else is. -/
theorem ownersAfter_nodeFreeOps {nodes : Finset Ptr} {list : List Ptr} (hnodup : list.Nodup)
    (hlist : ∀ p ∈ list, p ∈ nodes) :
    ownersAfter (nodeOwners nodes) (nodeFreeOps list) =
      some (nodeOwners (nodes \ list.toFinset)) := by
  induction list generalizing nodes with
  | nil => simp [nodeFreeOps, ownersAfter]
  | cons p list ih =>
      obtain ⟨hp, hnodup⟩ := List.nodup_cons.mp hnodup
      have hold : p ∈ nodes := hlist p List.mem_cons_self
      have hone : ownersAfter (nodeOwners nodes)
          [.use (.node p), .use (.bytes p), .free (.bytes p), .free (.node p)] =
            some (nodeOwners (nodes.erase p)) := by
        have heq : ((nodeOwners nodes).erase (NodeVar.bytes p)).erase (NodeVar.node p) =
            nodeOwners (nodes.erase p) := by
          ext x
          cases x <;> simp
        simp [ownersAfter, ownersStep, hold, heq]
      have hrest := @ih (nodes.erase p) hnodup fun q hq =>
        Finset.mem_erase.mpr ⟨fun heq => hp (heq ▸ hq), hlist q (List.mem_cons_of_mem _ hq)⟩
      rw [nodeFreeOps, List.flatMap_cons, ownersAfter_append_of hone]
      refine hrest.trans ?_
      rw [List.toFinset_cons, Finset.sdiff_insert, Finset.erase_sdiff_comm]

/-! ## The plan and the messages of a thread -/

/-- What a thread has while it works on a plan of `n` chunks, without its coroutines. -/
def planOwners (n : ℕ) : Finset TextVar :=
  {.ic, .icChunks, .chunkArray} ∪ (Finset.range n).image .icChunk

theorem ownersAfter_chunkConfigOps (n : ℕ) :
    ownersAfter {.ic, .icChunks} (chunkConfigOps n) =
      some ({.ic, .icChunks} ∪ (Finset.range n).image .icChunk) := by
  let owners (k : ℕ) : Finset TextVar := {.ic, .icChunks} ∪ (Finset.range k).image .icChunk
  refine ownersAfter_flatMap_range owners fun k _ => ?_
  have hnext : insert (.icChunk k) (owners k) = owners (k + 1) := by
    simp only [owners]
    rw [Finset.range_add_one, Finset.image_insert, Finset.union_insert]
  rw [ownersAfter_malloc (by simp [owners]), hnext]
  simp [ownersAfter, ownersStep, owners]

theorem ownersAfter_planOps (n : ℕ) :
    ownersAfter ∅ (planOps n) = some (planOwners n) := by
  have hinit : ownersAfter (∅ : Finset TextVar) [.malloc .ic, .use .ic, .malloc .icChunks] =
      some {.ic, .icChunks} := by decide
  rw [planOps, ownersAfter_append_of ((ownersAfter_append_of hinit _).trans
    (ownersAfter_chunkConfigOps n))]
  have hlast : insert TextVar.chunkArray ({.ic, .icChunks} ∪ (Finset.range n).image .icChunk) =
      planOwners n := by
    grind [planOwners]
  simp [ownersAfter, ownersStep, ← hlast]

/-- A plan that fails does not free what it does not have. -/
theorem exists_ownersAfter_planFaultOps (n blocks : ℕ) :
    ∃ owned, ownersAfter ∅ (planFaultOps n blocks) = some owned := by
  have hinit : ownersAfter (∅ : Finset TextVar) [.malloc .ic, .use .ic, .malloc .icChunks] =
      some {.ic, .icChunks} := by decide
  cases blocks with
  | zero => exact ⟨_, rfl⟩
  | succ blocks =>
      cases blocks with
      | zero =>
          rw [planFaultOps]
          exact ⟨∅, by decide⟩
      | succ blocks =>
          rw [planFaultOps, ownersAfter_append_of ((ownersAfter_append_of hinit _).trans
            (ownersAfter_chunkConfigOps _))]
          refine Option.isSome_iff_exists.mp ?_
          split
          · simp [ownersAfter, ownersStep]
          · cases blocks - n with
            | zero => simp [ownersAfter, ownersStep]
            | succ _ => simp [ownersAfter, ownersStep]

/-- The messages are freed, and the array with them. -/
theorem ownersAfter_messageFreeOps (n : ℕ) :
    ownersAfter (insert .ret (planOwners n) ∪ (Finset.range n).image .chunk) (messageFreeOps n) =
      some ({.ret, .ic, .icChunks} ∪ (Finset.range n).image .icChunk) := by
  let owners (k : ℕ) : Finset TextVar := insert .ret (planOwners n) ∪ (Finset.Ico k n).image .chunk
  have hloop : ownersAfter (owners 0)
      ((List.range n).flatMap fun k => [.use .chunkArray, .free (.chunk k)]) =
        some (owners n) := by
    refine ownersAfter_flatMap_range owners fun k hk => ?_
    have hnext : (owners k).erase (.chunk k) = owners (k + 1) := by grind [planOwners]
    rw [ownersAfter_use (by simp [owners, planOwners]),
      ownersAfter_free (by simp [owners, hk]), hnext]
    rfl
  have hlast : (owners n).erase .chunkArray =
      {.ret, .ic, .icChunks} ∪ (Finset.range n).image .icChunk := by
    simp only [owners, planOwners, Finset.Ico_self, Finset.image_empty]
    grind
  rw [Finset.range_eq_Ico, messageFreeOps, ownersAfter_append_of hloop,
    ownersAfter_free (by simp [owners, planOwners]), hlast, ← Finset.range_eq_Ico]
  rfl

/-- The plan is freed. -/
theorem ownersAfter_planFreeOps (n : ℕ) :
    ownersAfter ({.ret, .ic, .icChunks} ∪ (Finset.range n).image .icChunk) (planFreeOps n) =
      some {.ret} := by
  let owners (k : ℕ) : Finset TextVar :=
    {.ret, .ic, .icChunks} ∪ (Finset.Ico k n).image .icChunk
  have hloop : ownersAfter (owners 0)
      ((List.range n).flatMap fun k => [.use .ic, .use .icChunks, .free (.icChunk k)]) =
        some (owners n) := by
    refine ownersAfter_flatMap_range owners fun k hk => ?_
    have hnext : (owners k).erase (.icChunk k) = owners (k + 1) := by grind
    rw [ownersAfter_use (by simp [owners]), ownersAfter_use (by simp [owners]),
      ownersAfter_free (by simp [owners, hk]), hnext]
    rfl
  have hlast : owners n = {.ret, .ic, .icChunks} := by simp [owners]
  rw [Finset.range_eq_Ico, planFreeOps, ownersAfter_append_of hloop, hlast]
  decide

end Flashlight.TextIndexer
