/-
# The list of results

A caller may collect results in a list of its own. The list begins as one node without a
result. Prepending allocates no node: it puts the result into the head and links the head to
itself. So with the first result the list becomes a circle of one node, which holds the latest
result and has lost the others.

Freeing goes through the nodes and their results together. That is right for a list that ends
and has a result in every node. No list that is built here is one.
-/

import Flashlight.Math.ListHeap

namespace Flashlight.Search

open Flashlight.Math

/-- The nodes of the lists: each of them has a pointer to its result. -/
abbrev ResultsHeap := ListHeap (Option Ptr)

/-- `f_search_results_init`: a list of one node without a result, or `none` for `-1` when
there is no memory. -/
def fSearchResultsInit (malloc : Bool) (heap : ResultsHeap) : Option (ResultsHeap × Ptr) :=
  if malloc then some (heap.alloc none) else none

/-- `f_search_results_prepend` on the list at the caller's pointer `results`, which is read
but not written. A null pointer is dereferenced. -/
def fSearchResultsPrepend (heap : ResultsHeap) (results : Option Ptr) (addition : Ptr) :
    Option ResultsHeap :=
  match results with
  | none => none
  | some head => some ((heap.setValue head (some addition)).setNext head (some head))

/-- A caller prepends the results one after the other. -/
def prependAll (results : Option Ptr) : List Ptr → ResultsHeap → Option ResultsHeap
  | [], heap => some heap
  | addition :: additions, heap =>
      (fSearchResultsPrepend heap results addition).bind (prependAll results additions)

/-- A caller initialises a list and prepends the results. -/
def collectResults (malloc : Bool) (heap : ResultsHeap) (additions : List Ptr) :
    Option (ResultsHeap × Ptr) :=
  (fSearchResultsInit malloc heap).bind fun list =>
    (prependAll (some list.2) additions list.1).map fun heap => (heap, list.2)

/-! ## Freeing -/

/-- A block of memory that belongs to a list. -/
inductive Block
  /-- A node of the list. -/
  | node (p : Ptr)
  /-- A result. -/
  | result (p : Ptr)
  /-- A buffer of a result. -/
  | buffer (p : Ptr)
  deriving DecidableEq, Repr

/-- The pointers of a result to its buffers. -/
structure ResultBuffers where
  /-- The array of offsets. -/
  matchesSubstringOffset : Option Ptr
  /-- The array of lengths. -/
  matchesSubstringLen : Option Ptr
  /-- The line. -/
  str : Option Ptr
  deriving DecidableEq, Repr

/-- `free` when the blocks of `freed` were given back before: none of them may be given back
again. -/
def freeBlock (freed : List Block) (block : Block) : Option (List Block) :=
  if block ∈ freed then none else some (freed ++ [block])

/-- `free` of a buffer. A null pointer is ignored. -/
def freeBuffer (freed : List Block) : Option Ptr → Option (List Block)
  | none => some freed
  | some p => freeBlock freed (.buffer p)

/-- `f_search_result_free`: the result at `res` is read, so it must be there and not have been
given back. -/
def fSearchResultFree (results : List ResultBuffers) (freed : List Block) (res : Option Ptr) :
    Option (List Block) :=
  match res with
  | none => none
  | some p =>
      match results[p]? with
      | none => none
      | some buffers =>
          if .result p ∈ freed then none
          else
            (freeBuffer freed buffers.matchesSubstringLen).bind fun freed =>
              (freeBuffer freed buffers.matchesSubstringOffset).bind fun freed =>
                (freeBuffer freed buffers.str).bind fun freed => freeBlock freed (.result p)

/-- The loop of `f_search_results_free`, for at most `fuel` nodes. -/
def freeLoop (heap : ResultsHeap) (results : List ResultBuffers) :
    ℕ → List Block → Option Ptr → Option (List Block)
  | _, freed, none => some freed
  | 0, _, some _ => none
  | fuel + 1, freed, some head =>
      match heap[head]? with
      | none => none
      | some node =>
          if .node head ∈ freed then none
          else
            (fSearchResultFree results freed node.value).bind fun freed =>
              (freeBlock freed (.node head)).bind fun freed =>
                freeLoop heap results fuel freed node.next

/-- `f_search_results_free`: the blocks that are given back, in their order, and the caller's
pointer. `none` stands for a block that is read or freed after it was given back, for a null
pointer that is dereferenced, and for more than `fuel` nodes. -/
def fSearchResultsFree (fuel : ℕ) (heap : ResultsHeap) (results : List ResultBuffers)
    (head : Option Ptr) : Option (List Block × Option Ptr) :=
  (freeLoop heap results fuel [] head).map fun freed => (freed, none)

/-! ## What a list has to give back -/

/-- The blocks of `blocks` are given back in their order, after those of `freed`, if none of
them is met twice. -/
def giveBack (freed blocks : List Block) : Option (List Block) :=
  if (freed ++ blocks).Nodup then some (freed ++ blocks) else none

/-- The buffers of a result, in the order in which they are freed. -/
def ResultBuffers.blocks (buffers : ResultBuffers) : List Block :=
  ([buffers.matchesSubstringLen, buffers.matchesSubstringOffset, buffers.str].reduceOption).map
    Block.buffer

/-- The blocks of a node and its result. A node without a result has no such blocks. -/
def nodeBlocks (results : List ResultBuffers) (cell : Ptr × Option Ptr) : Option (List Block) :=
  cell.2.bind fun p => (results[p]?).map fun buffers =>
    buffers.blocks ++ [.result p] ++ [.node cell.1]

/-- The blocks of the nodes of a list. -/
def listBlocks (results : List ResultBuffers) : List (Ptr × Option Ptr) → Option (List Block)
  | [] => some []
  | cell :: cells =>
      (nodeBlocks results cell).bind fun blocks => (listBlocks results cells).map (blocks ++ ·)

theorem giveBack_eq_some_iff {freed blocks freed' : List Block} :
    giveBack freed blocks = some freed' ↔ (freed ++ blocks).Nodup ∧ freed' = freed ++ blocks := by
  simp [giveBack, eq_comm]

@[simp]
theorem giveBack_nil {freed : List Block} (hfreed : freed.Nodup) :
    giveBack freed [] = some freed := by
  simp [giveBack, hfreed]

theorem giveBack_eq_none_of_mem {freed blocks : List Block} {block : Block}
    (hfreed : block ∈ freed) (hblocks : block ∈ blocks) : giveBack freed blocks = none :=
  if_neg fun hnodup => (List.nodup_append.mp hnodup).2.2 block hfreed block hblocks rfl

/-- Giving back in two steps, where the second one knows that the first one succeeded. -/
theorem giveBack_bind {freed xs : List Block} {ys : List Block}
    {f : List Block → Option (List Block)}
    (hf : ∀ freed' : List Block, freed'.Nodup → f freed' = giveBack freed' ys) :
    (giveBack freed xs).bind f = giveBack freed (xs ++ ys) := by
  by_cases hxs : (freed ++ xs).Nodup
  · simp [giveBack, hxs, hf _ hxs]
  · have hall : ¬ (freed ++ (xs ++ ys)).Nodup := by
      rw [← List.append_assoc]
      exact fun hnodup => hxs hnodup.of_append_left
    simp [giveBack, hxs, hall]

theorem freeBlock_eq {freed : List Block} (hfreed : freed.Nodup) (block : Block) :
    freeBlock freed block = giveBack freed [block] := by
  by_cases hmem : block ∈ freed
  · rw [giveBack_eq_none_of_mem hmem (List.mem_singleton_self block)]
    exact if_pos hmem
  · have hnodup : (freed ++ [block]).Nodup := by
      refine List.nodup_append.mpr ⟨hfreed, List.nodup_singleton block, fun b hb c hc heq => ?_⟩
      rw [heq, List.mem_singleton.mp hc] at hb
      exact hmem hb
    simp [freeBlock, giveBack, hmem, hnodup]

theorem freeBuffer_eq {freed : List Block} (hfreed : freed.Nodup) (buffer : Option Ptr) :
    freeBuffer freed buffer = giveBack freed (buffer.toList.map Block.buffer) := by
  cases buffer with
  | none => exact (giveBack_nil hfreed).symm
  | some p => exact freeBlock_eq hfreed (.buffer p)

theorem ResultBuffers.blocks_eq (buffers : ResultBuffers) :
    buffers.blocks = buffers.matchesSubstringLen.toList.map Block.buffer ++
      (buffers.matchesSubstringOffset.toList.map Block.buffer ++
        buffers.str.toList.map Block.buffer) := by
  obtain ⟨offset, len, str⟩ := buffers
  cases offset <;> cases len <;> cases str <;> rfl

/-- Freeing a result gives back its buffers and then the result. -/
theorem fSearchResultFree_eq {results : List ResultBuffers} {freed : List Block}
    (hfreed : freed.Nodup) {p : Ptr} {buffers : ResultBuffers}
    (hbuffers : results[p]? = some buffers) :
    fSearchResultFree results freed (some p) = giveBack freed (buffers.blocks ++ [.result p]) := by
  by_cases hmem : Block.result p ∈ freed
  · rw [giveBack_eq_none_of_mem hmem (by simp)]
    simp [fSearchResultFree, hbuffers, hmem]
  · simp only [fSearchResultFree, hbuffers, hmem, if_false]
    rw [freeBuffer_eq hfreed, buffers.blocks_eq, List.append_assoc, List.append_assoc]
    refine giveBack_bind fun freed hfreed => ?_
    rw [freeBuffer_eq hfreed]
    refine giveBack_bind fun freed hfreed => ?_
    rw [freeBuffer_eq hfreed]
    exact giveBack_bind fun freed hfreed => freeBlock_eq hfreed _

/-! ## The loop of `f_search_results_free` -/

/-- One round of the loop, on a node whose result is there. -/
theorem freeLoop_succ {heap : ResultsHeap} {results : List ResultBuffers} {fuel : ℕ}
    {freed : List Block} (hfreed : freed.Nodup) {head : Ptr} {node : Cell (Option Ptr)}
    (hnode : heap[head]? = some node) {blocks : List Block}
    (hblocks : nodeBlocks results (head, node.value) = some blocks) :
    freeLoop heap results (fuel + 1) freed (some head) =
      (giveBack freed blocks).bind fun freed => freeLoop heap results fuel freed node.next := by
  obtain ⟨value, next⟩ := node
  simp only [nodeBlocks, Option.bind_eq_some_iff, Option.map_eq_some_iff] at hblocks
  obtain ⟨p, rfl, buffers, hbuffers, rfl⟩ := hblocks
  by_cases hmem : Block.node head ∈ freed
  · rw [giveBack_eq_none_of_mem hmem (by simp)]
    simp [freeLoop, hnode, hmem]
  · simp only [freeLoop, hnode, hmem, if_false]
    rw [fSearchResultFree_eq hfreed hbuffers, ← Option.bind_assoc]
    congr 1
    exact giveBack_bind fun freed hfreed => freeBlock_eq hfreed _

/-- A round that succeeds was on a node whose result is there. -/
theorem exists_nodeBlocks_of_freeLoop {heap : ResultsHeap} {results : List ResultBuffers}
    {fuel : ℕ} {freed freed' : List Block} {head : Ptr} {node : Cell (Option Ptr)}
    (hnode : heap[head]? = some node)
    (hloop : freeLoop heap results (fuel + 1) freed (some head) = some freed') :
    ∃ blocks, nodeBlocks results (head, node.value) = some blocks := by
  obtain ⟨value, next⟩ := node
  cases value with
  | none => simp [freeLoop, hnode, fSearchResultFree] at hloop
  | some p =>
      cases hbuffers : results[p]? with
      | none => simp [freeLoop, hnode, fSearchResultFree, hbuffers] at hloop
      | some buffers =>
          exact ⟨buffers.blocks ++ [.result p] ++ [.node head], by simp [nodeBlocks, hbuffers]⟩

/-- On a list that ends and has a result in every node, the loop gives back the blocks of the
nodes one after the other. -/
theorem freeLoop_eq {heap : ResultsHeap} {results : List ResultBuffers} {fuel : ℕ}
    {freed : List Block} (hfreed : freed.Nodup) {head : Option Ptr}
    {cells : List (Ptr × Option Ptr)} (hchain : ListHeap.Chain heap head cells none)
    {blocks : List Block} (hblocks : listBlocks results cells = some blocks)
    (hfuel : cells.length ≤ fuel) :
    freeLoop heap results fuel freed head = giveBack freed blocks := by
  induction cells generalizing head freed fuel blocks with
  | nil =>
      obtain rfl : head = none := hchain
      obtain rfl : [] = blocks := Option.some.inj hblocks
      rw [giveBack_nil hfreed, freeLoop]
  | cons cell cells ih =>
      obtain ⟨p, value⟩ := cell
      obtain ⟨rfl, next, hcell, hrest⟩ := hchain
      simp only [listBlocks, Option.bind_eq_some_iff, Option.map_eq_some_iff] at hblocks
      obtain ⟨own, hown, others, hothers, rfl⟩ := hblocks
      cases fuel with
      | zero => simp at hfuel
      | succ fuel =>
          rw [freeLoop_succ hfreed hcell hown]
          exact giveBack_bind fun freed hfreed =>
            ih hfreed hrest hothers (Nat.le_of_succ_le_succ hfuel)

/-- Where the loop ends, it was on a list that ends and has a result in every node. -/
theorem exists_chain_of_freeLoop {heap : ResultsHeap} {results : List ResultBuffers} {fuel : ℕ}
    {freed freed' : List Block} (hfreed : freed.Nodup) {head : Option Ptr}
    (hloop : freeLoop heap results fuel freed head = some freed') :
    ∃ cells blocks, ListHeap.Chain heap head cells none ∧
      listBlocks results cells = some blocks ∧ giveBack freed blocks = some freed' := by
  induction fuel generalizing head freed with
  | zero =>
      cases head with
      | none => exact ⟨[], [], rfl, rfl, by simpa [freeLoop, hfreed] using hloop⟩
      | some head => simp [freeLoop] at hloop
  | succ fuel ih =>
      cases head with
      | none => exact ⟨[], [], rfl, rfl, by simpa [freeLoop, hfreed] using hloop⟩
      | some head =>
          cases hnode : heap[head]? with
          | none => simp [freeLoop, hnode] at hloop
          | some node =>
              obtain ⟨own, hown⟩ := exists_nodeBlocks_of_freeLoop hnode hloop
              rw [freeLoop_succ hfreed hnode hown, Option.bind_eq_some_iff] at hloop
              obtain ⟨between, hbetween, hloop⟩ := hloop
              obtain ⟨hnodup, rfl⟩ := giveBack_eq_some_iff.mp hbetween
              obtain ⟨cells, others, hchain, hothers, hback⟩ := ih hnodup hloop
              refine ⟨(head, node.value) :: cells, own ++ others,
                ⟨rfl, node.next, hnode, hchain⟩, by simp [listBlocks, hown, hothers], ?_⟩
              rw [giveBack_eq_some_iff] at hback ⊢
              rwa [List.append_assoc] at hback

/-- `f_search_results_free` ends exactly on the lists that end, have a result in every node and
meet no block twice. It gives back the blocks of all nodes. -/
theorem fSearchResultsFree_iff {heap : ResultsHeap} {results : List ResultBuffers}
    {head out : Option Ptr} {freed : List Block} :
    (∃ fuel, fSearchResultsFree fuel heap results head = some (freed, out)) ↔
      (∃ cells, ListHeap.Chain heap head cells none ∧ listBlocks results cells = some freed) ∧
        freed.Nodup ∧ out = none := by
  have hnil : ([] : List Block).Nodup := List.nodup_nil
  simp only [fSearchResultsFree, Option.map_eq_some_iff, Prod.mk.injEq]
  constructor
  · rintro ⟨fuel, freed, hloop, rfl, rfl⟩
    obtain ⟨cells, blocks, hchain, hblocks, hback⟩ := exists_chain_of_freeLoop hnil hloop
    obtain ⟨hnodup, rfl⟩ := giveBack_eq_some_iff.mp hback
    exact ⟨⟨cells, hchain, hblocks⟩, hnodup, rfl⟩
  · rintro ⟨⟨cells, hchain, hblocks⟩, hnodup, rfl⟩
    refine ⟨cells.length, freed, ?_, rfl, rfl⟩
    rw [freeLoop_eq hnil hchain hblocks le_rfl]
    exact giveBack_eq_some_iff.mpr ⟨hnodup, rfl⟩

/-- A list of two nodes, each with a result of its own, is freed. -/
example : fSearchResultsFree 2 [⟨some 0, none⟩, ⟨some 1, some 0⟩]
    [⟨some 0, some 1, none⟩, ⟨some 2, some 3, some 4⟩] (some 1) =
      some ([.buffer 3, .buffer 2, .buffer 4, .result 1, .node 1,
        .buffer 1, .buffer 0, .result 0, .node 0], none) := by
  decide

/-! ## The lists that are built -/

/-- Prepending puts the result into the head and links the head to itself. -/
theorem fSearchResultsPrepend_head {heap : ResultsHeap} {head : Ptr} {node : Cell (Option Ptr)}
    (hnode : heap[head]? = some node) (addition : Ptr) :
    ∃ heap', fSearchResultsPrepend heap (some head) addition = some heap' ∧
      heap'[head]? = some ⟨some addition, some head⟩ :=
  ⟨_, rfl, ListHeap.getElem?_setNext_self _ (ListHeap.getElem?_setValue_self _ hnode)⟩

/-- After one or more results the head holds the last one and is linked to itself. -/
theorem prependAll_head {heap : ResultsHeap} {head : Ptr} {node : Cell (Option Ptr)}
    (hnode : heap[head]? = some node) (additions : List Ptr) :
    ∃ heap', prependAll (some head) additions heap = some heap' ∧
      heap'[head]? = some ((additions.getLast?).elim node fun last => ⟨some last, some head⟩) := by
  induction additions generalizing heap node with
  | nil => exact ⟨heap, rfl, hnode⟩
  | cons addition additions ih =>
      obtain ⟨between, hprepend, hhead⟩ := fSearchResultsPrepend_head hnode addition
      obtain ⟨heap', hrun, hhead'⟩ := ih hhead
      refine ⟨heap', by simp [prependAll, hprepend, hrun], ?_⟩
      rw [hhead', List.getLast?_cons]
      cases additions.getLast? <;> rfl

/-- The head of a list that was initialised and then filled. -/
theorem collectResults_head (heap : ResultsHeap) (additions : List Ptr) :
    ∃ built head, collectResults true heap additions = some (built, head) ∧
      built[head]? =
        some ((additions.getLast?).elim ⟨none, none⟩ fun last => ⟨some last, some head⟩) := by
  have hinit := ListHeap.getElem?_alloc_self heap (none : Option Ptr)
  obtain ⟨built, hrun, hhead⟩ := prependAll_head hinit additions
  exact ⟨built, _, by simp [collectResults, fSearchResultsInit, hrun], hhead⟩

/-! ## What the lists are for -/

/-- Following the list from `head` ends and meets the results, the last one that was prepended
first. Nodes without a result are passed over. -/
def Visits (heap : ResultsHeap) (head : Option Ptr) (additions : List Ptr) : Prop :=
  ∃ values, heap.toList head = some values ∧ values.reduceOption = additions.reverse

/-- Freeing the list ends and frees each of the results once. -/
def Frees (heap : ResultsHeap) (results : List ResultBuffers) (head : Option Ptr)
    (additions : List Ptr) : Prop :=
  ∃ fuel freed, fSearchResultsFree fuel heap results head = some (freed, none) ∧
    ∀ r ∈ additions, freed.count (.result r) = 1

/-- The list at `head` is a list of the results that were prepended. -/
structure BehavesAsList (heap : ResultsHeap) (results : List ResultBuffers) (head : Option Ptr)
    (additions : List Ptr) : Prop where
  visits : Visits heap head additions
  frees : Frees heap results head additions

/-- A list that is linked to itself is not visited: the walk does not end. -/
theorem not_visits_of_self_link {heap : ResultsHeap} {head : Ptr} {value : Option Ptr}
    (hself : heap[head]? = some ⟨value, some head⟩) (additions : List Ptr) :
    ¬ Visits heap (some head) additions := by
  rintro ⟨values, hwalk, -⟩
  obtain ⟨cells, hchain, -⟩ := ListHeap.Chain.exists_of_toList hwalk
  exact ListHeap.Chain.not_of_self_link hself hchain

/-- A list that is linked to itself is not freed: its node is read after it was given back. -/
theorem not_frees_of_self_link {heap : ResultsHeap} {head : Ptr} {value : Option Ptr}
    (hself : heap[head]? = some ⟨value, some head⟩) (results : List ResultBuffers)
    (additions : List Ptr) : ¬ Frees heap results (some head) additions := by
  rintro ⟨fuel, freed, hfree, -⟩
  obtain ⟨⟨cells, hchain, -⟩, -, -⟩ := fSearchResultsFree_iff.mp ⟨fuel, hfree⟩
  exact ListHeap.Chain.not_of_self_link hself hchain

/-- The placeholder alone is a list of no results. -/
theorem visits_placeholder {heap : ResultsHeap} {head : Ptr}
    (hhead : heap[head]? = some ⟨none, none⟩) : Visits heap (some head) [] := by
  have hchain : ListHeap.Chain heap (some head) [(head, none)] none :=
    ⟨rfl, none, hhead, rfl⟩
  exact ⟨[none], hchain.toList_eq, rfl⟩

/-- The placeholder has no result to free. -/
theorem not_frees_placeholder {heap : ResultsHeap} {head : Ptr} {next : Option Ptr}
    (hhead : heap[head]? = some ⟨none, next⟩) (results : List ResultBuffers)
    (additions : List Ptr) : ¬ Frees heap results (some head) additions := by
  rintro ⟨fuel, freed, hfree, -⟩
  obtain ⟨⟨cells, hchain, hblocks⟩, -, -⟩ := fSearchResultsFree_iff.mp ⟨fuel, hfree⟩
  cases cells with
  | nil => cases ListHeap.Chain.nil_iff.mp hchain
  | cons cell cells =>
      obtain ⟨p, value⟩ := cell
      obtain ⟨hstart, next', hcell, -⟩ := hchain
      obtain rfl : head = p := Option.some.inj hstart
      obtain ⟨rfl, -⟩ := Cell.mk.inj (Option.some.inj (hhead.symm.trans hcell))
      simp [listBlocks, nodeBlocks] at hblocks

/-- No list that was initialised and filled is a list of its results. With a result it is linked
to itself, so that it can be neither visited nor freed. Without one it can be visited, but its
placeholder cannot be freed. -/
theorem collectResults_not_list (heap : ResultsHeap) (results : List ResultBuffers)
    (additions : List Ptr) :
    ∃ built head, collectResults true heap additions = some (built, head) ∧
      ¬ BehavesAsList built results (some head) additions ∧
      ¬ Frees built results (some head) additions ∧
      (Visits built (some head) additions ↔ additions = []) := by
  obtain ⟨built, head, hbuilt, hhead⟩ := collectResults_head heap additions
  refine ⟨built, head, hbuilt, ?_⟩
  cases hlast : additions.getLast? with
  | none =>
      obtain rfl : additions = [] := List.getLast?_eq_none_iff.mp hlast
      have hplaceholder : built[head]? = some ⟨none, none⟩ := hhead
      have hfrees := not_frees_placeholder hplaceholder results []
      have hvisits := visits_placeholder hplaceholder
      exact ⟨fun hlist => hfrees hlist.frees, hfrees, fun _ => rfl, fun _ => hvisits⟩
  | some last =>
      have hself : built[head]? = some ⟨some last, some head⟩ := by rw [hhead, hlast]; rfl
      have hfrees := not_frees_of_self_link hself results additions
      have hvisits := not_visits_of_self_link hself additions
      have hne : additions ≠ [] := by
        rintro rfl
        cases hlast
      exact ⟨fun hlist => hfrees hlist.frees, hfrees, fun h => absurd h hvisits,
        fun h => absurd h hne⟩

/-- After two results the list is a circle of one node with the second result. -/
theorem collectResults_two_not_list :
    collectResults true [] [0, 1] = some ([⟨some 1, some 0⟩], 0) ∧
      ¬ BehavesAsList [⟨some 1, some 0⟩] [⟨some 0, some 1, some 2⟩, ⟨some 3, some 4, some 5⟩]
        (some 0) [0, 1] := by
  refine ⟨by decide, fun hlist => ?_⟩
  obtain ⟨values, hwalk, -⟩ := hlist.visits
  have hcircle : ListHeap.toList ([⟨some 1, some 0⟩] : ResultsHeap) (some 0) = none := by decide
  rw [hcircle] at hwalk
  cases hwalk

end Flashlight.Search
