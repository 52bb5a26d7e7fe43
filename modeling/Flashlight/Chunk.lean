/-
# Chunks of newline offsets

The scan of one chunk collects the offsets of its newlines in a linked list,
latest offset first. A chunk records both ends of the list, so that the lists of
several chunks are joined with one write each: the last node of a later chunk is
linked to the first node of the list built so far.

All nodes live on one heap that the threads share. A node also records which
thread allocated it, and for which of its chunks; the program does not use this,
but it is what keeps the lists of different chunks apart.
-/

import Flashlight.Math.ListHeap
import Flashlight.Platform

namespace Flashlight

open Flashlight.Math

/-- An offset in the target file. -/
structure FBytes where
  /-- The offset begins a new line. -/
  atomic : Bool
  /-- The offset. -/
  offset : UInt64
  deriving DecidableEq, Repr

/-- The coroutine that allocated a node: its thread, and its chunk there. -/
structure Owner where
  /-- The thread. -/
  thread : ℕ
  /-- The chunk. -/
  chunk : ℕ
  deriving DecidableEq, Repr

/-- What a list node holds beside its link. -/
structure FBytesNode where
  /-- The offset of the node. -/
  bytes : FBytes
  /-- Who allocated the node. -/
  owner : Owner
  deriving DecidableEq, Repr

/-- `node->bytes->offset` -/
def FBytesNode.offset (node : FBytesNode) : UInt64 :=
  node.bytes.offset

/-- The nodes allocated by all threads. -/
abbrev Heap := ListHeap FBytesNode

/-- A part of the newline offsets: a linked list with both of its ends. -/
structure FChunk where
  /-- The position of the chunk among its siblings. -/
  current : UInt64
  /-- The first node. -/
  first : Option Ptr
  /-- The last node. -/
  last : Option Ptr
  /-- There is no node. -/
  empty : Bool
  /-- The number of offsets. -/
  lineCount : UInt32
  deriving DecidableEq, Repr

/-- `f_chunk_new` -/
def fChunkNew (current : UInt64) (firstref lastref : Option Ptr) : FChunk where
  current := current
  first := firstref
  last := lastref
  empty := firstref.isNone
  lineCount := 0

/-- `f_bytes_node_new`: a node with a null link. -/
def fBytesNodeNew (heap : Heap) (bytes : FBytes) (owner : Owner) : Heap × Ptr :=
  heap.alloc ⟨bytes, owner⟩

/-- `f_bytes_node_prepend` -/
def fBytesNodePrepend (heap : Heap) (head : Option Ptr) (parent : Ptr) : Heap × Option Ptr :=
  match head with
  | none => (heap, some parent)
  | some tmp => (heap.setNext parent (some tmp), some parent)

/-- `f_chunks_swap`: link the node `last` to `child`. A null `last` is
dereferenced. -/
def fChunksSwap (heap : Heap) (last child : Option Ptr) : Option Heap :=
  last.map fun node => heap.setNext node child

/-- The variables of the loop of `f_chunk_array_reverse_reduce`; `first` and `last`
belong to the result. -/
structure ReduceState where
  /-- The heap. -/
  heap : Heap
  /-- The head of the list built so far. -/
  current : Option Ptr
  /-- The result's first node. -/
  first : Option Ptr
  /-- The result's last node. -/
  last : Option Ptr
  /-- No list was met yet. -/
  head : Bool
  /-- Every chunk met so far was empty. -/
  empty : Bool
  deriving Repr

/-- One iteration of the loop: only the splicing branch publishes the list as the
result's first node. -/
def reduceStep (chunk : FChunk) (s : ReduceState) : Option ReduceState :=
  if chunk.empty then some s
  else
    match s.current with
    | none => some { s with
        current := chunk.first
        last := if s.head then chunk.last else s.last
        head := false
        empty := false }
    | some _ =>
        match fChunksSwap s.heap chunk.last s.current with
        | none => none
        | some heap => some { s with
            heap := heap
            first := chunk.first
            current := chunk.first
            empty := false }

/-- The loop of `f_chunk_array_reverse_reduce`. -/
def reduceLoop : List FChunk → ReduceState → Option ReduceState
  | [], s => some s
  | chunk :: chunks, s => (reduceStep chunk s).bind (reduceLoop chunks)

/-- The variables before the first iteration. -/
def ReduceState.init (heap : Heap) : ReduceState where
  heap := heap
  current := none
  first := none
  last := none
  head := true
  empty := true

/-- `f_chunk_array_reverse_reduce`: join the lists of all chunks, the last chunk's
list first. `none` stands for a null dereference. The line count of the result is
left to the callers, which overwrite it. -/
def fChunkArrayReverseReduce (heap : Heap) (idx : UInt64) (chunks : List FChunk) :
    Option (Heap × FChunk) :=
  match chunks with
  | [chunk] => some (heap, { chunk with current := idx })
  | _ =>
      (reduceLoop chunks (.init heap)).map fun s =>
        (s.heap, {
          current := idx
          first := s.first
          last := s.last
          empty := s.empty
          lineCount := 0 })

/-! ## Chunks that hold a list -/

/-- The chunk holds the list of `cells`: a null-terminated list from `first` to
`last`, or two null pointers. -/
structure FChunk.HoldsCells (chunk : FChunk) (heap : Heap) (cells : List (Ptr × FBytesNode)) :
    Prop where
  chain : heap.Chain chunk.first cells none
  last_eq : chunk.last = cells.getLast?.map Prod.fst
  empty_eq : chunk.empty = cells.isEmpty

/-- The chunk holds a list with the given nodes, wherever they are. -/
def FChunk.Holds (chunk : FChunk) (heap : Heap) (nodes : List FBytesNode) : Prop :=
  ∃ cells, chunk.HoldsCells heap cells ∧ cells.map Prod.snd = nodes

/-- The chunk knows the end of the list of `cells`, and its first node unless that was
lost. -/
structure FChunk.EndsCells (chunk : FChunk) (heap : Heap) (cells : List (Ptr × FBytesNode)) :
    Prop where
  chain : ∃ start, heap.Chain start cells none ∧ (chunk.first = start ∨ chunk.first = none)
  last_eq : chunk.last = cells.getLast?.map Prod.fst
  empty_eq : chunk.empty = cells.isEmpty

/-- The chunk knows the end of a list with the given nodes. -/
def FChunk.Ends (chunk : FChunk) (heap : Heap) (nodes : List FBytesNode) : Prop :=
  ∃ cells, chunk.EndsCells heap cells ∧ cells.map Prod.snd = nodes

namespace FChunk

variable {chunk : FChunk} {heap heap' : Heap}

theorem HoldsCells.congr {cells : List (Ptr × FBytesNode)} (h : chunk.HoldsCells heap cells)
    (hsame : ∀ p ∈ cells.map Prod.fst, heap'[p]? = heap[p]?) : chunk.HoldsCells heap' cells :=
  ⟨h.chain.congr hsame, h.last_eq, h.empty_eq⟩

/-- A chunk holds its list as long as nobody writes to the nodes of its owner. -/
theorem Holds.agreeOn {nodes : List FBytesNode} {own : FBytesNode → Prop}
    (h : chunk.Holds heap nodes) (hagree : ListHeap.AgreeOn own heap heap')
    (hown : ∀ node ∈ nodes, own node) : chunk.Holds heap' nodes := by
  obtain ⟨cells, hcells, rfl⟩ := h
  refine ⟨cells, ⟨hcells.chain.agreeOn hagree ?_, hcells.last_eq, hcells.empty_eq⟩, rfl⟩
  intro cell hmem
  exact hown _ (List.mem_map_of_mem hmem)

/-- Following the links from `first` lists the nodes. -/
theorem Holds.toList_eq {nodes : List FBytesNode} (h : chunk.Holds heap nodes) :
    heap.toList chunk.first = some nodes := by
  obtain ⟨cells, hcells, rfl⟩ := h
  exact hcells.chain.toList_eq

theorem HoldsCells.endsCells {cells : List (Ptr × FBytesNode)} (h : chunk.HoldsCells heap cells) :
    chunk.EndsCells heap cells :=
  ⟨⟨chunk.first, h.chain, Or.inl rfl⟩, h.last_eq, h.empty_eq⟩

theorem EndsCells.congr {cells : List (Ptr × FBytesNode)} (h : chunk.EndsCells heap cells)
    (hsame : ∀ p ∈ cells.map Prod.fst, heap'[p]? = heap[p]?) : chunk.EndsCells heap' cells := by
  obtain ⟨start, hchain, hfirst⟩ := h.chain
  exact ⟨⟨start, hchain.congr hsame, hfirst⟩, h.last_eq, h.empty_eq⟩

/-- The cells of a list are on the heap, whether its first node is known or not. -/
theorem EndsCells.getElem?_of_mem {cells : List (Ptr × FBytesNode)}
    (h : chunk.EndsCells heap cells) {p : Ptr} {node : FBytesNode} (hmem : (p, node) ∈ cells) :
    ∃ next, heap[p]? = some ⟨node, next⟩ := by
  obtain ⟨start, hchain, -⟩ := h.chain
  exact hchain.getElem?_of_mem hmem

theorem Ends.agreeOn {nodes : List FBytesNode} {own : FBytesNode → Prop}
    (h : chunk.Ends heap nodes) (hagree : ListHeap.AgreeOn own heap heap')
    (hown : ∀ node ∈ nodes, own node) : chunk.Ends heap' nodes := by
  obtain ⟨cells, hcells, rfl⟩ := h
  obtain ⟨start, hchain, hfirst⟩ := hcells.chain
  refine ⟨cells, ⟨⟨start, hchain.agreeOn hagree ?_, hfirst⟩, hcells.last_eq, hcells.empty_eq⟩, rfl⟩
  intro cell hmem
  exact hown _ (List.mem_map_of_mem hmem)

/-- The number of lines is not part of the list. -/
theorem Holds.withLineCount {nodes : List FBytesNode} (h : chunk.Holds heap nodes)
    (lineCount : UInt32) : FChunk.Holds { chunk with lineCount := lineCount } heap nodes := by
  obtain ⟨cells, hcells, rfl⟩ := h
  exact ⟨cells, ⟨hcells.chain, hcells.last_eq, hcells.empty_eq⟩, rfl⟩

theorem Ends.withLineCount {nodes : List FBytesNode} (h : chunk.Ends heap nodes)
    (lineCount : UInt32) : FChunk.Ends { chunk with lineCount := lineCount } heap nodes := by
  obtain ⟨cells, hcells, rfl⟩ := h
  exact ⟨cells, ⟨hcells.chain, hcells.last_eq, hcells.empty_eq⟩, rfl⟩

end FChunk

/-! ## Reduction -/

/-- The loop has built the list `cells` from `lists` nonempty chunks. The result's
first node is set by the second of them and not before. -/
structure ReduceState.Built (s : ReduceState) (cells : List (Ptr × FBytesNode)) (lists : ℕ) :
    Prop where
  chain : s.heap.Chain s.current cells none
  first_eq : s.first = if 2 ≤ lists then s.current else none
  last_eq : s.last = cells.getLast?.map Prod.fst
  head_eq : s.head = cells.isEmpty
  empty_eq : s.empty = cells.isEmpty
  lists_eq : cells = [] ↔ lists = 0

theorem ReduceState.built_init (heap : Heap) : (ReduceState.init heap).Built [] 0 :=
  ⟨rfl, rfl, rfl, rfl, rfl, by simp⟩

/-- How many of the lists are not empty. -/
def nonempties {α : Type*} (lists : List (List α)) : ℕ :=
  lists.countP fun cells => !cells.isEmpty

@[simp]
theorem nonempties_nil {α : Type*} : nonempties ([] : List (List α)) = 0 := rfl

theorem nonempties_cons {α : Type*} (cells : List α) (lists : List (List α)) :
    nonempties (cells :: lists) = nonempties lists + if cells = [] then 0 else 1 := by
  cases cells <;> simp [nonempties]

theorem reduceStep_of_empty {s : ReduceState} {chunk : FChunk} (hempty : chunk.empty = true) :
    reduceStep chunk s = some s := by
  rw [reduceStep, if_pos hempty]

/-- The first list is adopted; the result's first node stays as it is. -/
theorem reduceStep_of_none {s : ReduceState} {chunk : FChunk} (hempty : chunk.empty = false)
    (hcurrent : s.current = none) :
    reduceStep chunk s = some { s with
      current := chunk.first
      last := if s.head then chunk.last else s.last
      head := false
      empty := false } := by
  rw [reduceStep, if_neg (by simp [hempty]), hcurrent]

/-- A later list is spliced in front and published. -/
theorem reduceStep_of_some {s : ReduceState} {chunk : FChunk} {node head : Ptr}
    (hempty : chunk.empty = false) (hcurrent : s.current = some head)
    (hlast : chunk.last = some node) :
    reduceStep chunk s = some { s with
      heap := s.heap.setNext node s.current
      first := chunk.first
      current := chunk.first
      empty := false } := by
  rw [reduceStep, if_neg (by simp [hempty]), hcurrent, hlast]
  rfl

/-- One iteration puts the list of the chunk in front and writes to nobody else. -/
theorem reduceStep_spec {s : ReduceState} {chunk : FChunk} {acc cells : List (Ptr × FBytesNode)}
    {lists : ℕ} (hbuilt : s.Built acc lists) (hchunk : chunk.HoldsCells s.heap cells)
    (hdisjoint : ∀ p ∈ cells.map Prod.fst, p ∉ acc.map Prod.fst) :
    ∃ s', reduceStep chunk s = some s' ∧
      s'.Built (cells ++ acc) (lists + if cells = [] then 0 else 1) ∧
      ∀ p, p ∉ cells.map Prod.fst → s'.heap[p]? = s.heap[p]? := by
  rcases List.eq_nil_or_concat cells with rfl | ⟨front, ⟨p, node⟩, rfl⟩
  · exact ⟨s, reduceStep_of_empty hchunk.empty_eq, by simpa using hbuilt, fun _ _ => rfl⟩
  · rw [List.concat_eq_append] at *
    have hempty : chunk.empty = false := by
      rw [hchunk.empty_eq]
      simp
    have hlast : chunk.last = some p := by
      rw [hchunk.last_eq]
      simp
    rw [if_neg (show front ++ [(p, node)] ≠ [] by simp)]
    cases hcurrent : s.current with
    | none =>
        have hacc : acc = [] := by
          have hchain := hbuilt.chain
          rw [hcurrent] at hchain
          cases acc with
          | nil => rfl
          | cons cell acc =>
              obtain ⟨p, node⟩ := cell
              cases hchain.1
        subst hacc
        obtain rfl : lists = 0 := hbuilt.lists_eq.mp rfl
        have hhead : s.head = true := hbuilt.head_eq
        have hfirst : s.first = none := hbuilt.first_eq
        refine ⟨_, reduceStep_of_none hempty hcurrent, ?_, fun _ _ => rfl⟩
        exact {
          chain := by simpa using hchunk.chain
          first_eq := by simpa using hfirst
          last_eq := by simp [hhead, hlast]
          head_eq := by simp
          empty_eq := by simp
          lists_eq := by simp }
    | some head =>
        have hacc : acc ≠ [] := by
          rintro rfl
          have hchain := hbuilt.chain
          rw [hcurrent] at hchain
          simp at hchain
        have hlists : lists ≠ 0 := fun hzero => hacc (hbuilt.lists_eq.mpr hzero)
        refine ⟨_, reduceStep_of_some hempty hcurrent hlast, ?_, ?_⟩
        · exact {
            chain := hchunk.chain.splice hbuilt.chain (hdisjoint p (by simp))
            first_eq := by rw [if_pos (by omega)]
            last_eq := by rw [hbuilt.last_eq, List.getLast?_append_of_ne_nil _ hacc]
            head_eq := by
              rw [hbuilt.head_eq]
              cases acc with
              | nil => exact absurd rfl hacc
              | cons _ _ => simp
            empty_eq := by simp
            lists_eq := by simp }
        · intro q hq
          have hne : p ≠ q := by
            rintro rfl
            simp at hq
          exact ListHeap.getElem?_setNext_of_ne _ hne

/-- The loop joins the lists of all chunks, the last one in front. -/
theorem reduceLoop_spec {chunks : List FChunk} {lists : List (List (Ptr × FBytesNode))}
    {s : ReduceState} {acc : List (Ptr × FBytesNode)} {met : ℕ} (hbuilt : s.Built acc met)
    (hchunks : List.Forall₂ (fun chunk cells => chunk.HoldsCells s.heap cells) chunks lists)
    (hdisjoint : lists.Pairwise fun xs ys => ∀ p ∈ ys.map Prod.fst, p ∉ xs.map Prod.fst)
    (hacc : ∀ xs ∈ lists, ∀ p ∈ xs.map Prod.fst, p ∉ acc.map Prod.fst) :
    ∃ s', reduceLoop chunks s = some s' ∧
      s'.Built (lists.reverse.flatten ++ acc) (met + nonempties lists) ∧
      ∀ p, (∀ xs ∈ lists, p ∉ xs.map Prod.fst) → s'.heap[p]? = s.heap[p]? := by
  induction lists generalizing chunks s acc met with
  | nil =>
      obtain rfl := List.forall₂_nil_right_iff.mp hchunks
      exact ⟨s, rfl, by simpa using hbuilt, fun _ _ => rfl⟩
  | cons cells lists ih =>
      obtain ⟨chunk, chunks, hchunk, hrest, rfl⟩ := List.forall₂_cons_right_iff.mp hchunks
      obtain ⟨hcells, hlater⟩ := List.pairwise_cons.mp hdisjoint
      obtain ⟨s₁, hstep, hbuilt₁, hframe₁⟩ :=
        reduceStep_spec hbuilt hchunk (hacc cells List.mem_cons_self)
      have hrest₁ : List.Forall₂ (fun chunk cells => chunk.HoldsCells s₁.heap cells)
          chunks lists := by
        refine List.forall₂_iff_zip.mpr ⟨hrest.length_eq, fun {_ ys} hmem => ?_⟩
        refine (List.forall₂_zip hrest hmem).congr fun p hp => hframe₁ p ?_
        exact hcells ys (List.of_mem_zip hmem).2 p hp
      obtain ⟨s', hloop, hbuilt', hframe'⟩ := ih hbuilt₁ hrest₁ hlater (by
        intro xs hxs p hp hmem
        rw [List.map_append, List.mem_append] at hmem
        rcases hmem with hmem | hmem
        · exact hcells xs hxs p hp hmem
        · exact hacc xs (List.mem_cons_of_mem _ hxs) p hp hmem)
      refine ⟨s', by rw [reduceLoop, hstep, Option.bind_some, hloop], ?_, ?_⟩
      · rw [nonempties_cons, List.reverse_cons, List.flatten_append, List.flatten_singleton,
          List.append_assoc, Nat.add_comm (nonempties lists), ← Nat.add_assoc]
        exact hbuilt'
      · intro p hp
        rw [hframe' p fun xs hxs => hp xs (List.mem_cons_of_mem _ hxs),
          hframe₁ p (hp cells List.mem_cons_self)]

theorem fChunkArrayReverseReduce_of_length_ne_one (heap : Heap) (idx : UInt64)
    {chunks : List FChunk} (hone : chunks.length ≠ 1) :
    fChunkArrayReverseReduce heap idx chunks =
      (reduceLoop chunks (.init heap)).map
        fun s => (s.heap, ⟨idx, s.first, s.last, s.empty, 0⟩) := by
  unfold fChunkArrayReverseReduce
  split
  · simp at hone
  · rfl

/-- Reduction is reverse concatenation, except that the first node of a single nonempty
list among several chunks is not published. Nothing outside of the joined lists is
written. -/
theorem fChunkArrayReverseReduce_spec {heap : Heap} {chunks : List FChunk}
    {lists : List (List (Ptr × FBytesNode))} (idx : UInt64)
    (hchunks : List.Forall₂ (fun chunk cells => chunk.HoldsCells heap cells) chunks lists)
    (hdisjoint : lists.Pairwise fun xs ys => ∀ p ∈ ys.map Prod.fst, p ∉ xs.map Prod.fst) :
    ∃ heap' result, fChunkArrayReverseReduce heap idx chunks = some (heap', result) ∧
      result.current = idx ∧ result.EndsCells heap' lists.reverse.flatten ∧
      (result.HoldsCells heap' lists.reverse.flatten ↔
        chunks.length = 1 ∨ nonempties lists ≠ 1) ∧
      ∀ p, (∀ xs ∈ lists, p ∉ xs.map Prod.fst) → heap'[p]? = heap[p]? := by
  by_cases hone : chunks.length = 1
  · obtain ⟨chunk, rfl⟩ := List.length_eq_one_iff.mp hone
    obtain ⟨cells, rest, hchunk, hrest, rfl⟩ := List.forall₂_cons_left_iff.mp hchunks
    obtain rfl := List.forall₂_nil_left_iff.mp hrest
    rw [List.reverse_singleton, List.flatten_singleton]
    have hholds : FChunk.HoldsCells { chunk with current := idx } heap cells :=
      ⟨hchunk.chain, hchunk.last_eq, hchunk.empty_eq⟩
    exact ⟨heap, _, rfl, rfl, hholds.endsCells, iff_of_true hholds (Or.inl hone), fun _ _ => rfl⟩
  · obtain ⟨s', hloop, hbuilt, hframe⟩ := reduceLoop_spec (ReduceState.built_init heap) hchunks
      hdisjoint (by simp)
    rw [List.append_nil, Nat.zero_add] at hbuilt
    have hnil := hbuilt.lists_eq
    have hfirst : s'.first = s'.current ∧ nonempties lists ≠ 1 ∨
        s'.first = none ∧ nonempties lists = 1 := by
      rw [hbuilt.first_eq]
      split
      · exact Or.inl ⟨rfl, by omega⟩
      · next hfew =>
          rcases Nat.eq_zero_or_pos (nonempties lists) with hzero | hpos
          · have hchain := hbuilt.chain
            rw [hnil.mpr hzero] at hchain
            exact Or.inl ⟨hchain.symm, by omega⟩
          · exact Or.inr ⟨rfl, by omega⟩
    refine ⟨s'.heap, ⟨idx, s'.first, s'.last, s'.empty, 0⟩, ?_, rfl, ?_, ?_, hframe⟩
    · rw [fChunkArrayReverseReduce_of_length_ne_one _ _ hone, hloop]
      rfl
    · exact ⟨⟨_, hbuilt.chain, hfirst.imp And.left And.left⟩, hbuilt.last_eq, hbuilt.empty_eq⟩
    · rw [or_iff_right hone]
      constructor
      · intro hholds
        rcases hfirst with ⟨-, hlone⟩ | ⟨hnone, hlone⟩
        · exact hlone
        · -- a list that starts nowhere has no cells
          have hchain : s'.heap.Chain s'.first lists.reverse.flatten none := hholds.chain
          rw [hnone] at hchain
          have hempty : s'.heap.Chain none [] none := rfl
          have hzero := hnil.mp (hchain.cells_unique hempty)
          omega
      · intro hlone
        refine ⟨?_, hbuilt.last_eq, hbuilt.empty_eq⟩
        rcases hfirst with ⟨hcurrent, -⟩ | ⟨-, hsingle⟩
        · simp only [hcurrent]
          exact hbuilt.chain
        · exact absurd hsingle hlone

section

variable {heap : Heap} {chunks : List FChunk} {lists : List (List (Ptr × FBytesNode))}

theorem flatten_eq_nil_iff {heap : Heap}
    (hchunks : List.Forall₂ (fun chunk cells => chunk.HoldsCells heap cells) chunks lists) :
    lists.reverse.flatten = [] ↔ ∀ chunk ∈ chunks, chunk.empty = true := by
  induction hchunks with
  | nil => simp
  | @cons chunk cells _ _ hchunk _ ih =>
      rw [List.reverse_cons, List.flatten_append, List.append_eq_nil_iff, ih, List.forall_mem_cons,
        hchunk.empty_eq, List.flatten_singleton, List.isEmpty_iff, and_comm]

end

/-- A heap with a list of one node and a list of two. -/
def threeNodes : Heap :=
  [⟨⟨⟨true, 2⟩, ⟨0, 0⟩⟩, none⟩, ⟨⟨⟨true, 6⟩, ⟨0, 2⟩⟩, some 2⟩, ⟨⟨⟨true, 4⟩, ⟨0, 2⟩⟩, none⟩]

/-- The chunk of the second list. -/
def twoNodesChunk : FChunk := ⟨2, some 1, some 2, false, 2⟩

/-- The cells behind node lists that chunks hold in some way. -/
theorem exists_lists {R : FChunk → List (Ptr × FBytesNode) → Prop} {chunks : List FChunk}
    {nodes : List (List FBytesNode)}
    (hchunks : List.Forall₂ (fun chunk nodes => ∃ cells, R chunk cells ∧
      cells.map Prod.snd = nodes) chunks nodes) :
    ∃ lists, List.Forall₂ R chunks lists ∧ lists.map (List.map Prod.snd) = nodes := by
  induction hchunks with
  | nil => exact ⟨[], List.Forall₂.nil, rfl⟩
  | cons hchunk _ ih =>
      obtain ⟨cells, hcells, rfl⟩ := hchunk
      obtain ⟨lists, hlists, rfl⟩ := ih
      exact ⟨cells :: lists, List.Forall₂.cons hcells hlists, rfl⟩

theorem nonempties_map {α β : Type*} (f : α → β) (lists : List (List α)) :
    nonempties (lists.map (List.map f)) = nonempties lists := by
  induction lists with
  | nil => rfl
  | cons cells lists ih => cases cells <;> simp [nonempties_cons, ih]

section

variable {heap : Heap} {chunks : List FChunk} {lists : List (List (Ptr × FBytesNode))}

theorem getElem?_of_mem_lists
    (hchunks : List.Forall₂ (fun chunk cells => chunk.EndsCells heap cells) chunks lists)
    {xs : List (Ptr × FBytesNode)} (hxs : xs ∈ lists) {p : Ptr} {node : FBytesNode}
    (hmem : (p, node) ∈ xs) : ∃ next, heap[p]? = some ⟨node, next⟩ := by
  obtain ⟨i, hi, rfl⟩ := List.getElem_of_mem hxs
  have hchunk := (List.forall₂_iff_get.mp hchunks).2 i (hchunks.length_eq ▸ hi) hi
  exact hchunk.getElem?_of_mem hmem

/-- Lists with different nodes are on different cells. -/
theorem disjoint_of_apart
    (hchunks : List.Forall₂ (fun chunk cells => chunk.EndsCells heap cells) chunks lists)
    (hapart : (lists.map (List.map Prod.snd)).Pairwise fun xs ys => ∀ x ∈ xs, ∀ y ∈ ys, x ≠ y) :
    lists.Pairwise fun xs ys => ∀ p ∈ ys.map Prod.fst, p ∉ xs.map Prod.fst := by
  rw [List.pairwise_map] at hapart
  refine List.Pairwise.imp_of_mem ?_ hapart
  intro xs ys hxs hys hne p hp hp'
  obtain ⟨⟨_, y⟩, hy, rfl⟩ := List.mem_map.mp hp
  obtain ⟨⟨q, x⟩, hx, heq⟩ := List.mem_map.mp hp'
  obtain rfl : q = _ := heq
  obtain ⟨_, hcellx⟩ := getElem?_of_mem_lists hchunks hxs hx
  obtain ⟨_, hcelly⟩ := getElem?_of_mem_lists hchunks hys hy
  have hsame := congrArg Cell.value (Option.some.inj (hcellx.symm.trans hcelly))
  exact hne x (List.mem_map_of_mem hx) y (List.mem_map_of_mem hy) hsame

end

/-- Reduction of chunks that are told apart by the owners of their nodes. It writes
to no node of anybody else. -/
theorem reduce_holds {heap : Heap} {chunks : List FChunk} {nodes : List (List FBytesNode)}
    (idx : UInt64)
    (hchunks : List.Forall₂ (fun chunk nodes => chunk.Holds heap nodes) chunks nodes)
    (hapart : nodes.Pairwise fun xs ys => ∀ x ∈ xs, ∀ y ∈ ys, x ≠ y) :
    ∃ heap' result, fChunkArrayReverseReduce heap idx chunks = some (heap', result) ∧
      result.current = idx ∧ result.Ends heap' nodes.reverse.flatten ∧
      (chunks.length = 1 ∨ nonempties nodes ≠ 1 → result.Holds heap' nodes.reverse.flatten) ∧
      ∀ own : FBytesNode → Prop, (∀ xs ∈ nodes, ∀ x ∈ xs, ¬ own x) →
        ListHeap.AgreeOn own heap heap' := by
  obtain ⟨lists, hlists, rfl⟩ := exists_lists hchunks
  have hends := hlists.imp fun _ _ hcells => hcells.endsCells
  obtain ⟨heap', result, hreduce, hcurrent, hresult, hholds, hframe⟩ :=
    fChunkArrayReverseReduce_spec idx hlists (disjoint_of_apart hends hapart)
  have hnodes : lists.reverse.flatten.map Prod.snd =
      (lists.map (List.map Prod.snd)).reverse.flatten := by
    rw [List.map_flatten, List.map_reverse]
  refine ⟨heap', result, hreduce, hcurrent, ⟨_, hresult, hnodes⟩, fun hlone => ?_,
    fun own hother p cell hp hown => ?_⟩
  · rw [nonempties_map] at hlone
    exact ⟨_, hholds.mpr hlone, hnodes⟩
  · rw [hframe p, hp]
    intro xs hxs hmem
    obtain ⟨⟨_, x⟩, hx, rfl⟩ := List.mem_map.mp hmem
    obtain ⟨_, hcellx⟩ := getElem?_of_mem_lists hends hxs hx
    have hsame : cell.value = x := congrArg Cell.value (Option.some.inj (hp.symm.trans hcellx))
    rw [hsame] at hown
    exact hother _ (List.mem_map_of_mem hxs) x (List.mem_map_of_mem hx) hown

/-! ## Reduction of lists whose first node was lost -/

/-- The loop has built some list that ends, whatever was lost. -/
structure ReduceState.Ended (s : ReduceState) (cells : List (Ptr × FBytesNode)) : Prop where
  chain : s.heap.Chain s.current cells none
  first_eq : s.first = none ∨ s.first = s.current

theorem reduceStep_ended {s : ReduceState} {chunk : FChunk} {acc cells : List (Ptr × FBytesNode)}
    (hended : s.Ended acc) (hchunk : chunk.EndsCells s.heap cells)
    (hdisjoint : ∀ p ∈ cells.map Prod.fst, p ∉ acc.map Prod.fst) :
    ∃ s' acc', reduceStep chunk s = some s' ∧ s'.Ended acc' ∧ acc' ⊆ cells ++ acc ∧
      ∀ p, p ∉ cells.map Prod.fst → s'.heap[p]? = s.heap[p]? := by
  rcases List.eq_nil_or_concat cells with rfl | ⟨front, ⟨p, node⟩, rfl⟩
  · exact ⟨s, acc, reduceStep_of_empty hchunk.empty_eq, hended, by simp, fun _ _ => rfl⟩
  · rw [List.concat_eq_append] at *
    have hempty : chunk.empty = false := by
      rw [hchunk.empty_eq]
      simp
    have hlast : chunk.last = some p := by
      rw [hchunk.last_eq]
      simp
    obtain ⟨start, hchain, hfirst⟩ := hchunk.chain
    cases hcurrent : s.current with
    | none =>
        have hnone : s.first = none := by
          rcases hended.first_eq with h | h
          · exact h
          · rw [h, hcurrent]
        refine ⟨_, if chunk.first = none then [] else front ++ [(p, node)],
          reduceStep_of_none hempty hcurrent, ⟨?_, Or.inl hnone⟩, ?_, fun _ _ => rfl⟩
        · rcases hfirst with rfl | hfirst
          · cases hstart : chunk.first with
            | none => exact rfl
            | some q =>
                rw [hstart] at hchain
                exact hchain
          · simp [hfirst]
        · split
          · simp
          · exact List.subset_append_left _ _
    | some head =>
        have hspliced := hchain.splice hended.chain (hdisjoint p (by simp))
        refine ⟨_, if chunk.first = none then [] else front ++ [(p, node)] ++ acc,
          reduceStep_of_some hempty hcurrent hlast, ⟨?_, Or.inr rfl⟩, ?_, fun q hq => ?_⟩
        · rcases hfirst with rfl | hfirst
          · cases hstart : chunk.first with
            | none => exact rfl
            | some q =>
                rw [hstart] at hspliced
                exact hspliced
          · simp [hfirst]
        · split
          · simp
          · exact List.Subset.refl _
        · have hne : p ≠ q := by
            rintro rfl
            simp at hq
          exact ListHeap.getElem?_setNext_of_ne _ hne

theorem reduceLoop_ended {chunks : List FChunk} {lists : List (List (Ptr × FBytesNode))}
    {s : ReduceState} {acc : List (Ptr × FBytesNode)} (hended : s.Ended acc)
    (hchunks : List.Forall₂ (fun chunk cells => chunk.EndsCells s.heap cells) chunks lists)
    (hdisjoint : lists.Pairwise fun xs ys => ∀ p ∈ ys.map Prod.fst, p ∉ xs.map Prod.fst)
    (hacc : ∀ xs ∈ lists, ∀ p ∈ xs.map Prod.fst, p ∉ acc.map Prod.fst) :
    ∃ s' acc', reduceLoop chunks s = some s' ∧ s'.Ended acc' := by
  induction lists generalizing chunks s acc with
  | nil =>
      obtain rfl := List.forall₂_nil_right_iff.mp hchunks
      exact ⟨s, acc, rfl, hended⟩
  | cons cells lists ih =>
      obtain ⟨chunk, chunks, hchunk, hrest, rfl⟩ := List.forall₂_cons_right_iff.mp hchunks
      obtain ⟨hcells, hlater⟩ := List.pairwise_cons.mp hdisjoint
      obtain ⟨s₁, acc₁, hstep, hended₁, hsub, hframe⟩ :=
        reduceStep_ended hended hchunk (hacc cells List.mem_cons_self)
      have hrest₁ : List.Forall₂ (fun chunk cells => chunk.EndsCells s₁.heap cells)
          chunks lists := by
        refine List.forall₂_iff_zip.mpr ⟨hrest.length_eq, fun {_ ys} hmem => ?_⟩
        refine (List.forall₂_zip hrest hmem).congr fun p hp => hframe p ?_
        exact hcells ys (List.of_mem_zip hmem).2 p hp
      obtain ⟨s', acc', hloop, hended'⟩ := ih hended₁ hrest₁ hlater (by
        intro xs hxs p hp hmem
        have hmem := List.map_subset Prod.fst hsub hmem
        rw [List.map_append, List.mem_append] at hmem
        rcases hmem with hmem | hmem
        · exact hcells xs hxs p hp hmem
        · exact hacc xs (List.mem_cons_of_mem _ hxs) p hp hmem)
      exact ⟨s', acc', by rw [reduceLoop, hstep, Option.bind_some, hloop], hended'⟩

/-- Whatever was lost before, a reduction goes through, and its result can be
followed to its end. -/
theorem reduce_ends {heap : Heap} {chunks : List FChunk} {nodes : List (List FBytesNode)}
    (idx : UInt64) (hchunks : List.Forall₂ (fun chunk nodes => chunk.Ends heap nodes) chunks nodes)
    (hapart : nodes.Pairwise fun xs ys => ∀ x ∈ xs, ∀ y ∈ ys, x ≠ y) :
    ∃ heap' result, fChunkArrayReverseReduce heap idx chunks = some (heap', result) ∧
      (heap'.toList result.first).isSome := by
  obtain ⟨lists, hlists, rfl⟩ := exists_lists hchunks
  by_cases hone : chunks.length = 1
  · obtain ⟨chunk, rfl⟩ := List.length_eq_one_iff.mp hone
    obtain ⟨cells, rest, hchunk, -, -⟩ := List.forall₂_cons_left_iff.mp hlists
    obtain ⟨start, hchain, hfirst⟩ := hchunk.chain
    refine ⟨heap, { chunk with current := idx }, rfl, ?_⟩
    rcases hfirst with rfl | hfirst
    · simp only [hchain.toList_eq, Option.isSome_some]
    · have hnil : heap.Chain none [] none := rfl
      simp only [hfirst, hnil.toList_eq, Option.isSome_some]
  · have hinit : (ReduceState.init heap).Ended [] := ⟨rfl, Or.inl rfl⟩
    obtain ⟨s', acc', hloop, hended⟩ := reduceLoop_ended hinit hlists
      (disjoint_of_apart hlists hapart) (by simp)
    refine ⟨s'.heap, ⟨idx, s'.first, s'.last, s'.empty, 0⟩, ?_, ?_⟩
    · rw [fChunkArrayReverseReduce_of_length_ne_one _ _ hone, hloop]
      rfl
    · rcases hended.first_eq with hnone | hsome
      · have hnil : s'.heap.Chain none [] none := rfl
        simp only [hnone, hnil.toList_eq, Option.isSome_some]
      · simp only [hsome, hended.chain.toList_eq, Option.isSome_some]

end Flashlight
