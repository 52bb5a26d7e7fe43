/-
# Scanning one chunk

`f_index_text_bytes` runs as a coroutine of an indexing thread. It reads the bytes
of one planned chunk with a single `pread`, collects the offsets just after the
newlines, latest first, and sends the resulting chunk to its thread.

When something fails the coroutine means to send a null chunk. It passes a null
pointer as the message to `chsend`, which then has nothing to deliver: the thread
never hears of the chunk.
-/

import Flashlight.Chunk
import Flashlight.Indexer.Plan

namespace Flashlight.TextIndexer

open Flashlight.Math Flashlight.Indexer

/-- What the environment decides while a coroutine runs. -/
structure ScanEnv where
  /-- The read buffer can be allocated. -/
  bufferAlloc : Bool
  /-- The read. -/
  read : Delivery
  /-- The newline whose node cannot be allocated, if there is one. -/
  failAt : Option ℕ
  /-- The chunk can be allocated. -/
  chunkAlloc : Bool
  /-- The channel takes the message. -/
  send : Bool
  deriving DecidableEq, Repr

/-- How a coroutine ends. -/
inductive ScanOutcome
  /-- The thread can receive the chunk; `scanned` bytes went through the loop. -/
  | sent (chunk : FChunk) (scanned : ℕ)
  /-- No message was delivered. -/
  | silent
  /-- The position counter overflows. -/
  | undefined
  deriving DecidableEq, Repr

/-- The variables of the loop of `f_index_text_bytes`. -/
structure ScanState where
  /-- The heap. -/
  heap : Heap
  /-- The offset just after the current byte. -/
  totalBytesOffset : UInt64
  /-- The number of newlines met. -/
  lineCount : UInt32
  /-- No newline was met yet. -/
  head : Bool
  /-- The node of the first newline. -/
  lastChunkNode : Option Ptr
  /-- The node of the latest newline. -/
  startNode : Option Ptr
  deriving Repr

/-- A newline puts a node in front of the list. -/
def scanNewline (owner : Owner) (s : ScanState) : ScanState :=
  let (heap, node) := fBytesNodeNew s.heap ⟨true, s.totalBytesOffset⟩ owner
  let (heap, startNode) := fBytesNodePrepend heap s.startNode node
  { s with
    heap := heap
    lineCount := s.lineCount + 1
    head := false
    lastChunkNode := if s.head then some node else s.lastChunkNode
    startNode := startNode }

/-- The loop over the bytes that were read; the Boolean tells whether every node
could be allocated. -/
def scanLoop (owner : Owner) : Option ℕ → List UInt8 → ScanState → ScanState × Bool
  | _, [], s => (s, true)
  | failAt, byte :: bytes, s =>
      let s := { s with totalBytesOffset := s.totalBytesOffset + 1 }
      if isNewline byte then
        if failAt = some 0 then (s, false)
        else scanLoop owner (failAt.map (· - 1)) bytes (scanNewline owner s)
      else scanLoop owner failAt bytes s

/-- The variables before the first byte. -/
def ScanState.init (heap : Heap) (fromOffset : UInt64) : ScanState where
  heap := heap
  totalBytesOffset := fromOffset
  lineCount := 0
  head := true
  lastChunkNode := none
  startNode := none

/-- `f_index_text_bytes`: the heap afterwards and the outcome. The loop counts its
position in an `int`, which overflows behind byte `2 ^ 31 - 1`. -/
def fIndexTextBytes (bytes : List UInt8) (env : ScanEnv) (heap : Heap) (ic : FIndexerChunk)
    (thread : ℕ) : Heap × ScanOutcome :=
  if env.bufferAlloc = false then (heap, .silent)
  else
    match pread bytes ic.count ic.fromOffset.toInt64 env.read with
    | none => (heap, .silent)
    | some buffer =>
        match scanLoop ⟨thread, ic.index.toNat⟩ env.failAt (buffer.take (2 ^ 31))
            (.init heap ic.fromOffset) with
        | (s, false) => (s.heap, .silent)
        | (s, true) =>
            if 2 ^ 31 ≤ buffer.length then (s.heap, .undefined)
            else if env.chunkAlloc ∧ env.send then
              (s.heap, .sent { fChunkNew ic.index s.startNode s.lastChunkNode with
                lineCount := s.lineCount } buffer.length)
            else (s.heap, .silent)

/-! ## What a scan collects -/

/-- The nodes for the newlines of `buffer`, read from `base` on: latest first. -/
def scanNodes (owner : Owner) (base : ℕ) (buffer : List UInt8) : List FBytesNode :=
  ((sepEnds isNewline base buffer).map fun e => ⟨⟨true, .ofNat e⟩, owner⟩).reverse

theorem length_scanNodes (owner : Owner) (base : ℕ) (buffer : List UInt8) :
    (scanNodes owner base buffer).length = buffer.countP isNewline := by
  simp [scanNodes]

theorem owner_of_mem_scanNodes {owner : Owner} {base : ℕ} {buffer : List UInt8}
    {node : FBytesNode} (hmem : node ∈ scanNodes owner base buffer) : node.owner = owner := by
  rw [scanNodes, List.mem_reverse, List.mem_map] at hmem
  obtain ⟨e, -, rfl⟩ := hmem
  rfl

theorem scanNodes_eq_nil_iff {owner : Owner} {base : ℕ} {buffer : List UInt8} :
    scanNodes owner base buffer = [] ↔ buffer.countP isNewline = 0 := by
  rw [← List.length_eq_zero_iff, length_scanNodes]

/-- The offsets of the nodes, as long as they fit. -/
theorem map_offset_scanNodes {owner : Owner} {base : ℕ} {buffer : List UInt8}
    (hfit : base + buffer.length < 2 ^ 64) :
    (scanNodes owner base buffer).map (fun node => node.offset.toNat) =
      (sepEnds isNewline base buffer).reverse := by
  rw [scanNodes, List.map_reverse, List.map_map]
  congr 1
  conv_rhs => rw [← List.map_id (sepEnds isNewline base buffer)]
  refine List.map_congr_left fun e he => ?_
  have hle := (bounds_of_mem_sepEnds he).2
  exact UInt64.toNat_ofNat_of_lt' (by simp only [UInt64.size]; omega)

/-- The loop has collected `nodes` on top of the heap `heap`. -/
structure ScanState.Collected (s : ScanState) (heap : Heap) (base : ℕ)
    (nodes : List FBytesNode) : Prop where
  offset_eq : s.totalBytesOffset = .ofNat base
  holds : ∃ cells, s.heap.Chain s.startNode cells none ∧
    s.lastChunkNode = cells.getLast?.map Prod.fst ∧ s.head = cells.isEmpty ∧
    cells.map Prod.snd = nodes
  lineCount_eq : s.lineCount = .ofNat nodes.length
  agree : ListHeap.AgreeOn (fun _ => True) heap s.heap

theorem ScanState.collected_init (heap : Heap) (fromOffset : UInt64) :
    (ScanState.init heap fromOffset).Collected heap fromOffset.toNat [] where
  offset_eq := by simp [ScanState.init]
  holds := ⟨[], rfl, rfl, rfl, rfl⟩
  lineCount_eq := rfl
  agree := .refl _ _

theorem scanNewline_of_none {s : ScanState} (owner : Owner) (hstart : s.startNode = none) :
    scanNewline owner s = { s with
      heap := (s.heap.alloc ⟨⟨true, s.totalBytesOffset⟩, owner⟩).1
      lineCount := s.lineCount + 1
      head := false
      lastChunkNode := if s.head then some s.heap.length else s.lastChunkNode
      startNode := some s.heap.length } := by
  simp only [scanNewline, hstart]
  rfl

theorem scanNewline_of_some {s : ScanState} {start : Ptr} (owner : Owner)
    (hstart : s.startNode = some start) :
    scanNewline owner s = { s with
      heap := (s.heap.alloc ⟨⟨true, s.totalBytesOffset⟩, owner⟩).1.setNext s.heap.length
        (some start)
      lineCount := s.lineCount + 1
      head := false
      lastChunkNode := if s.head then some s.heap.length else s.lastChunkNode
      startNode := some s.heap.length } := by
  simp only [scanNewline, hstart]
  rfl

/-- A newline adds its node, on a fresh cell. -/
theorem ScanState.Collected.newline {s : ScanState} {heap : Heap} {base : ℕ}
    {nodes : List FBytesNode} (owner : Owner) (h : s.Collected heap base nodes) :
    (scanNewline owner s).Collected heap base (⟨⟨true, .ofNat base⟩, owner⟩ :: nodes) := by
  obtain ⟨cells, hchain, hlast, hhead, rfl⟩ := h.holds
  have hoffset := h.offset_eq
  have hline : s.lineCount + 1 = .ofNat (cells.map Prod.snd).length + 1 := by
    rw [h.lineCount_eq]
  have hagree := h.agree.trans (ListHeap.agreeOn_alloc _ s.heap
    ⟨⟨true, s.totalBytesOffset⟩, owner⟩)
  cases hstart : s.startNode with
  | none =>
      obtain rfl : cells = [] := by
        cases cells with
        | nil => rfl
        | cons cell cells =>
            obtain ⟨p, node⟩ := cell
            rw [hstart] at hchain
            cases hchain.1
      rw [scanNewline_of_none owner hstart]
      refine ⟨hoffset, ⟨[(s.heap.length, ⟨⟨true, .ofNat base⟩, owner⟩)], ?_⟩, hline, hagree⟩
      rw [← hoffset]
      exact ⟨⟨rfl, none, ListHeap.getElem?_alloc_self s.heap _, rfl⟩, by simp [hhead], rfl, rfl⟩
  | some start =>
      have hcells : cells ≠ [] := by
        rintro rfl
        rw [hstart] at hchain
        cases hchain
      have hfalse : s.head = false := by
        rw [hhead]
        cases cells with
        | nil => exact absurd rfl hcells
        | cons _ _ => rfl
      rw [scanNewline_of_some owner hstart]
      refine ⟨hoffset, ⟨(s.heap.length, ⟨⟨true, .ofNat base⟩, owner⟩) :: cells, ?_⟩, ?_, ?_⟩
      · rw [hstart] at hchain
        refine ⟨?_, ?_, rfl, rfl⟩
        · rw [← hoffset]
          exact hchain.prepend _
        · simp only [hfalse, Bool.false_eq_true, if_false, hlast]
          rw [List.getLast?_cons_of_ne_nil hcells]
      · simpa using hline
      · intro p cell hcell hown
        have hold := hagree p cell hcell hown
        have hne : s.heap.length ≠ p := by
          have hlt := (List.getElem?_eq_some_iff.mp (h.agree p cell hcell hown)).1
          omega
        simp only
        rw [ListHeap.getElem?_setNext_of_ne _ hne, hold]

/-- **The loop collects the newlines** of the bytes it goes through, unless a node
cannot be allocated; it never touches nodes that were there before. -/
theorem scanLoop_spec {s s' : ScanState} {heap : Heap} {base : ℕ} {nodes : List FBytesNode}
    {owner : Owner} {failAt : Option ℕ} {bytes : List UInt8} {ok : Bool}
    (h : s.Collected heap base nodes) (hloop : scanLoop owner failAt bytes s = (s', ok)) :
    ListHeap.AgreeOn (fun _ => True) heap s'.heap ∧
      (ok = true → s'.Collected heap (base + bytes.length) (scanNodes owner base bytes ++ nodes)) ∧
      (failAt = none → ok = true) := by
  induction bytes generalizing s base nodes failAt with
  | nil =>
      obtain ⟨rfl, rfl⟩ := Prod.mk.inj hloop
      exact ⟨h.agree, fun _ => h, fun _ => rfl⟩
  | cons byte bytes ih =>
      have hnext : ({ s with totalBytesOffset := s.totalBytesOffset + 1 } : ScanState).Collected
          heap (base + 1) nodes :=
        ⟨by simp [h.offset_eq], h.holds, h.lineCount_eq, h.agree⟩
      have hlength : base + (byte :: bytes).length = base + 1 + bytes.length := by
        rw [List.length_cons]
        omega
      rw [hlength]
      rw [scanLoop] at hloop
      by_cases hbyte : isNewline byte
      · simp only [hbyte, if_true] at hloop
        by_cases hfail : failAt = some 0
        · rw [if_pos hfail] at hloop
          obtain ⟨rfl, rfl⟩ := Prod.mk.inj hloop
          refine ⟨h.agree, fun hok => ?_, fun hnone => ?_⟩
          · cases hok
          · rw [hnone] at hfail
            cases hfail
        · rw [if_neg hfail] at hloop
          obtain ⟨hagree, hcollected, hok⟩ := ih (hnext.newline owner) hloop
          refine ⟨hagree, fun h => ?_, fun h => hok (by rw [h]; rfl)⟩
          simpa [scanNodes, sepEnds, hbyte] using hcollected h
      · simp only [hbyte, Bool.false_eq_true, if_false] at hloop
        obtain ⟨hagree, hcollected, hok⟩ := ih hnext hloop
        refine ⟨hagree, fun h => ?_, hok⟩
        simpa [scanNodes, sepEnds, hbyte] using hcollected h

/-- The bytes of the file in the range of a chunk: what a full read returns. -/
def chunkBuffer (bytes : List UInt8) (ic : FIndexerChunk) : List UInt8 :=
  (bytes.drop ic.fromOffset.toNat).take ic.count.toNat

theorem length_chunkBuffer (bytes : List UInt8) (chunk : FIndexerChunk) :
    (chunkBuffer bytes chunk).length =
      min chunk.count.toNat (bytes.length - chunk.fromOffset.toNat) := by
  rw [chunkBuffer, List.length_take, List.length_drop]

/-- The message of a coroutine that scanned the first `n` bytes of its chunk. -/
structure IsScan (bytes : List UInt8) (thread : ℕ) (heap : Heap) (ic : FIndexerChunk) (n : ℕ)
    (chunk : FChunk) : Prop where
  current_eq : chunk.current = ic.index
  holds : chunk.Holds heap
    (scanNodes ⟨thread, ic.index.toNat⟩ ic.fromOffset.toNat ((chunkBuffer bytes ic).take n))
  lineCount_eq : chunk.lineCount = .ofNat (((chunkBuffer bytes ic).take n).countP isNewline)

theorem IsScan.agreeOn {bytes : List UInt8} {thread n : ℕ} {heap heap' : Heap}
    {ic : FIndexerChunk} {chunk : FChunk} {own : FBytesNode → Prop}
    (h : IsScan bytes thread heap ic n chunk) (hagree : ListHeap.AgreeOn own heap heap')
    (hown : ∀ node : FBytesNode, node.owner.thread = thread → own node) :
    IsScan bytes thread heap' ic n chunk where
  current_eq := h.current_eq
  holds := h.holds.agreeOn hagree fun node hmem => hown node (by rw [owner_of_mem_scanNodes hmem])
  lineCount_eq := h.lineCount_eq

/-- A read returns the beginning of what is there, and refuses offsets that a `long`
cannot hold. -/
theorem pread_chunk {bytes buffer : List UInt8} {ic : FIndexerChunk} {delivery : Delivery}
    (hread : pread bytes ic.count ic.fromOffset.toInt64 delivery = some buffer) :
    ic.fromOffset.toNat < 2 ^ 63 ∧ buffer = (chunkBuffer bytes ic).take buffer.length := by
  cases delivery with
  | none => cases hread
  | some m =>
      rw [pread] at hread
      have hpos : ¬ ic.fromOffset.toInt64 < 0 := by
        intro hneg
        simp [if_pos hneg] at hread
      have hlt : ic.fromOffset.toNat < 2 ^ 63 := by
        by_contra hge
        apply hpos
        rw [Int64.lt_iff_toInt_lt, Int64.toInt_zero]
        exact toInt_toInt64_neg (by omega)
      rw [if_neg hpos, toInt_toInt64 hlt] at hread
      refine ⟨hlt, ?_⟩
      obtain rfl := Option.some.inj hread
      rw [Int.toNat_natCast, chunkBuffer, List.length_take, List.take_eq_take_min]

/-- The chunk that is sent holds what the loop collected. -/
theorem ScanState.Collected.holds_fChunkNew {s : ScanState} {heap : Heap} {base : ℕ}
    {nodes : List FBytesNode} (h : s.Collected heap base nodes) (current : UInt64)
    (lineCount : UInt32) :
    FChunk.Holds { fChunkNew current s.startNode s.lastChunkNode with lineCount := lineCount }
      s.heap nodes := by
  obtain ⟨cells, hchain, hlast, -, hnodes⟩ := h.holds
  refine ⟨cells, ⟨hchain, hlast, ?_⟩, hnodes⟩
  cases cells with
  | nil => simp [fChunkNew, show s.startNode = none from hchain]
  | cons cell cells =>
      obtain ⟨p, node⟩ := cell
      simp [fChunkNew, hchain.1]

/-- **What a coroutine leaves behind.** Nodes that were there before stay as they are;
a message that was sent is the scan of the bytes that were read. -/
theorem fIndexTextBytes_cases {bytes : List UInt8} {env : ScanEnv} {heap heap' : Heap}
    {ic : FIndexerChunk} {thread : ℕ} {outcome : ScanOutcome}
    (hscan : fIndexTextBytes bytes env heap ic thread = (heap', outcome)) :
    ListHeap.AgreeOn (fun _ => True) heap heap' ∧
      ∀ chunk n, outcome = .sent chunk n →
        ic.fromOffset.toNat < 2 ^ 63 ∧ n ≤ (chunkBuffer bytes ic).length ∧
          pread bytes ic.count ic.fromOffset.toInt64 env.read =
            some ((chunkBuffer bytes ic).take n) ∧
          IsScan bytes thread heap' ic n chunk := by
  unfold fIndexTextBytes at hscan
  split at hscan
  · obtain ⟨rfl, rfl⟩ := Prod.mk.inj hscan
    exact ⟨.refl _ _, by simp⟩
  · split at hscan
    · obtain ⟨rfl, rfl⟩ := Prod.mk.inj hscan
      exact ⟨.refl _ _, by simp⟩
    · next buffer hread =>
        obtain ⟨hfrom, hbuffer⟩ := pread_chunk hread
        split at hscan
        · next s' hloop =>
            obtain ⟨rfl, rfl⟩ := Prod.mk.inj hscan
            exact ⟨(scanLoop_spec (ScanState.collected_init heap ic.fromOffset) hloop).1, by simp⟩
        · next s' hloop =>
            obtain ⟨hagree, hcollected, -⟩ :=
              scanLoop_spec (ScanState.collected_init heap ic.fromOffset) hloop
            split at hscan
            · obtain ⟨rfl, rfl⟩ := Prod.mk.inj hscan
              exact ⟨hagree, by simp⟩
            · next hsize =>
                rw [List.take_of_length_le (by omega), List.append_nil] at hcollected
                split at hscan
                · obtain ⟨rfl, rfl⟩ := Prod.mk.inj hscan
                  refine ⟨hagree, fun chunk n heq => ?_⟩
                  obtain ⟨rfl, rfl⟩ := ScanOutcome.sent.inj heq
                  have hle : buffer.length ≤ (chunkBuffer bytes ic).length := by
                    rw [hbuffer, List.length_take]
                    exact Nat.min_le_right _ _
                  refine ⟨hfrom, hle, by rw [hread, ← hbuffer], rfl, ?_, ?_⟩
                  · rw [← hbuffer]
                    exact (hcollected rfl).holds_fChunkNew _ _
                  · rw [← hbuffer, ← length_scanNodes ⟨thread, ic.index.toNat⟩ ic.fromOffset.toNat]
                    exact (hcollected rfl).lineCount_eq
                · obtain ⟨rfl, rfl⟩ := Prod.mk.inj hscan
                  exact ⟨hagree, by simp⟩

/-! ## Failing coroutines -/

/-- A coroutine fails: the allocation of its buffer, of the node of a newline or of its
chunk does, or the read. -/
def ScanFails (bytes : List UInt8) (env : ScanEnv) (ic : FIndexerChunk) : Prop :=
  env.bufferAlloc = false ∨
    pread bytes ic.count ic.fromOffset.toInt64 env.read = none ∨
    (∃ buffer ∈ pread bytes ic.count ic.fromOffset.toInt64 env.read,
      ∃ k ∈ env.failAt, k < (buffer.take (2 ^ 31)).countP isNewline) ∨
    env.chunkAlloc = false

instance (bytes : List UInt8) (env : ScanEnv) (ic : FIndexerChunk) :
    Decidable (ScanFails bytes env ic) :=
  inferInstanceAs (Decidable (_ ∨ _ ∨ _ ∨ _))

/-- The loop is left early exactly if it comes to the newline whose node cannot be
allocated. -/
theorem scanLoop_snd_eq_false_iff (owner : Owner) (failAt : Option ℕ) (buffer : List UInt8)
    (s : ScanState) :
    (scanLoop owner failAt buffer s).2 = false ↔ ∃ k ∈ failAt, k < buffer.countP isNewline := by
  induction buffer generalizing failAt s with
  | nil => simp [scanLoop]
  | cons byte buffer ih =>
      rw [scanLoop]
      split
      · next hnewline =>
          rw [List.countP_cons_of_pos hnewline]
          cases failAt with
          | none => simpa using ih none _
          | some k =>
              cases k with
              | zero => simp
              | succ k => simpa using ih (some k) _
      · next hother => rw [ih, List.countP_cons_of_neg (by simpa using hother)]

/-- A coroutine delivers its message unless it fails. -/
theorem silent_iff_scanFails {bytes : List UInt8} {env : ScanEnv} {heap heap' : Heap}
    {ic : FIndexerChunk} {thread : ℕ} {outcome : ScanOutcome} (hsend : env.send = true)
    (hscan : fIndexTextBytes bytes env heap ic thread = (heap', outcome))
    (hdefined : outcome ≠ .undefined) : outcome = .silent ↔ ScanFails bytes env ic := by
  unfold fIndexTextBytes at hscan
  unfold ScanFails
  cases halloc : env.bufferAlloc with
  | false =>
      rw [if_pos halloc] at hscan
      exact iff_of_true (Prod.mk.inj hscan).2.symm (Or.inl rfl)
  | true =>
      rw [if_neg (by simp [halloc])] at hscan
      cases hread : pread bytes ic.count ic.fromOffset.toInt64 env.read with
      | none =>
          simp only [hread] at hscan
          exact iff_of_true (Prod.mk.inj hscan).2.symm (Or.inr (Or.inl rfl))
      | some buffer =>
          simp only [hread] at hscan
          have hleft := scanLoop_snd_eq_false_iff ⟨thread, ic.index.toNat⟩ env.failAt
            (buffer.take (2 ^ 31)) (.init heap ic.fromOffset)
          split at hscan
          · next s hloop =>
              rw [hloop] at hleft
              exact iff_of_true (Prod.mk.inj hscan).2.symm
                (Or.inr (Or.inr (Or.inl ⟨buffer, rfl, hleft.mp rfl⟩)))
          · next s hloop =>
              rw [hloop] at hleft
              have hpassed : ¬ ∃ k ∈ env.failAt, k < (buffer.take (2 ^ 31)).countP isNewline :=
                fun h => absurd (hleft.mpr h) (by simp)
              split at hscan
              · exact absurd (Prod.mk.inj hscan).2.symm hdefined
              · cases hchunk : env.chunkAlloc with
                | false =>
                    rw [if_neg (by simp [hchunk])] at hscan
                    exact iff_of_true (Prod.mk.inj hscan).2.symm (Or.inr (Or.inr (Or.inr rfl)))
                | true =>
                    rw [if_pos ⟨hchunk, hsend⟩] at hscan
                    refine iff_of_false (by simp [← (Prod.mk.inj hscan).2]) ?_
                    rintro (h | h | ⟨_, ⟨⟩, h⟩ | h)
                    · cases h
                    · cases h
                    · exact hpassed h
                    · cases h

/-- Nothing but the read can go wrong. -/
structure ScanEnv.Allocates (env : ScanEnv) : Prop where
  bufferAlloc : env.bufferAlloc = true
  failAt : env.failAt = none
  chunkAlloc : env.chunkAlloc = true
  send : env.send = true

instance (env : ScanEnv) : Decidable env.Allocates :=
  decidable_of_iff
    (env.bufferAlloc = true ∧ env.failAt = none ∧ env.chunkAlloc = true ∧ env.send = true)
    ⟨fun ⟨hbuffer, hfail, hchunk, hsend⟩ => ⟨hbuffer, hfail, hchunk, hsend⟩,
      fun ⟨hbuffer, hfail, hchunk, hsend⟩ => ⟨hbuffer, hfail, hchunk, hsend⟩⟩

/-- The read delivers all bytes of the chunk that the file has, in one transfer. -/
structure ScanEnv.ReadsAll (env : ScanEnv) (bytes : List UInt8) (ic : FIndexerChunk) : Prop where
  read : pread bytes ic.count ic.fromOffset.toInt64 env.read = some (chunkBuffer bytes ic)
  length_le : (chunkBuffer bytes ic).length ≤ maxTransfer

instance (env : ScanEnv) (bytes : List UInt8) (ic : FIndexerChunk) :
    Decidable (env.ReadsAll bytes ic) :=
  decidable_of_iff
    (pread bytes ic.count ic.fromOffset.toInt64 env.read = some (chunkBuffer bytes ic) ∧
      (chunkBuffer bytes ic).length ≤ maxTransfer)
    ⟨fun ⟨hread, hlength⟩ => ⟨hread, hlength⟩, fun ⟨hread, hlength⟩ => ⟨hread, hlength⟩⟩

/-- A coroutine whose read succeeds sends a message. -/
theorem fIndexTextBytes_sent {bytes buffer : List UInt8} {env : ScanEnv} {ic : FIndexerChunk}
    (heap : Heap) (thread : ℕ) (henv : env.Allocates)
    (hread : pread bytes ic.count ic.fromOffset.toInt64 env.read = some buffer)
    (hsize : buffer.length < 2 ^ 31) :
    ∃ heap' chunk,
      fIndexTextBytes bytes env heap ic thread = (heap', .sent chunk buffer.length) := by
  have htake : buffer.take (2 ^ 31) = buffer := List.take_of_length_le hsize.le
  obtain ⟨s', ok, hloop⟩ : ∃ s' ok, scanLoop ⟨thread, ic.index.toNat⟩ none buffer
      (.init heap ic.fromOffset) = (s', ok) := ⟨_, _, rfl⟩
  obtain rfl := (scanLoop_spec (ScanState.collected_init heap ic.fromOffset) hloop).2.2 rfl
  refine ⟨s'.heap, { fChunkNew ic.index s'.startNode s'.lastChunkNode with
    lineCount := s'.lineCount }, ?_⟩
  simp only [fIndexTextBytes, henv.bufferAlloc, hread, htake, henv.failAt, hloop, henv.chunkAlloc,
    henv.send]
  rw [if_neg (by simp), if_neg (by omega), if_pos (by simp)]

/-- An environment in which nothing goes wrong. -/
def ScanEnv.smooth (bytes : List UInt8) : ScanEnv where
  bufferAlloc := true
  read := some bytes.length
  failAt := none
  chunkAlloc := true
  send := true

theorem ScanEnv.allocates_smooth (bytes : List UInt8) : (ScanEnv.smooth bytes).Allocates :=
  ⟨rfl, rfl, rfl, rfl⟩

/-- All bytes of a chunk can be read at once if one transfer has room for them. -/
theorem ScanEnv.readsAll_smooth {bytes : List UInt8} {ic : FIndexerChunk}
    (hfrom : ic.fromOffset.toNat < 2 ^ 63) (hlength : (chunkBuffer bytes ic).length ≤ maxTransfer) :
    (ScanEnv.smooth bytes).ReadsAll bytes ic := by
  refine ⟨?_, hlength⟩
  have hfull : Delivery.Full (ScanEnv.smooth bytes).read bytes := ⟨_, rfl, le_refl _⟩
  have hoffset := toInt_toInt64 hfrom
  rw [pread_of_full hfull (by omega), hoffset, Int.toNat_natCast, chunkBuffer]

/-! ## Exact scans -/

/-- The byte at position `j` of the range of a chunk is a newline. -/
def NewlineAt (bytes : List UInt8) (ic : FIndexerChunk) (j : ℕ) : Prop :=
  j < ic.count.toNat ∧ ∃ byte, bytes[ic.fromOffset.toNat + j]? = some byte ∧ isNewline byte

/-- The chunk has the list `cells` of the offsets behind the newlines in the range of
`ic`, latest first. -/
structure ListsNewlines (bytes : List UInt8) (ic : FIndexerChunk) (heap : Heap) (chunk : FChunk)
    (cells : List (Ptr × FBytesNode)) : Prop where
  /-- The list ends with a null pointer. -/
  chain : heap.Chain chunk.first cells none
  /-- It has the offset behind every newline and no other. -/
  mem_iff : ∀ e : ℕ, e ∈ cells.map (fun cell => cell.2.offset.toNat) ↔
    ∃ j, NewlineAt bytes ic j ∧ e = ic.fromOffset.toNat + j + 1
  /-- The offsets decrease. -/
  decreasing : cells.Pairwise fun x y => y.2.offset < x.2.offset
  /-- `last` is the node with the smallest offset. -/
  last_smallest : ∀ p, chunk.last = some p →
    ∃ node, (p, node) ∈ cells ∧ ∀ cell ∈ cells, node.offset ≤ cell.2.offset
  /-- The newlines were counted. -/
  lineCount_eq : chunk.lineCount.toNat = cells.length

/-- The chunk is an exact account of the newlines in the range of `ic`. -/
structure ExactScan (bytes : List UInt8) (ic : FIndexerChunk) (heap : Heap) (chunk : FChunk) :
    Prop where
  /-- The chunk has the index that was planned. -/
  current_eq : chunk.current = ic.index
  /-- It has the list of the newlines. -/
  lists : ∃ cells, ListsNewlines bytes ic heap chunk cells
  /-- Without a newline there is no last node. -/
  last_none_iff : chunk.last = none ↔ ∀ j, ¬ NewlineAt bytes ic j
  /-- The flag tells whether there is a newline. -/
  empty_iff : chunk.empty = true ↔ ∀ j, ¬ NewlineAt bytes ic j

theorem chunkBuffer_eq_slice (bytes : List UInt8) (ic : FIndexerChunk) :
    chunkBuffer bytes ic =
      slice bytes ic.fromOffset.toNat (ic.fromOffset.toNat + ic.count.toNat) := by
  rw [chunkBuffer, slice, List.take_drop]

/-- The newlines of the range, as positions in it. -/
theorem mem_sepEnds_chunkBuffer {bytes : List UInt8} {ic : FIndexerChunk} {e : ℕ} :
    e ∈ sepEnds isNewline ic.fromOffset.toNat (chunkBuffer bytes ic) ↔
      ∃ j, NewlineAt bytes ic j ∧ e = ic.fromOffset.toNat + j + 1 := by
  rw [chunkBuffer_eq_slice, mem_sepEnds_slice, mem_sepEnds]
  constructor
  · rintro ⟨⟨i, byte, hbyte, hnewline, rfl⟩, hfrom, hto⟩
    refine ⟨i - ic.fromOffset.toNat, ⟨by omega, byte, ?_, hnewline⟩, by omega⟩
    rwa [show ic.fromOffset.toNat + (i - ic.fromOffset.toNat) = i by omega]
  · rintro ⟨j, ⟨hj, byte, hbyte, hnewline⟩, rfl⟩
    exact ⟨⟨_, byte, hbyte, hnewline, by omega⟩, by omega, by omega⟩

/-- The list of a scan of the whole range. -/
theorem IsScan.listsNewlines {bytes : List UInt8} {thread : ℕ} {heap : Heap} {ic : FIndexerChunk}
    {n : ℕ} {chunk : FChunk} (h : IsScan bytes thread heap ic n chunk)
    (hall : (chunkBuffer bytes ic).take n = chunkBuffer bytes ic)
    (hfrom : ic.fromOffset.toNat < 2 ^ 63) (hcount : ic.count.toNat < 2 ^ 31) :
    ∃ cells, ListsNewlines bytes ic heap chunk cells ∧ chunk.HoldsCells heap cells := by
  have hlength : (chunkBuffer bytes ic).length ≤ ic.count.toNat := List.length_take_le _ _
  obtain ⟨cells, hcells, hnodes⟩ := h.holds
  rw [hall] at hnodes
  have hoffsets : cells.map (fun cell => cell.2.offset.toNat) =
      (sepEnds isNewline ic.fromOffset.toNat (chunkBuffer bytes ic)).reverse := by
    have hmapped : (scanNodes ⟨thread, ic.index.toNat⟩ ic.fromOffset.toNat
        (chunkBuffer bytes ic)).map (fun node => node.offset.toNat) =
        (sepEnds isNewline ic.fromOffset.toNat (chunkBuffer bytes ic)).reverse :=
      map_offset_scanNodes (by omega)
    rw [← hmapped, ← hnodes, List.map_map]
    rfl
  have hdecreasing : cells.Pairwise fun x y => y.2.offset < x.2.offset := by
    have hpairwise : (cells.map fun cell => cell.2.offset.toNat).Pairwise (· > ·) := by
      rw [hoffsets, List.pairwise_reverse]
      exact pairwise_sepEnds _ _ _
    exact (List.pairwise_map.mp hpairwise).imp UInt64.lt_iff_toNat_lt.mpr
  refine ⟨cells, ⟨hcells.chain, fun e => ?_, hdecreasing, fun p hlast => ?_, ?_⟩, hcells⟩
  · rw [hoffsets, List.mem_reverse, mem_sepEnds_chunkBuffer]
  · rw [hcells.last_eq, Option.map_eq_some_iff] at hlast
    obtain ⟨⟨p, node⟩, hlast, rfl⟩ := hlast
    obtain ⟨front, rfl⟩ := List.getLast?_eq_some_iff.mp hlast
    refine ⟨node, by simp, fun cell hcell => ?_⟩
    rcases List.mem_append.mp hcell with hfront | hself
    · exact UInt64.le_of_lt
        ((List.pairwise_append.mp hdecreasing).2.2 cell hfront (p, node) (by simp))
    · rw [List.mem_singleton.mp hself]
      exact UInt64.le_refl _
  · have hcells_length : cells.length = (chunkBuffer bytes ic).countP isNewline := by
      simpa using congrArg List.length hoffsets
    have hle : (chunkBuffer bytes ic).countP isNewline ≤ (chunkBuffer bytes ic).length :=
      List.countP_le_length
    rw [h.lineCount_eq, hall, hcells_length]
    exact UInt32.toNat_ofNat_of_lt' (by simp only [UInt32.size]; omega)

/-- A scan of the whole range is exact. -/
theorem IsScan.exactScan {bytes : List UInt8} {thread : ℕ} {heap : Heap} {ic : FIndexerChunk}
    {n : ℕ} {chunk : FChunk} (h : IsScan bytes thread heap ic n chunk)
    (hall : (chunkBuffer bytes ic).take n = chunkBuffer bytes ic)
    (hfrom : ic.fromOffset.toNat < 2 ^ 63) (hcount : ic.count.toNat < 2 ^ 31) :
    ExactScan bytes ic heap chunk := by
  obtain ⟨cells, hlists, hcells⟩ := h.listsNewlines hall hfrom hcount
  have hnil : cells = [] ↔ ∀ j, ¬ NewlineAt bytes ic j := by
    constructor
    · rintro rfl j hj
      have hmem := (hlists.mem_iff _).mpr ⟨j, hj, rfl⟩
      simp at hmem
    · intro hnone
      cases cells with
      | nil => rfl
      | cons cell cells =>
          obtain ⟨j, hj, -⟩ := (hlists.mem_iff _).mp List.mem_cons_self
          exact absurd hj (hnone j)
  refine ⟨h.current_eq, ⟨cells, hlists⟩, ?_, ?_⟩
  · rw [hcells.last_eq, Option.map_eq_none_iff, List.getLast?_eq_none_iff, hnil]
  · rw [hcells.empty_eq, List.isEmpty_iff, hnil]

/-- Nothing is sent without a channel that takes the message. -/
theorem send_of_sent {bytes : List UInt8} {env : ScanEnv} {heap heap' : Heap} {ic : FIndexerChunk}
    {thread n : ℕ} {chunk : FChunk}
    (hsent : fIndexTextBytes bytes env heap ic thread = (heap', .sent chunk n)) :
    env.send = true := by
  unfold fIndexTextBytes at hsent
  split at hsent
  · cases hsent
  · split at hsent
    · cases hsent
    · split at hsent
      · cases hsent
      · split at hsent
        · cases hsent
        · split at hsent
          · next hdone => exact hdone.2
          · cases hsent

/-- The position of the loop only overflows on a huge transfer. -/
theorem length_of_undefined {bytes buffer : List UInt8} {env : ScanEnv} {heap heap' : Heap}
    {ic : FIndexerChunk} {thread : ℕ}
    (hread : pread bytes ic.count ic.fromOffset.toInt64 env.read = some buffer)
    (hundefined : fIndexTextBytes bytes env heap ic thread = (heap', .undefined)) :
    2 ^ 31 ≤ buffer.length := by
  unfold fIndexTextBytes at hundefined
  rw [hread] at hundefined
  split at hundefined
  · cases hundefined
  · simp only at hundefined
    split at hundefined
    · cases hundefined
    · split at hundefined
      · next hlarge => exact hlarge
      · split at hundefined <;> cases hundefined

/-- **A full scan is exact**: when the read delivers the whole range, a chunk is sent
unless something fails, and it is an exact account of the newlines in the range. -/
theorem fIndexTextBytes_exact {bytes : List UInt8} {env : ScanEnv} {ic : FIndexerChunk}
    (heap : Heap) (thread : ℕ)
    (hread : pread bytes ic.count ic.fromOffset.toInt64 env.read = some (chunkBuffer bytes ic))
    (hcount : ic.count.toNat < 2 ^ 31) :
    ((∃ heap' chunk n, fIndexTextBytes bytes env heap ic thread = (heap', .sent chunk n)) ↔
        env.send = true ∧ ¬ ScanFails bytes env ic) ∧
      ∀ heap' chunk n, fIndexTextBytes bytes env heap ic thread = (heap', .sent chunk n) →
        ExactScan bytes ic heap' chunk := by
  have hlength : (chunkBuffer bytes ic).length ≤ ic.count.toNat := List.length_take_le _ _
  refine ⟨⟨?_, ?_⟩, fun heap' chunk n hsent => ?_⟩
  · rintro ⟨heap', chunk, n, hsent⟩
    have hsend := send_of_sent hsent
    exact ⟨hsend, fun hfails =>
      absurd ((silent_iff_scanFails hsend hsent (by simp)).mpr hfails) (by simp)⟩
  · rintro ⟨hsend, hworks⟩
    obtain ⟨heap', outcome, hscan⟩ : ∃ heap' outcome,
        fIndexTextBytes bytes env heap ic thread = (heap', outcome) := ⟨_, _, rfl⟩
    cases outcome with
    | sent chunk n => exact ⟨heap', chunk, n, hscan⟩
    | silent =>
        exact absurd ((silent_iff_scanFails hsend hscan (by simp)).mp rfl) hworks
    | undefined =>
        have hlarge := length_of_undefined hread hscan
        omega
  · obtain ⟨hfrom, -, hstarts, hscan⟩ := (fIndexTextBytes_cases hsent).2 chunk n rfl
    have hall := Option.some.inj (hstarts.symm.trans hread)
    exact hscan.exactScan hall hfrom hcount

/-- The range of the file that holds the line `a`. -/
def lineChunk : FIndexerChunk := ⟨0, 0, 2, by decide⟩

/-- The file with the line `a` is scanned at once. -/
theorem fIndexTextBytes_exact_line :
    pread lineFile.bytes lineChunk.count lineChunk.fromOffset.toInt64
        (ScanEnv.smooth lineFile.bytes).read = some (chunkBuffer lineFile.bytes lineChunk) ∧
      ∀ heap' chunk n,
        fIndexTextBytes lineFile.bytes (.smooth lineFile.bytes) [] lineChunk 0 =
          (heap', .sent chunk n) → ExactScan lineFile.bytes lineChunk heap' chunk :=
  ⟨by decide, (fIndexTextBytes_exact [] 0 (by decide) (by decide)).2⟩

end Flashlight.TextIndexer
