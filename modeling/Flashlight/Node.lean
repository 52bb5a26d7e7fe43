/-
# Folding partial offsets

An index kept in memory is a list of plain offsets. It is folded from a reversed list
of entries some of which are partial: an entry that is not atomic is to be added to the
next atomic one. The loop remembers a single entry, so of several partial offsets in a row
it adds the last one only. The first atomic entry overwrites the caller's pointer; if there
is none, the leading zero is linked to whatever the pointer held before.
-/

import Flashlight.Chunk

namespace Flashlight

open Flashlight.Math

/-- The offset nodes allocated so far: `offset` is the value of a cell. -/
abbrev NodeHeap := ListHeap UInt64

/-- `f_node_new`: a node with a null link. `malloc n` says whether there is memory for a
node when there are `n` of them already. -/
def fNodeNew (malloc : ℕ → Bool) (heap : NodeHeap) (offset : UInt64) : Option (NodeHeap × Ptr) :=
  if malloc heap.length then some (heap.alloc offset) else none

/-- The variables of the loop of `f_node_from_reversed_bytes_node`. -/
structure FoldState where
  /-- The heap of the offset nodes. -/
  heap : NodeHeap
  /-- The caller's pointer. -/
  out : Option Ptr
  /-- The entry before this one, unless it was atomic. -/
  prev : Option FBytesNode
  /-- The caller's pointer was set. -/
  last : Bool
  deriving Repr

/-- One iteration of the loop. The loop is left with an error when an allocation fails. -/
def foldStep (malloc : ℕ → Bool) (current : FBytesNode) (s : FoldState) :
    Except FoldState FoldState :=
  if current.bytes.atomic = false then .ok { s with prev := some current }
  else
    let offset := match s.prev with
      | some prev => prev.offset + current.offset
      | none => current.offset
    match fNodeNew malloc s.heap offset with
    | none => .error { s with prev := none }
    | some (heap, node) =>
        if s.last = false then .ok { heap := heap, out := some node, prev := none, last := true }
        else .ok { s with heap := heap.setNext node s.out, out := some node, prev := none }

/-- The loop of `f_node_from_reversed_bytes_node`. -/
def foldLoop (malloc : ℕ → Bool) : List FBytesNode → FoldState → Except FoldState FoldState
  | [], s => .ok s
  | current :: rest, s => (foldStep malloc current s).bind (foldLoop malloc rest)

/-- What the caller of `f_node_from_reversed_bytes_node` gets. -/
structure Folded where
  /-- The returned value. -/
  ret : ℤ
  /-- The heap of the offset nodes. -/
  heap : NodeHeap
  /-- The caller's pointer. -/
  out : Option Ptr
  deriving DecidableEq, Repr

/-- `f_node_from_reversed_bytes_node` on the caller's pointer `out`. `none` stands for a
walk over the entries that does not end at a null pointer. -/
def fNodeFromReversedBytesNode (malloc : ℕ → Bool) (heap : NodeHeap) (out : Option Ptr)
    (bytes : Heap) (bytesHead : Option Ptr) : Option Folded :=
  (bytes.toList bytesHead).map fun entries =>
    match foldLoop malloc entries ⟨heap, out, none, false⟩ with
    | .error s => ⟨-1, s.heap, s.out⟩
    | .ok s =>
        match fNodeNew malloc s.heap 0 with
        | none => ⟨-1, s.heap, s.out⟩
        | some (heap, firstNode) => ⟨0, heap.setNext firstNode s.out, some firstNode⟩

/-- The offsets that a reversed list stands for, with `pending` bytes to be added to the
next atomic entry: every partial offset is part of the atomic one after it. -/
def wholeOffsets : ℕ → List FBytesNode → List ℕ
  | _, [] => []
  | pending, entry :: rest =>
      if entry.bytes.atomic then
        (pending + entry.offset.toNat) :: wholeOffsets 0 rest
      else wholeOffsets (pending + entry.offset.toNat) rest

/-- The call succeeded, and the list it returned is a zero followed by the offsets that the
entries stand for, in reverse. -/
def Folded.Complete (result : Folded) (entries : List FBytesNode) : Prop :=
  result.ret = 0 ∧ ∃ offsets, result.heap.toList result.out = some offsets ∧
    offsets.map UInt64.toNat = 0 :: (wholeOffsets 0 entries).reverse

/-- How many atomic entries there are. -/
def atomics (entries : List FBytesNode) : ℕ :=
  entries.countP fun entry => entry.bytes.atomic

/-- There is memory for `count` more nodes. -/
def Allocates (malloc : ℕ → Bool) (heap : NodeHeap) (count : ℕ) : Prop :=
  ∀ i < count, malloc (heap.length + i) = true

/-- A partial offset is followed by the atomic one it is added to, and the sum is an
offset; or it is zero; or no atomic entry comes after it. -/
def FoldsWhole : List FBytesNode → Prop
  | x :: y :: rest =>
      (x.bytes.atomic = false →
        if y.bytes.atomic then x.offset.toNat + y.offset.toNat < 2 ^ 64
        else atomics rest = 0 ∨ x.offset = 0) ∧
      FoldsWhole (y :: rest)
  | _ => True

/-- The offsets that the loop computes, with the offset of the entry it remembers. -/
def foldedOffsets : UInt64 → List FBytesNode → List UInt64
  | _, [] => []
  | pending, entry :: rest =>
      if entry.bytes.atomic then
        (pending + entry.offset) :: foldedOffsets 0 rest
      else foldedOffsets entry.offset rest

theorem atomics_cons (entry : FBytesNode) (entries : List FBytesNode) :
    atomics (entry :: entries) = atomics entries + if entry.bytes.atomic then 1 else 0 :=
  List.countP_cons ..

theorem atomics_cons_of_atomic {entry : FBytesNode} (hatomic : entry.bytes.atomic = true)
    (entries : List FBytesNode) : atomics (entry :: entries) = atomics entries + 1 := by
  rw [atomics_cons, if_pos hatomic]

theorem atomics_cons_of_not_atomic {entry : FBytesNode} (hpart : entry.bytes.atomic = false)
    (entries : List FBytesNode) : atomics (entry :: entries) = atomics entries := by
  simp [atomics_cons, hpart]

/-! ## What the loop builds -/

/-- The offset of the entry that the loop remembers. -/
def FoldState.pending (s : FoldState) : UInt64 :=
  s.prev.elim 0 FBytesNode.offset

/-- The loop has built the list of `offsets`; the caller's pointer is still `out` when there
are none. -/
structure FoldState.Built (s : FoldState) (heap : NodeHeap) (out : Option Ptr)
    (offsets : List UInt64) : Prop where
  last_eq : s.last = !offsets.isEmpty
  out_eq : offsets = [] → s.out = out
  chain : offsets ≠ [] → ∃ cells, s.heap.Chain s.out cells none ∧ cells.map Prod.snd = offsets
  length_eq : s.heap.length = heap.length + offsets.length

section

variable {malloc : ℕ → Bool} {heap : NodeHeap} {out : Option Ptr} {s : FoldState}
  {offsets : List UInt64}

theorem FoldState.built_init (heap : NodeHeap) (out : Option Ptr) :
    FoldState.Built ⟨heap, out, none, false⟩ heap out [] :=
  ⟨rfl, fun _ => rfl, by simp, rfl⟩

theorem fNodeNew_of_malloc {offset : UInt64} (hmalloc : malloc heap.length = true) :
    fNodeNew malloc heap offset = some (heap.alloc offset) := by
  rw [fNodeNew, if_pos hmalloc]

theorem fNodeNew_of_not_malloc {offset : UInt64} (hmalloc : malloc heap.length = false) :
    fNodeNew malloc heap offset = none := by
  rw [fNodeNew, if_neg (by simp [hmalloc])]

theorem length_alloc (offset : UInt64) : (heap.alloc offset).1.length = heap.length + 1 := by
  simp [ListHeap.alloc]

theorem foldStep_of_partial {current : FBytesNode} (hpart : current.bytes.atomic = false) :
    foldStep malloc current s = .ok { s with prev := some current } := by
  rw [foldStep, if_pos hpart]

/-- The offset of the new node is that of the entry and of the remembered one. -/
theorem foldStep_of_atomic {current : FBytesNode} (hatomic : current.bytes.atomic = true) :
    foldStep malloc current s =
      match fNodeNew malloc s.heap (s.pending + current.offset) with
      | none => .error { s with prev := none }
      | some (heap, node) =>
          if s.last = false then
            .ok { heap := heap, out := some node, prev := none, last := true }
          else .ok { s with heap := heap.setNext node s.out, out := some node, prev := none } := by
  rw [foldStep, if_neg (by simp [hatomic])]
  cases hprev : s.prev <;> simp [FoldState.pending, hprev]

/-- An atomic entry prepends one node. -/
theorem FoldState.Built.step_atomic (h : s.Built heap out offsets) {current : FBytesNode}
    (hatomic : current.bytes.atomic = true) (hmalloc : malloc s.heap.length = true) :
    ∃ s', foldStep malloc current s = .ok s' ∧ s'.prev = none ∧
      s'.heap.length = s.heap.length + 1 ∧
      s'.Built heap out ((s.pending + current.offset) :: offsets) := by
  rw [foldStep_of_atomic hatomic, fNodeNew_of_malloc hmalloc]
  have hlength : (s.heap.alloc (s.pending + current.offset)).1.length =
      heap.length + (offsets.length + 1) := by
    rw [length_alloc, h.length_eq]
    omega
  cases offsets with
  | nil =>
      have hlast : s.last = false := h.last_eq
      refine ⟨_, if_pos hlast, rfl, length_alloc _, rfl, by simp, fun _ => ?_, hlength⟩
      have hcell := ListHeap.getElem?_alloc_self s.heap (s.pending + current.offset)
      exact ⟨[((s.heap.alloc (s.pending + current.offset)).2, s.pending + current.offset)],
        ⟨rfl, none, hcell, rfl⟩, rfl⟩
  | cons offset offsets =>
      have hlast : s.last = true := h.last_eq
      obtain ⟨cells, hchain, hcells⟩ := h.chain (by simp)
      refine ⟨_, if_neg (by simp [hlast]), rfl, by simp [ListHeap.setNext], hlast,
        by simp, fun _ => ?_, ?_⟩
      · refine ⟨_, hchain.prepend (s.pending + current.offset), ?_⟩
        simp [hcells]
      · simpa [ListHeap.setNext, ListHeap.alloc] using hlength

/-- A partial entry is remembered and nothing else happens. -/
theorem FoldState.Built.step_partial (h : s.Built heap out offsets) (current : FBytesNode) :
    FoldState.Built { s with prev := some current } heap out offsets :=
  ⟨h.last_eq, h.out_eq, h.chain, h.length_eq⟩

/-- **The loop** prepends one node for each atomic entry, as long as there is memory. -/
theorem foldLoop_spec {entries : List FBytesNode} (h : s.Built heap out offsets)
    (hmalloc : Allocates malloc s.heap (atomics entries)) :
    ∃ s', foldLoop malloc entries s = .ok s' ∧
      s'.Built heap out ((foldedOffsets s.pending entries).reverse ++ offsets) := by
  induction entries generalizing s offsets with
  | nil => exact ⟨s, rfl, by simpa [foldedOffsets] using h⟩
  | cons current rest ih =>
      cases hatomic : current.bytes.atomic with
      | false =>
          rw [atomics_cons_of_not_atomic hatomic] at hmalloc
          obtain ⟨s', hloop, hbuilt⟩ := ih (h.step_partial current) hmalloc
          refine ⟨s', ?_, by simpa [foldedOffsets, hatomic, FoldState.pending] using hbuilt⟩
          rw [foldLoop, foldStep_of_partial hatomic]
          exact hloop
      | true =>
          rw [atomics_cons_of_atomic hatomic] at hmalloc
          obtain ⟨s₁, hstep, hprev, hlength, hbuilt₁⟩ :=
            h.step_atomic hatomic (hmalloc 0 (by omega))
          obtain ⟨s', hloop, hbuilt⟩ := ih hbuilt₁ fun i hi => by
            rw [hlength, Nat.add_right_comm, Nat.add_assoc]
            exact hmalloc (i + 1) (by omega)
          refine ⟨s', ?_, ?_⟩
          · rw [foldLoop, hstep]
            exact hloop
          · have hpending : s₁.pending = 0 := by rw [FoldState.pending, hprev]; rfl
            simpa [foldedOffsets, hatomic, hpending] using hbuilt

/-- Without memory for all its nodes the loop fails. -/
theorem foldLoop_of_not_allocates {entries : List FBytesNode} (h : s.Built heap out offsets)
    (hmalloc : ¬ Allocates malloc s.heap (atomics entries)) :
    ∃ s', foldLoop malloc entries s = .error s' := by
  induction entries generalizing s offsets with
  | nil => exact absurd (by simp [Allocates, atomics]) hmalloc
  | cons current rest ih =>
      cases hatomic : current.bytes.atomic with
      | false =>
          rw [atomics_cons_of_not_atomic hatomic] at hmalloc
          obtain ⟨s', hloop⟩ := ih (h.step_partial current) hmalloc
          refine ⟨s', ?_⟩
          rw [foldLoop, foldStep_of_partial hatomic]
          exact hloop
      | true =>
          rw [atomics_cons_of_atomic hatomic] at hmalloc
          cases hfirst : malloc s.heap.length with
          | false =>
              refine ⟨{ s with prev := none }, ?_⟩
              rw [foldLoop, foldStep_of_atomic hatomic, fNodeNew_of_not_malloc hfirst]
              rfl
          | true =>
              obtain ⟨s₁, hstep, -, hlength, hbuilt₁⟩ := h.step_atomic hatomic hfirst
              obtain ⟨s', hloop⟩ := ih hbuilt₁ fun hrest => hmalloc fun i hi => by
                cases i with
                | zero => exact hfirst
                | succ i =>
                    have hnext := hrest i (by omega)
                    rwa [hlength, Nat.add_right_comm, Nat.add_assoc] at hnext
              refine ⟨s', ?_⟩
              rw [foldLoop, hstep]
              exact hloop

end

/-! ## What is lost -/

/-- Only the first partial offset matters for an entry that is not followed by one. -/
theorem foldsWhole_cons_of_atomic {entry : FBytesNode} (hatomic : entry.bytes.atomic = true)
    (entries : List FBytesNode) : FoldsWhole (entry :: entries) ↔ FoldsWhole entries := by
  cases entries with
  | nil => simp [FoldsWhole]
  | cons next rest => simp [FoldsWhole, hatomic]

theorem wholeOffsets_eq_nil {entries : List FBytesNode} (hnone : atomics entries = 0)
    (pending : ℕ) : wholeOffsets pending entries = [] := by
  induction entries generalizing pending with
  | nil => rfl
  | cons entry rest ih =>
      rw [atomics_cons] at hnone
      cases hatomic : entry.bytes.atomic with
      | false => simpa [wholeOffsets, hatomic] using ih (by omega) _
      | true => simp [hatomic] at hnone

theorem foldedOffsets_eq_nil_iff {pending : UInt64} {entries : List FBytesNode} :
    foldedOffsets pending entries = [] ↔ atomics entries = 0 := by
  induction entries generalizing pending with
  | nil => simp [foldedOffsets, atomics]
  | cons entry rest ih =>
      rw [atomics_cons, foldedOffsets]
      cases entry.bytes.atomic with
      | false => simpa using ih
      | true => simp

/-- A partial offset of zero bytes does no harm anywhere. -/
theorem foldsWhole_zero_cons {x : FBytesNode} (hzero : x.offset = 0)
    (entries : List FBytesNode) : FoldsWhole (x :: entries) ↔ FoldsWhole entries := by
  cases entries with
  | nil => simp [FoldsWhole]
  | cons entry rest =>
      have hlt : entry.offset.toNat < 2 ^ 64 := entry.offset.toNat_lt
      refine ⟨And.right, fun h => ⟨fun _ => ?_, h⟩⟩
      split
      · simpa [hzero] using hlt
      · exact Or.inr hzero

/-- The loop remembers the entry `x` and has lost `lost` bytes that were to be added to the
next atomic entry. -/
theorem foldedOffsets_eq_iff {x : FBytesNode} (hpart : x.bytes.atomic = false) (lost : ℕ)
    (entries : List FBytesNode) :
    (foldedOffsets x.offset entries).map UInt64.toNat =
        wholeOffsets (lost + x.offset.toNat) entries ↔
      FoldsWhole (x :: entries) ∧ (lost = 0 ∨ atomics entries = 0) := by
  induction entries generalizing x lost with
  | nil => simp [foldedOffsets, wholeOffsets, FoldsWhole, atomics]
  | cons entry rest ih =>
      cases hatomic : entry.bytes.atomic with
      | false =>
          have hrest := ih hatomic (lost + x.offset.toNat)
          have hzero : x.offset.toNat = 0 ↔ x.offset = 0 := UInt64.toNat_inj (b := 0)
          simp only [foldedOffsets, wholeOffsets, hatomic, FoldsWhole, atomics_cons, hpart,
            Bool.false_eq_true, if_false, Nat.add_zero, hrest, Nat.add_eq_zero_iff, hzero,
            forall_const]
          tauto
      | true =>
          -- The list after an atomic entry is folded as if zero bytes were remembered.
          let blank : FBytesNode := { x with bytes := ⟨false, 0⟩ }
          have hrest : (foldedOffsets 0 rest).map UInt64.toNat = wholeOffsets 0 rest ↔
              FoldsWhole rest := by
            have hblank := ih (x := blank) rfl 0
            rw [foldsWhole_zero_cons rfl] at hblank
            simpa [blank, FBytesNode.offset] using hblank
          have hsum : (x.offset + entry.offset).toNat =
              lost + x.offset.toNat + entry.offset.toNat ↔
                x.offset.toNat + entry.offset.toNat < 2 ^ 64 ∧ lost = 0 := by
            rw [UInt64.toNat_add]
            omega
          simp only [foldedOffsets, wholeOffsets, hatomic, if_true, List.map_cons, List.cons.injEq,
            hrest, hsum, FoldsWhole, hpart, forall_const, atomics_cons,
            foldsWhole_cons_of_atomic hatomic]
          tauto

/-- The loop computes the offsets that the entries stand for exactly if they fold whole. -/
theorem map_foldedOffsets_eq_iff (entries : List FBytesNode) :
    (foldedOffsets 0 entries).map UInt64.toNat = wholeOffsets 0 entries ↔
      FoldsWhole entries := by
  have hblank := foldedOffsets_eq_iff (x := ⟨⟨false, 0⟩, ⟨0, 0⟩⟩) rfl 0 entries
  rw [foldsWhole_zero_cons rfl] at hblank
  simpa [FBytesNode.offset] using hblank

/-! ## The result -/

theorem length_foldedOffsets (pending : UInt64) (entries : List FBytesNode) :
    (foldedOffsets pending entries).length = atomics entries := by
  induction entries generalizing pending with
  | nil => rfl
  | cons entry rest ih =>
      rw [atomics_cons, foldedOffsets]
      cases entry.bytes.atomic <;> simp [ih]

section

variable {malloc : ℕ → Bool} {heap : NodeHeap} {out : Option Ptr} {s : FoldState}
  {offsets : List UInt64}

/-- The caller's pointer is the head of a list, unless it is still what the caller left
there. -/
theorem FoldState.Built.exists_chain (h : s.Built heap out offsets)
    (hout : offsets ≠ [] ∨ out = none) :
    ∃ cells, s.heap.Chain s.out cells none ∧ cells.map Prod.snd = offsets := by
  by_cases hnil : offsets = []
  · obtain rfl := hout.resolve_left (not_not.mpr hnil)
    exact ⟨[], h.out_eq hnil, hnil.symm⟩
  · exact h.chain hnil

/-- The list with the zero in front. -/
theorem FoldState.Built.toList_firstNode (h : s.Built heap out offsets)
    (hout : offsets ≠ [] ∨ out = none) :
    ((s.heap.alloc 0).1.setNext (s.heap.alloc 0).2 s.out).toList (some (s.heap.alloc 0).2) =
      some (0 :: offsets) := by
  obtain ⟨cells, hchain, rfl⟩ := h.exists_chain hout
  exact (hchain.prepend 0).toList_eq

/-- A zero in front of a pointer that is not null is no list of its own. -/
theorem toList_firstNode_ne (heap : NodeHeap) (p : Ptr) :
    ((heap.alloc 0).1.setNext (heap.alloc 0).2 (some p)).toList (some (heap.alloc 0).2) ≠
      some [0] := by
  intro hlist
  obtain ⟨cells, hchain, hcells⟩ := ListHeap.Chain.exists_of_toList hlist
  obtain ⟨cell, rfl, hvalue⟩ := List.map_eq_singleton_iff.mp hcells
  obtain ⟨heq, next, hcell, hnext⟩ := hchain
  obtain rfl : next = none := hnext
  rw [← Option.some.inj heq,
    ListHeap.getElem?_setNext_self (some p) (ListHeap.getElem?_alloc_self heap 0)] at hcell
  simp at hcell

theorem allocates_succ {count : ℕ} :
    Allocates malloc heap (count + 1) ↔
      Allocates malloc heap count ∧ malloc (heap.length + count) = true := by
  refine ⟨fun h => ⟨fun i hi => h i (by omega), h count (by omega)⟩, fun h i hi => ?_⟩
  rcases Nat.lt_succ_iff_lt_or_eq.mp hi with hlt | rfl
  · exact h.1 i hlt
  · exact h.2

/-- With the zero in front, the list is complete if nothing was lost and it is not linked to
what the caller left in the pointer. -/
theorem FoldState.Built.wholeOffsets_iff {entries : List FBytesNode}
    (h : s.Built heap out (foldedOffsets 0 entries).reverse) :
    Folded.Complete
        ⟨0, (s.heap.alloc 0).1.setNext (s.heap.alloc 0).2 s.out, some (s.heap.alloc 0).2⟩
        entries ↔
      FoldsWhole entries ∧ (atomics entries ≠ 0 ∨ out = none) := by
  have hnil : (foldedOffsets 0 entries).reverse = [] ↔ atomics entries = 0 := by
    rw [List.reverse_eq_nil_iff, foldedOffsets_eq_nil_iff]
  by_cases hout : atomics entries ≠ 0 ∨ out = none
  · have hlist := h.toList_firstNode (by rwa [ne_eq, hnil])
    have hreverse : (foldedOffsets 0 entries).reverse.map UInt64.toNat =
        (wholeOffsets 0 entries).reverse ↔ FoldsWhole entries := by
      rw [List.map_reverse, List.reverse_inj, map_foldedOffsets_eq_iff]
    simp only [Folded.Complete, hlist, true_and, Option.some.injEq, exists_eq_left', List.map_cons,
      UInt64.toNat_zero, List.cons.injEq, hreverse, hout, and_true]
  · obtain ⟨hnone, hsome⟩ := not_or.mp hout
    obtain ⟨p, rfl⟩ := Option.ne_none_iff_exists'.mp hsome
    refine iff_of_false (fun hcomplete => ?_) fun hright => hout hright.2
    obtain ⟨-, offsets, hlist, hoffsets⟩ := hcomplete
    rw [wholeOffsets_eq_nil (not_not.mp hnone)] at hoffsets
    obtain ⟨offset, rfl, hzero⟩ := List.map_eq_singleton_iff.mp hoffsets
    obtain rfl : offset = 0 := UInt64.toNat_inj.mp hzero
    rw [h.out_eq (hnil.mpr (not_not.mp hnone))] at hlist
    exact toList_firstNode_ne s.heap p hlist

/-- **Folding** a list gives all of its offsets if there is memory, every partial offset is
added to an atomic entry, and the caller's pointer is null or gets overwritten. -/
theorem folded_complete_iff {bytes : Heap} {bytesHead : Option Ptr} {entries : List FBytesNode}
    (hentries : bytes.toList bytesHead = some entries) :
    (∃ result, fNodeFromReversedBytesNode malloc heap out bytes bytesHead = some result ∧
        result.Complete entries) ↔
      Allocates malloc heap (atomics entries + 1) ∧ FoldsWhole entries ∧
        (atomics entries ≠ 0 ∨ out = none) := by
  have hinit := FoldState.built_init heap out
  rw [fNodeFromReversedBytesNode, hentries, allocates_succ]
  by_cases hmalloc : Allocates malloc heap (atomics entries)
  · obtain ⟨s, hloop, hbuilt⟩ := foldLoop_spec hinit hmalloc
    have hlength : s.heap.length = heap.length + atomics entries := by
      simpa [length_foldedOffsets] using hbuilt.length_eq
    rw [List.append_nil] at hbuilt
    cases hlast : malloc (heap.length + atomics entries) with
    | false =>
        simp [hloop, fNodeNew_of_not_malloc (hlength ▸ hlast), Folded.Complete]
    | true =>
        have hresult : fNodeNew malloc s.heap 0 = some (s.heap.alloc 0) :=
          fNodeNew_of_malloc (hlength ▸ hlast)
        simp only [Option.map_some, hloop, hresult, Option.some.injEq, exists_eq_left', hmalloc,
          true_and]
        exact hbuilt.wholeOffsets_iff
  · obtain ⟨s, hloop⟩ := foldLoop_of_not_allocates hinit hmalloc
    simp [hloop, hmalloc, Folded.Complete]

/-- The entries `{8, false} -> {6, true} -> {2, false} -> {1, true}`. -/
def alternating : Heap :=
  [⟨⟨⟨true, 1⟩, ⟨0, 0⟩⟩, none⟩, ⟨⟨⟨false, 2⟩, ⟨0, 0⟩⟩, some 0⟩, ⟨⟨⟨true, 6⟩, ⟨0, 0⟩⟩, some 1⟩,
    ⟨⟨⟨false, 8⟩, ⟨0, 0⟩⟩, some 2⟩]

/-- The list of the documentation is folded as it says there. -/
theorem folded_complete_alternating :
    ∃ result, fNodeFromReversedBytesNode (fun _ => true) [] none alternating (some 3) =
      some result ∧
        result.Complete [⟨⟨false, 8⟩, ⟨0, 0⟩⟩, ⟨⟨true, 6⟩, ⟨0, 0⟩⟩, ⟨⟨false, 2⟩, ⟨0, 0⟩⟩,
          ⟨⟨true, 1⟩, ⟨0, 0⟩⟩] :=
  (folded_complete_iff rfl).mpr ⟨fun _ _ => rfl, by simp [FoldsWhole, FBytesNode.offset], by decide⟩

/-- The entries `{4, false} -> {8, false} -> {6, true}`. -/
def twoPartial : Heap :=
  [⟨⟨⟨true, 6⟩, ⟨0, 0⟩⟩, none⟩, ⟨⟨⟨false, 8⟩, ⟨0, 0⟩⟩, some 0⟩, ⟨⟨⟨false, 4⟩, ⟨0, 0⟩⟩, some 1⟩]

/-- Of two partial offsets in a row the first one is lost. -/
theorem folded_loses_first :
    ¬ ∃ result, fNodeFromReversedBytesNode (fun _ => true) [] none twoPartial (some 2) =
      some result ∧
        result.Complete [⟨⟨false, 4⟩, ⟨0, 0⟩⟩, ⟨⟨false, 8⟩, ⟨0, 0⟩⟩, ⟨⟨true, 6⟩, ⟨0, 0⟩⟩] := by
  rintro ⟨result, hfold, -, offsets, hlist, hoffsets⟩
  have hfold' : fNodeFromReversedBytesNode (fun _ => true) [] none twoPartial (some 2) =
      some ⟨0, [⟨14, none⟩, ⟨0, some 0⟩], some 1⟩ := by decide
  obtain rfl := Option.some.inj (hfold.symm.trans hfold')
  have hlist' : ListHeap.toList ([⟨14, none⟩, ⟨0, some 0⟩] : NodeHeap) (some 1) =
      some [0, 14] := by decide
  obtain rfl := Option.some.inj (hlist.symm.trans hlist')
  exact absurd hoffsets (by decide)

end

end Flashlight
