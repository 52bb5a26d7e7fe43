/-
# The lookup file

The index of a target file is itself a file: the offsets just after each newline,
from the last one down to the first, and a `0` for the beginning of the first line.
It is written in pieces, one for each chunk that the indexer hands over, and the
number of its entries is counted separately in `len`.
-/

import Flashlight.Chunk

namespace Flashlight

open Flashlight.Math

/-- The persistent index. -/
structure FLookupFile where
  /-- The bytes written so far. -/
  contents : List UInt8
  /-- The number of lines in the target file. -/
  len : UInt32
  deriving DecidableEq, Repr

/-- The `sizeof(size_t)` bytes of a `size_t` in memory. -/
def sizeBytes (n : UInt64) : List UInt8 :=
  toBytes 8 n.toNat

/-- `f_lookup_file_init`: a new, empty file. -/
def fLookupFileInit : FLookupFile where
  contents := []
  len := 0

/-- `f_lookup_file_append` -/
def fLookupFileAppend (db : FLookupFile) (offset : UInt64) : FLookupFile :=
  { db with contents := db.contents ++ sizeBytes offset }

/-- `f_lookup_file_from_chunk`: append the offsets of the chunk. `none` stands for a
list that does not end and for a missing lookup. -/
def fLookupFileFromChunk (heap : Heap) (out : Option FLookupFile) (chunk : FChunk)
    (first last : Bool) : Option FLookupFile :=
  match (if first then some fLookupFileInit else out), heap.toList chunk.first with
  | some init, some nodes =>
      let init := nodes.foldl (fun db node => fLookupFileAppend db node.offset) init
      some (
        if last then
          { fLookupFileAppend init 0 with len := init.len + (chunk.lineCount + 1) }
        else { init with len := init.len + chunk.lineCount })
  | _, _ => none

/-- Hand over one chunk after another: the first call creates the lookup, the last
one writes the closing `0`. -/
def fromChunks : Option FLookupFile → List (Heap × FChunk) → Option FLookupFile
  | out, [] => out
  | out, (heap, chunk) :: calls =>
      (fLookupFileFromChunk heap out chunk out.isNone calls.isEmpty).bind fun lookup =>
        fromChunks (some lookup) calls

@[simp]
theorem length_sizeBytes (n : UInt64) : (sizeBytes n).length = 8 :=
  length_toBytes 8 n.toNat

/-- A `size_t` is read back from its bytes. -/
theorem ofBytes_sizeBytes (n : UInt64) : ofBytes (sizeBytes n) = n.toNat :=
  ofBytes_toBytes (by have := n.toNat_lt; norm_num; omega)

theorem foldl_fLookupFileAppend (nodes : List FBytesNode) (db : FLookupFile) :
    nodes.foldl (fun db node => fLookupFileAppend db node.offset) db =
      { db with contents := db.contents ++ (nodes.map FBytesNode.offset).flatMap sizeBytes } := by
  induction nodes generalizing db with
  | nil => simp
  | cons node nodes ih =>
      rw [List.foldl_cons, ih]
      simp [fLookupFileAppend]

/-- What one call appends. -/
theorem fLookupFileFromChunk_eq {heap : Heap} {chunk : FChunk} {nodes : List FBytesNode}
    {out : Option FLookupFile} {init : FLookupFile} {first : Bool} (last : Bool)
    (hlist : heap.toList chunk.first = some nodes)
    (hinit : (if first then some fLookupFileInit else out) = some init) :
    fLookupFileFromChunk heap out chunk first last = some {
      contents := init.contents ++
        (nodes.map FBytesNode.offset ++ if last then [0] else []).flatMap sizeBytes
      len := init.len + (chunk.lineCount + if last then 1 else 0) } := by
  unfold fLookupFileFromChunk
  rw [hinit, hlist]
  simp only [foldl_fLookupFileAppend]
  cases last <;> simp [fLookupFileAppend]

/-- The chunks of the calls hold the given nodes and count them. -/
def HoldsCounted (call : Heap × FChunk) (nodes : List FBytesNode) : Prop :=
  call.2.Holds call.1 nodes ∧ call.2.lineCount.toNat = nodes.length

/-- They hold the given nodes and count them, up to multiples of `2 ^ 32`. -/
def HoldsWrapped (call : Heap × FChunk) (nodes : List FBytesNode) : Prop :=
  call.2.Holds call.1 nodes ∧ call.2.lineCount = .ofNat nodes.length

theorem HoldsCounted.wrapped {call : Heap × FChunk} {nodes : List FBytesNode}
    (h : HoldsCounted call nodes) : HoldsWrapped call nodes :=
  ⟨h.1, by rw [← h.2, UInt32.ofNat_toNat]⟩

/-- Appending to a lookup that exists: one call extends the file by its offsets and
`len` by their number, and the last call adds the closing entry. -/
theorem fromChunks_of_some {calls : List (Heap × FChunk)} {nodes : List (List FBytesNode)}
    (lookup : FLookupFile) (hcalls : List.Forall₂ HoldsWrapped calls nodes) (hne : calls ≠ []) :
    fromChunks (some lookup) calls = some {
      contents := lookup.contents ++
        (nodes.flatten.map FBytesNode.offset ++ [0]).flatMap sizeBytes
      len := lookup.len + .ofNat (nodes.flatten.length + 1) } := by
  induction hcalls generalizing lookup with
  | nil => exact absurd rfl hne
  | @cons call held calls nodes hcall hrest ih =>
      obtain ⟨heap, chunk⟩ := call
      obtain ⟨hholds, hline⟩ := hcall
      simp only at hline
      rw [fromChunks, fLookupFileFromChunk_eq _ hholds.toList_eq rfl, Option.bind_some]
      cases calls with
      | nil =>
          obtain rfl := List.forall₂_nil_left_iff.mp hrest
          simp [fromChunks, hline]
      | cons call calls =>
          rw [ih _ (by simp)]
          simp [hline, UInt32.add_assoc]

/-- Whatever a call appends, it adds the line count of its chunk. -/
theorem len_of_fLookupFileFromChunk {heap : Heap} {chunk : FChunk} {lookup lookup' : FLookupFile}
    {last : Bool} (h : fLookupFileFromChunk heap (some lookup) chunk false last = some lookup') :
    lookup'.len = lookup.len + (chunk.lineCount + if last then 1 else 0) := by
  cases hlist : heap.toList chunk.first with
  | none => simp [fLookupFileFromChunk, hlist] at h
  | some nodes =>
      rw [fLookupFileFromChunk_eq last hlist rfl] at h
      rw [← Option.some.inj h]

/-- The line counts of all calls are added up as `unsigned int`s. -/
theorem len_of_fromChunks {calls : List (Heap × FChunk)} {counts : List ℕ}
    {lookup lookup' : FLookupFile}
    (hcalls : List.Forall₂ (fun call k => call.2.lineCount = .ofNat k) calls counts)
    (hne : calls ≠ []) (h : fromChunks (some lookup) calls = some lookup') :
    lookup'.len = lookup.len + .ofNat (counts.sum + 1) := by
  induction hcalls generalizing lookup with
  | nil => exact absurd rfl hne
  | @cons call k calls counts hcall hrest ih =>
      obtain ⟨heap, chunk⟩ := call
      simp only at hcall
      rw [fromChunks, Option.bind_eq_some_iff] at h
      obtain ⟨middle, hfirst, hrest'⟩ := h
      have hlen := len_of_fLookupFileFromChunk hfirst
      rw [hcall] at hlen
      cases calls with
      | nil =>
          obtain rfl := List.forall₂_nil_left_iff.mp hrest
          obtain rfl := Option.some.inj hrest'
          simpa using hlen
      | cons call calls =>
          rw [ih (by simp) hrest', hlen]
          simp [UInt32.add_assoc]

/-- The first call creates the lookup that the later ones extend. -/
theorem fromChunks_none {calls : List (Heap × FChunk)} (hne : calls ≠ []) :
    fromChunks none calls = fromChunks (some fLookupFileInit) calls := by
  cases calls with
  | nil => exact absurd rfl hne
  | cons call calls => rfl

/-- Handing over all chunks writes all offsets and one closing entry. -/
theorem fromChunks_eq {calls : List (Heap × FChunk)} {nodes : List (List FBytesNode)}
    (hcalls : List.Forall₂ HoldsWrapped calls nodes) (hne : calls ≠ []) :
    fromChunks none calls = some {
      contents := (nodes.flatten.map FBytesNode.offset ++ [0]).flatMap sizeBytes
      len := .ofNat (nodes.flatten.length + 1) } := by
  rw [fromChunks_none hne, fromChunks_of_some _ hcalls hne]
  simp [fLookupFileInit]

end Flashlight
