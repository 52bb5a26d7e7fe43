/-
# The lookup in memory

The offsets of a chunk can also be kept in memory, in the order of the lines: the
list of the chunk begins with the last line, so the table is filled from its end
downwards. Both ends are patched afterwards.

The table in memory and the lookup file are two encodings of one table: the offset of
line `i` stands at position `i` of the one and `i` entries before the end of the other.
-/

import Flashlight.Index

namespace Flashlight

open Flashlight.Math

/-- An in-memory index. -/
structure FLookupMem where
  /-- The number of allocated values. -/
  len : UInt64
  /-- The line offsets; a value that was not written yet is `none`. -/
  values : List (Option UInt64)
  deriving DecidableEq, Repr

/-- What the environment decides while a lookup is built. -/
structure LookupMemEnv where
  /-- The lookup can be allocated. -/
  initAlloc : Bool
  /-- The values can be allocated. -/
  valuesAlloc : Bool
  deriving DecidableEq, Repr

/-- How building a lookup in memory ends. -/
inductive LookupMemResult
  /-- The return code `0` and the lookup. -/
  | built (lookup : FLookupMem)
  /-- The return code `-1`. -/
  | failed
  /-- A write falls outside the values, a value is read that was never written, or the
  list does not end. -/
  | undefined
  deriving DecidableEq, Repr

/-- `values[i] = offset` -/
def writeValue (values : List (Option UInt64)) (i : Int) (offset : UInt64) :
    Option (List (Option UInt64)) :=
  if 0 ≤ i ∧ i < values.length then some (values.set i.toNat (some offset)) else none

/-- The loop of `f_lookup_mem_from_chunk` over the list of the chunk. -/
def fillValues : List FBytesNode → Int32 → List (Option UInt64) → Option (List (Option UInt64))
  | [], _, values => some values
  | current :: nodes, i, values =>
      (writeValue values i.toInt current.offset).bind (fillValues nodes (i - 1))

/-- `f_lookup_mem_from_chunk` -/
def fLookupMemFromChunk (env : LookupMemEnv) (heap : Heap) (chunk : FChunk) :
    LookupMemResult :=
  if env.initAlloc = false then .failed
  else if env.valuesAlloc = false then .failed
  else
    let len := chunk.lineCount
    let written := do
      let nodes ← heap.toList chunk.first
      let values ← fillValues nodes len.toInt32 (List.replicate (len + 2).toNat none)
      let values ← writeValue values 0 0
      let value ← values[len.toNat]?.join
      writeValue values (len + 1).toNat value
    match written with
    | some values => .built { len := (len + 2).toUInt64, values := values }
    | none => .undefined

/-- The entry of the lookup file at a position of the table. -/
def FLookupFile.entry (lookup : FLookupFile) (position : ℕ) : Option UInt64 :=
  let bytes := (lookup.contents.drop (position * 8)).take 8
  if bytes.length = 8 then some (.ofNat (ofBytes bytes)) else none

/-! ## Filling the values -/

/-- A write inside the values. -/
theorem writeValue_eq {values : List (Option UInt64)} {i : Int} {k : ℕ} (offset : UInt64)
    (hi : i = k) (hk : k < values.length) :
    writeValue values i offset = some (values.set k (some offset)) := by
  subst hi
  rw [writeValue, if_pos ⟨Int.natCast_nonneg k, by exact_mod_cast hk⟩, Int.toNat_natCast]

/-- The loop writes its offsets, last one first, into the values that end at index `k`
and leaves the others alone. -/
theorem fillValues_eq {nodes : List FBytesNode} {i : Int32} {k : ℕ}
    {values : List (Option UInt64)} (hi : i.toInt = k) (hfit : nodes.length ≤ k)
    (hk : k < values.length) :
    fillValues nodes i values = some (values.take (k + 1 - nodes.length) ++
      (nodes.reverse.map fun node => some node.offset) ++ values.drop (k + 1)) := by
  induction nodes generalizing i k values with
  | nil => simp [fillValues]
  | cons node nodes ih =>
      obtain ⟨k, rfl⟩ : ∃ m, k = m + 1 := ⟨k - 1, by simp at hfit; omega⟩
      have hrange := i.toInt_lt
      have hpred : (i - 1).toInt = k := by
        rw [Int32.toInt_sub, hi, Int32.toInt_one, Int.bmod_eq_of_le] <;> omega
      have hrest : nodes.length ≤ k := by simpa using hfit
      rw [fillValues, writeValue_eq node.offset hi hk, Option.bind_some,
        ih hpred hrest (by rw [List.length_set]; omega)]
      have hcell : (values.set (k + 1) (some node.offset)).drop (k + 1) =
          some node.offset :: values.drop (k + 2) := by
        rw [List.set_eq_take_append_cons_drop, if_pos hk, List.drop_append,
          List.drop_eq_nil_of_le (by rw [List.length_take]; omega), List.length_take]
        simp [Nat.min_eq_left (Nat.le_of_lt hk)]
      rw [List.take_set_of_le (by omega), hcell, List.length_cons, Nat.add_sub_add_right]
      simp

/-- The offsets of the lines: the first line begins at `0`, the others just after a
newline. -/
def lineOffsets (nodes : List FBytesNode) : List UInt64 :=
  0 :: nodes.reverse.map FBytesNode.offset

@[simp]
theorem length_lineOffsets (nodes : List FBytesNode) :
    (lineOffsets nodes).length = nodes.length + 1 := by
  simp [lineOffsets]

theorem lineOffsets_ne_nil (nodes : List FBytesNode) : lineOffsets nodes ≠ [] :=
  List.cons_ne_nil _ _

section

variable {heap : Heap} {chunk : FChunk} {nodes : List FBytesNode}

/-- **What the builder leaves in memory.** The offsets of the lines in order, with the
last one repeated behind them. -/
theorem fLookupMemFromChunk_eq {env : LookupMemEnv} (hinit : env.initAlloc = true)
    (hvalues : env.valuesAlloc = true) (hlist : heap.toList chunk.first = some nodes)
    (hcount : chunk.lineCount.toNat = nodes.length) (hsize : nodes.length + 2 < 2 ^ 31) :
    fLookupMemFromChunk env heap chunk = .built {
      len := .ofNat (nodes.length + 2)
      values := (lineOffsets nodes ++
        [(lineOffsets nodes).getLast (lineOffsets_ne_nil nodes)]).map some } := by
  have hlen : (chunk.lineCount + 2).toNat = nodes.length + 2 := by
    rw [UInt32.toNat_add, hcount]
    exact Nat.mod_eq_of_lt (by change nodes.length + 2 < 2 ^ 32; omega)
  have hlast : (chunk.lineCount + 1).toNat = nodes.length + 1 := by
    rw [UInt32.toNat_add, hcount]
    exact Nat.mod_eq_of_lt (by change nodes.length + 1 < 2 ^ 32; omega)
  have hcounter : chunk.lineCount.toInt32.toInt = nodes.length := by
    rw [toInt_toInt32 (by omega), hcount]
  -- The loop leaves the first and the last value unwritten.
  have hfill : fillValues nodes chunk.lineCount.toInt32 (List.replicate (nodes.length + 2) none) =
      some (none :: (nodes.reverse.map fun node => some node.offset) ++ [none]) := by
    rw [fillValues_eq hcounter le_rfl (by simp), Nat.add_sub_cancel_left, List.take_replicate,
      List.drop_replicate, Nat.min_eq_left (by omega),
      show nodes.length + 2 - (nodes.length + 1) = 1 by omega]
    rfl
  have hfirst : writeValue (none :: (nodes.reverse.map fun node => some node.offset) ++ [none])
      0 0 = some ((lineOffsets nodes).map some ++ [none]) := by
    rw [writeValue_eq 0 Int.natCast_zero.symm (by simp)]
    simp [lineOffsets, Function.comp_def]
  have hread : ((lineOffsets nodes).map some ++ [none])[nodes.length]?.join =
      some ((lineOffsets nodes).getLast (lineOffsets_ne_nil nodes)) := by
    rw [List.getElem?_append_left (by simp), List.getElem?_map, List.getLast_eq_getElem]
    simp
  have hpatch : writeValue ((lineOffsets nodes).map some ++ [none]) ((nodes.length + 1 : ℕ) : ℤ)
      ((lineOffsets nodes).getLast (lineOffsets_ne_nil nodes)) =
      some ((lineOffsets nodes ++
        [(lineOffsets nodes).getLast (lineOffsets_ne_nil nodes)]).map some) := by
    rw [writeValue_eq _ rfl (by simp), List.set_append_right _ _ (by simp)]
    simp
  have hlenSize : (chunk.lineCount + 2).toUInt64 = .ofNat (nodes.length + 2) := by
    apply UInt64.toNat_inj.mp
    rw [UInt32.toNat_toUInt64, hlen, UInt64.toNat_ofNat_of_lt' (by simp [UInt64.size]; omega)]
  rw [fLookupMemFromChunk, if_neg (by simp [hinit]), if_neg (by simp [hvalues])]
  simp only [hlist, hlen, hcount, hlast, hlenSize, hfill, hfirst, hread, hpatch,
    Option.bind_eq_bind, Option.bind_some]

/-! ## The same table in the lookup file -/

/-- The file holds the offsets of the lines, last one first. -/
theorem fLookupFileFromChunk_eq_lineOffsets {out : Option FLookupFile}
    (hlist : heap.toList chunk.first = some nodes) :
    fLookupFileFromChunk heap out chunk true true = some {
      contents := (lineOffsets nodes).reverse.flatMap sizeBytes
      len := chunk.lineCount + 1 } := by
  rw [fLookupFileFromChunk_eq true hlist rfl]
  simp [fLookupFileInit, lineOffsets]

/-- An entry of a table of whole records. -/
theorem entry_eq {lookup : FLookupFile} {table : List UInt64} {position : ℕ} {offset : UInt64}
    (hcontents : lookup.contents = table.flatMap sizeBytes)
    (hposition : table[position]? = some offset) : lookup.entry position = some offset := by
  rw [FLookupFile.entry, hcontents, take_drop_flatMap length_sizeBytes hposition]
  simp [ofBytes_sizeBytes]

/-- The lookups hold the same table of a target file with the given number of newlines:
every value in memory is written, and the value of a line is the entry that a lookup of
that line reads in the file. -/
structure FLookupMem.SameTable (mem : FLookupMem) (file : FLookupFile) (lines : ℕ) : Prop where
  len_eq : mem.len.toNat = lines + 2
  length_eq : mem.values.length = lines + 2
  written : ∀ cell ∈ mem.values, cell ≠ none
  value_eq : ∀ i ≤ lines, ∃ offset, mem.values[i]? = some (some offset) ∧
    file.entry (file.maxLine.toNat - i) = some offset
  repeated : mem.values[lines + 1]? = mem.values[lines]?

/-- **The two lookups encode the same table**, and building the one in memory writes
inside its values only. -/
theorem fLookupMemFromChunk_sameTable {env : LookupMemEnv} {out : Option FLookupFile}
    (hinit : env.initAlloc = true) (hvalues : env.valuesAlloc = true)
    (hlist : heap.toList chunk.first = some nodes)
    (hcount : chunk.lineCount.toNat = nodes.length) (hsize : nodes.length + 2 < 2 ^ 31) :
    ∃ mem file, fLookupMemFromChunk env heap chunk = .built mem ∧
      fLookupFileFromChunk heap out chunk true true = some file ∧
      mem.SameTable file nodes.length := by
  refine ⟨_, _, fLookupMemFromChunk_eq hinit hvalues hlist hcount hsize,
    fLookupFileFromChunk_eq_lineOffsets hlist, ?_⟩
  constructor
  case len_eq => exact UInt64.toNat_ofNat_of_lt' (by simp only [UInt64.size]; omega)
  case length_eq => simp
  case written =>
    intro cell hcell
    obtain ⟨offset, -, rfl⟩ := List.mem_map.mp hcell
    exact Option.some_ne_none offset
  case value_eq =>
    intro i hi
    have hline : i < (lineOffsets nodes).length := by
      rw [length_lineOffsets]
      omega
    have hmax : (chunk.lineCount + 1 - 1).toUInt64.toNat = nodes.length := by
      rw [UInt32.add_sub_cancel, UInt32.toNat_toUInt64, hcount]
    refine ⟨(lineOffsets nodes)[i], ?_, ?_⟩
    · rw [List.getElem?_map, List.getElem?_append_left hline, List.getElem?_eq_getElem hline]
      rfl
    · apply entry_eq rfl
      rw [FLookupFile.maxLine, hmax, List.getElem?_reverse (by rw [length_lineOffsets]; omega),
        length_lineOffsets, show nodes.length + 1 - 1 - (nodes.length - i) = i by omega,
        List.getElem?_eq_getElem hline]
  case repeated =>
    rw [List.getElem?_map, List.getElem?_map, List.getElem?_append_right (by simp),
      List.getElem?_append_left (by simp), List.getLast_eq_getElem]
    simp

end

/-- The table of a target file with two newlines. -/
theorem fLookupMemFromChunk_sameTable_two :
    ∃ mem file, fLookupMemFromChunk ⟨true, true⟩ threeNodes twoNodesChunk = .built mem ∧
      fLookupFileFromChunk threeNodes none twoNodesChunk true true = some file ∧
      mem.SameTable file 2 :=
  fLookupMemFromChunk_sameTable rfl rfl
    (show threeNodes.toList twoNodesChunk.first = some [⟨⟨true, 6⟩, ⟨0, 2⟩⟩, ⟨⟨true, 4⟩, ⟨0, 2⟩⟩]
      by decide) rfl (by decide)

end Flashlight
