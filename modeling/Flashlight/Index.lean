/-
# Looking lines up

`f_index_lookup` finds the bytes of a run of lines with two reads of the lookup file
and one of the target file. Entries are addressed from the end of the table, where
the closing `0` stands for line `0`.

Over an exact table the function returns the lines that were asked for, as long as a
newline ends them; the offsets it computes stay on the entries of the table.
-/

import Flashlight.Lookup

namespace Flashlight

open Flashlight.Math

/-- An index: the target file and its lookup file. -/
structure FIndex where
  /-- The target file. -/
  target : TargetFile
  /-- The lookup file. -/
  flookup : FLookupFile

/-- What the environment decides during one lookup. -/
structure LookupEnv where
  /-- The read of the start entry. -/
  startRead : Delivery
  /-- The read of the end entry. -/
  endRead : Delivery
  /-- Finest logging is on, which reads the first entry as well. -/
  fine : Bool
  /-- The read of the first entry. -/
  zeroRead : Delivery
  /-- The read buffer can be allocated. -/
  bufferAlloc : Bool
  /-- The read of the lines. -/
  dataRead : Delivery
  /-- The string can be allocated. -/
  stringAlloc : Bool
  deriving DecidableEq, Repr

/-- How a lookup ends. -/
inductive LookupResult
  /-- The return code and the string without its terminator, if there is one. -/
  | returns (rc : Int32) (out : Option (List UInt8))
  /-- A comparison reads memory that was never written, or an offset overflows. -/
  | undefined
  deriving DecidableEq, Repr

/-- The string of a lookup that succeeds. -/
def LookupResult.string : LookupResult → Option (List UInt8)
  | .returns rc out => if rc = 0 then out else none
  | .undefined => none

/-- The positions in the lookup file of the two entries that enclose `count` lines
from line `start` on, for a table whose last entry has the index `max`. -/
def lookupOffsets (max start count : UInt64) : Option (Int64 × Int64) :=
  let zeroOffset := max * 8
  let startOffset := (zeroOffset - start * 8).toInt64
  let countOffset := (count * 8).toInt64
  let difference := startOffset.toInt - countOffset.toInt
  if difference < -2 ^ 63 ∨ 2 ^ 63 ≤ difference then none
  else some (startOffset, if difference ≤ 0 then 0 else startOffset - countOffset)

/-- The lines between two entries of the table that were read into memory. -/
def readLines (env : LookupEnv) (index : FIndex) (startBytes endBytes : List UInt8) :
    LookupResult :=
  if startBytes.length < 8 ∨ endBytes.length < 8 then .undefined
  else
    let startByte : UInt64 := .ofNat (ofBytes startBytes)
    let endByte : UInt64 := .ofNat (ofBytes endBytes)
    if startByte > endByte then .returns (-1) none
    else if env.bufferAlloc = false then .returns (-1) none
    else
      match pread index.target.bytes (endByte - startByte) startByte.toInt64 env.dataRead with
      | none => .returns (-1) none
      | some data => if env.stringAlloc then .returns 0 (some data) else .returns (-1) none

/-- The largest line index that a lookup accepts: `len - 1`, computed as an
`unsigned int`. -/
def FLookupFile.maxLine (flookup : FLookupFile) : UInt64 :=
  (flookup.len - 1).toUInt64

/-- The number of lines that a lookup really fetches. -/
def clampedCount (max start count : UInt64) : UInt64 :=
  if start + count > max then max - start else count

/-- `f_index_lookup` -/
def fIndexLookup (env : LookupEnv) (index : FIndex) (start count : UInt64) : LookupResult :=
  if start > index.flookup.maxLine then .returns 0 none
  else
    match lookupOffsets index.flookup.maxLine start
        (clampedCount index.flookup.maxLine start count) with
    | none => .undefined
    | some (startOffset, endOffset) =>
        match pread index.flookup.contents 8 startOffset env.startRead with
        | none => .returns 0 none
        | some startBytes =>
            match pread index.flookup.contents 8 endOffset env.endRead with
            | none => .returns 0 none
            | some endBytes =>
                if env.fine = true ∧ pread index.flookup.contents 8 0 env.zeroRead = none then
                  .returns 0 none
                else readLines env index startBytes endBytes

/-- All reads deliver everything and all allocations succeed. -/
structure LookupEnv.Reliable (env : LookupEnv) (index : FIndex) : Prop where
  startRead : env.startRead.Full index.flookup.contents
  endRead : env.endRead.Full index.flookup.contents
  zeroRead : env.zeroRead.Full index.flookup.contents
  bufferAlloc : env.bufferAlloc = true
  dataRead : env.dataRead.Full index.target.bytes
  stringAlloc : env.stringAlloc = true

/-! ## Exact indexes -/

/-- The offset just after newline `k` of the file; `0` for `k = 0`. -/
def lineOffset (bytes : List UInt8) (k : ℕ) : ℕ :=
  lineStart isNewline bytes k

/-- The number of newlines. -/
def newlineCount (bytes : List UInt8) : ℕ :=
  bytes.countP isNewline

/-- The entries of an exact table: the offsets just after the newlines, last one
first, and a `0`. -/
def exactEntries (bytes : List UInt8) : List UInt64 :=
  ((newlineEnds bytes).reverse ++ [0]).map UInt64.ofNat

/-- The lookup file of the index is the exact table of the target file. -/
structure FIndex.Exact (index : FIndex) : Prop where
  contents_eq : index.flookup.contents = (exactEntries index.target.bytes).flatMap sizeBytes
  len_eq : index.flookup.len.toNat = newlineCount index.target.bytes + 1

theorem toNat_lineOffset (target : TargetFile) (k : ℕ) :
    (UInt64.ofNat (lineOffset target.bytes k)).toNat = lineOffset target.bytes k := by
  apply UInt64.toNat_ofNat_of_lt'
  have hle : lineOffset target.bytes k ≤ target.bytes.length := lineStart_le_length _ _ k
  have hsize := target.size_lt
  simp only [UInt64.size]
  omega

/-- Line `k` stands `k` entries before the end of the table. -/
theorem getElem?_exactEntries {bytes : List UInt8} {k : ℕ} (hk : k ≤ newlineCount bytes) :
    (exactEntries bytes)[newlineCount bytes - k]? = some (.ofNat (lineOffset bytes k)) := by
  rw [exactEntries, List.getElem?_map]
  have hentry := getElem?_reverse_lineStarts (show k ≤ bytes.countP isNewline from hk)
  rw [newlineCount, newlineEnds, hentry]
  rfl

section

variable {index : FIndex} (hexact : index.Exact)
include hexact

theorem FIndex.Exact.toNat_maxLine :
    index.flookup.maxLine.toNat = newlineCount index.target.bytes := by
  have hlen := hexact.len_eq
  have hlt := index.flookup.len.toNat_lt
  rw [FLookupFile.maxLine, UInt32.toNat_toUInt64, UInt32.toNat_sub_of_le]
  · rw [hlen]
    rfl
  · rw [UInt32.le_iff_toNat_le, hlen]
    exact Nat.le_add_left 1 _

/-- A full read at the entry of line `k` returns its offset. -/
theorem FIndex.Exact.pread_entry {delivery : Delivery} {offset : Int64} {k : ℕ}
    (hfull : delivery.Full index.flookup.contents) (hk : k ≤ newlineCount index.target.bytes)
    (hoffset : offset.toInt = ((newlineCount index.target.bytes - k) * 8 : ℕ)) :
    pread index.flookup.contents 8 offset delivery =
      some (sizeBytes (.ofNat (lineOffset index.target.bytes k))) := by
  rw [pread_of_full hfull (by omega), hoffset, hexact.contents_eq]
  exact congrArg some (take_drop_flatMap length_sizeBytes (getElem?_exactEntries hk))

end

/-- What chunks leave that hold the newline offsets of the target, last one first: the entries
are exact, whatever their number is. -/
theorem fromChunks_eq_of_offsets {target : TargetFile} {calls : List (Heap × FChunk)}
    {nodes : List (List FBytesNode)} (hcalls : List.Forall₂ HoldsWrapped calls nodes)
    (hne : calls ≠ [])
    (hoffsets : nodes.flatten.map (fun node => node.offset.toNat) =
      (newlineEnds target.bytes).reverse) :
    fromChunks none calls = some {
      contents := (exactEntries target.bytes).flatMap sizeBytes
      len := .ofNat (newlineCount target.bytes + 1) } := by
  have hentries : nodes.flatten.map FBytesNode.offset ++ [0] = exactEntries target.bytes := by
    rw [exactEntries, ← hoffsets, List.map_append, List.map_map]
    congr 1
    refine List.map_congr_left fun node _ => ?_
    simp
  have hlength : nodes.flatten.length = newlineCount target.bytes := by
    have hlen := congrArg List.length hoffsets
    rwa [List.length_map, List.length_reverse, newlineEnds, length_sepEnds] at hlen
  rw [fromChunks_eq hcalls hne, hentries, hlength]

/-- Chunks that hold the newline offsets of the target, last one first, leave an
exact table. -/
theorem exact_of_fromChunks {target : TargetFile} {calls : List (Heap × FChunk)}
    {nodes : List (List FBytesNode)} (hcalls : List.Forall₂ HoldsCounted calls nodes)
    (hne : calls ≠ [])
    (hoffsets : nodes.flatten.map (fun node => node.offset.toNat) =
      (newlineEnds target.bytes).reverse)
    (hcount : newlineCount target.bytes + 1 < 2 ^ 32) :
    ∃ lookup, fromChunks none calls = some lookup ∧ FIndex.Exact ⟨target, lookup⟩ :=
  ⟨_, fromChunks_eq_of_offsets (hcalls.imp fun _ _ => HoldsCounted.wrapped) hne hoffsets, rfl,
    UInt32.toNat_ofNat_of_lt' hcount⟩

/-- For lines that the table knows, the offsets are those of entries. -/
theorem lookupOffsets_eq {max start count : UInt64} (hmax : max.toNat < 2 ^ 32)
    (hlines : start.toNat + count.toNat ≤ max.toNat) :
    ∃ startOffset endOffset, lookupOffsets max start count = some (startOffset, endOffset) ∧
      startOffset.toInt = ((max.toNat - start.toNat) * 8 : ℕ) ∧
      endOffset.toInt = ((max.toNat - (start.toNat + count.toNat)) * 8 : ℕ) := by
  have hstart : (max * 8 - start * 8).toNat = (max.toNat - start.toNat) * 8 := by
    simp only [UInt64.toNat_sub, UInt64.toNat_mul, UInt64.toNat_ofNat]
    omega
  have hcount : (count * 8).toNat = count.toNat * 8 := by
    simp only [UInt64.toNat_mul, UInt64.toNat_ofNat]
    omega
  have hstartInt : (max * 8 - start * 8).toInt64.toInt = ((max.toNat - start.toNat) * 8 : ℕ) := by
    rw [toInt_toInt64 (by omega), hstart]
  have hcountInt : (count * 8).toInt64.toInt = (count.toNat * 8 : ℕ) := by
    rw [toInt_toInt64 (by omega), hcount]
  simp only [lookupOffsets, hstartInt, hcountInt]
  rw [if_neg (by omega)]
  refine ⟨_, _, rfl, hstartInt, ?_⟩
  split
  · rw [Int64.toInt_zero]
    omega
  · rw [Int64.toInt_sub, hstartInt, hcountInt, Int.bmod_eq_of_le] <;> omega

theorem toNat_clampedCount {max start count : UInt64} (hstart : start.toNat ≤ max.toNat)
    (hsum : start.toNat + count.toNat < 2 ^ 64) :
    start.toNat + (clampedCount max start count).toNat =
      min (start.toNat + count.toNat) max.toNat := by
  have hadd : (start + count).toNat = start.toNat + count.toNat := by
    rw [UInt64.toNat_add]
    omega
  rw [clampedCount]
  split
  · next hgt =>
      rw [gt_iff_lt, UInt64.lt_iff_toNat_lt, hadd] at hgt
      rw [UInt64.toNat_sub_of_le _ _ (UInt64.le_iff_toNat_le.mpr hstart)]
      omega
  · next hle =>
      rw [gt_iff_lt, UInt64.lt_iff_toNat_lt, hadd] at hle
      omega

/-- The bytes from line `j` up to line `k`. -/
def lineBytes (bytes : List UInt8) (j k : ℕ) : List UInt8 :=
  slice bytes (lineOffset bytes j) (lineOffset bytes k)

section

variable {index : FIndex} {env : LookupEnv}

/-- Between two entries stand the lines that they enclose. -/
theorem readLines_eq {j k : ℕ} (henv : env.Reliable index) (hjk : j ≤ k) :
    readLines env index (sizeBytes (.ofNat (lineOffset index.target.bytes j)))
        (sizeBytes (.ofNat (lineOffset index.target.bytes k))) =
      .returns 0 (some (lineBytes index.target.bytes j k)) := by
  have hle : lineOffset index.target.bytes j ≤ lineOffset index.target.bytes k :=
    lineStart_mono _ _ hjk
  have hk : lineOffset index.target.bytes k ≤ index.target.bytes.length :=
    lineStart_le_length _ _ k
  have hsize := index.target.size_lt
  have hjNat := toNat_lineOffset index.target j
  have hkNat := toNat_lineOffset index.target k
  have hgt : ¬ (UInt64.ofNat (lineOffset index.target.bytes j) >
      .ofNat (lineOffset index.target.bytes k)) := by
    rw [gt_iff_lt, UInt64.lt_iff_toNat_lt, hjNat, hkNat]
    omega
  have hsub : (UInt64.ofNat (lineOffset index.target.bytes k) -
      .ofNat (lineOffset index.target.bytes j)).toNat =
      lineOffset index.target.bytes k - lineOffset index.target.bytes j := by
    rw [UInt64.toNat_sub_of_le, hjNat, hkNat]
    exact UInt64.not_lt.mp hgt
  have hoffset : (UInt64.ofNat (lineOffset index.target.bytes j)).toInt64.toInt =
      lineOffset index.target.bytes j := by
    rw [toInt_toInt64 (by omega), hjNat]
  unfold readLines
  rw [if_neg (by simp)]
  simp only [ofBytes_sizeBytes, UInt64.ofNat_toNat, if_neg hgt, henv.bufferAlloc,
    henv.stringAlloc, pread_of_full henv.dataRead (show (0 : ℤ) ≤ _ by rw [hoffset]; omega),
    hoffset, hsub]
  simp [lineBytes, slice_eq_take_drop]

/-- **Lookups over an exact index.** Past the last newline there is nothing; otherwise
the result is the lines from `start` on, `count` of them or as many as are ended by a
newline. -/
theorem FIndex.Exact.fIndexLookup_eq {start count : UInt64} (hexact : index.Exact)
    (henv : env.Reliable index) (hsum : start.toNat + count.toNat < 2 ^ 64) :
    fIndexLookup env index start count = .returns 0
      (if newlineCount index.target.bytes < start.toNat then none
        else some (lineBytes index.target.bytes start.toNat
          (min (start.toNat + count.toNat) (newlineCount index.target.bytes)))) := by
  have hmax := hexact.toNat_maxLine
  have hlen := index.flookup.len.toNat_lt
  rw [hexact.len_eq] at hlen
  by_cases hpast : newlineCount index.target.bytes < start.toNat
  · have hgt : start > index.flookup.maxLine := by
      rw [gt_iff_lt, UInt64.lt_iff_toNat_lt, hmax]
      exact hpast
    rw [fIndexLookup, if_pos hgt, if_pos hpast]
  · have hgt : ¬ start > index.flookup.maxLine := by
      rw [gt_iff_lt, UInt64.lt_iff_toNat_lt, hmax]
      exact hpast
    have hclamp : start.toNat + (clampedCount index.flookup.maxLine start count).toNat =
        min (start.toNat + count.toNat) index.flookup.maxLine.toNat :=
      toNat_clampedCount (by omega) hsum
    obtain ⟨startOffset, endOffset, hoffsets, hstart, hend⟩ :=
      lookupOffsets_eq (show index.flookup.maxLine.toNat < 2 ^ 32 by omega)
        (show start.toNat + (clampedCount index.flookup.maxLine start count).toNat ≤ _ by omega)
    rw [hclamp, hmax] at hend
    rw [hmax] at hstart
    have hstartRead := hexact.pread_entry henv.startRead (by omega) hstart
    have hendRead := hexact.pread_entry henv.endRead (by omega) hend
    have hzeroRead : pread index.flookup.contents 8 0 env.zeroRead ≠ none := by
      rw [pread_of_full henv.zeroRead (by decide)]
      simp
    rw [fIndexLookup, if_neg hgt, if_neg hpast]
    simp only [hoffsets, hstartRead, hendRead, hzeroRead, and_false, if_false]
    exact readLines_eq henv (by omega)

end

end Flashlight
