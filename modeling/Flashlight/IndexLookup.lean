/-
# What a reader of an index gets

The chunks that the indexer hands over, one call after another, leave an exact
table behind, so lookups return the lines of the target file. Reading line by line
returns everything up to the last newline; a last line without one is out of reach.
-/

import Flashlight.Index

namespace Flashlight

open Flashlight.Math

/-! ## Lookups decode what was written -/

/-- **Lookup decodes what the indexer encodes.** Whatever chunks wrote the table, a
lookup returns the lines it asks for, clamped to the last newline, and reads both
offsets at entries of the table. -/
theorem fIndexLookup_of_fromChunks {target : TargetFile} {calls : List (Heap × FChunk)}
    {nodes : List (List FBytesNode)} (hcalls : List.Forall₂ HoldsCounted calls nodes)
    (hne : calls ≠ [])
    (hoffsets : nodes.flatten.map (fun node => node.offset.toNat) =
      (newlineEnds target.bytes).reverse)
    (hcount : newlineCount target.bytes + 1 < 2 ^ 32) :
    ∃ lookup, fromChunks none calls = some lookup ∧
      ∀ (env : LookupEnv) (start count : UInt64), env.Reliable ⟨target, lookup⟩ →
        start.toNat + count.toNat < 2 ^ 64 →
        fIndexLookup env ⟨target, lookup⟩ start count = .returns 0
          (if newlineCount target.bytes < start.toNat then none
            else some (slice target.bytes (lineOffset target.bytes start.toNat)
              (lineOffset target.bytes
                (min (start.toNat + count.toNat) (newlineCount target.bytes))))) ∧
        (start.toNat ≤ newlineCount target.bytes →
          ∃ startOffset endOffset j k, lookupOffsets lookup.maxLine start
              (clampedCount lookup.maxLine start count) = some (startOffset, endOffset) ∧
            startOffset.toInt = (j * 8 : ℕ) ∧ endOffset.toInt = (k * 8 : ℕ) ∧
            lookup.contents.length = (newlineCount target.bytes + 1) * 8 ∧
            j ≤ newlineCount target.bytes ∧ k ≤ newlineCount target.bytes) := by
  obtain ⟨lookup, hlookup, hexact⟩ := exact_of_fromChunks hcalls hne hoffsets hcount
  refine ⟨lookup, hlookup, fun env start count henv hsum => ⟨?_, fun hstart => ?_⟩⟩
  · exact hexact.fIndexLookup_eq henv hsum
  · have hmax : lookup.maxLine.toNat = newlineCount target.bytes := hexact.toNat_maxLine
    have hclamp : start.toNat + (clampedCount lookup.maxLine start count).toNat =
        min (start.toNat + count.toNat) lookup.maxLine.toNat :=
      toNat_clampedCount (by omega) hsum
    obtain ⟨startOffset, endOffset, hpair, hfrom, hto⟩ :=
      lookupOffsets_eq (show lookup.maxLine.toNat < 2 ^ 32 by omega)
        (show start.toNat + (clampedCount lookup.maxLine start count).toNat ≤ _ by omega)
    have hsize : lookup.contents.length = (newlineCount target.bytes + 1) * 8 := by
      have hcontents : lookup.contents = _ := hexact.contents_eq
      rw [hcontents, length_flatMap_of_width length_sizeBytes]
      simp [exactEntries, newlineEnds, newlineCount]
    exact ⟨startOffset, endOffset, _, _, hpair, hfrom, hto, hsize, by omega, by omega⟩

/-- An environment whose reads deliver up to `n` bytes. -/
def generousEnv (n : ℕ) : LookupEnv where
  startRead := some n
  endRead := some n
  fine := false
  zeroRead := some n
  bufferAlloc := true
  dataRead := some n
  stringAlloc := true

theorem reliable_generousEnv {index : FIndex} {n : ℕ} (htable : index.flookup.contents.length ≤ n)
    (htarget : index.target.bytes.length ≤ n) : (generousEnv n).Reliable index where
  startRead := ⟨n, rfl, htable⟩
  endRead := ⟨n, rfl, htable⟩
  zeroRead := ⟨n, rfl, htable⟩
  bufferAlloc := rfl
  dataRead := ⟨n, rfl, htarget⟩
  stringAlloc := rfl

/-- A chunk with this node, and a heap of its own. -/
def oneNode (node : FBytesNode) : Heap × FChunk :=
  ([⟨node, none⟩], ⟨0, some 0, some 0, false, 1⟩)

theorem holdsCounted_oneNode (node : FBytesNode) : HoldsCounted (oneNode node) [node] :=
  ⟨⟨[(0, node)], ⟨⟨rfl, none, rfl, rfl⟩, rfl, rfl⟩, rfl⟩, rfl⟩

/-- The lines of `pairFile`, written through two chunks: the second line on its own, both lines,
and nothing behind them. -/
theorem fIndexLookup_of_fromChunks_pair : ∃ lookup,
    fromChunks none [oneNode ⟨⟨true, 4⟩, ⟨0, 2⟩⟩, oneNode ⟨⟨true, 2⟩, ⟨0, 0⟩⟩] = some lookup ∧
    fIndexLookup (generousEnv 24) ⟨pairFile 97, lookup⟩ 1 1 = .returns 0 (some [98, newline]) ∧
    fIndexLookup (generousEnv 24) ⟨pairFile 97, lookup⟩ 0 5 =
      .returns 0 (some [97, newline, 98, newline]) ∧
    fIndexLookup (generousEnv 24) ⟨pairFile 97, lookup⟩ 3 1 = .returns 0 none := by
  obtain ⟨lookup, hlookup, hlines⟩ := @fIndexLookup_of_fromChunks (pairFile 97) _ _
    (.cons (holdsCounted_oneNode ⟨⟨true, 4⟩, ⟨0, 2⟩⟩)
      (.cons (holdsCounted_oneNode ⟨⟨true, 2⟩, ⟨0, 0⟩⟩) .nil))
    (by simp) (by decide) (by decide)
  obtain rfl : lookup = ⟨sizeBytes 4 ++ sizeBytes 2 ++ sizeBytes 0, 3⟩ :=
    Option.some.inj (hlookup.symm.trans (by decide))
  have hreliable : (generousEnv 24).Reliable
      ⟨pairFile 97, ⟨sizeBytes 4 ++ sizeBytes 2 ++ sizeBytes 0, 3⟩⟩ :=
    reliable_generousEnv (by decide) (by decide)
  refine ⟨_, hlookup, ?_, ?_, ?_⟩
  · exact (hlines _ 1 1 hreliable (by decide)).1.trans (by decide)
  · exact (hlines _ 0 5 hreliable (by decide)).1.trans (by decide)
  · exact (hlines _ 3 1 hreliable (by decide)).1.trans (by decide)

/-! ## Lookups without short reads -/

/-- The string that a lookup finds when all reads deliver everything. -/
def readLookup (index : FIndex) (start count : UInt64) : Option (List UInt8) :=
  (fIndexLookup (generousEnv (index.flookup.contents.length + index.target.bytes.length)) index
    start count).string

/-- A read that does not fail delivers everything. -/
def Delivery.Honest (delivery : Delivery) (contents : List UInt8) : Prop :=
  delivery = none ∨ delivery.Full contents

/-- No read of the lookup is short. -/
structure LookupEnv.Honest (env : LookupEnv) (index : FIndex) : Prop where
  startRead : env.startRead.Honest index.flookup.contents
  endRead : env.endRead.Honest index.flookup.contents
  dataRead : env.dataRead.Honest index.target.bytes

instance (delivery : Delivery) (contents : List UInt8) : Decidable (delivery.Full contents) :=
  match delivery with
  | none => .isFalse fun ⟨_, hnone, _⟩ => by cases hnone
  | some n => decidable_of_iff (contents.length ≤ n)
      ⟨fun h => ⟨n, rfl, h⟩, fun ⟨_, hn, h⟩ => Option.some.inj hn ▸ h⟩

instance (delivery : Delivery) (contents : List UInt8) : Decidable (delivery.Honest contents) :=
  inferInstanceAs (Decidable (delivery = none ∨ delivery.Full contents))

instance (env : LookupEnv) (index : FIndex) : Decidable (env.Honest index) :=
  decidable_of_iff (env.startRead.Honest index.flookup.contents ∧
      env.endRead.Honest index.flookup.contents ∧ env.dataRead.Honest index.target.bytes)
    ⟨fun ⟨hstart, hend, hdata⟩ => ⟨hstart, hend, hdata⟩,
      fun ⟨hstart, hend, hdata⟩ => ⟨hstart, hend, hdata⟩⟩

/-- What an honest read delivers is what any full read delivers. -/
theorem pread_of_honest {contents data : List UInt8} {count : UInt64} {offset : Int64}
    {delivery full : Delivery} (hhonest : delivery.Honest contents) (hfull : full.Full contents)
    (hread : pread contents count offset delivery = some data) :
    pread contents count offset full = some data := by
  obtain ⟨n, rfl, hn⟩ := hfull
  rcases hhonest with rfl | ⟨m, rfl, hm⟩
  · cases hread
  · rw [← hread]
    simp only [pread]
    have htake : ∀ k, contents.length ≤ k →
        (((contents.drop offset.toInt.toNat).take count.toNat).take k) =
          (contents.drop offset.toInt.toNat).take count.toNat := by
      intro k hk
      apply List.take_of_length_le
      rw [List.length_take, List.length_drop]
      omega
    rw [htake n hn, htake m hm]

theorem readLines_of_honest {env full : LookupEnv} {index : FIndex}
    {startBytes endBytes bytes : List UInt8} (henv : env.Honest index) (hfull : full.Reliable index)
    (hlines : (readLines env index startBytes endBytes).string = some bytes) :
    (readLines full index startBytes endBytes).string = some bytes := by
  unfold readLines at hlines
  split at hlines
  · cases hlines
  · next hlength =>
      simp only at hlines
      split at hlines
      · cases hlines
      · next hgt =>
          split at hlines
          · cases hlines
          · split at hlines
            · cases hlines
            · next data hdata =>
                split at hlines
                · obtain rfl : data = bytes := Option.some.inj hlines
                  unfold readLines
                  rw [if_neg hlength]
                  simp only [if_neg hgt, hfull.bufferAlloc, hfull.stringAlloc,
                    pread_of_honest henv.dataRead hfull.dataRead hdata]
                  rfl
                · cases hlines

/-- A lookup that succeeds without short reads finds the string. -/
theorem readLookup_of_honest {env : LookupEnv} {index : FIndex} {start count : UInt64}
    {bytes : List UInt8} (henv : env.Honest index)
    (hlookup : (fIndexLookup env index start count).string = some bytes) :
    readLookup index start count = some bytes := by
  have hgenerous : (generousEnv (index.flookup.contents.length +
      index.target.bytes.length)).Reliable index :=
    reliable_generousEnv (Nat.le_add_right _ _) (Nat.le_add_left _ _)
  unfold fIndexLookup at hlookup
  split at hlookup
  · cases hlookup
  · next hstart =>
      split at hlookup
      · cases hlookup
      · next startOffset endOffset hoffsets =>
          split at hlookup
          · cases hlookup
          · next startBytes hstartRead =>
              split at hlookup
              · cases hlookup
              · next endBytes hendRead =>
                  split at hlookup
                  · cases hlookup
                  · rw [readLookup, fIndexLookup, if_neg hstart]
                    simp only [hoffsets, pread_of_honest henv.startRead hgenerous.startRead
                      hstartRead, pread_of_honest henv.endRead hgenerous.endRead hendRead]
                    exact readLines_of_honest henv hgenerous hlookup

theorem eq_nil_of_readLines_self {env : LookupEnv} {index : FIndex} {entry bytes : List UInt8}
    (hlines : (readLines env index entry entry).string = some bytes) : bytes = [] := by
  unfold readLines at hlines
  split at hlines
  · cases hlines
  · simp only [UInt64.sub_self] at hlines
    split at hlines
    · cases hlines
    · split at hlines
      · cases hlines
      · split at hlines
        · cases hlines
        · next data hdata =>
            have hnil : data = [] := by
              unfold pread at hdata
              split at hdata
              · cases hdata
              · split at hdata
                · cases hdata
                · rw [← Option.some.inj hdata, UInt64.toNat_zero, List.take_zero, List.take_nil]
            split at hlines
            · exact (Option.some.inj hlines).symm.trans hnil
            · cases hlines

/-- A read of an entry that delivers all of it delivers what is there. -/
theorem pread_eq_of_le {contents data : List UInt8} {offset : Int64} {delivery : Delivery}
    (hread : pread contents 8 offset delivery = some data) (hlength : 8 ≤ data.length) :
    data = (contents.drop offset.toInt.toNat).take 8 := by
  unfold pread at hread
  split at hread
  · cases hread
  · next n =>
      split at hread
      · cases hread
      · obtain rfl := Option.some.inj hread
        have height : (8 : UInt64).toNat = 8 := rfl
        rw [height] at hlength ⊢
        rw [List.length_take] at hlength
        exact List.take_of_length_le (by rw [List.length_take]; omega)

/-- A lookup of no lines finds nothing. -/
theorem eq_nil_of_fIndexLookup_zero {env : LookupEnv} {index : FIndex} {start : UInt64}
    {bytes : List UInt8} (hlookup : (fIndexLookup env index start 0).string = some bytes) :
    bytes = [] := by
  unfold fIndexLookup at hlookup
  split at hlookup
  · cases hlookup
  · next hstart =>
      have hmax : index.flookup.maxLine.toNat < 2 ^ 32 := by
        rw [FLookupFile.maxLine, UInt32.toNat_toUInt64]
        exact (index.flookup.len - 1).toNat_lt
      have hle : start.toNat ≤ index.flookup.maxLine.toNat :=
        UInt64.le_iff_toNat_le.mp (UInt64.not_lt.mp hstart)
      have hcount : (clampedCount index.flookup.maxLine start 0).toNat = 0 := by
        have hclamp := toNat_clampedCount hle (show start.toNat + (0 : UInt64).toNat < 2 ^ 64 by
          rw [UInt64.toNat_zero]
          omega)
        rw [UInt64.toNat_zero] at hclamp
        omega
      obtain ⟨startOffset, endOffset, hoffsets, hstartInt, hendInt⟩ :=
        lookupOffsets_eq hmax (show start.toNat +
          (clampedCount index.flookup.maxLine start 0).toNat ≤ index.flookup.maxLine.toNat by omega)
      -- both entries are the same one
      obtain rfl : startOffset = endOffset := by
        rw [← Int64.toInt_inj, hstartInt, hendInt, hcount, Nat.add_zero]
      simp only [hoffsets] at hlookup
      split at hlookup
      · cases hlookup
      · next startBytes hstartRead =>
          split at hlookup
          · cases hlookup
          · next endBytes hendRead =>
              split at hlookup
              · cases hlookup
              · have hlines := hlookup
                unfold readLines at hlookup
                split at hlookup
                · cases hlookup
                · next hlength =>
                    rw [not_or, not_lt, not_lt] at hlength
                    rw [pread_eq_of_le hstartRead hlength.1,
                      pread_eq_of_le hendRead hlength.2] at hlines
                    exact eq_nil_of_readLines_self hlines

theorem eq_nil_of_readLookup_zero {index : FIndex} {start : UInt64} {bytes : List UInt8}
    (hlookup : readLookup index start 0 = some bytes) : bytes = [] :=
  eq_nil_of_fIndexLookup_zero hlookup

/-- Over an exact index the string is a run of lines. -/
theorem FIndex.Exact.readLookup_eq {index : FIndex} (hexact : index.Exact) {i count : UInt64}
    (hi : i.toNat ≤ newlineCount index.target.bytes) (hsum : i.toNat + count.toNat < 2 ^ 64) :
    readLookup index i count = some (lineBytes index.target.bytes i.toNat
      (min (i.toNat + count.toNat) (newlineCount index.target.bytes))) := by
  have hgenerous : (generousEnv (index.flookup.contents.length +
      index.target.bytes.length)).Reliable index :=
    reliable_generousEnv (Nat.le_add_right _ _) (Nat.le_add_left _ _)
  rw [readLookup, hexact.fIndexLookup_eq hgenerous hsum, if_neg (by omega)]
  rfl

/-! ## Lookups that succeed -/

/-- No call of the lookup fails, and the reads of the two entries deliver their eight
bytes. -/
structure LookupEnv.Succeeds (env : LookupEnv) : Prop where
  startRead : ∃ n, env.startRead = some n ∧ 8 ≤ n
  endRead : ∃ n, env.endRead = some n ∧ 8 ≤ n
  zeroRead : env.zeroRead ≠ none
  bufferAlloc : env.bufferAlloc = true
  dataRead : env.dataRead ≠ none
  stringAlloc : env.stringAlloc = true

/-- A read that delivers all that was asked for is as good as a full one. -/
theorem pread_of_le {contents : List UInt8} {count : UInt64} (offset : Int64) {n : ℕ}
    (hn : count.toNat ≤ n) :
    pread contents count offset (some n) = pread contents count offset (some contents.length) := by
  have htake : ∀ m, count.toNat ≤ m ∨ contents.length ≤ m →
      ((contents.drop offset.toInt.toNat).take count.toNat).take m =
        (contents.drop offset.toInt.toNat).take count.toNat := by
    intro m hm
    apply List.take_of_length_le
    rw [List.length_take, List.length_drop]
    omega
  simp only [pread, htake n (Or.inl hn), htake contents.length (Or.inr le_rfl)]

section

variable {index : FIndex} {env : LookupEnv}

/-- Between an entry and a later one there are lines to read. -/
theorem LookupEnv.Succeeds.exists_readLines (henv : env.Succeeds) {j k : ℕ} (hjk : j ≤ k) :
    ∃ bytes, readLines env index (sizeBytes (.ofNat (lineOffset index.target.bytes j)))
      (sizeBytes (.ofNat (lineOffset index.target.bytes k))) = .returns 0 (some bytes) := by
  have hle : lineOffset index.target.bytes j ≤ lineOffset index.target.bytes k :=
    lineStart_mono _ _ hjk
  have hj : lineOffset index.target.bytes j ≤ index.target.bytes.length :=
    lineStart_le_length _ _ j
  have hsize := index.target.size_lt
  have hjNat := toNat_lineOffset index.target j
  have hgt : ¬ (UInt64.ofNat (lineOffset index.target.bytes j) >
      .ofNat (lineOffset index.target.bytes k)) := by
    rw [gt_iff_lt, UInt64.lt_iff_toNat_lt, hjNat, toNat_lineOffset]
    omega
  have hoffset : ¬ (UInt64.ofNat (lineOffset index.target.bytes j)).toInt64 < 0 := by
    rw [Int64.lt_iff_toInt_lt, toInt_toInt64 (by omega), Int64.toInt_zero]
    omega
  obtain ⟨n, hdata⟩ := Option.ne_none_iff_exists'.mp henv.dataRead
  unfold readLines
  rw [if_neg (by simp)]
  simp only [ofBytes_sizeBytes, UInt64.ofNat_toNat, if_neg hgt, henv.bufferAlloc,
    henv.stringAlloc, hdata, pread, if_neg hoffset]
  exact ⟨_, rfl⟩

/-- Over an exact index a lookup whose calls succeed finds lines. -/
theorem FIndex.Exact.exists_fIndexLookup (hexact : index.Exact) (henv : env.Succeeds)
    {start count : UInt64} (hstart : start.toNat ≤ newlineCount index.target.bytes)
    (hsum : start.toNat + count.toNat < 2 ^ 64) :
    ∃ bytes, fIndexLookup env index start count = .returns 0 (some bytes) := by
  have hmax := hexact.toNat_maxLine
  have hlen := index.flookup.len.toNat_lt
  rw [hexact.len_eq] at hlen
  have hgt : ¬ start > index.flookup.maxLine := by
    rw [gt_iff_lt, UInt64.lt_iff_toNat_lt, hmax]
    omega
  have hclamp : start.toNat + (clampedCount index.flookup.maxLine start count).toNat =
      min (start.toNat + count.toNat) index.flookup.maxLine.toNat :=
    toNat_clampedCount (by omega) hsum
  obtain ⟨startOffset, endOffset, hoffsets, hstartInt, hendInt⟩ :=
    lookupOffsets_eq (show index.flookup.maxLine.toNat < 2 ^ 32 by omega)
      (show start.toNat + (clampedCount index.flookup.maxLine start count).toNat ≤ _ by omega)
  rw [hclamp, hmax] at hendInt
  rw [hmax] at hstartInt
  obtain ⟨n, hstartRead, hn⟩ := henv.startRead
  obtain ⟨m, hendRead, hm⟩ := henv.endRead
  obtain ⟨l, hzeroRead⟩ := Option.ne_none_iff_exists'.mp henv.zeroRead
  have hfull : Delivery.Full (some index.flookup.contents.length) index.flookup.contents :=
    ⟨_, rfl, le_rfl⟩
  have hstartEntry := hexact.pread_entry hfull (by omega) hstartInt
  have hendEntry := hexact.pread_entry hfull (by omega) hendInt
  rw [← pread_of_le startOffset (show (8 : UInt64).toNat ≤ n from hn)] at hstartEntry
  rw [← pread_of_le endOffset (show (8 : UInt64).toNat ≤ m from hm)] at hendEntry
  have hzero : pread index.flookup.contents 8 0 (some l) ≠ none := by
    simp [pread]
  rw [fIndexLookup, if_neg hgt]
  simp only [hoffsets, hstartRead, hendRead, hzeroRead, hstartEntry, hendEntry, hzero,
    and_false, if_false]
  exact henv.exists_readLines (by omega)

end

/-! ## Asking for more lines -/

/-- A count that wraps together with the start is not clamped, and the end entry is that
of an earlier line. -/
theorem lookupOffsets_of_wrap {max start count : UInt64} (hmax : max.toNat < 2 ^ 32)
    (hstart : start.toNat ≤ max.toNat) (hwrap : 2 ^ 64 ≤ start.toNat + count.toNat) :
    ∃ startOffset endOffset,
      lookupOffsets max start (clampedCount max start count) = some (startOffset, endOffset) ∧
      startOffset.toInt = ((max.toNat - start.toNat) * 8 : ℕ) ∧
      endOffset.toInt = ((max.toNat - (start.toNat + count.toNat - 2 ^ 64)) * 8 : ℕ) := by
  have hlt := count.toNat_lt
  have hsum : (start + count).toNat = start.toNat + count.toNat - 2 ^ 64 := by
    rw [UInt64.toNat_add]
    omega
  have hclamped : clampedCount max start count = count := by
    rw [clampedCount, if_neg]
    rw [gt_iff_lt, UInt64.lt_iff_toNat_lt, hsum]
    omega
  have hstartNat : (max * 8 - start * 8).toNat = (max.toNat - start.toNat) * 8 := by
    simp only [UInt64.toNat_sub, UInt64.toNat_mul, UInt64.toNat_ofNat]
    omega
  have hstartInt : (max * 8 - start * 8).toInt64.toInt = ((max.toNat - start.toNat) * 8 : ℕ) := by
    rw [toInt_toInt64 (by omega), hstartNat]
  -- the missing lines are counted by a small negative offset
  have hcountNat : (count * 8).toNat = 2 ^ 64 - (2 ^ 64 - count.toNat) * 8 := by
    simp only [UInt64.toNat_mul, UInt64.toNat_ofNat]
    omega
  have hcountInt : (count * 8).toInt64.toInt = -((2 ^ 64 - count.toNat) * 8 : ℕ) := by
    rw [toInt_toInt64_of_le (by omega), hcountNat]
    omega
  simp only [hclamped, lookupOffsets, hstartInt, hcountInt]
  rw [if_neg (by omega), if_neg (by omega)]
  refine ⟨_, _, rfl, hstartInt, ?_⟩
  rw [Int64.toInt_sub, hstartInt, hcountInt, Int.bmod_eq_of_le] <;> omega

/-- When the start lies behind the end there are no lines. -/
theorem readLines_of_gt {env : LookupEnv} {index : FIndex} {startByte endByte : UInt64}
    (hgt : startByte > endByte) :
    readLines env index (sizeBytes startByte) (sizeBytes endByte) = .returns (-1) none := by
  unfold readLines
  rw [if_neg (by simp)]
  simp only [ofBytes_sizeBytes, UInt64.ofNat_toNat, if_pos hgt]

/-- A lookup of `many` lines finds what a lookup of `few` finds, and possibly more. -/
def GrowsWithCount (env env' : LookupEnv) (index : FIndex) (start few many : UInt64) : Prop :=
  ∃ lines more, fIndexLookup env index start few = .returns 0 (some lines) ∧
    fIndexLookup env' index start many = .returns 0 (some more) ∧ lines <+: more

section

variable {index : FIndex} {env env' : LookupEnv} {start few many : UInt64}

/-- A lookup whose last line has no number in a `size_t` fails. -/
theorem FIndex.Exact.fIndexLookup_of_wrap {count : UInt64} (hexact : index.Exact)
    (henv : env.Reliable index) (hstart : start.toNat < index.flookup.len.toNat)
    (hwrap : 2 ^ 64 ≤ start.toNat + count.toNat) :
    fIndexLookup env index start count = .returns (-1) none := by
  have hmax := hexact.toNat_maxLine
  have hlen := index.flookup.len.toNat_lt
  have hlt := count.toNat_lt
  rw [hexact.len_eq] at hlen hstart
  have hgt : ¬ start > index.flookup.maxLine := by
    rw [gt_iff_lt, UInt64.lt_iff_toNat_lt, hmax]
    omega
  obtain ⟨startOffset, endOffset, hoffsets, hstartInt, hendInt⟩ :=
    lookupOffsets_of_wrap (show index.flookup.maxLine.toNat < 2 ^ 32 by omega) (by omega) hwrap
  rw [hmax] at hstartInt hendInt
  have hstartRead := hexact.pread_entry henv.startRead (by omega) hstartInt
  have hendRead := hexact.pread_entry henv.endRead (by omega) hendInt
  have hzeroRead : pread index.flookup.contents 8 0 env.zeroRead ≠ none := by
    rw [pread_of_full henv.zeroRead (by decide)]
    simp
  have hbehind : lineOffset index.target.bytes (start.toNat + count.toNat - 2 ^ 64) <
      lineOffset index.target.bytes start.toNat :=
    lineStart_strictMono (by omega) (show start.toNat ≤ newlineCount _ by omega)
  rw [fIndexLookup, if_neg hgt]
  simp only [hoffsets, hstartRead, hendRead, hzeroRead, and_false, if_false]
  refine readLines_of_gt ?_
  rw [gt_iff_lt, UInt64.lt_iff_toNat_lt, toNat_lineOffset, toNat_lineOffset]
  exact hbehind

/-- The lines up to an earlier line come first. -/
theorem lineBytes_prefix (bytes : List UInt8) (j : ℕ) {k l : ℕ} (hjk : j ≤ k) (hkl : k ≤ l) :
    lineBytes bytes j k <+: lineBytes bytes j l := by
  have happend : lineBytes bytes j k ++ lineBytes bytes k l = lineBytes bytes j l :=
    slice_append_slice bytes (lineStart_mono _ _ hjk) (lineStart_mono _ _ hkl)
  rw [← happend]
  exact List.prefix_append _ _

/-- **Asking for more lines returns at least as much** exactly as long as the start and
the larger count have a sum that is a `size_t`. -/
theorem FIndex.Exact.growsWithCount_iff (hexact : index.Exact) (henv : env.Reliable index)
    (henv' : env'.Reliable index) (hstart : start.toNat < index.flookup.len.toNat)
    (hcount : few ≤ many) :
    GrowsWithCount env env' index start few many ↔ start.toNat + many.toNat < 2 ^ 64 := by
  rw [UInt64.le_iff_toNat_le] at hcount
  constructor
  · rintro ⟨lines, more, -, hmore, -⟩
    by_contra hwrap
    rw [hexact.fIndexLookup_of_wrap henv' hstart (by omega)] at hmore
    cases hmore
  · intro hsum
    have hline : ¬ newlineCount index.target.bytes < start.toNat := by
      rw [hexact.len_eq] at hstart
      omega
    have hfew := hexact.fIndexLookup_eq henv (show start.toNat + few.toNat < 2 ^ 64 by omega)
    have hmany := hexact.fIndexLookup_eq henv' hsum
    rw [if_neg hline] at hfew hmany
    exact ⟨_, _, hfew, hmany, lineBytes_prefix _ _ (by omega) (by omega)⟩

end

/-- The file with the one line `a`: one line, and as many as there are. -/
theorem growsWithCount_line :
    GrowsWithCount (generousEnv 16) (generousEnv 16) ⟨lineFile, ⟨sizeBytes 2 ++ sizeBytes 0, 2⟩⟩
      0 1 18446744073709551615 :=
  (FIndex.Exact.growsWithCount_iff ⟨by decide, by decide⟩
    (reliable_generousEnv (by decide) (by decide)) (reliable_generousEnv (by decide) (by decide))
    (by decide) (by decide)).mpr (by decide)

/-- In the same file everything from line `1` on is asked for with the largest count,
and the lookup fails. -/
theorem growsWithCount_fails_on_wrap :
    FIndex.Exact ⟨lineFile, ⟨sizeBytes 2 ++ sizeBytes 0, 2⟩⟩ ∧
    (generousEnv 16).Reliable ⟨lineFile, ⟨sizeBytes 2 ++ sizeBytes 0, 2⟩⟩ ∧
    fIndexLookup (generousEnv 16) ⟨lineFile, ⟨sizeBytes 2 ++ sizeBytes 0, 2⟩⟩ 1
      18446744073709551615 = .returns (-1) none ∧
    ¬ GrowsWithCount (generousEnv 16) (generousEnv 16)
      ⟨lineFile, ⟨sizeBytes 2 ++ sizeBytes 0, 2⟩⟩ 1 0 18446744073709551615 := by
  have hfails : fIndexLookup (generousEnv 16) ⟨lineFile, ⟨sizeBytes 2 ++ sizeBytes 0, 2⟩⟩ 1
      18446744073709551615 = .returns (-1) none := by decide
  refine ⟨⟨by decide, by decide⟩, reliable_generousEnv (by decide) (by decide), hfails, ?_⟩
  rintro ⟨lines, more, -, hmore, -⟩
  rw [hfails] at hmore
  cases hmore

/-! ## Reading line by line -/

/-- The results of looking up each line on its own, one after another. -/
def readLineByLine (env : ℕ → LookupEnv) (index : FIndex) : List UInt8 :=
  (List.range index.flookup.len.toNat).flatMap fun i =>
    match fIndexLookup (env i) index (.ofNat i) 1 with
    | .returns _ (some bytes) => bytes
    | _ => []

/-- Reading line by line returns the file up to its last newline. -/
theorem readLineByLine_eq {index : FIndex} {env : ℕ → LookupEnv} (hexact : index.Exact)
    (henv : ∀ i, (env i).Reliable index) :
    readLineByLine env index =
      slice index.target.bytes 0
        (lineOffset index.target.bytes (newlineCount index.target.bytes)) := by
  have hlt := index.flookup.len.toNat_lt
  rw [hexact.len_eq] at hlt
  have hline : ∀ i ∈ List.range (newlineCount index.target.bytes + 1),
      (match fIndexLookup (env i) index (.ofNat i) 1 with
        | .returns _ (some bytes) => bytes
        | _ => []) =
      lineBytes index.target.bytes i (min (i + 1) (newlineCount index.target.bytes)) := by
    intro i hi
    have hi' : i ≤ newlineCount index.target.bytes := by
      rw [List.mem_range] at hi
      omega
    have hnat : (UInt64.ofNat i).toNat = i :=
      UInt64.toNat_ofNat_of_lt' (by simp only [UInt64.size]; omega)
    rw [hexact.fIndexLookup_eq (henv i) (by rw [hnat, UInt64.toNat_one]; omega), hnat,
      if_neg (by omega), UInt64.toNat_one]
  rw [readLineByLine, hexact.len_eq, List.flatMap_congr hline, List.range_succ,
    List.flatMap_append, List.flatMap_singleton]
  have hlast : lineBytes index.target.bytes (newlineCount index.target.bytes)
      (min (newlineCount index.target.bytes + 1) (newlineCount index.target.bytes)) = [] := by
    rw [Nat.min_eq_right (Nat.le_succ _)]
    exact slice_self _ _
  have hfront : ∀ i ∈ List.range (newlineCount index.target.bytes),
      lineBytes index.target.bytes i (min (i + 1) (newlineCount index.target.bytes)) =
        slice index.target.bytes (lineOffset index.target.bytes i)
          (lineOffset index.target.bytes (i + 1)) := by
    intro i hi
    rw [List.mem_range] at hi
    rw [Nat.min_eq_left hi, lineBytes]
  rw [hlast, List.append_nil, List.flatMap_congr hfront]
  exact flatMap_range_slice_lineStart _ _

/-- **Line by line reading returns the whole file** exactly when the file is empty or
its last byte is a newline. -/
theorem readLineByLine_eq_bytes_iff {index : FIndex} {env : ℕ → LookupEnv}
    (hexact : index.Exact) (henv : ∀ i, (env i).Reliable index) :
    readLineByLine env index = index.target.bytes ↔
      index.target.bytes = [] ∨ index.target.bytes.getLast? = some newline := by
  have hend : (slice index.target.bytes 0
        (lineOffset index.target.bytes (newlineCount index.target.bytes)) = index.target.bytes) ↔
      lineOffset index.target.bytes (newlineCount index.target.bytes) =
        index.target.bytes.length := by
    have hle : lineOffset index.target.bytes (newlineCount index.target.bytes) ≤ _ :=
      lineStart_le_length isNewline index.target.bytes _
    constructor
    · intro heq
      have hlen := congrArg List.length heq
      rw [length_slice] at hlen
      omega
    · intro heq
      rw [heq, slice_zero_length]
  rw [readLineByLine_eq hexact henv, hend, lineOffset, newlineCount,
    lineStart_countP_eq_length_iff]
  simp [isNewline]

/-- The file with the one line `a` is read back. -/
theorem readLineByLine_eq_bytes_line :
    readLineByLine (fun _ => generousEnv 16) ⟨lineFile, ⟨sizeBytes 2 ++ sizeBytes 0, 2⟩⟩ =
      [97, newline] :=
  (readLineByLine_eq_bytes_iff ⟨by decide, by decide⟩
    fun _ => reliable_generousEnv (by decide) (by decide)).mpr (Or.inr (by decide))

/-- The file `a` has no newline: its exact index has the single entry `0`, and reading
line by line returns nothing. -/
theorem readLineByLine_eq_bytes_fails :
    FIndex.Exact ⟨⟨[97], by decide⟩, ⟨sizeBytes 0, 1⟩⟩ ∧
    (generousEnv 8).Reliable ⟨⟨[97], by decide⟩, ⟨sizeBytes 0, 1⟩⟩ ∧
    readLineByLine (fun _ => generousEnv 8) ⟨⟨[97], by decide⟩, ⟨sizeBytes 0, 1⟩⟩ ≠ [97] :=
  ⟨⟨by decide, by decide⟩, reliable_generousEnv (by decide) (by decide), by decide⟩

end Flashlight
