/-
# Planning the byte ranges

Before anything is read, `f_indexer_threads_init` divides a window of the target
file among the threads and `f_indexer_chunks_init` divides the range of one
thread into chunks, one for each read. Both clip the last range by overwriting
the size that the following iterations use.

The two planners do not agree on the end of a thread range: the thread planner
starts a thread one byte after the `to` of its predecessor, as if `to` were the
last byte of the range, and the chunk planner stops before `to`.
-/

import Flashlight.Platform

namespace Flashlight.Indexer

open Flashlight.Math

/-- The configuration of one thread. -/
structure FIndexerThread where
  /-- The start byte offset to read from the target. -/
  fromOffset : UInt64
  /-- The end byte offset. -/
  toOffset : UInt64
  /-- The number of bytes in the window. -/
  totalBytesCount : UInt64
  /-- The size of one read. -/
  bufferSize : UInt64
  deriving DecidableEq, Repr

/-- The thread configurations of a window. A window always gets a thread. -/
structure FIndexerThreads where
  /-- The configurations. -/
  threads : List FIndexerThread
  /-- The length of the array. -/
  len : Int32
  /-- `len` counts the configurations. -/
  len_eq : len.toInt = threads.length
  /-- There is a thread. -/
  len_pos : 0 < threads.length
  deriving DecidableEq, Repr

/-- The configuration of one read. -/
structure FIndexerChunk where
  /-- The position of the chunk in its thread. -/
  index : UInt64
  /-- The start byte offset. -/
  fromOffset : UInt64
  /-- The number of bytes to read from there. -/
  count : UInt64
  deriving DecidableEq, Repr

/-- The reads of a thread and how many of them run concurrently. -/
structure FIndexerChunks where
  /-- The configurations. -/
  chunks : List FIndexerChunk
  /-- The computed concurrency. -/
  concurrency : Int32
  /-- The length of the array. -/
  len : Int32
  /-- `len` counts the configurations. -/
  len_eq : len.toInt = chunks.length
  /-- The concurrency is not negative. -/
  concurrency_nonneg : 0 ≤ concurrency.toInt
  /-- The concurrency is lowered to the number of chunks. -/
  concurrency_le : concurrency.toInt ≤ max 1 len.toInt
  /-- Every chunk knows its position. -/
  index_eq : ∀ (k : ℕ) (chunk : FIndexerChunk), chunks[k]? = some chunk → chunk.index.toNat = k

/-- Both planners lower the wanted number of workers to the number of chunks. The
comparison converts `wanted` to unsigned, so a negative wish counts as a large
one. -/
def clampCount (wanted : Int32) (chunksCount : UInt32) : Int32 :=
  if chunksCount = 0 then 1
  else if wanted.toUInt32 > chunksCount then chunksCount.toInt32
  else wanted

/-- A positive number of workers is lowered to the number of chunks. -/
theorem toInt_clampCount {wanted : Int32} {chunksCount : UInt32} (hwanted : 0 < wanted.toInt)
    (hcount : 0 < chunksCount.toNat) :
    (clampCount wanted chunksCount).toInt = min wanted.toInt chunksCount.toNat := by
  have hne : chunksCount ≠ 0 := by
    rintro rfl
    simp at hcount
  have hbound := wanted.toInt_lt
  have hnat := toNat_toUInt32 hwanted.le
  rw [clampCount, if_neg hne]
  split
  · next hgt =>
      rw [gt_iff_lt, UInt32.lt_iff_toNat_lt, hnat] at hgt
      rw [toInt_toInt32 (by omega)]
      omega
  · next hle =>
      rw [gt_iff_lt, UInt32.lt_iff_toNat_lt, hnat] at hle
      omega

/-- Whatever was wanted, the clamped number is between `0` and the number of chunks,
or `1` where there are none. -/
theorem clampCount_bounds (wanted : Int32) {chunksCount : UInt32}
    (hcount : chunksCount.toNat < 2 ^ 31) :
    0 ≤ (clampCount wanted chunksCount).toInt ∧
      (clampCount wanted chunksCount).toInt ≤ max 1 chunksCount.toInt32.toInt := by
  have hint := toInt_toInt32 hcount
  rw [clampCount, hint]
  split
  · rw [Int32.toInt_one]
    omega
  · split
    · rw [hint]
      omega
    · next hle =>
        rw [gt_iff_lt, UInt32.lt_iff_toNat_lt] at hle
        have hbits : wanted.toUInt32.toNat = wanted.toBitVec.toNat := rfl
        have hcond := BitVec.toInt_eq_toNat_cond wanted.toBitVec
        rw [Int32.toInt_toBitVec] at hcond
        split at hcond <;> omega

/-! ## The chunks of a thread -/

/-- The loop of `f_indexer_chunks_init` from chunk `cc` on. -/
def chunksLoop (fromOffset bytesCount : UInt64) : ℕ → ℕ → UInt64 → List FIndexerChunk
  | 0, _, _ => []
  | left + 1, cc, bufferSize =>
      let startPosition := fromOffset + .ofNat cc * bufferSize
      let bufferSize :=
        if startPosition + bufferSize > bytesCount + fromOffset then
          bytesCount + fromOffset - startPosition
        else bufferSize
      { index := .ofNat cc, fromOffset := startPosition, count := bufferSize } ::
        chunksLoop fromOffset bytesCount left (cc + 1) bufferSize

@[simp]
theorem length_chunksLoop (fromOffset bytesCount : UInt64) (left cc : ℕ) (bufferSize : UInt64) :
    (chunksLoop fromOffset bytesCount left cc bufferSize).length = left := by
  induction left generalizing cc bufferSize with
  | zero => rfl
  | succ left ih => simp [chunksLoop, ih]

/-- The loop numbers the chunks. -/
theorem index_of_chunksLoop {fromOffset bytesCount : UInt64} {left cc k : ℕ} {bufferSize : UInt64}
    {chunk : FIndexerChunk}
    (hchunk : (chunksLoop fromOffset bytesCount left cc bufferSize)[k]? = some chunk) :
    chunk.index = .ofNat (cc + k) := by
  induction left generalizing cc k bufferSize with
  | zero => simp [chunksLoop] at hchunk
  | succ left ih =>
      rw [chunksLoop] at hchunk
      cases k with
      | zero =>
          rw [List.getElem?_cons_zero] at hchunk
          obtain rfl := Option.some.inj hchunk
          rfl
      | succ k =>
          rw [List.getElem?_cons_succ] at hchunk
          rw [ih hchunk, Nat.succ_add_eq_add_succ]

/-- `f_indexer_chunks_init`: the chunks of the range from `fromOffset` to
`toOffset`. The loop counter is an `int`. -/
def fIndexerChunksInit (concurrency : Int32) (bufferSize _totalBytes fromOffset toOffset : UInt64) :
    Except Fault FIndexerChunks :=
  let bytesCount := toOffset - fromOffset
  match ceilQuotient bytesCount bufferSize >>= castUnsignedInt with
  | .error fault => .error fault
  | .ok chunksCount =>
      if hcount : chunksCount.toNat < 2 ^ 31 then
        .ok {
          chunks := chunksLoop fromOffset bytesCount chunksCount.toNat 0 bufferSize
          concurrency := clampCount concurrency chunksCount
          len := chunksCount.toInt32
          len_eq := by rw [toInt_toInt32 hcount, length_chunksLoop]
          concurrency_nonneg := (clampCount_bounds concurrency hcount).1
          concurrency_le := (clampCount_bounds concurrency hcount).2
          index_eq := by
            intro k chunk hchunk
            have hk := (List.getElem?_eq_some_iff.mp hchunk).1
            rw [length_chunksLoop] at hk
            rw [index_of_chunksLoop hchunk, Nat.zero_add]
            exact UInt64.toNat_ofNat_of_lt' (by simp only [UInt64.size]; omega) }
      else .error .undefined

/-- Chunk `k` of a range that is read in steps of `bufferSize` bytes. -/
def plainChunk (fromOffset toOffset bufferSize k : ℕ) : FIndexerChunk where
  index := .ofNat k
  fromOffset := .ofNat (fromOffset + k * bufferSize)
  count := .ofNat (min bufferSize (toOffset - (fromOffset + k * bufferSize)))

/-- Byte position `p` belongs to the range of the chunk. -/
def FIndexerChunk.Covers (chunk : FIndexerChunk) (p : ℕ) : Prop :=
  chunk.fromOffset.toNat ≤ p ∧ p < chunk.fromOffset.toNat + chunk.count.toNat

instance (chunk : FIndexerChunk) (p : ℕ) : Decidable (chunk.Covers p) :=
  inferInstanceAs (Decidable (_ ∧ _))

/-- While the range leaves room for what the loop still plans, the loop steps
through it without wrapping, and only the last chunk is clipped. -/
theorem chunksLoop_eq {fromOffset toOffset bufferSize : ℕ} {left cc : ℕ}
    (hle : fromOffset ≤ toOffset) (hbuffer : 0 < bufferSize) (hfit : toOffset + bufferSize < 2 ^ 64)
    (hcount : cc + left = (toOffset - fromOffset) ⌈/⌉ bufferSize) :
    chunksLoop (.ofNat fromOffset) (.ofNat (toOffset - fromOffset)) left cc (.ofNat bufferSize) =
      (List.range' cc left).map (plainChunk fromOffset toOffset bufferSize) := by
  induction left generalizing cc with
  | zero => rfl
  | succ left ih =>
      have hstart : bufferSize * cc < toOffset - fromOffset :=
        (lt_ceilDiv_iff hbuffer).mp (by omega)
      have hcomm : cc * bufferSize = bufferSize * cc := Nat.mul_comm _ _
      have hposition : UInt64.ofNat fromOffset + .ofNat cc * .ofNat bufferSize =
          .ofNat (fromOffset + cc * bufferSize) := by
        rw [UInt64.ofNat_add, UInt64.ofNat_mul]
      have hend : UInt64.ofNat (toOffset - fromOffset) + .ofNat fromOffset = .ofNat toOffset := by
        rw [← UInt64.ofNat_add, Nat.sub_add_cancel hle]
      have hclip : (UInt64.ofNat (fromOffset + cc * bufferSize) + .ofNat bufferSize >
          UInt64.ofNat toOffset) ↔ toOffset < fromOffset + cc * bufferSize + bufferSize := by
        rw [gt_iff_lt, UInt64.lt_iff_toNat_lt, ← UInt64.ofNat_add, UInt64.toNat_ofNat',
          UInt64.toNat_ofNat', Nat.mod_eq_of_lt (by omega), Nat.mod_eq_of_lt (by omega)]
      rw [chunksLoop, List.range'_succ, List.map_cons, hposition, hend]
      simp only [hclip]
      by_cases hlast : toOffset < fromOffset + cc * bufferSize + bufferSize
      · -- the clipped size is never used again
        have hdone : left = 0 := by
          by_contra hmore
          have hnext : bufferSize * (cc + 1) < toOffset - fromOffset :=
            (lt_ceilDiv_iff hbuffer).mp (by omega)
          rw [Nat.mul_succ] at hnext
          omega
        subst hdone
        have hmin : min bufferSize (toOffset - (fromOffset + cc * bufferSize)) =
            toOffset - (fromOffset + cc * bufferSize) := by omega
        have hrest : UInt64.ofNat toOffset - .ofNat (fromOffset + cc * bufferSize) =
            .ofNat (toOffset - (fromOffset + cc * bufferSize)) := (UInt64.ofNat_sub (by omega)).symm
        simp only [if_pos hlast, plainChunk, hmin, hrest, chunksLoop, List.range'_zero,
          List.map_nil]
      · have hmin : min bufferSize (toOffset - (fromOffset + cc * bufferSize)) = bufferSize := by
          omega
        simp only [if_neg hlast]
        rw [ih (by omega)]
        simp only [plainChunk, hmin]

section

variable {fromOffset toOffset bufferSize k : ℕ}

theorem toNat_fromOffset_plainChunk (hk : fromOffset + k * bufferSize < 2 ^ 64) :
    (plainChunk fromOffset toOffset bufferSize k).fromOffset.toNat = fromOffset + k * bufferSize :=
  UInt64.toNat_ofNat_of_lt' hk

theorem toNat_count_plainChunk (hbuffer : bufferSize < 2 ^ 64) :
    (plainChunk fromOffset toOffset bufferSize k).count.toNat =
      min bufferSize (toOffset - (fromOffset + k * bufferSize)) :=
  UInt64.toNat_ofNat_of_lt' (by simp only [UInt64.size]; omega)

/-- The plain chunks of a range cover exactly the range. -/
theorem exists_covers_plainChunk_iff {p : ℕ} (hbuffer : 0 < bufferSize)
    (hfit : toOffset + bufferSize < 2 ^ 64) :
    (∃ chunk ∈ (List.range ((toOffset - fromOffset) ⌈/⌉ bufferSize)).map
      (plainChunk fromOffset toOffset bufferSize), chunk.Covers p) ↔
      fromOffset ≤ p ∧ p < toOffset := by
  simp only [List.mem_map, List.mem_range, exists_exists_and_eq_and, FIndexerChunk.Covers]
  constructor
  · rintro ⟨k, hk, hlow, hhigh⟩
    rw [lt_ceilDiv_iff hbuffer, Nat.mul_comm] at hk
    rw [toNat_fromOffset_plainChunk (by omega)] at hlow hhigh
    rw [toNat_count_plainChunk (by omega)] at hhigh
    omega
  · rintro ⟨hlow, hhigh⟩
    have hdiv := Nat.div_add_mod (p - fromOffset) bufferSize
    have hmod := Nat.mod_lt (p - fromOffset) hbuffer
    have hcomm := Nat.mul_comm bufferSize ((p - fromOffset) / bufferSize)
    refine ⟨(p - fromOffset) / bufferSize, ?_, ?_⟩
    · rw [lt_ceilDiv_iff hbuffer]
      omega
    · rw [toNat_fromOffset_plainChunk (by omega), toNat_count_plainChunk (by omega)]
      omega

end

section

variable (concurrency : Int32) (totalBytes : UInt64) {bufferSize fromOffset toOffset : UInt64}

/-- The number of chunks is the exact quotient rounded up. -/
theorem chunksCount_eq (hsize : (toOffset - fromOffset).toNat < 2 ^ 53)
    (hbuffer : 0 < bufferSize.toNat) (hbuffer' : bufferSize.toNat < 2 ^ 53) :
    (ceilQuotient (toOffset - fromOffset) bufferSize >>= castUnsignedInt) =
      castUnsignedInt ((toOffset - fromOffset).toNat ⌈/⌉ bufferSize.toNat) := by
  rw [ceilQuotient_eq hsize hbuffer' hbuffer]
  rfl

/-- The plan of a range whose chunks an `int` can count. -/
theorem fIndexerChunksInit_eq_ok (hle : fromOffset.toNat ≤ toOffset.toNat)
    (hsize : toOffset.toNat - fromOffset.toNat < 2 ^ 53) (hbuffer : 0 < bufferSize.toNat)
    (hbuffer' : bufferSize.toNat < 2 ^ 53) (hfit : toOffset.toNat + bufferSize.toNat < 2 ^ 64)
    (hcount : (toOffset.toNat - fromOffset.toNat) ⌈/⌉ bufferSize.toNat < 2 ^ 31) :
    ∃ ic, fIndexerChunksInit concurrency bufferSize totalBytes fromOffset toOffset = .ok ic ∧
      ic.chunks = (List.range ((toOffset.toNat - fromOffset.toNat) ⌈/⌉ bufferSize.toNat)).map
        (plainChunk fromOffset.toNat toOffset.toNat bufferSize.toNat) ∧
      ic.concurrency = clampCount concurrency
        (.ofNat ((toOffset.toNat - fromOffset.toNat) ⌈/⌉ bufferSize.toNat)) := by
  have hsub : (toOffset - fromOffset).toNat = toOffset.toNat - fromOffset.toNat :=
    UInt64.toNat_sub_of_le _ _ hle
  have hcast := chunksCount_eq (hsub ▸ hsize) hbuffer hbuffer'
  rw [hsub, castUnsignedInt_of_lt (by omega)] at hcast
  set count := (toOffset.toNat - fromOffset.toNat) ⌈/⌉ bufferSize.toNat with hcountdef
  have hnat : (UInt32.ofNat count).toNat = count := UInt32.toNat_ofNat_of_lt' (by
    simp only [UInt32.size]; omega)
  have hloop := chunksLoop_eq hle hbuffer hfit (show 0 + count = _ by rw [Nat.zero_add])
  rw [UInt64.ofNat_toNat, UInt64.ofNat_toNat, ← hsub, UInt64.ofNat_toNat,
    ← List.range_eq_range'] at hloop
  simp only [fIndexerChunksInit, hcast, hnat, dif_pos hcount]
  exact ⟨_, rfl, hloop, rfl⟩

/-- A range with more chunks than an `int` can count has no plan. -/
theorem fIndexerChunksInit_eq_error (hsize : (toOffset - fromOffset).toNat < 2 ^ 53)
    (hbuffer : 0 < bufferSize.toNat) (hbuffer' : bufferSize.toNat < 2 ^ 53)
    (hcount : 2 ^ 31 ≤ (toOffset - fromOffset).toNat ⌈/⌉ bufferSize.toNat) :
    fIndexerChunksInit concurrency bufferSize totalBytes fromOffset toOffset =
      .error .undefined := by
  have hcast := chunksCount_eq hsize hbuffer hbuffer'
  simp only [fIndexerChunksInit, hcast]
  by_cases hbig : 2 ^ 32 ≤ (toOffset - fromOffset).toNat ⌈/⌉ bufferSize.toNat
  · rw [castUnsignedInt_of_le hbig]
  · have hnat : (UInt32.ofNat ((toOffset - fromOffset).toNat ⌈/⌉ bufferSize.toNat)).toNat =
        (toOffset - fromOffset).toNat ⌈/⌉ bufferSize.toNat :=
      UInt32.toNat_ofNat_of_lt' (by simp only [UInt32.size]; omega)
    rw [castUnsignedInt_of_lt (by omega)]
    simp only [hnat]
    exact dif_neg (by omega)

/-- Only an empty range is planned without chunks. -/
theorem chunks_eq_nil_iff {ic : FIndexerChunks}
    (hplan : fIndexerChunksInit concurrency bufferSize totalBytes fromOffset toOffset = .ok ic) :
    ic.chunks = [] ↔ fromOffset = toOffset := by
  unfold fIndexerChunksInit at hplan
  simp only at hplan
  split at hplan
  · cases hplan
  · next chunksCount hcount =>
      split at hplan
      · obtain rfl := Except.ok.inj hplan
        cases hquotient : ceilQuotient (toOffset - fromOffset) bufferSize with
        | error fault =>
            rw [hquotient] at hcount
            cases hcount
        | ok count =>
            rw [hquotient] at hcount
            obtain ⟨hlt, rfl⟩ := castUnsignedInt_eq_ok_iff.mp hcount
            have hnat : (UInt32.ofNat count).toNat = count := UInt32.toNat_ofNat_of_lt' hlt
            rw [← List.length_eq_zero_iff, length_chunksLoop, hnat,
              ceilQuotient_eq_zero_iff hquotient, UInt64.sub_eq_iff_eq_add, UInt64.zero_add]
            exact eq_comm
      · cases hplan

end

/-- The chunks of the plan cut a range into pieces of `bufferSize` bytes: they follow one
another from the beginning of the range to its end, and only the last one may be shorter. -/
structure FIndexerChunks.Partition (ic : FIndexerChunks) (fromOffset toOffset bufferSize : ℕ) :
    Prop where
  len_eq : ic.len.toInt = ((toOffset - fromOffset) ⌈/⌉ bufferSize : ℕ)
  index_eq : ∀ (k : ℕ) (x : FIndexerChunk), ic.chunks[k]? = some x → x.index.toNat = k
  first_eq : ∀ x : FIndexerChunk, ic.chunks[0]? = some x → x.fromOffset.toNat = fromOffset
  next_eq : ∀ (k : ℕ) (x y : FIndexerChunk), ic.chunks[k]? = some x → ic.chunks[k + 1]? = some y →
    y.fromOffset.toNat = x.fromOffset.toNat + x.count.toNat
  count_bounds : ∀ x ∈ ic.chunks, 1 ≤ x.count.toNat ∧ x.count.toNat ≤ bufferSize
  count_eq : ∀ (k : ℕ) (x : FIndexerChunk), ic.chunks[k]? = some x → k + 1 < ic.chunks.length →
    x.count.toNat = bufferSize
  last_eq : ∀ (k : ℕ) (x : FIndexerChunk), ic.chunks[k]? = some x → k + 1 = ic.chunks.length →
    x.fromOffset.toNat + x.count.toNat = toOffset

/-- **The chunk plan is an exact partition** of the range. -/
theorem chunksInit_partition (concurrency : Int32) (totalBytes : UInt64)
    {bufferSize fromOffset toOffset : UInt64} (hle : fromOffset.toNat ≤ toOffset.toNat)
    (hto : toOffset.toNat < 2 ^ 53) (hbuffer : 1 ≤ bufferSize.toNat)
    (hbuffer' : bufferSize.toNat < 2 ^ 53)
    (hcount : (toOffset.toNat - fromOffset.toNat) ⌈/⌉ bufferSize.toNat < 2 ^ 31) :
    ∃ ic, fIndexerChunksInit concurrency bufferSize totalBytes fromOffset toOffset = .ok ic ∧
      ic.Partition fromOffset.toNat toOffset.toNat bufferSize.toNat := by
  obtain ⟨ic, hic, hchunks, -⟩ := fIndexerChunksInit_eq_ok concurrency totalBytes hle (by omega)
    hbuffer hbuffer' (by omega) hcount
  have hlength : ic.chunks.length = (toOffset.toNat - fromOffset.toNat) ⌈/⌉ bufferSize.toNat := by
    rw [hchunks, List.length_map, List.length_range]
  have hall : toOffset.toNat - fromOffset.toNat ≤ bufferSize.toNat * ic.chunks.length :=
    hlength ▸ (ceilDiv_le_iff_le_mul hbuffer).mp le_rfl
  have hspec : ∀ (k : ℕ) (x : FIndexerChunk), ic.chunks[k]? = some x →
      k * bufferSize.toNat < toOffset.toNat - fromOffset.toNat ∧
        x.fromOffset.toNat = fromOffset.toNat + k * bufferSize.toNat ∧
        x.count.toNat = min bufferSize.toNat
          (toOffset.toNat - (fromOffset.toNat + k * bufferSize.toNat)) := by
    intro k x hx
    have hk := (List.getElem?_eq_some_iff.mp hx).1
    rw [hlength, lt_ceilDiv_iff hbuffer, Nat.mul_comm] at hk
    rw [hchunks, List.getElem?_map, Option.map_eq_some_iff] at hx
    obtain ⟨j, hj, rfl⟩ := hx
    obtain ⟨-, rfl⟩ := List.getElem?_eq_some_iff.mp hj
    rw [List.getElem_range]
    exact ⟨hk, toNat_fromOffset_plainChunk (by omega), toNat_count_plainChunk (by omega)⟩
  refine ⟨ic, hic, ⟨by rw [ic.len_eq, hlength], ic.index_eq, ?_, ?_, ?_, ?_, ?_⟩⟩
  · intro x hx
    obtain ⟨-, hfrom, -⟩ := hspec 0 x hx
    rw [hfrom, Nat.zero_mul, Nat.add_zero]
  · intro k x y hx hy
    obtain ⟨-, hfrom, hsize⟩ := hspec k x hx
    obtain ⟨hnext, hfrom', -⟩ := hspec (k + 1) y hy
    rw [Nat.succ_mul] at hnext hfrom'
    omega
  · intro x hx
    obtain ⟨k, hget⟩ := List.mem_iff_getElem?.mp hx
    obtain ⟨hk, -, hsize⟩ := hspec k x hget
    omega
  · intro k x hx hmore
    obtain ⟨-, -, hsize⟩ := hspec k x hx
    obtain ⟨y, hy⟩ : ∃ y, ic.chunks[k + 1]? = some y := ⟨_, List.getElem?_eq_getElem hmore⟩
    obtain ⟨hnext, -, -⟩ := hspec (k + 1) y hy
    rw [Nat.succ_mul] at hnext
    omega
  · intro k x hx hlast
    obtain ⟨hk, hfrom, hsize⟩ := hspec k x hx
    rw [← hlast, Nat.mul_comm, Nat.succ_mul] at hall
    omega

/-- Ten bytes are read in chunks of four, four and two. -/
theorem chunksInit_partition_ten :
    ∃ ic, fIndexerChunksInit 2 4 10 5 15 = .ok ic ∧ ic.Partition 5 15 4 :=
  chunksInit_partition 2 10 (by decide) (by decide) (by decide) (by decide) (by decide)

/-! ## The threads of a window -/

/-- The loop of `f_indexer_threads_init` from thread `i` on. -/
def threadsLoop (totalBytesCount bufferSize offset : UInt64) : ℕ → ℕ → UInt64 → List FIndexerThread
  | 0, _, _ => []
  | left + 1, i, pages =>
      let startPosition := .ofNat i * pages + .ofNat i
      let pages :=
        if startPosition + pages > totalBytesCount then totalBytesCount - startPosition else pages
      let toPosition := startPosition + pages
      { fromOffset := startPosition + offset
        toOffset := toPosition + offset
        totalBytesCount := totalBytesCount
        bufferSize := bufferSize } ::
        threadsLoop totalBytesCount bufferSize offset left (i + 1) pages

@[simp]
theorem length_threadsLoop (totalBytesCount bufferSize offset : UInt64) (left i : ℕ)
    (pages : UInt64) :
    (threadsLoop totalBytesCount bufferSize offset left i pages).length = left := by
  induction left generalizing i pages with
  | zero => rfl
  | succ left ih => simp [threadsLoop, ih]

/-- `f_indexer_threads_init`: the threads of the window of `totalBytesCount` bytes
at `offset`. A negative number of threads makes the allocation fail, and zero
threads divide by zero. -/
def fIndexerThreadsInit (threads : Int32) (totalBytesCount bufferSize offset : UInt64) :
    Except Fault FIndexerThreads :=
  match ceilQuotient totalBytesCount bufferSize >>= castUnsignedInt with
  | .error fault => .error fault
  | .ok chunksCount =>
      let threads := clampCount threads chunksCount
      if hpos : 0 < threads.toInt then
        match castUnsignedLong ⌈toDouble (totalBytesCount / intToSize threads).toNat⌉₊ with
        | .error fault => .error fault
        | .ok pages =>
            .ok {
              threads := threadsLoop totalBytesCount bufferSize offset threads.toInt.toNat 0 pages
              len := threads
              len_eq := by rw [length_threadsLoop, Int.toNat_of_nonneg hpos.le]
              len_pos := by rw [length_threadsLoop]; omega }
      else if threads = 0 then .error .undefined
      else .error .refused

/-- Thread `i` of a window that is divided in steps of `pages + 1` bytes: it reads
`pages` of them. -/
def plainThread (totalBytesCount bufferSize offset : UInt64) (pages i : ℕ) : FIndexerThread where
  fromOffset := .ofNat (i * (pages + 1)) + offset
  toOffset := .ofNat (i * (pages + 1) + pages) + offset
  totalBytesCount := totalBytesCount
  bufferSize := bufferSize

section

variable {totalBytesCount bufferSize offset : UInt64} {pages : ℕ}

theorem threadStart_eq (i pages : ℕ) :
    UInt64.ofNat i * .ofNat pages + .ofNat i = .ofNat (i * (pages + 1)) := by
  rw [← UInt64.ofNat_mul, ← UInt64.ofNat_add, Nat.mul_succ]

/-- Threads that end inside the window are planned without touching `pages`. -/
theorem threadsLoop_of_fits (htotal : totalBytesCount.toNat < 2 ^ 53) (left : ℕ) {m i : ℕ}
    (hfits : (i + m) * (pages + 1) ≤ totalBytesCount.toNat + 1) :
    threadsLoop totalBytesCount bufferSize offset (m + left) i (.ofNat pages) =
      (List.range' i m).map (plainThread totalBytesCount bufferSize offset pages) ++
        threadsLoop totalBytesCount bufferSize offset left (i + m) (.ofNat pages) := by
  induction m generalizing i with
  | zero => simp
  | succ m ih =>
      have hnext : (i + 1) * (pages + 1) ≤ totalBytesCount.toNat + 1 :=
        le_trans (Nat.mul_le_mul_right _ (by omega)) hfits
      rw [Nat.succ_mul] at hnext
      have hclip : ¬ (UInt64.ofNat (i * (pages + 1)) + .ofNat pages > totalBytesCount) := by
        rw [gt_iff_lt, UInt64.lt_iff_toNat_lt, ← UInt64.ofNat_add, UInt64.toNat_ofNat',
          Nat.mod_eq_of_lt (by omega)]
        omega
      rw [show m + 1 + left = (m + left) + 1 by omega, threadsLoop, threadStart_eq,
        List.range'_succ, List.map_cons, List.cons_append]
      simp only [if_neg hclip]
      rw [ih (by rwa [show i + 1 + m = i + (m + 1) by omega]),
        show i + 1 + m = i + (m + 1) by omega]
      simp only [plainThread, UInt64.ofNat_add]

/-- The first thread that does not fit is cut at the end of the window. -/
theorem threadsLoop_of_clip (htotal : totalBytesCount.toNat < 2 ^ 53) (left : ℕ) {i : ℕ}
    (hstart : i * (pages + 1) ≤ totalBytesCount.toNat + 1)
    (hclip : totalBytesCount.toNat + 1 < (i + 1) * (pages + 1)) (hpages : pages < 2 ^ 53) :
    threadsLoop totalBytesCount bufferSize offset (left + 1) i (.ofNat pages) =
      { fromOffset := .ofNat (i * (pages + 1)) + offset
        toOffset := totalBytesCount + offset
        totalBytesCount := totalBytesCount
        bufferSize := bufferSize } ::
        threadsLoop totalBytesCount bufferSize offset left (i + 1)
          (totalBytesCount - .ofNat (i * (pages + 1))) := by
  rw [Nat.succ_mul] at hclip
  have hgt : UInt64.ofNat (i * (pages + 1)) + .ofNat pages > totalBytesCount := by
    rw [gt_iff_lt, UInt64.lt_iff_toNat_lt, ← UInt64.ofNat_add, UInt64.toNat_ofNat',
      Nat.mod_eq_of_lt (by omega)]
    omega
  rw [threadsLoop, threadStart_eq]
  simp only [if_pos hgt]
  rw [UInt64.add_comm (UInt64.ofNat (i * (pages + 1))) (totalBytesCount - _),
    UInt64.sub_add_cancel]

/-- A thread that starts just behind the window wraps `pages` around, and the next
thread starts over and takes the whole window. -/
theorem threadsLoop_of_wrap (htotal : totalBytesCount.toNat < 2 ^ 53) (left i : ℕ) :
    threadsLoop totalBytesCount bufferSize offset (left + 1) i
        (totalBytesCount - .ofNat (totalBytesCount.toNat + 1)) =
      { fromOffset := offset
        toOffset := totalBytesCount + offset
        totalBytesCount := totalBytesCount
        bufferSize := bufferSize } ::
        threadsLoop totalBytesCount bufferSize offset left (i + 1) totalBytesCount := by
  have hpages : totalBytesCount - .ofNat (totalBytesCount.toNat + 1) = -1 := by
    rw [UInt64.ofNat_add, UInt64.ofNat_toNat]
    grind
  have hstart : UInt64.ofNat i * -1 + .ofNat i = 0 := by grind
  have hgt : (0 : UInt64) + -1 > totalBytesCount := by
    rw [gt_iff_lt, UInt64.lt_iff_toNat_lt, show ((0 : UInt64) + -1).toNat = 2 ^ 64 - 1 from rfl]
    omega
  rw [threadsLoop, hpages, hstart]
  simp only [if_pos hgt]
  simp only [UInt64.sub_zero, UInt64.zero_add]

/-- Behind the thread that takes the whole window, the start of a thread is a multiple of the
window and the byte behind it, modulo `2 ^ 64`. If it lies in the window, the thread gets the rest
of it. -/
theorem threadsLoop_of_again {start : ℕ} (htotal : totalBytesCount.toNat < 2 ^ 53) (left : ℕ)
    {i : ℕ} (hstart : i * (totalBytesCount.toNat + 1) % 2 ^ 64 = start) (hpos : 0 < start)
    (hle : start ≤ totalBytesCount.toNat) :
    threadsLoop totalBytesCount bufferSize offset (left + 1) i totalBytesCount =
      { fromOffset := .ofNat start + offset
        toOffset := totalBytesCount + offset
        totalBytesCount := totalBytesCount
        bufferSize := bufferSize } ::
        threadsLoop totalBytesCount bufferSize offset left (i + 1)
          (totalBytesCount - .ofNat start) := by
  have hposition : UInt64.ofNat i * totalBytesCount + .ofNat i = .ofNat start := by
    rw [← UInt64.toNat_inj, ← UInt64.ofNat_toNat (x := totalBytesCount), threadStart_eq,
      UInt64.toNat_ofNat', hstart, UInt64.toNat_ofNat', Nat.mod_eq_of_lt (by omega)]
  have hgt : UInt64.ofNat start + totalBytesCount > totalBytesCount := by
    rw [gt_iff_lt, UInt64.lt_iff_toNat_lt, UInt64.toNat_add, UInt64.toNat_ofNat']
    omega
  rw [threadsLoop, hposition]
  simp only [if_pos hgt]
  rw [UInt64.add_comm (UInt64.ofNat start) (totalBytesCount - _), UInt64.sub_add_cancel]

variable (threads : Int32)

/-- How many threads are planned: no more than chunks, and at least one. -/
def threadCount (threads : Int32) (totalBytesCount bufferSize : ℕ) : ℕ :=
  min threads.toInt.toNat (totalBytesCount ⌈/⌉ bufferSize)

/-- The plan of a window whose chunks an `unsigned int` can count. -/
theorem fIndexerThreadsInit_eq_ok (offset : UInt64) (hthreads : 0 < threads.toInt)
    (htotal : 0 < totalBytesCount.toNat) (htotal' : totalBytesCount.toNat < 2 ^ 53)
    (hbuffer : 0 < bufferSize.toNat) (hbuffer' : bufferSize.toNat < 2 ^ 53)
    (hcount : totalBytesCount.toNat ⌈/⌉ bufferSize.toNat < 2 ^ 32) :
    ∃ it, fIndexerThreadsInit threads totalBytesCount bufferSize offset = .ok it ∧
      it.threads = threadsLoop totalBytesCount bufferSize offset
        (threadCount threads totalBytesCount.toNat bufferSize.toNat) 0
        (.ofNat (totalBytesCount.toNat / threadCount threads totalBytesCount.toNat
          bufferSize.toNat)) := by
  have hpos : 0 < totalBytesCount.toNat ⌈/⌉ bufferSize.toNat :=
    (lt_ceilDiv_iff hbuffer).mpr (by omega)
  have hcast : (ceilQuotient totalBytesCount bufferSize >>= castUnsignedInt) =
      .ok (.ofNat (totalBytesCount.toNat ⌈/⌉ bufferSize.toNat)) := by
    rw [ceilQuotient_eq htotal' hbuffer' hbuffer, ← castUnsignedInt_of_lt hcount]
    rfl
  have hnat : (UInt32.ofNat (totalBytesCount.toNat ⌈/⌉ bufferSize.toNat)).toNat =
      totalBytesCount.toNat ⌈/⌉ bufferSize.toNat :=
    UInt32.toNat_ofNat_of_lt' (by simp only [UInt32.size]; omega)
  have hclamp := toInt_clampCount hthreads (hnat.symm ▸ hpos)
  rw [hnat] at hclamp
  set clamped := clampCount threads (.ofNat (totalBytesCount.toNat ⌈/⌉ bufferSize.toNat))
    with hclamped
  have hclampNat : clamped.toInt.toNat =
      threadCount threads totalBytesCount.toNat bufferSize.toNat := by
    rw [threadCount]
    omega
  have hquotient : (totalBytesCount / intToSize clamped).toNat =
      totalBytesCount.toNat / threadCount threads totalBytesCount.toNat bufferSize.toNat := by
    rw [UInt64.toNat_div, toNat_intToSize (by omega), hclampNat]
  have hsmall := Nat.div_le_self totalBytesCount.toNat
    (threadCount threads totalBytesCount.toNat bufferSize.toNat)
  have hpages : castUnsignedLong ⌈toDouble (totalBytesCount / intToSize clamped).toNat⌉₊ =
      .ok (.ofNat (totalBytesCount.toNat /
        threadCount threads totalBytesCount.toNat bufferSize.toNat)) := by
    rw [hquotient, toDouble_eq (by omega), Nat.ceil_natCast, castUnsignedLong_of_lt (by omega)]
  simp only [fIndexerThreadsInit, hcast, ← hclamped, hpages]
  rw [dif_pos (by omega), ← hclampNat]
  exact ⟨_, rfl, rfl⟩

/-- A window with more chunks than an `unsigned int` can count has no plan. -/
theorem fIndexerThreadsInit_eq_error (offset : UInt64)
    (htotal' : totalBytesCount.toNat < 2 ^ 53)
    (hbuffer : 0 < bufferSize.toNat) (hbuffer' : bufferSize.toNat < 2 ^ 53)
    (hcount : 2 ^ 32 ≤ totalBytesCount.toNat ⌈/⌉ bufferSize.toNat) :
    fIndexerThreadsInit threads totalBytesCount bufferSize offset = .error .undefined := by
  have hcast : (ceilQuotient totalBytesCount bufferSize >>= castUnsignedInt) =
      .error .undefined := by
    rw [ceilQuotient_eq htotal' hbuffer' hbuffer, ← castUnsignedInt_of_le hcount]
    rfl
  simp only [fIndexerThreadsInit, hcast]

end

end Flashlight.Indexer
