/-
# What the planners make of a configuration

Nothing checks the wanted number of threads or of concurrent reads. The planners compare
it with the number of chunks, as an unsigned number: a negative wish becomes a large one
and is lowered, unless the number of chunks is itself too large to be an `int`, and a wish
of zero stays. Zero threads divide by zero, and with a concurrency of zero the loop over
the batches does not advance.
-/

import Flashlight.Indexer.Plan

namespace Flashlight.Indexer

open Flashlight.Math

/-- `ceil(a / (double) b)` as a number: two conversions, a quotient and its rounding. -/
def doubleCeil (a b : UInt64) : ℕ :=
  ⌈roundTo 53 (toDouble a.toNat / toDouble b.toNat)⌉₊

section

variable {a b : UInt64}

theorem ceilQuotient_eq_doubleCeil (a : UInt64) (hb : 0 < b.toNat) :
    ceilQuotient a b = .ok (doubleCeil a b) := by
  have hne : b ≠ 0 := by
    rintro rfl
    simp at hb
  rw [ceilQuotient, if_neg hne, doubleCeil]

theorem castUnsignedInt_ceilQuotient (a : UInt64) (hb : 0 < b.toNat) :
    (ceilQuotient a b >>= castUnsignedInt) = castUnsignedInt (doubleCeil a b) := by
  rw [ceilQuotient_eq_doubleCeil a hb]
  rfl

theorem doubleCeil_eq_zero_iff (hb : 0 < b.toNat) : doubleCeil a b = 0 ↔ a = 0 :=
  ceilQuotient_eq_zero_iff (ceilQuotient_eq_doubleCeil a hb)

/-- Below `2 ^ 53` nothing is rounded but the quotient. -/
theorem doubleCeil_eq (ha : a.toNat < 2 ^ 53) (hb : 0 < b.toNat) (hb' : b.toNat < 2 ^ 53) :
    doubleCeil a b = a.toNat ⌈/⌉ b.toNat :=
  Except.ok.inj ((ceilQuotient_eq_doubleCeil a hb).symm.trans (ceilQuotient_eq ha hb' hb))

end

/-! ## The clamped number -/

section

variable {wanted : Int32} {chunksCount : UInt32}

/-- A negative wish is lowered like a large one. -/
theorem toInt_clampCount_of_neg (hwanted : wanted.toInt < 0) (hcount : 0 < chunksCount.toNat)
    (hcount' : chunksCount.toNat < 2 ^ 31) :
    (clampCount wanted chunksCount).toInt = chunksCount.toNat := by
  have hne : chunksCount ≠ 0 := by
    rintro rfl
    simp at hcount
  have hlow := wanted.le_toInt
  have hlarge := toNat_toUInt32_of_neg hwanted
  have hgt : wanted.toUInt32 > chunksCount := by
    rw [gt_iff_lt, UInt32.lt_iff_toNat_lt]
    omega
  rw [clampCount, if_neg hne, if_pos hgt, toInt_toInt32 hcount']

/-- The clamped number is positive unless the wish is zero, or negative where the number
of chunks is no `int`. -/
theorem clampCount_pos_iff : 0 < (clampCount wanted chunksCount).toInt ↔
    chunksCount = 0 ∨ 0 < wanted.toInt ∨ wanted.toInt < 0 ∧ chunksCount.toNat < 2 ^ 31 := by
  by_cases hzero : chunksCount = 0
  · rw [clampCount, if_pos hzero]
    exact iff_of_true (by decide) (Or.inl hzero)
  · have hcount : 0 < chunksCount.toNat :=
      Nat.pos_of_ne_zero fun hnat => hzero (UInt32.toNat_inj.mp hnat)
    rw [or_iff_right hzero]
    rcases lt_trichotomy wanted.toInt 0 with hneg | hwanted | hpos
    · by_cases hsmall : chunksCount.toNat < 2 ^ 31
      · rw [toInt_clampCount_of_neg hneg hcount hsmall]
        omega
      · -- both the number of chunks and the wish are negative as an `int`
        have hnegative := toInt_toInt32_of_le (not_lt.mp hsmall)
        have hlt := chunksCount.toNat_lt
        rw [clampCount, if_neg hzero]
        split <;> omega
    · obtain rfl : wanted = 0 := Int32.toInt_inj.mp hwanted
      have hgt : ¬ (0 : Int32).toUInt32 > chunksCount := by
        rw [gt_iff_lt, UInt32.lt_iff_toNat_lt]
        exact Nat.not_lt_zero _
      rw [clampCount, if_neg hzero, if_neg hgt]
      simp
    · rw [toInt_clampCount hpos hcount]
      omega

end

/-! ## The plans -/

/-- The window is divided among at least one thread, and among no more threads than it has
chunks. -/
def ThreadsClamped (threads : Int32) (totalBytesCount bufferSize offset : UInt64) : Prop :=
  ∃ it, fIndexerThreadsInit threads totalBytesCount bufferSize offset = .ok it ∧
    1 ≤ it.len.toInt ∧
    it.len.toInt ≤ max 1 (totalBytesCount.toNat ⌈/⌉ bufferSize.toNat : ℕ)

/-- The range is divided into chunks of which at least one is read at a time, and no more
than there are. -/
def ChunksClamped (concurrency : Int32)
    (bufferSize totalBytes fromOffset toOffset : UInt64) : Prop :=
  ∃ ic, fIndexerChunksInit concurrency bufferSize totalBytes fromOffset toOffset = .ok ic ∧
    1 ≤ ic.concurrency.toInt ∧ ic.concurrency.toInt ≤ max 1 ic.len.toInt

/-- When the number of threads is clamped to a number that makes sense: the number of
chunks must be an `unsigned int`, and an `int` for a negative wish; the wish must not be
zero; and from `2 ^ 53` bytes on no rounding may exceed the number of chunks or the range
of `unsigned long`. -/
def ThreadsClampable (threads : Int32) (totalBytesCount bufferSize : UInt64) : Prop :=
  totalBytesCount = 0 ∨
    doubleCeil totalBytesCount bufferSize < 2 ^ 32 ∧
    (0 < threads.toInt ∧
        (threads.toInt ≤ (totalBytesCount.toNat ⌈/⌉ bufferSize.toNat : ℕ) ∨
          doubleCeil totalBytesCount bufferSize ≤ totalBytesCount.toNat ⌈/⌉ bufferSize.toNat) ∨
      threads.toInt < 0 ∧ doubleCeil totalBytesCount bufferSize < 2 ^ 31 ∧
        doubleCeil totalBytesCount bufferSize ≤ totalBytesCount.toNat ⌈/⌉ bufferSize.toNat) ∧
    (⌈toDouble totalBytesCount.toNat⌉₊ < 2 ^ 64 ∨
      threads.toInt ≠ 1 ∧ doubleCeil totalBytesCount bufferSize ≠ 1)

/-- When the concurrency is clamped to a number that makes sense: it must not be zero, and
an `int` must count the chunks. -/
def ChunksClampable (concurrency : Int32) (bufferSize fromOffset toOffset : UInt64) : Prop :=
  fromOffset = toOffset ∨
    concurrency.toInt ≠ 0 ∧ doubleCeil (toOffset - fromOffset) bufferSize < 2 ^ 31

section

variable {threads concurrency : Int32} {totalBytesCount bufferSize offset totalBytes fromOffset
  toOffset : UInt64}

/-- The share of a thread is an `unsigned long` unless one thread takes a window that is
rounded up to `2 ^ 64` bytes. -/
theorem ceil_toDouble_div_lt_iff {len : ℕ} (hlen : 0 < len) :
    ⌈toDouble (totalBytesCount.toNat / len)⌉₊ < 2 ^ 64 ↔
      ⌈toDouble totalBytesCount.toNat⌉₊ < 2 ^ 64 ∨ len ≠ 1 := by
  rcases Nat.lt_or_ge 1 len with hmore | hone
  · refine iff_of_true ?_ (Or.inr hmore.ne')
    have hlt := totalBytesCount.toNat_lt
    have hhalf : totalBytesCount.toNat / len < 2 ^ 63 := by
      rw [Nat.div_lt_iff_lt_mul hlen]
      omega
    generalize totalBytesCount.toNat / len = share at hhalf
    rcases Nat.eq_zero_or_pos share with rfl | hpos
    · simp [toDouble]
    · have hshare : (0 : ℚ) < share := by exact_mod_cast hpos
      have hhalf' : (share : ℚ) ≤ 2 ^ 63 := by exact_mod_cast hhalf.le
      have herror := (abs_le.mp (abs_roundTo_sub_le 53 hshare)).2
      have hsmall : (share : ℚ) / 2 ^ 53 ≤ 2 ^ 63 / 2 ^ 53 := by gcongr
      have hle : toDouble share ≤ (2 ^ 64 - 1 : ℕ) := by
        rw [toDouble]
        norm_num at herror hsmall hhalf' ⊢
        linarith
      exact lt_of_le_of_lt (Nat.ceil_le.mpr hle) (by norm_num)
  · obtain rfl : len = 1 := by omega
    simp

/-- The thread planner comes to an end exactly if the number of chunks is an `unsigned int`,
the clamped number of threads is positive and their share is an `unsigned long`. -/
theorem exists_fIndexerThreadsInit_iff (hbuffer : 0 < bufferSize.toNat) {len : Int32} :
    (∃ it, fIndexerThreadsInit threads totalBytesCount bufferSize offset = .ok it ∧
      it.len = len) ↔
    doubleCeil totalBytesCount bufferSize < 2 ^ 32 ∧
      clampCount threads (.ofNat (doubleCeil totalBytesCount bufferSize)) = len ∧
      0 < len.toInt ∧ ⌈toDouble (totalBytesCount.toNat / len.toInt.toNat)⌉₊ < 2 ^ 64 := by
  have hcast := castUnsignedInt_ceilQuotient totalBytesCount hbuffer
  by_cases hcount : doubleCeil totalBytesCount bufferSize < 2 ^ 32
  · rw [castUnsignedInt_of_lt hcount] at hcast
    simp only [fIndexerThreadsInit, hcast, and_iff_right hcount]
    by_cases hpos : 0 < (clampCount threads
        (.ofNat (doubleCeil totalBytesCount bufferSize))).toInt
    · have hquotient : (totalBytesCount / intToSize (clampCount threads
          (.ofNat (doubleCeil totalBytesCount bufferSize)))).toNat = totalBytesCount.toNat /
          (clampCount threads
            (.ofNat (doubleCeil totalBytesCount bufferSize))).toInt.toNat := by
        rw [UInt64.toNat_div, toNat_intToSize hpos.le]
      simp only [dif_pos hpos, hquotient]
      constructor
      · rintro ⟨it, hit, rfl⟩
        split at hit
        · cases hit
        · next pages hpages =>
            obtain rfl := Except.ok.inj hit
            refine ⟨rfl, hpos, ?_⟩
            by_contra hlarge
            rw [castUnsignedLong, if_neg hlarge] at hpages
            cases hpages
      · rintro ⟨rfl, -, hpages⟩
        simp only [castUnsignedLong_of_lt hpages]
        exact ⟨_, rfl, rfl⟩
    · simp only [dif_neg hpos]
      refine iff_of_false ?_ ?_
      · rintro ⟨it, hit, -⟩
        split at hit <;> cases hit
      · rintro ⟨rfl, hlen, -⟩
        exact hpos hlen
  · rw [castUnsignedInt_of_le (not_lt.mp hcount)] at hcast
    simp only [fIndexerThreadsInit, hcast]
    refine iff_of_false ?_ fun h => hcount h.1
    rintro ⟨it, hit, -⟩
    cases hit

/-- The number of threads, where it is positive. -/
theorem toInt_clampCount_eq {count : ℕ} (hcount : 0 < count) (hcount' : count < 2 ^ 32)
    (hwanted : 0 < threads.toInt ∨ threads.toInt < 0 ∧ count < 2 ^ 31) :
    (clampCount threads (.ofNat count)).toInt =
      if 0 < threads.toInt then min threads.toInt count else (count : ℤ) := by
  have hnat : (UInt32.ofNat count).toNat = count := UInt32.toNat_ofNat_of_lt' hcount'
  split
  · next hpos => rw [toInt_clampCount hpos (hnat.symm ▸ hcount), hnat]
  · next hneg =>
      obtain ⟨hneg, hsmall⟩ := hwanted.resolve_left hneg
      rw [toInt_clampCount_of_neg hneg (hnat.symm ▸ hcount) (hnat.symm ▸ hsmall), hnat]

/-- **The clamped number of threads** makes sense exactly for the configurations that are
clampable. -/
theorem threadsClamped_iff (hbuffer : 0 < bufferSize.toNat) :
    ThreadsClamped threads totalBytesCount bufferSize offset ↔
      ThreadsClampable threads totalBytesCount bufferSize := by
  have hplan : ThreadsClamped threads totalBytesCount bufferSize offset ↔
      ∃ len : Int32, (∃ it, fIndexerThreadsInit threads totalBytesCount bufferSize offset =
          .ok it ∧ it.len = len) ∧ 1 ≤ len.toInt ∧
        len.toInt ≤ max 1 (totalBytesCount.toNat ⌈/⌉ bufferSize.toNat : ℕ) := by
    constructor
    · rintro ⟨it, hit, hlow, hhigh⟩
      exact ⟨it.len, ⟨it, hit, rfl⟩, hlow, hhigh⟩
    · rintro ⟨len, ⟨it, hit, rfl⟩, hlow, hhigh⟩
      exact ⟨it, hit, hlow, hhigh⟩
  simp only [hplan, exists_fIndexerThreadsInit_iff hbuffer]
  by_cases hempty : totalBytesCount = 0
  · refine iff_of_true ?_ (Or.inl hempty)
    have hzero := (doubleCeil_eq_zero_iff hbuffer).mpr hempty
    refine ⟨1, ⟨by omega, ?_, by decide, ?_⟩, by decide, ?_⟩
    · rw [hzero]
      rfl
    · simp [hempty, toDouble]
    · rw [Int32.toInt_one]
      omega
  · have hcount : 0 < doubleCeil totalBytesCount bufferSize :=
      Nat.pos_of_ne_zero fun hzero => hempty ((doubleCeil_eq_zero_iff hbuffer).mp hzero)
    have hchunks : 0 < totalBytesCount.toNat ⌈/⌉ bufferSize.toNat :=
      (lt_ceilDiv_iff hbuffer).mpr (by
        rw [Nat.mul_zero]
        exact Nat.pos_of_ne_zero fun hzero => hempty (UInt64.toNat_inj.mp hzero))
    rw [ThreadsClampable, or_iff_right hempty]
    constructor
    · rintro ⟨len, ⟨hfits, rfl, hpos, hpages⟩, -, hhigh⟩
      have hnonzero : ¬ UInt32.ofNat (doubleCeil totalBytesCount bufferSize) = 0 := by
        rw [← UInt32.toNat_inj, UInt32.toNat_ofNat_of_lt' hfits, UInt32.toNat_zero]
        exact hcount.ne'
      have hwanted := clampCount_pos_iff.mp hpos
      rw [or_iff_right hnonzero, UInt32.toNat_ofNat_of_lt' hfits] at hwanted
      rw [ceil_toDouble_div_lt_iff (by omega)] at hpages
      rw [toInt_clampCount_eq hcount hfits hwanted] at hhigh hpages
      refine ⟨hfits, ?_, hpages.imp_right fun hone => ?_⟩
      · split at hhigh <;> omega
      · split at hone <;> omega
    · rintro ⟨hfits, hwanted, hpages⟩
      have hsign : 0 < threads.toInt ∨
          threads.toInt < 0 ∧ doubleCeil totalBytesCount bufferSize < 2 ^ 31 :=
        hwanted.imp And.left fun h => ⟨h.1, h.2.1⟩
      have hlen := toInt_clampCount_eq hcount hfits hsign
      have hpos : 0 < (clampCount threads
          (.ofNat (doubleCeil totalBytesCount bufferSize))).toInt := by
        rw [hlen]
        split <;> omega
      refine ⟨_, ⟨hfits, rfl, hpos, ?_⟩, hpos, ?_⟩
      · rw [ceil_toDouble_div_lt_iff (by omega), hlen]
        refine hpages.imp_right fun hone => ?_
        split <;> omega
      · rw [hlen]
        split <;> omega

/-- **The clamped concurrency** makes sense exactly for the configurations that are
clampable. -/
theorem chunksClamped_iff (hbuffer : 0 < bufferSize.toNat) :
    ChunksClamped concurrency bufferSize totalBytes fromOffset toOffset ↔
      ChunksClampable concurrency bufferSize fromOffset toOffset := by
  have hcast := castUnsignedInt_ceilQuotient (toOffset - fromOffset) hbuffer
  have hzero : doubleCeil (toOffset - fromOffset) bufferSize = 0 ↔ fromOffset = toOffset := by
    rw [doubleCeil_eq_zero_iff hbuffer, UInt64.sub_eq_iff_eq_add, UInt64.zero_add, eq_comm]
  rw [ChunksClamped, ChunksClampable, ← hzero]
  by_cases hsmall : doubleCeil (toOffset - fromOffset) bufferSize < 2 ^ 31
  · have hnat : (UInt32.ofNat (doubleCeil (toOffset - fromOffset) bufferSize)).toNat =
        doubleCeil (toOffset - fromOffset) bufferSize :=
      UInt32.toNat_ofNat_of_lt' (by simp only [UInt32.size]; omega)
    have hcount : UInt32.ofNat (doubleCeil (toOffset - fromOffset) bufferSize) = 0 ↔
        doubleCeil (toOffset - fromOffset) bufferSize = 0 := by
      rw [← UInt32.toNat_inj, hnat, UInt32.toNat_zero]
    have hpositive : 0 < (clampCount concurrency
        (.ofNat (doubleCeil (toOffset - fromOffset) bufferSize))).toInt ↔
        doubleCeil (toOffset - fromOffset) bufferSize = 0 ∨ concurrency.toInt ≠ 0 := by
      rw [clampCount_pos_iff, hcount, hnat]
      omega
    have hbounds := clampCount_bounds concurrency (hnat.symm ▸ hsmall)
    rw [castUnsignedInt_of_lt (by omega)] at hcast
    simp only [fIndexerChunksInit, hcast, and_iff_left hsmall, ← hpositive]
    rw [dif_pos (hnat.symm ▸ hsmall)]
    constructor
    · rintro ⟨ic, hic, hlow, -⟩
      obtain rfl := Except.ok.inj hic
      exact hlow
    · intro hlow
      exact ⟨_, rfl, hlow, hbounds.2⟩
  · -- neither the loop nor the conversion has a meaning
    refine iff_of_false ?_ (by omega)
    rintro ⟨ic, hic, -⟩
    simp only [fIndexerChunksInit, hcast] at hic
    split at hic
    · cases hic
    · next chunksCount hok =>
        obtain ⟨hlt, rfl⟩ := castUnsignedInt_eq_ok_iff.mp hok
        rw [dif_neg (by rwa [UInt32.toNat_ofNat_of_lt' hlt])] at hic
        cases hic

/-- While no size is rounded, the wish only has to fit the number of chunks. -/
theorem threadsClampable_iff_of_lt (htotal : totalBytesCount.toNat < 2 ^ 53)
    (hbuffer : 0 < bufferSize.toNat) (hbuffer' : bufferSize.toNat < 2 ^ 53) :
    ThreadsClampable threads totalBytesCount bufferSize ↔
      totalBytesCount = 0 ∨ totalBytesCount.toNat ⌈/⌉ bufferSize.toNat < 2 ^ 32 ∧
        (0 < threads.toInt ∨
          threads.toInt < 0 ∧ totalBytesCount.toNat ⌈/⌉ bufferSize.toNat < 2 ^ 31) := by
  have hpages : ⌈toDouble totalBytesCount.toNat⌉₊ < 2 ^ 64 := by
    rw [toDouble_eq htotal, Nat.ceil_natCast]
    omega
  rw [ThreadsClampable, doubleCeil_eq htotal hbuffer hbuffer']
  simp only [hpages, true_or, and_true, le_refl, or_true]

/-- **The planners clamp a configuration** to a number of threads that divides the window and
to a concurrency with which the batches advance exactly if it is clampable. -/
theorem plannersClamp_iff (hbuffer : 1 ≤ bufferSize.toNat) :
    ThreadsClamped threads totalBytesCount bufferSize offset ∧
        ChunksClamped concurrency bufferSize totalBytes fromOffset toOffset ↔
      ThreadsClampable threads totalBytesCount bufferSize ∧
        ChunksClampable concurrency bufferSize fromOffset toOffset :=
  and_congr (threadsClamped_iff hbuffer) (chunksClamped_iff hbuffer)

end

/-- A negative number of threads and too many concurrent reads of ten bytes. -/
theorem plannersClamp_ten : ThreadsClamped (-1) 10 4 0 ∧ ChunksClamped 8 4 10 0 10 := by
  refine (plannersClamp_iff (by decide)).mpr ⟨?_, Or.inr ⟨by decide, ?_⟩⟩
  · exact (threadsClampable_iff_of_lt (by decide) (by decide) (by decide)).mpr (by decide)
  · rw [doubleCeil_eq (by decide) (by decide) (by decide)]
    decide

/-- No threads and no concurrent reads of ten bytes: both wishes stay zero. -/
theorem plannersClamp_fails_on_zero :
    fIndexerThreadsInit 0 10 4 0 = .error .undefined ∧ ¬ ThreadsClamped 0 10 4 0 ∧
      ¬ ChunksClamped 0 4 10 0 10 := by
  have hundefined : fIndexerThreadsInit 0 10 4 0 = .error .undefined := by decide +kernel
  refine ⟨hundefined, ?_, ?_⟩
  · rintro ⟨it, hit, -⟩
    rw [hundefined] at hit
    cases hit
  · rw [chunksClamped_iff (by decide)]
    rintro (hempty | ⟨hzero, -⟩)
    · exact absurd hempty (by decide)
    · exact absurd rfl hzero

end Flashlight.Indexer
