/-
# Which bytes the plan reads

A byte of a window is read when it lies in a chunk planned for the range of one of
the window's threads. Since the thread planner leaves out the byte that the range
of a thread ends at, a window that is divided among several threads loses byte
`pages`, the first one behind thread `0`, unless a later thread starts over.

That happens when the threads that fit use up the window together with the bytes
between them: the following thread starts just behind the window, its size wraps
around, and the thread after it takes the whole window.
-/

import Flashlight.Indexer.Plan

namespace Flashlight.Indexer

open Flashlight.Math

/-- Byte position `p` lies in a chunk planned for the range of `thread`. -/
def FIndexerThread.Reads (thread : FIndexerThread) (concurrency : Int32) (p : ℕ) : Prop :=
  ∃ ic, fIndexerChunksInit concurrency thread.bufferSize thread.totalBytesCount
      thread.fromOffset thread.toOffset = .ok ic ∧ ∃ chunk ∈ ic.chunks, chunk.Covers p

/-- Byte position `p` lies in a chunk planned for some thread of the window. -/
def Planned (threads concurrency : Int32) (totalBytesCount bufferSize offset : UInt64) (p : ℕ) :
    Prop :=
  ∃ it, fIndexerThreadsInit threads totalBytesCount bufferSize offset = .ok it ∧
    ∃ thread ∈ it.threads, thread.Reads concurrency p

/-- Every byte of the window is planned. -/
def PlanComplete (threads concurrency : Int32) (totalBytesCount bufferSize offset : UInt64) :
    Prop :=
  ∀ p, offset.toNat ≤ p → p < offset.toNat + totalBytesCount.toNat →
    Planned threads concurrency totalBytesCount bufferSize offset p

/-! ## One thread -/

section

variable {concurrency : Int32} {thread : FIndexerThread} {p : ℕ}

/-- A thread reads the bytes of its range, if an `int` can count its chunks. -/
theorem reads_iff (hle : thread.fromOffset.toNat ≤ thread.toOffset.toNat)
    (hsize : thread.toOffset.toNat - thread.fromOffset.toNat < 2 ^ 53)
    (hbuffer : 0 < thread.bufferSize.toNat) (hbuffer' : thread.bufferSize.toNat < 2 ^ 53)
    (hfit : thread.toOffset.toNat + thread.bufferSize.toNat < 2 ^ 64) :
    thread.Reads concurrency p ↔
      (thread.toOffset.toNat - thread.fromOffset.toNat) ⌈/⌉ thread.bufferSize.toNat < 2 ^ 31 ∧
        thread.fromOffset.toNat ≤ p ∧ p < thread.toOffset.toNat := by
  have hsub : (thread.toOffset - thread.fromOffset).toNat =
      thread.toOffset.toNat - thread.fromOffset.toNat := UInt64.toNat_sub_of_le _ _ hle
  by_cases hcount :
      (thread.toOffset.toNat - thread.fromOffset.toNat) ⌈/⌉ thread.bufferSize.toNat < 2 ^ 31
  · obtain ⟨ic, hic, hchunks, -⟩ := fIndexerChunksInit_eq_ok concurrency thread.totalBytesCount
      hle hsize hbuffer hbuffer' hfit hcount
    have hcovers : (∃ chunk ∈ ic.chunks, chunk.Covers p) ↔
        thread.fromOffset.toNat ≤ p ∧ p < thread.toOffset.toNat := by
      rw [hchunks]
      exact exists_covers_plainChunk_iff hbuffer hfit
    simp only [FIndexerThread.Reads, hic, Except.ok.injEq, exists_eq_left', hcovers, hcount,
      true_and]
  · have herror := fIndexerChunksInit_eq_error concurrency thread.totalBytesCount
      (hsub.symm ▸ hsize) hbuffer hbuffer' (by rw [hsub]; omega)
    simp only [FIndexerThread.Reads, herror, hcount, false_and]
    simp

/-- A thread that starts just behind its end reads nothing: the size of its range
wraps around to more chunks than any counter holds. -/
theorem not_reads_of_wrapped (hwrapped : thread.fromOffset = thread.toOffset + 1)
    (hbuffer : 0 < thread.bufferSize.toNat) (hbuffer' : thread.bufferSize.toNat < 2 ^ 31) :
    ¬ thread.Reads concurrency p := by
  have hsub : thread.toOffset - thread.fromOffset = -1 := by
    rw [hwrapped]
    grind
  have hdouble : toDouble (2 ^ 64 - 1) = 2 ^ 64 := by decide +kernel
  have hquotient : (2 : ℚ) ^ 33 ≤
      roundTo 53 (toDouble (-1 : UInt64).toNat / toDouble thread.bufferSize.toNat) := by
    apply two_pow_le_roundTo (by norm_num)
    rw [show (-1 : UInt64).toNat = 2 ^ 64 - 1 from rfl, hdouble, toDouble_eq (by omega),
      le_div_iff₀ (by exact_mod_cast hbuffer)]
    have hcast : (thread.bufferSize.toNat : ℚ) < 2 ^ 31 := by exact_mod_cast hbuffer'
    nlinarith
  have hceil : 2 ^ 32 ≤
      ⌈roundTo 53 (toDouble (-1 : UInt64).toNat / toDouble thread.bufferSize.toNat)⌉₊ := by
    have hlt : (2 ^ 32 : ℕ) < ⌈roundTo 53 (toDouble (-1 : UInt64).toNat /
        toDouble thread.bufferSize.toNat)⌉₊ :=
      Nat.lt_ceil.mpr (lt_of_lt_of_le (by norm_num) hquotient)
    exact hlt.le
  have hne : thread.bufferSize ≠ 0 := by
    intro h
    rw [h] at hbuffer
    simp at hbuffer
  have hcast : (ceilQuotient (thread.toOffset - thread.fromOffset) thread.bufferSize >>=
      castUnsignedInt) = .error .undefined := by
    rw [hsub, ceilQuotient, if_neg hne]
    exact castUnsignedInt_of_le hceil
  rintro ⟨ic, hic, -⟩
  simp [fIndexerChunksInit, hcast] at hic

end

/-! ## The window -/

section

variable {threads concurrency : Int32} {totalBytesCount bufferSize offset : UInt64}

/-- A thread of a given position and size reads its bytes, if an `int` can count
its chunks. -/
theorem reads_iff_of_eq {thread : FIndexerThread} {start stop p : ℕ}
    (hoffset : offset.toNat < 2 ^ 53) (hle : start ≤ stop) (hstop : stop < 2 ^ 53)
    (hfrom : thread.fromOffset = .ofNat start + offset)
    (hto : thread.toOffset = .ofNat stop + offset)
    (hbuffer : 0 < thread.bufferSize.toNat) (hbuffer' : thread.bufferSize.toNat < 2 ^ 53) :
    thread.Reads concurrency (offset.toNat + p) ↔
      (stop - start) ⌈/⌉ thread.bufferSize.toNat < 2 ^ 31 ∧ start ≤ p ∧ p < stop := by
  have hfromNat : thread.fromOffset.toNat = start + offset.toNat := by
    rw [hfrom, UInt64.toNat_add, UInt64.toNat_ofNat']
    omega
  have htoNat : thread.toOffset.toNat = stop + offset.toNat := by
    rw [hto, UInt64.toNat_add, UInt64.toNat_ofNat']
    omega
  rw [reads_iff (by omega) (by omega) hbuffer hbuffer' (by omega), hfromNat, htoNat,
    Nat.add_sub_add_right]
  constructor
  · rintro ⟨hcount, hlow, hhigh⟩
    exact ⟨hcount, by omega, by omega⟩
  · rintro ⟨hcount, hlow, hhigh⟩
    exact ⟨hcount, by omega, by omega⟩

/-- The threads divide the window into steps of `pages + 1` bytes. -/
structure Division (total buffer count pages : ℕ) : Prop where
  count_pos : 0 < count
  count_le : count ≤ total ⌈/⌉ buffer
  pages_pos : 0 < pages
  mul_le : count * pages ≤ total
  lt_mul : total < count * (pages + 1)

theorem division_of_pos (threads : Int32) {total buffer : ℕ} (hthreads : 0 < threads.toInt)
    (htotal : 0 < total) (hbuffer : 0 < buffer) :
    Division total buffer (threadCount threads total buffer)
      (total / threadCount threads total buffer) := by
  have hchunks : 0 < total ⌈/⌉ buffer := (lt_ceilDiv_iff hbuffer).mpr (by omega)
  have hchunks' : total ⌈/⌉ buffer ≤ total :=
    (ceilDiv_le_iff_le_mul hbuffer).mpr (Nat.le_mul_of_pos_left _ hbuffer)
  have hcount : 0 < threadCount threads total buffer := by
    rw [threadCount]
    omega
  have hle : threadCount threads total buffer ≤ total ⌈/⌉ buffer := Nat.min_le_right _ _
  exact {
    count_pos := hcount
    count_le := hle
    pages_pos := Nat.div_pos (by omega) hcount
    mul_le := Nat.mul_div_le _ _
    lt_mul := Nat.lt_mul_div_succ _ hcount }

/-- A thread that starts just behind the window reads no byte when the window has
at least as many chunks as threads: the buffer is small then. -/
theorem Division.buffer_lt {total buffer count pages : ℕ}
    (hdivision : Division total buffer count pages) (hbuffer : 0 < buffer)
    (hdvd : pages + 1 ∣ total + 1)
    (hfits : (total + 1) / (pages + 1) < count) : buffer < count := by
  obtain ⟨fitting, hfitting⟩ := hdvd
  have hquotient : (total + 1) / (pages + 1) = fitting := by
    rw [hfitting, Nat.mul_div_cancel_left _ (by omega)]
  obtain ⟨others, rfl⟩ : ∃ others, count = others + 1 :=
    ⟨count - 1, by have := hdivision.count_pos; omega⟩
  have hbufferCount : buffer * others < total :=
    (lt_ceilDiv_iff hbuffer).mp (by have := hdivision.count_le; omega)
  have hmul := hdivision.mul_le
  have hlt := hdivision.lt_mul
  have hpages : pages + 1 ≤ others := by
    have hle : (pages + 1) * fitting ≤ (pages + 1) * others := Nat.mul_le_mul_left _ (by omega)
    nlinarith
  by_contra hge
  have hwindow : (others + 1) * (pages + 1) ≤ (others + 1) * others := Nat.mul_le_mul_left _ hpages
  have hbuffers : (others + 1) * others ≤ buffer * others := Nat.mul_le_mul_right _ (by omega)
  omega

/-- A planned thread does not read a byte outside of its own step. -/
theorem not_reads_plainThread {pages i p : ℕ} (hoffset : offset.toNat < 2 ^ 53)
    (htotal : totalBytesCount.toNat < 2 ^ 53) (hbuffer : 0 < bufferSize.toNat)
    (hbuffer' : bufferSize.toNat < 2 ^ 53)
    (hfits : (i + 1) * (pages + 1) ≤ totalBytesCount.toNat + 1)
    (hp : p < i * (pages + 1) ∨ i * (pages + 1) + pages ≤ p) :
    ¬ (plainThread totalBytesCount bufferSize offset pages i).Reads concurrency
      (offset.toNat + p) := by
  rw [Nat.succ_mul] at hfits
  rw [reads_iff_of_eq hoffset (Nat.le_add_right _ pages) (by omega) rfl rfl hbuffer hbuffer']
  omega

/-- The threads that fit leave out the last byte of each step. -/
theorem not_reads_gap_of_fits {pages m : ℕ} (hoffset : offset.toNat < 2 ^ 53)
    (htotal : totalBytesCount.toNat < 2 ^ 53) (hbuffer : 0 < bufferSize.toNat)
    (hbuffer' : bufferSize.toNat < 2 ^ 53) (hfits : m * (pages + 1) ≤ totalBytesCount.toNat + 1) :
    ∀ thread ∈ (List.range' 0 m).map (plainThread totalBytesCount bufferSize offset pages),
      ¬ thread.Reads concurrency (offset.toNat + pages) := by
  intro thread hmem
  obtain ⟨i, hi, rfl⟩ := List.mem_map.mp hmem
  have hi' : i < m := by simpa using hi
  have hstep : (i + 1) * (pages + 1) ≤ m * (pages + 1) := Nat.mul_le_mul_right _ hi'
  apply not_reads_plainThread hoffset htotal hbuffer hbuffer' (by omega)
  rcases Nat.eq_zero_or_pos i with rfl | hpos
  · right
    omega
  · left
    have hone : 1 * (pages + 1) ≤ i * (pages + 1) := Nat.mul_le_mul_right _ hpos
    omega

/-- The threads behind the clipped one start beyond the first step. -/
theorem not_reads_gap_of_rest {pages fitting rest : ℕ}
    (hdivision : Division totalBytesCount.toNat bufferSize.toNat (fitting + (rest + 1)) pages)
    (hoffset : offset.toNat < 2 ^ 53) (htotal : totalBytesCount.toNat < 2 ^ 53)
    (hbuffer : 0 < bufferSize.toNat) (hbuffer' : bufferSize.toNat < 2 ^ 53)
    (hstart : fitting * (pages + 1) ≤ totalBytesCount.toNat)
    (hclip : totalBytesCount.toNat + 1 < (fitting + 1) * (pages + 1)) :
    ∀ thread ∈ threadsLoop totalBytesCount bufferSize offset rest (fitting + 1)
      (totalBytesCount - .ofNat (fitting * (pages + 1))),
      ¬ thread.Reads concurrency (offset.toNat + pages) := by
  intro thread hmem
  set clipped := totalBytesCount.toNat - fitting * (pages + 1) with hclipped
  have hsub : totalBytesCount - .ofNat (fitting * (pages + 1)) = .ofNat clipped := by
    rw [hclipped, UInt64.ofNat_sub hstart, UInt64.ofNat_toNat]
  rw [Nat.succ_mul] at hclip
  have hmul := hdivision.mul_le
  have hall : (fitting + 1 + rest) * (clipped + 1) ≤ totalBytesCount.toNat + 1 := by
    have hle : (fitting + 1 + rest) * (clipped + 1) ≤ (fitting + 1 + rest) * pages :=
      Nat.mul_le_mul_left _ (by omega)
    have hcount : fitting + 1 + rest = fitting + (rest + 1) := by omega
    rw [hcount] at hle ⊢
    omega
  rw [hsub, show rest = rest + 0 from rfl, threadsLoop_of_fits htotal 0 hall, threadsLoop,
    List.append_nil] at hmem
  obtain ⟨i, hi, rfl⟩ := List.mem_map.mp hmem
  obtain ⟨hlow, hhigh⟩ : fitting + 1 ≤ i ∧ i < fitting + 1 + rest := by simpa using hi
  have hstep : (i + 1) * (clipped + 1) ≤ (fitting + 1 + rest) * (clipped + 1) :=
    Nat.mul_le_mul_right _ (by omega)
  apply not_reads_plainThread hoffset htotal hbuffer hbuffer' (by omega)
  -- a thread behind the clipped one exists, so more than `pages` threads fit
  have hmany : pages < fitting := by
    have htwo : (fitting + 2) * pages ≤ (fitting + (rest + 1)) * pages :=
      Nat.mul_le_mul_right _ (by omega)
    rw [Nat.add_mul] at htwo
    rw [Nat.mul_succ] at hclip
    omega
  left
  have hi : i * 1 ≤ i * (clipped + 1) := Nat.mul_le_mul_left _ (by omega)
  omega

/-- The thread that takes the whole window, if there is one, reads it when an `int`
can count its chunks. -/
theorem reads_whole_iff {thread : FIndexerThread} {p : ℕ} (hoffset : offset.toNat < 2 ^ 53)
    (htotal : totalBytesCount.toNat < 2 ^ 53) (hfrom : thread.fromOffset = offset)
    (hto : thread.toOffset = totalBytesCount + offset)
    (hbuffer : 0 < thread.bufferSize.toNat) (hbuffer' : thread.bufferSize.toNat < 2 ^ 53) :
    thread.Reads concurrency (offset.toNat + p) ↔
      totalBytesCount.toNat ⌈/⌉ thread.bufferSize.toNat < 2 ^ 31 ∧ p < totalBytesCount.toNat := by
  rw [reads_iff_of_eq hoffset (Nat.zero_le totalBytesCount.toNat) htotal (by simpa using hfrom)
    (by rwa [UInt64.ofNat_toNat]) hbuffer hbuffer']
  simp

/-- The window loses the first byte behind thread `0`, unless a thread behind the
window is followed by another one whose chunks can be counted. -/
theorem not_reads_gap {count pages : ℕ}
    (hdivision : Division totalBytesCount.toNat bufferSize.toNat count pages)
    (hoffset : offset.toNat < 2 ^ 53) (htotal : totalBytesCount.toNat < 2 ^ 53)
    (hbuffer : 0 < bufferSize.toNat) (hbuffer' : bufferSize.toNat < 2 ^ 53)
    (hcount : count ≤ 2 ^ 31)
    (hover : pages + 1 ∣ totalBytesCount.toNat + 1 →
      count < (totalBytesCount.toNat + 1) / (pages + 1) + 2 ∨
        count = (totalBytesCount.toNat + 1) / (pages + 1) + 2 ∧
          2 ^ 31 ≤ totalBytesCount.toNat ⌈/⌉ bufferSize.toNat) :
    ∀ thread ∈ threadsLoop totalBytesCount bufferSize offset count 0 (.ofNat pages),
      ¬ thread.Reads concurrency (offset.toNat + pages) := by
  have hpages := hdivision.pages_pos
  have hpagesle : pages ≤ totalBytesCount.toNat :=
    le_trans (Nat.le_mul_of_pos_left _ hdivision.count_pos) hdivision.mul_le
  obtain ⟨fitting, hfitting⟩ : ∃ fitting, fitting = (totalBytesCount.toNat + 1) / (pages + 1) :=
    ⟨_, rfl⟩
  rw [← hfitting] at hover
  have hfitle : fitting * (pages + 1) ≤ totalBytesCount.toNat + 1 :=
    hfitting ▸ Nat.div_mul_le_self _ _
  have hfitlt : totalBytesCount.toNat + 1 < (fitting + 1) * (pages + 1) := by
    rw [hfitting, Nat.mul_comm]
    exact Nat.lt_mul_div_succ _ (by omega)
  have hfitpos : 1 * (pages + 1) ≤ fitting * (pages + 1) :=
    Nat.mul_le_mul_right _ (hfitting ▸ (Nat.one_le_div_iff (by omega)).mpr (by omega))
  intro thread hmem
  rcases Nat.lt_or_ge fitting count with hlt | hge
  · obtain ⟨rest, rfl⟩ : ∃ rest, count = fitting + (rest + 1) := ⟨count - fitting - 1, by omega⟩
    rw [threadsLoop_of_fits htotal (rest + 1) (by rwa [Nat.zero_add]), Nat.zero_add,
      threadsLoop_of_clip htotal rest hfitle hfitlt (by omega), List.mem_append,
      List.mem_cons] at hmem
    rcases Nat.lt_or_ge totalBytesCount.toNat (fitting * (pages + 1)) with hbehind | hinside
    · -- the clipped thread starts just behind the window
      have heq : totalBytesCount.toNat + 1 = fitting * (pages + 1) := by omega
      have hdvd : pages + 1 ∣ totalBytesCount.toNat + 1 := ⟨fitting, by rw [heq, Nat.mul_comm]⟩
      have hsmall := hdivision.buffer_lt hbuffer hdvd (by omega)
      rcases hmem with hmem | rfl | hmem
      · exact not_reads_gap_of_fits hoffset htotal hbuffer hbuffer' hfitle thread hmem
      · refine not_reads_of_wrapped ?_ hbuffer (by simp only; omega)
        simp only [← heq, UInt64.ofNat_add, UInt64.ofNat_toNat]
        grind
      · rcases hover hdvd with hlast | ⟨hnext, hmany⟩
        · obtain rfl : rest = 0 := by omega
          simp [threadsLoop] at hmem
        · obtain rfl : rest = 1 := by omega
          rw [← heq, threadsLoop_of_wrap htotal, threadsLoop, List.mem_singleton] at hmem
          subst hmem
          rw [reads_whole_iff hoffset htotal rfl rfl hbuffer hbuffer']
          simp only
          omega
    · rcases hmem with hmem | rfl | hmem
      · exact not_reads_gap_of_fits hoffset htotal hbuffer hbuffer' hfitle thread hmem
      · rw [reads_iff_of_eq hoffset hinside htotal rfl (by simp [UInt64.ofNat_toNat]) hbuffer
          hbuffer']
        omega
      · exact not_reads_gap_of_rest hdivision hoffset htotal hbuffer hbuffer' hinside hfitlt
          thread hmem
  · have hfits : count * (pages + 1) ≤ totalBytesCount.toNat + 1 :=
      le_trans (Nat.mul_le_mul_right _ hge) hfitle
    rw [show count = count + 0 from rfl,
      threadsLoop_of_fits htotal 0 (by rwa [Nat.zero_add]), threadsLoop, List.append_nil] at hmem
    exact not_reads_gap_of_fits hoffset htotal hbuffer hbuffer' hfits thread hmem

/-- The window's chunks can be counted by an `int`. -/
def FewChunks (total buffer : ℕ) : Prop :=
  total ⌈/⌉ buffer < 2 ^ 31

/-- The threads that fit and the bytes between them use up the window, and at least
`more` threads follow. -/
def StartsOver (threads : Int32) (total buffer more : ℕ) : Prop :=
  total / threadCount threads total buffer + 1 ∣ total + 1 ∧
    (total + 1) / (total / threadCount threads total buffer + 1) + more ≤
      threadCount threads total buffer

theorem planComplete_of_one (hthreads : 1 ≤ threads.toInt) (htotal : 1 ≤ totalBytesCount.toNat)
    (htotal' : totalBytesCount.toNat < 2 ^ 53) (hbuffer : 1 ≤ bufferSize.toNat)
    (hbuffer' : bufferSize.toNat < 2 ^ 53) (hoffset : offset.toNat < 2 ^ 53)
    (hfew : FewChunks totalBytesCount.toNat bufferSize.toNat)
    (hone : threadCount threads totalBytesCount.toNat bufferSize.toNat = 1) :
    PlanComplete threads concurrency totalBytesCount bufferSize offset := by
  intro p hlow hhigh
  rw [FewChunks] at hfew
  obtain ⟨it, hit, hitThreads⟩ := fIndexerThreadsInit_eq_ok threads offset hthreads htotal
    htotal' hbuffer hbuffer' (by omega)
  rw [hone, Nat.div_one, show (1 : ℕ) = 1 + 0 from rfl,
    threadsLoop_of_fits htotal' 0 (by omega), threadsLoop, List.append_nil] at hitThreads
  refine ⟨it, hit, plainThread totalBytesCount bufferSize offset totalBytesCount.toNat 0,
    by rw [hitThreads]; simp, ?_⟩
  obtain ⟨q, rfl⟩ : ∃ q, p = offset.toNat + q := ⟨p - offset.toNat, by omega⟩
  apply (reads_whole_iff hoffset htotal' _ _ _ _).mpr ⟨hfew, by omega⟩
  · simp [plainThread]
  · simp [plainThread]
  · exact hbuffer
  · exact hbuffer'

theorem planComplete_of_startsOver (hthreads : 1 ≤ threads.toInt)
    (htotal : 1 ≤ totalBytesCount.toNat)
    (htotal' : totalBytesCount.toNat < 2 ^ 53) (hbuffer : 1 ≤ bufferSize.toNat)
    (hbuffer' : bufferSize.toNat < 2 ^ 53) (hoffset : offset.toNat < 2 ^ 53)
    (hfew : FewChunks totalBytesCount.toNat bufferSize.toNat)
    (hover : StartsOver threads totalBytesCount.toNat bufferSize.toNat 2) :
    PlanComplete threads concurrency totalBytesCount bufferSize offset := by
  intro p hlow hhigh
  rw [FewChunks] at hfew
  obtain ⟨it, hit, hitThreads⟩ := fIndexerThreadsInit_eq_ok threads offset hthreads htotal
    htotal' hbuffer hbuffer' (by omega)
  obtain ⟨⟨fitting, hfitting⟩, hmore⟩ := hover
  have hdivision := division_of_pos threads hthreads htotal hbuffer
  generalize threadCount threads totalBytesCount.toNat bufferSize.toNat = count at *
  generalize totalBytesCount.toNat / count = pages at *
  have hpages := hdivision.pages_pos
  have hpagesle : pages ≤ totalBytesCount.toNat :=
    le_trans (Nat.le_mul_of_pos_left _ hdivision.count_pos) hdivision.mul_le
  rw [hfitting, Nat.mul_div_cancel_left _ (by omega)] at hmore
  rw [Nat.mul_comm] at hfitting
  obtain ⟨rest, rfl⟩ : ∃ rest, count = fitting + (rest + 1 + 1) := ⟨count - fitting - 2, by omega⟩
  rw [threadsLoop_of_fits htotal' (rest + 1 + 1) (by rw [Nat.zero_add, hfitting]), Nat.zero_add,
    threadsLoop_of_clip htotal' (rest + 1) hfitting.ge (by rw [Nat.succ_mul]; omega) (by omega),
    ← hfitting, threadsLoop_of_wrap htotal'] at hitThreads
  refine ⟨it, hit, ⟨offset, totalBytesCount + offset, totalBytesCount, bufferSize⟩,
    by rw [hitThreads]; simp, ?_⟩
  obtain ⟨q, rfl⟩ : ∃ q, p = offset.toNat + q := ⟨p - offset.toNat, by omega⟩
  apply (reads_whole_iff hoffset htotal' _ _ _ _).mpr ⟨hfew, by omega⟩
  · rfl
  · rfl
  · exact hbuffer
  · exact hbuffer'

/-- Three threads that start over, where the third one happens to start in the range of thread
`0`: it reads what the threads that fit leave out. -/
theorem planComplete_of_third (hthreads : 1 ≤ threads.toInt) (htotal : 1 ≤ totalBytesCount.toNat)
    (htotal' : totalBytesCount.toNat < 2 ^ 53) (hbuffer : 1 ≤ bufferSize.toNat)
    (hbuffer' : bufferSize.toNat < 2 ^ 53) (hoffset : offset.toNat < 2 ^ 53)
    (hcount : totalBytesCount.toNat ⌈/⌉ bufferSize.toNat < 2 ^ 32)
    (hover : StartsOver threads totalBytesCount.toNat bufferSize.toNat 3) {pages start : ℕ}
    (hpages : totalBytesCount.toNat / threadCount threads totalBytesCount.toNat bufferSize.toNat =
      pages)
    (hstart : ((totalBytesCount.toNat + 1) / (pages + 1) + 2) * (totalBytesCount.toNat + 1) %
      2 ^ 64 = start)
    (hpos : 0 < start) (hle : start ≤ pages)
    (hfew : FewChunks (totalBytesCount.toNat - start) bufferSize.toNat) :
    PlanComplete threads concurrency totalBytesCount bufferSize offset := by
  intro p hlow hhigh
  rw [FewChunks] at hfew
  obtain ⟨it, hit, hitThreads⟩ := fIndexerThreadsInit_eq_ok threads offset hthreads htotal
    htotal' hbuffer hbuffer' hcount
  rw [StartsOver, hpages] at hover
  obtain ⟨⟨fitting, hfitting⟩, hmore⟩ := hover
  have hdivision := division_of_pos threads hthreads htotal hbuffer
  rw [hpages] at hitThreads hdivision
  generalize threadCount threads totalBytesCount.toNat bufferSize.toNat = count at *
  rw [hfitting, Nat.mul_div_cancel_left _ (by omega), ← hfitting] at hstart
  rw [hfitting, Nat.mul_div_cancel_left _ (by omega)] at hmore
  rw [Nat.mul_comm] at hfitting
  have hdouble : 2 * pages ≤ count * pages := Nat.mul_le_mul_right _ (by omega)
  have hmul := hdivision.mul_le
  obtain ⟨rest, rfl⟩ : ∃ rest, count = fitting + (rest + 1 + 1 + 1) :=
    ⟨count - fitting - 3, by omega⟩
  rw [threadsLoop_of_fits htotal' (rest + 1 + 1 + 1) (by rw [Nat.zero_add, hfitting]),
    Nat.zero_add, threadsLoop_of_clip htotal' (rest + 1 + 1) hfitting.ge
      (by rw [Nat.succ_mul]; omega) (by omega),
    ← hfitting, threadsLoop_of_wrap htotal',
    threadsLoop_of_again htotal' rest hstart hpos (by omega)] at hitThreads
  have hfits : 0 < fitting := by
    rcases Nat.eq_zero_or_pos fitting with rfl | hpos
    · omega
    · exact hpos
  obtain ⟨q, rfl⟩ : ∃ q, p = offset.toNat + q := ⟨p - offset.toNat, by omega⟩
  by_cases hq : q < pages
  · have hfirst : plainThread totalBytesCount bufferSize offset pages 0 ∈ it.threads := by
      rw [hitThreads]
      exact List.mem_append_left _ (List.mem_map.mpr ⟨0, by simp [hfits], rfl⟩)
    have hrest : pages ⌈/⌉ bufferSize.toNat ≤
        (totalBytesCount.toNat - start) ⌈/⌉ bufferSize.toNat :=
      (gc_mul_ceilDiv hbuffer).monotone_l (show pages ≤ totalBytesCount.toNat - start by omega)
    have hpagesFew : pages ⌈/⌉ bufferSize.toNat < 2 ^ 31 := hrest.trans_lt hfew
    refine ⟨it, hit, _, hfirst, ?_⟩
    apply (reads_iff_of_eq hoffset (Nat.zero_le pages) _ _ _ _ _).mpr ⟨hpagesFew, Nat.zero_le q, hq⟩
    · omega
    · simp [plainThread]
    · simp [plainThread]
    · exact hbuffer
    · exact hbuffer'
  · refine ⟨it, hit, ⟨.ofNat start + offset, totalBytesCount + offset, totalBytesCount, bufferSize⟩,
      by rw [hitThreads]; simp, ?_⟩
    have hinside : start ≤ totalBytesCount.toNat := by omega
    apply (reads_iff_of_eq hoffset hinside htotal' _ _ _ _).mpr ⟨hfew, by omega, by omega⟩
    · rfl
    · rw [UInt64.ofNat_toNat]
    · exact hbuffer
    · exact hbuffer'

/-- Several threads that do not start over leave the gap unread. -/
theorem not_planComplete_of_gap (hthreads : 1 ≤ threads.toInt) (htotal : 1 ≤ totalBytesCount.toNat)
    (htotal' : totalBytesCount.toNat < 2 ^ 53) (hbuffer : 1 ≤ bufferSize.toNat)
    (hbuffer' : bufferSize.toNat < 2 ^ 53) (hoffset : offset.toNat < 2 ^ 53)
    (hcount : totalBytesCount.toNat ⌈/⌉ bufferSize.toNat < 2 ^ 32)
    (hseveral : threadCount threads totalBytesCount.toNat bufferSize.toNat ≠ 1)
    (hover : StartsOver threads totalBytesCount.toNat bufferSize.toNat 2 →
      2 ^ 31 ≤ totalBytesCount.toNat ⌈/⌉ bufferSize.toNat ∧
        ¬ StartsOver threads totalBytesCount.toNat bufferSize.toNat 3) :
    ¬ PlanComplete threads concurrency totalBytesCount bufferSize offset := by
  intro hcomplete
  obtain ⟨it, hit, hitThreads⟩ := fIndexerThreadsInit_eq_ok threads offset hthreads htotal
    htotal' hbuffer hbuffer' hcount
  have hdivision := division_of_pos threads hthreads htotal hbuffer
  have hbound : threadCount threads totalBytesCount.toNat bufferSize.toNat ≤ 2 ^ 31 := by
    have := threads.toInt_lt
    rw [threadCount]
    omega
  simp only [StartsOver] at hover
  generalize threadCount threads totalBytesCount.toNat bufferSize.toNat = count at *
  generalize totalBytesCount.toNat / count = pages at *
  have hinside : pages < totalBytesCount.toNat := by
    have htwo : 2 * pages ≤ count * pages :=
      Nat.mul_le_mul_right _ (by have := hdivision.count_pos; omega)
    have hmul := hdivision.mul_le
    have hpages := hdivision.pages_pos
    omega
  obtain ⟨it', hit', thread, hmem, hreads⟩ := hcomplete (offset.toNat + pages) (by omega) (by omega)
  obtain rfl : it = it' := Except.ok.inj (hit.symm.trans hit')
  rw [hitThreads] at hmem
  refine not_reads_gap hdivision hoffset htotal' hbuffer hbuffer' hbound ?_ thread hmem hreads
  intro hdvd
  by_cases htwo : (totalBytesCount.toNat + 1) / (pages + 1) + 2 ≤ count
  · obtain ⟨hmany, hthree⟩ := hover ⟨hdvd, htwo⟩
    have hlast : ¬ (totalBytesCount.toNat + 1) / (pages + 1) + 3 ≤ count :=
      fun h => hthree ⟨hdvd, h⟩
    exact Or.inr ⟨by omega, hmany⟩
  · exact Or.inl (by omega)

/-- A single thread with too many chunks reads nothing. -/
theorem not_planComplete_of_one (hthreads : 1 ≤ threads.toInt) (htotal : 1 ≤ totalBytesCount.toNat)
    (htotal' : totalBytesCount.toNat < 2 ^ 53) (hbuffer : 1 ≤ bufferSize.toNat)
    (hbuffer' : bufferSize.toNat < 2 ^ 53) (hoffset : offset.toNat < 2 ^ 53)
    (hmany : 2 ^ 31 ≤ totalBytesCount.toNat ⌈/⌉ bufferSize.toNat)
    (hcount : totalBytesCount.toNat ⌈/⌉ bufferSize.toNat < 2 ^ 32)
    (hone : threadCount threads totalBytesCount.toNat bufferSize.toNat = 1) :
    ¬ PlanComplete threads concurrency totalBytesCount bufferSize offset := by
  intro hcomplete
  obtain ⟨it, hit, hitThreads⟩ := fIndexerThreadsInit_eq_ok threads offset hthreads htotal
    htotal' hbuffer hbuffer' hcount
  rw [hone, Nat.div_one, show (1 : ℕ) = 1 + 0 from rfl,
    threadsLoop_of_fits htotal' 0 (by omega), threadsLoop, List.append_nil] at hitThreads
  obtain ⟨it', hit', thread, hmem, hreads⟩ := hcomplete (offset.toNat + 0) (by omega) (by omega)
  obtain rfl : it = it' := Except.ok.inj (hit.symm.trans hit')
  obtain rfl : thread = plainThread totalBytesCount bufferSize offset totalBytesCount.toNat 0 := by
    rw [hitThreads] at hmem
    simpa using hmem
  have hfew : totalBytesCount.toNat ⌈/⌉ bufferSize.toNat < 2 ^ 31 := by
    refine ((reads_whole_iff hoffset htotal' ?_ ?_ ?_ ?_).mp hreads).1
    · simp [plainThread]
    · simp [plainThread]
    · exact hbuffer
    · exact hbuffer'
  omega

instance (total buffer : ℕ) : Decidable (FewChunks total buffer) :=
  inferInstanceAs (Decidable (_ < _))

instance (threads : Int32) (total buffer more : ℕ) :
    Decidable (StartsOver threads total buffer more) :=
  inferInstanceAs (Decidable (_ ∧ _))

/-- **When a window is planned completely.** A single thread reads the whole window.
Several threads miss a byte, unless one of them starts over. Beyond `2 ^ 31` chunks
the counters overflow. Only a plan whose threads wrap around repeatedly is left open there: where
they start depends on `i * pages + i` modulo `2 ^ 64`, and some of these plans are complete. -/
theorem planComplete_iff (hthreads : 1 ≤ threads.toInt) (htotal : 1 ≤ totalBytesCount.toNat)
    (htotal' : totalBytesCount.toNat < 2 ^ 53) (hbuffer : 1 ≤ bufferSize.toNat)
    (hbuffer' : bufferSize.toNat < 2 ^ 53) (hoffset : offset.toNat < 2 ^ 53) :
    (FewChunks totalBytesCount.toNat bufferSize.toNat ∧
        (threadCount threads totalBytesCount.toNat bufferSize.toNat = 1 ∨
          StartsOver threads totalBytesCount.toNat bufferSize.toNat 2) →
      PlanComplete threads concurrency totalBytesCount bufferSize offset) ∧
    (PlanComplete threads concurrency totalBytesCount bufferSize offset →
      FewChunks totalBytesCount.toNat bufferSize.toNat ∧
          (threadCount threads totalBytesCount.toNat bufferSize.toNat = 1 ∨
            StartsOver threads totalBytesCount.toNat bufferSize.toNat 2) ∨
        2 ^ 31 ≤ totalBytesCount.toNat ⌈/⌉ bufferSize.toNat ∧
          totalBytesCount.toNat ⌈/⌉ bufferSize.toNat < 2 ^ 32 ∧
          StartsOver threads totalBytesCount.toNat bufferSize.toNat 3) := by
  constructor
  · rintro ⟨hfew, hone | hover⟩
    · exact planComplete_of_one hthreads htotal htotal' hbuffer hbuffer' hoffset hfew hone
    · exact planComplete_of_startsOver hthreads htotal htotal' hbuffer hbuffer' hoffset hfew hover
  · intro hcomplete
    have hlt : totalBytesCount.toNat ⌈/⌉ bufferSize.toNat < 2 ^ 32 := by
      by_contra hge
      have herror := fIndexerThreadsInit_eq_error threads offset htotal' hbuffer hbuffer'
        (not_lt.mp hge)
      obtain ⟨it, hit, -⟩ := hcomplete offset.toNat le_rfl (by omega)
      rw [herror] at hit
      cases hit
    by_contra hneither
    rw [not_or] at hneither
    obtain ⟨hfew, hcorner⟩ := hneither
    by_cases hone : threadCount threads totalBytesCount.toNat bufferSize.toNat = 1
    · have hmany : 2 ^ 31 ≤ totalBytesCount.toNat ⌈/⌉ bufferSize.toNat :=
        not_lt.mp fun h => hfew ⟨h, Or.inl hone⟩
      exact not_planComplete_of_one hthreads htotal htotal' hbuffer hbuffer' hoffset hmany hlt
        hone hcomplete
    · refine not_planComplete_of_gap hthreads htotal htotal' hbuffer hbuffer' hoffset hlt hone ?_
        hcomplete
      intro hover
      have hmany : 2 ^ 31 ≤ totalBytesCount.toNat ⌈/⌉ bufferSize.toNat :=
        not_lt.mp fun h => hfew ⟨h, Or.inr hover⟩
      exact ⟨hmany, fun h => hcorner ⟨hmany, hlt, h⟩⟩

end

/-- One thread reads a window of three bytes in two chunks. Seven threads read a window of seven
bytes in steps of two: the fifth starts just behind the window and the sixth starts over. -/
theorem planComplete_three : PlanComplete 1 1 3 2 0 ∧ PlanComplete 7 1 7 1 0 :=
  ⟨(planComplete_iff (by decide) (by decide) (by decide) (by decide) (by decide)
      (by decide)).1 ⟨by decide, Or.inl (by decide)⟩,
    (planComplete_iff (by decide) (by decide) (by decide) (by decide) (by decide)
      (by decide)).1 ⟨by decide, Or.inr (by decide)⟩⟩

/-- What is left open is not empty: here the third thread that starts over starts at byte
`10411584` of the window, in the range of thread `0`. -/
theorem planComplete_of_many_chunks :
    ¬ FewChunks (1258863504893343 : UInt64).toNat (586204 : UInt64).toNat ∧
      PlanComplete 108772859 1 1258863504893343 586204 0 := by
  refine ⟨by decide +kernel, ?_⟩
  apply @planComplete_of_third _ _ _ _ _ _ _ _ _ _ _ _ _ 11573323 10411584
  all_goals decide +kernel

/-- Two threads read the bytes `0` and `2` of the same window, and nobody reads
byte `1`. -/
theorem planComplete_fails_on_three : 1 ≤ (2 : Int32).toInt ∧ 1 ≤ (3 : UInt64).toNat ∧
    1 ≤ (2 : UInt64).toNat ∧ ¬ PlanComplete 2 1 3 2 0 := by
  refine ⟨by decide, by decide, by decide, ?_⟩
  apply not_planComplete_of_gap
  all_goals decide

end Flashlight.Indexer
