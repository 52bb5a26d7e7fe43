/-
# Dividing the lines among search threads

`f_index_search` counts the lines of the index, gives each thread the truncated share
of them, and lets every thread read its lines in batches of `line_buffer`. The lines
that the division leaves over are in no range, and the last batch of a thread, where
it has to be clipped, is one line too short; what is planned stays inside the index and
is planned once.
-/

import Flashlight.Platform

namespace Flashlight.Search

open Flashlight.Math

/-- The configuration of a search. The regular expression and the index are separate
arguments of the functions that need them. -/
structure FSearcher where
  /-- How many threads to use while searching. -/
  threads : Int32
  /-- The maximum number of results returned. -/
  resultLimit : Int32
  /-- How many lines to read from disk on a search iteration. -/
  lineBuffer : UInt32
  /-- There is a search result callback. -/
  onResult : Bool
  deriving DecidableEq, Repr

/-- The configuration that is passed to each thread. -/
structure FSearcherThread where
  /-- The line to start searching from. -/
  start : UInt64
  /-- How many lines to search. -/
  count : UInt64
  /-- How many lines to read from disk at a time. -/
  buffer : UInt64
  /-- The maximum number of results. -/
  resultLimit : Int32
  /-- There is a result callback. -/
  onResult : Bool
  deriving DecidableEq, Repr

/-! ## The ranges of the threads -/

/-- The loop of `f_index_search` from thread `i` on: where each thread starts and how
many lines it gets. -/
def rangesLoop (totalLines : UInt64) : ℕ → ℕ → UInt64 → List (UInt64 × UInt64)
  | 0, _, _ => []
  | left + 1, i, linesPerThread =>
      let startPosition := .ofNat i * linesPerThread
      let linesPerThread :=
        if startPosition + linesPerThread > totalLines then totalLines - startPosition
        else linesPerThread
      (startPosition, linesPerThread) :: rangesLoop totalLines left (i + 1) linesPerThread

/-- The threads that `f_index_search` creates for an index of `len` entries. Nothing
can be allocated for a negative number of threads, and no number of lines can be divided
among none. -/
def searcherThreads (config : FSearcher) (len : UInt32) : Except Fault (List FSearcherThread) :=
  let totalLines := len.toInt32
  let threads := if config.threads > totalLines then totalLines else config.threads
  if threads < 0 then .error .refused
  else if threads = 0 then .error .undefined
  else
    -- the quotient of two integers: `ceil` has nothing left to round
    let linesPerThread := intToSize (totalLines / threads)
    .ok ((rangesLoop (intToSize totalLines) threads.toInt.toNat 0 linesPerThread).map fun range =>
      { start := range.1
        count := range.2
        buffer := config.lineBuffer.toUInt64
        resultLimit := config.resultLimit
        onResult := config.onResult })

/-- The configuration of thread `i` when each thread gets `share` lines. -/
def plainSearcher (config : FSearcher) (share i : ℕ) : FSearcherThread where
  start := .ofNat (i * share)
  count := .ofNat share
  buffer := config.lineBuffer.toUInt64
  resultLimit := config.resultLimit
  onResult := config.onResult

/-- While the ranges fit nothing is clipped. -/
theorem rangesLoop_eq {totalLines : UInt64} {share : ℕ} (htotal : totalLines.toNat < 2 ^ 32)
    (left : ℕ) {i : ℕ} (hfits : (i + left) * share ≤ totalLines.toNat) :
    rangesLoop totalLines left i (.ofNat share) =
      (List.range' i left).map fun j => (.ofNat (j * share), .ofNat share) := by
  induction left generalizing i with
  | zero => rfl
  | succ left ih =>
      have hstep : (i + 1 + left) * share ≤ totalLines.toNat := by
        rwa [Nat.add_right_comm, Nat.add_assoc]
      have hnext : (i + 1) * share ≤ totalLines.toNat :=
        le_trans (Nat.mul_le_mul_right _ (by omega)) hstep
      rw [Nat.succ_mul] at hnext
      have hmul : (UInt64.ofNat i * UInt64.ofNat share) = .ofNat (i * share) :=
        (UInt64.ofNat_mul i share).symm
      have hend : (UInt64.ofNat (i * share) + .ofNat share).toNat = i * share + share := by
        rw [← UInt64.ofNat_add]
        exact UInt64.toNat_ofNat_of_lt' (by simp only [UInt64.size]; omega)
      have hgt : ¬ UInt64.ofNat (i * share) + .ofNat share > totalLines := by
        rw [gt_iff_lt, UInt64.lt_iff_toNat_lt, hend]
        omega
      rw [rangesLoop, List.range'_succ, List.map_cons]
      simp only [hmul, if_neg hgt]
      rw [ih hstep]

/-- How many threads search: no more than the index has entries. -/
def searcherCount (config : FSearcher) (len : UInt32) : ℕ :=
  min config.threads.toInt.toNat len.toNat

/-- The number of threads behind the comparison with the number of lines. -/
def clampedThreads (config : FSearcher) (len : UInt32) : Int32 :=
  if config.threads > len.toInt32 then len.toInt32 else config.threads

theorem toInt_clampedThreads {config : FSearcher} {len : UInt32}
    (hthreads : 1 ≤ config.threads.toInt) (hlen' : len.toNat < 2 ^ 31) :
    (clampedThreads config len).toInt = searcherCount config len := by
  have htotal : len.toInt32.toInt = len.toNat := toInt_toInt32 hlen'
  rw [clampedThreads, searcherCount]
  split
  · next hgt =>
      rw [gt_iff_lt, Int32.lt_iff_toInt_lt, htotal] at hgt
      omega
  · next hle =>
      rw [gt_iff_lt, Int32.lt_iff_toInt_lt, htotal] at hle
      omega

/-- The division of the lines among the threads. -/
theorem toInt_share {config : FSearcher} {len : UInt32} (hthreads : 1 ≤ config.threads.toInt)
    (hlen' : len.toNat < 2 ^ 31) :
    (len.toInt32 / clampedThreads config len).toInt =
      (len.toNat / searcherCount config len : ℕ) := by
  have htotal : len.toInt32.toInt = len.toNat := toInt_toInt32 hlen'
  have hmin : len.toInt32 ≠ Int32.minValue := by
    intro heq
    rw [heq, Int32.toInt_minValue] at htotal
    omega
  rw [Int32.toInt_div_of_ne_left _ _ hmin, htotal, toInt_clampedThreads hthreads hlen']
  rfl

/-- **The ranges of the threads.** Every thread gets the truncated share. -/
theorem searcherThreads_eq_ok {config : FSearcher} {len : UInt32}
    (hthreads : 1 ≤ config.threads.toInt) (hlen : 1 ≤ len.toNat) (hlen' : len.toNat < 2 ^ 31) :
    searcherThreads config len = .ok ((List.range (searcherCount config len)).map
      (plainSearcher config (len.toNat / searcherCount config len))) := by
  have htotal : len.toInt32.toInt = len.toNat := toInt_toInt32 hlen'
  have hcount := toInt_clampedThreads hthreads hlen'
  have hquotient := toInt_share hthreads hlen'
  have hpos : 1 ≤ searcherCount config len := by
    rw [searcherCount]
    omega
  have hneg : ¬ clampedThreads config len < 0 := by
    rw [Int32.lt_iff_toInt_lt, Int32.toInt_zero]
    omega
  have hzero : clampedThreads config len ≠ 0 := by
    intro heq
    rw [heq, Int32.toInt_zero] at hcount
    omega
  have hshare : intToSize (len.toInt32 / clampedThreads config len) =
      .ofNat (len.toNat / searcherCount config len) := by
    have hsmall := Nat.div_le_self len.toNat (searcherCount config len)
    apply UInt64.toNat_inj.mp
    rw [toNat_intToSize (by rw [hquotient]; exact Int.natCast_nonneg _), hquotient,
      Int.toNat_natCast]
    exact (UInt64.toNat_ofNat_of_lt' (by simp only [UInt64.size]; omega)).symm
  have hlenNat : (intToSize len.toInt32).toNat = len.toNat := by
    rw [toNat_intToSize (by omega), htotal, Int.toNat_natCast]
  have hfits : searcherCount config len * (len.toNat / searcherCount config len) ≤ len.toNat :=
    Nat.mul_div_le _ _
  rw [clampedThreads] at hneg hzero hshare hcount
  simp only [searcherThreads, if_neg hneg, if_neg hzero, hshare, hcount, Int.toNat_natCast]
  rw [rangesLoop_eq (by omega) _ (by rw [hlenNat, Nat.zero_add]; exact hfits),
    ← List.range_eq_range', List.map_map]
  rfl

/-- Only an index whose entries an `int` can count is divided, and only among at least one
thread. -/
theorem of_searcherThreads_eq_ok {config : FSearcher} {len : UInt32}
    {plan : List FSearcherThread} (hplan : searcherThreads config len = .ok plan) :
    len.toNat < 2 ^ 31 ∧ ∃ threads share, threads * share ≤ len.toNat ∧
      plan = (List.range threads).map (plainSearcher config share) := by
  have hpositive : 1 ≤ config.threads.toInt ∧ 1 ≤ len.toInt32.toInt := by
    unfold searcherThreads at hplan
    simp only at hplan
    generalize hclamped : (if config.threads > len.toInt32 then len.toInt32
      else config.threads) = threads at hplan
    have hpos : 1 ≤ threads.toInt := by
      split at hplan
      · cases hplan
      · next hneg =>
          split at hplan
          · cases hplan
          · next hzero =>
              rw [Int32.lt_iff_toInt_lt, Int32.toInt_zero] at hneg
              rw [← Int32.toInt_inj, Int32.toInt_zero] at hzero
              omega
    split at hclamped
    · next hgt =>
        rw [gt_iff_lt, Int32.lt_iff_toInt_lt] at hgt
        rw [← hclamped] at hpos
        omega
    · next hle =>
        rw [gt_iff_lt, Int32.lt_iff_toInt_lt] at hle
        rw [← hclamped] at hpos
        omega
  have hlen : len.toNat < 2 ^ 31 := by
    by_contra hlarge
    have hnegative := toInt_toInt32_of_le (not_lt.mp hlarge)
    have hlt := len.toNat_lt
    omega
  have htotal : len.toInt32.toInt = len.toNat := toInt_toInt32 hlen
  have hok := searcherThreads_eq_ok hpositive.1 (show 1 ≤ len.toNat by omega) hlen
  exact ⟨hlen, _, _, Nat.mul_div_le _ _, Except.ok.inj (hplan.symm.trans hok)⟩

/-! ## The batches of a thread -/

/-- How many lines the batch at line `i` asks for. The clipped last batch leaves out the
last line of the range. -/
def FSearcherThread.batchSize (config : FSearcherThread) (i : UInt64) : UInt64 :=
  if i + config.buffer > config.count + config.start then config.count + config.start - i - 1
  else config.buffer

/-- The range of the thread can be run through without a sum that wraps. -/
structure FSearcherThread.Bounded (config : FSearcherThread) : Prop where
  range_lt : config.start.toNat + config.count.toNat < 2 ^ 63
  buffer_lt : config.buffer.toNat < 2 ^ 32

instance (config : FSearcherThread) : Decidable config.Bounded :=
  decidable_of_iff (config.start.toNat + config.count.toNat < 2 ^ 63 ∧
      config.buffer.toNat < 2 ^ 32)
    ⟨fun ⟨hrange, hbuffer⟩ => ⟨hrange, hbuffer⟩, fun ⟨hrange, hbuffer⟩ => ⟨hrange, hbuffer⟩⟩

/-- The first and the number of lines of the next `left` batches from line `i` on. -/
def batchesLoop (config : FSearcherThread) : ℕ → UInt64 → List (UInt64 × UInt64)
  | 0, _ => []
  | left + 1, i => (i, config.batchSize i) :: batchesLoop config left (i + config.buffer)

/-- The batches from line `i` on. When a batch has no lines, none of them gets any further
and there is nothing to plan. -/
def FSearcherThread.batches (config : FSearcherThread) (i : UInt64) : List (UInt64 × UInt64) :=
  batchesLoop config ((config.start.toNat + config.count.toNat - i.toNat) ⌈/⌉ config.buffer.toNat) i

section

variable {config : FSearcherThread} {i : UInt64}

theorem FSearcherThread.Bounded.toNat_end (hbounded : config.Bounded) :
    (config.count + config.start).toNat = config.start.toNat + config.count.toNat := by
  have := hbounded.range_lt
  rw [UInt64.toNat_add]
  omega

theorem FSearcherThread.Bounded.lt_end_iff (hbounded : config.Bounded) :
    i < config.count + config.start ↔ i.toNat < config.start.toNat + config.count.toNat := by
  rw [UInt64.lt_iff_toNat_lt, hbounded.toNat_end]

theorem FSearcherThread.Bounded.toNat_next (hbounded : config.Bounded)
    (hi : i < config.count + config.start) :
    (i + config.buffer).toNat = i.toNat + config.buffer.toNat := by
  have := hbounded.range_lt
  have := hbounded.buffer_lt
  rw [hbounded.lt_end_iff] at hi
  rw [UInt64.toNat_add]
  omega

/-- The loop over the batches takes the next one. -/
theorem FSearcherThread.Bounded.batches_eq_cons (hbounded : config.Bounded)
    (hi : i < config.count + config.start) (hbuffer : 0 < config.buffer.toNat) :
    config.batches i = (i, config.batchSize i) :: config.batches (i + config.buffer) := by
  have hnext := hbounded.toNat_next hi
  rw [hbounded.lt_end_iff] at hi
  have hcount : (config.start.toNat + config.count.toNat - i.toNat) ⌈/⌉ config.buffer.toNat =
      (config.start.toNat + config.count.toNat - (i + config.buffer).toNat) ⌈/⌉
        config.buffer.toNat + 1 := by
    rw [hnext, ← Nat.sub_sub]
    exact ceilDiv_eq_sub_add_one hbuffer (by omega)
  rw [FSearcherThread.batches, hcount, batchesLoop, FSearcherThread.batches]

/-- Behind the end of the range there are no batches. -/
theorem FSearcherThread.batches_eq_nil (hi : ¬ i.toNat < config.start.toNat + config.count.toNat) :
    config.batches i = [] := by
  rw [FSearcherThread.batches, Nat.sub_eq_zero_of_le (by omega), zero_ceilDiv, batchesLoop]

/-- What the loop over the batches keeps: it holds behind the range, and before a batch
if it holds behind it. -/
theorem FSearcherThread.Bounded.batches_induction (hbounded : config.Bounded)
    (hbuffer : 0 < config.buffer.toNat) {motive : UInt64 → Prop}
    (hdone : ∀ i, ¬ i < config.count + config.start → motive i)
    (hnext : ∀ i, i < config.count + config.start → motive (i + config.buffer) → motive i)
    (i : UInt64) : motive i := by
  induction hleft : config.start.toNat + config.count.toNat - i.toNat using
    Nat.strong_induction_on generalizing i with
  | _ left ih =>
      by_cases hi : i < config.count + config.start
      · have hi' := hbounded.lt_end_iff.mp hi
        refine hnext i hi (ih _ ?_ _ rfl)
        rw [hbounded.toNat_next hi]
        omega
      · exact hdone i hi

/-- A batch stays in the range of its thread. -/
theorem FSearcherThread.Bounded.toNat_batchSize_le (hbounded : config.Bounded)
    (hi : i < config.count + config.start) :
    i.toNat + (config.batchSize i).toNat ≤ config.start.toNat + config.count.toNat ∧
      (config.batchSize i).toNat ≤ config.buffer.toNat := by
  have hnext := hbounded.toNat_next hi
  have hend := hbounded.toNat_end
  have hi' := hbounded.lt_end_iff.mp hi
  have hrange := hbounded.range_lt
  rw [FSearcherThread.batchSize]
  split
  · next hgt =>
      rw [gt_iff_lt, UInt64.lt_iff_toNat_lt, hnext, hend] at hgt
      have hsub : (config.count + config.start - i).toNat =
          config.start.toNat + config.count.toNat - i.toNat := by
        rw [UInt64.toNat_sub_of_le _ _ (UInt64.le_iff_toNat_le.mpr (by omega)), hend]
      rw [UInt64.toNat_sub_of_le _ _ (UInt64.le_iff_toNat_le.mpr
        (by rw [hsub, UInt64.toNat_one]; omega)), hsub, UInt64.toNat_one]
      omega
  · next hle =>
      rw [gt_iff_lt, UInt64.lt_iff_toNat_lt, hnext, hend] at hle
      omega

/-- The batches from line `i` on lie behind it, in the range of the thread. -/
theorem FSearcherThread.Bounded.of_mem_batches (hbounded : config.Bounded)
    (hbuffer : 0 < config.buffer.toNat) {batch : UInt64 × UInt64}
    (hbatch : batch ∈ config.batches i) :
    i.toNat ≤ batch.1.toNat ∧ batch.1.toNat < config.start.toNat + config.count.toNat ∧
      batch.1.toNat + batch.2.toNat ≤ config.start.toNat + config.count.toNat := by
  induction i using hbounded.batches_induction hbuffer with
  | hdone i hi =>
      rw [hbounded.lt_end_iff] at hi
      rw [FSearcherThread.batches_eq_nil hi] at hbatch
      cases hbatch
  | hnext i hi ih =>
      have hle := (hbounded.toNat_batchSize_le hi).1
      have hlt := hbounded.lt_end_iff.mp hi
      rw [hbounded.batches_eq_cons hi hbuffer] at hbatch
      rcases List.mem_cons.mp hbatch with rfl | hbatch
      · exact ⟨le_refl _, hlt, hle⟩
      · have hrest := ih hbatch
        rw [hbounded.toNat_next hi] at hrest
        omega

/-- Every batch ends before the next one begins. -/
theorem FSearcherThread.Bounded.pairwise_batches (hbounded : config.Bounded)
    (hbuffer : 0 < config.buffer.toNat) (i : UInt64) :
    (config.batches i).Pairwise fun x y => x.1.toNat + x.2.toNat ≤ y.1.toNat := by
  induction i using hbounded.batches_induction hbuffer with
  | hdone i hi =>
      rw [hbounded.lt_end_iff] at hi
      rw [FSearcherThread.batches_eq_nil hi]
      exact List.Pairwise.nil
  | hnext i hi ih =>
      rw [hbounded.batches_eq_cons hi hbuffer]
      refine List.pairwise_cons.mpr ⟨fun batch hbatch => ?_, ih⟩
      have hlow := (hbounded.of_mem_batches hbuffer hbatch).1
      have hsize := (hbounded.toNat_batchSize_le hi).2
      rw [hbounded.toNat_next hi] at hlow
      simp only
      omega

end

/-! ## The threads of a search -/

section

variable {config : FSearcher} {len : UInt32} {plan : List FSearcherThread}

theorem toNat_start_plainSearcher (config : FSearcher) {share i : ℕ}
    (hfits : (i + 1) * share < 2 ^ 64) :
    (plainSearcher config share i).start.toNat = i * share := by
  rw [Nat.succ_mul] at hfits
  exact UInt64.toNat_ofNat_of_lt' (by simp only [UInt64.size]; omega)

theorem toNat_count_plainSearcher (config : FSearcher) {share i : ℕ}
    (hfits : (i + 1) * share < 2 ^ 64) :
    (plainSearcher config share i).count.toNat = share := by
  rw [Nat.succ_mul] at hfits
  exact UInt64.toNat_ofNat_of_lt' (by simp only [UInt64.size]; omega)

/-- Every thread of a search stays inside the index and takes its settings from the
configuration of the search. -/
theorem of_mem_searcherThreads (hplan : searcherThreads config len = .ok plan)
    {thread : FSearcherThread} (hthread : thread ∈ plan) :
    thread.Bounded ∧ thread.start.toNat + thread.count.toNat ≤ len.toNat ∧
      thread.buffer = config.lineBuffer.toUInt64 ∧ thread.resultLimit = config.resultLimit ∧
      thread.onResult = config.onResult := by
  obtain ⟨hlen, threads, share, hfits, rfl⟩ := of_searcherThreads_eq_ok hplan
  obtain ⟨i, hi, rfl⟩ := List.mem_map.mp hthread
  have hend : (i + 1) * share ≤ len.toNat :=
    (Nat.mul_le_mul_right _ (List.mem_range.mp hi)).trans hfits
  have hstart := toNat_start_plainSearcher config (show (i + 1) * share < 2 ^ 64 by omega)
  have hcount := toNat_count_plainSearcher config (show (i + 1) * share < 2 ^ 64 by omega)
  have hsum : (plainSearcher config share i).start.toNat +
      (plainSearcher config share i).count.toNat ≤ len.toNat := by
    rw [hstart, hcount, ← Nat.succ_mul]
    exact hend
  refine ⟨⟨by omega, ?_⟩, hsum, rfl, rfl, rfl⟩
  have hbuffer := config.lineBuffer.toNat_lt
  rw [plainSearcher, UInt32.toNat_toUInt64]
  omega

/-- The ranges of the threads follow one another. -/
theorem pairwise_searcherThreads (hplan : searcherThreads config len = .ok plan) :
    plan.Pairwise fun x y => x.start.toNat + x.count.toNat ≤ y.start.toNat := by
  obtain ⟨hlen, threads, share, hfits, rfl⟩ := of_searcherThreads_eq_ok hplan
  have hsmall : ∀ i < threads, (i + 1) * share < 2 ^ 64 := by
    intro i hi
    have hend := (Nat.mul_le_mul_right share (show i + 1 ≤ threads from hi)).trans hfits
    omega
  rw [List.pairwise_map]
  refine List.pairwise_lt_range.imp_of_mem ?_
  intro i j hi hj hij
  have hi := hsmall i (List.mem_range.mp hi)
  have hj := hsmall j (List.mem_range.mp hj)
  rw [toNat_start_plainSearcher config hi, toNat_count_plainSearcher config hi,
    toNat_start_plainSearcher config hj, ← Nat.succ_mul]
  exact Nat.mul_le_mul_right _ hij

/-- Line `k` is in the range of the thread. -/
def FSearcherThread.Contains (thread : FSearcherThread) (k : ℕ) : Prop :=
  thread.start.toNat ≤ k ∧ k < thread.start.toNat + thread.count.toNat

/-- Every line that ends in a newline is in the range of exactly one thread. The index has
one entry more than there are such lines. -/
def SplitCovers (config : FSearcher) (len : UInt32) : Prop :=
  ∃ plan, searcherThreads config len = .ok plan ∧
    ∀ k, k + 1 < len.toNat →
      ∃! i : ℕ, ∃ thread : FSearcherThread, plan[i]? = some thread ∧ thread.Contains k

/-- Each thread gets a full share: together they have the lines below the last share. -/
theorem exists_contains_plainSearcher_iff {threads share k : ℕ} (hshare : 0 < share)
    (hfits : threads * share < 2 ^ 64) :
    (∃ thread ∈ (List.range threads).map (plainSearcher config share), thread.Contains k) ↔
      k < threads * share := by
  have hcontains : ∀ i < threads, (plainSearcher config share i).Contains k ↔
      i * share ≤ k ∧ k < (i + 1) * share := by
    intro i hi
    have hend := Nat.mul_le_mul_right share (show i + 1 ≤ threads from hi)
    rw [FSearcherThread.Contains, toNat_start_plainSearcher config (by omega),
      toNat_count_plainSearcher config (by omega), Nat.succ_mul]
  constructor
  · rintro ⟨thread, hthread, hk⟩
    obtain ⟨i, hi, rfl⟩ := List.mem_map.mp hthread
    have hi := List.mem_range.mp hi
    have hend := Nat.mul_le_mul_right share (show i + 1 ≤ threads from hi)
    exact lt_of_lt_of_le ((hcontains i hi).mp hk).2 hend
  · intro hk
    have hi : k / share < threads := (Nat.div_lt_iff_lt_mul hshare).mpr hk
    refine ⟨_, List.mem_map_of_mem (List.mem_range.mpr hi), (hcontains _ hi).mpr ⟨?_, ?_⟩⟩
    · exact Nat.div_mul_le_self k share
    · exact Nat.lt_mul_of_div_lt (Nat.lt_succ_self _) hshare

/-- **The work split covers the lines** exactly if the division of the entries among the
threads leaves at most one of them over. -/
theorem splitCovers_iff (hthreads : 1 ≤ config.threads.toInt) (hlen : 1 ≤ len.toNat)
    (hlen' : len.toNat < 2 ^ 31) :
    SplitCovers config len ↔ len.toNat % searcherCount config len ≤ 1 := by
  have hplan := searcherThreads_eq_ok hthreads hlen hlen'
  have hapart := pairwise_searcherThreads hplan
  have hdiv := Nat.div_add_mod len.toNat (searcherCount config len)
  have hshare : 0 < len.toNat / searcherCount config len := by
    refine Nat.div_pos (Nat.min_le_right _ _) ?_
    rw [searcherCount]
    omega
  generalize searcherCount config len = threads at *
  generalize len.toNat / threads = share at *
  have hunique : ∀ k, (∃! i : ℕ, ∃ thread : FSearcherThread,
      ((List.range threads).map (plainSearcher config share))[i]? = some thread ∧
        thread.Contains k) ↔ k < threads * share := by
    intro k
    rw [← exists_contains_plainSearcher_iff hshare (by omega)]
    refine existsUnique_getElem?_iff (hapart.imp fun hle => ?_)
    rintro ⟨⟨-, hx⟩, hy, -⟩
    omega
  constructor
  · rintro ⟨plan, hok, hcovers⟩
    obtain rfl := Except.ok.inj (hplan.symm.trans hok)
    by_contra hmore
    -- the first line behind the last range
    have hlost := (hunique _).mp (hcovers (threads * share) (by omega))
    exact absurd hlost (lt_irrefl _)
  · intro hfew
    exact ⟨_, hplan, fun k hk => (hunique k).mpr (by omega)⟩

end

/-- Three threads divide nine lines: three for each, and the tenth entry is left over. -/
theorem splitCovers_ten : SplitCovers ⟨3, 1, 100, true⟩ 10 :=
  (splitCovers_iff (by decide) (by decide) (by decide)).mpr (by decide)

/-- Three threads divide four lines: one for each, and the last line is left over. -/
theorem splitCovers_fails_on_five : 1 ≤ (3 : Int32).toInt ∧
    ¬ SplitCovers ⟨3, 1, 100, true⟩ 5 := by
  refine ⟨by decide, ?_⟩
  rintro ⟨plan, hplan, hcovers⟩
  obtain rfl := Except.ok.inj (hplan.symm.trans (show searcherThreads ⟨3, 1, 100, true⟩ 5 = .ok
    [⟨0, 1, 100, 1, true⟩, ⟨1, 1, 100, 1, true⟩, ⟨2, 1, 100, 1, true⟩] by decide))
  obtain ⟨i, ⟨thread, hthread, hlow, hhigh⟩, -⟩ := hcovers 3 (by decide)
  have hmem := List.mem_of_getElem? hthread
  have hall : ∀ thread ∈ ([⟨0, 1, 100, 1, true⟩, ⟨1, 1, 100, 1, true⟩, ⟨2, 1, 100, 1, true⟩] :
      List FSearcherThread), thread.start.toNat + thread.count.toNat ≤ 3 := by decide
  exact absurd (hall thread hmem) (by omega)

/-! ## Lengths that are no `int` -/

/-- The lines of an index are divided among a positive number of threads, each of which
gets lines of the index. -/
structure SplitDefined (config : FSearcher) (len : UInt32) : Prop where
  /-- There is a thread, and so a divisor. -/
  one_le_threads : 1 ≤ (clampedThreads config len).toInt
  /-- There are no more threads than entries. -/
  threads_le : (clampedThreads config len).toInt ≤ len.toNat
  /-- A thread gets at least one line. -/
  one_le_share : 1 ≤ (len.toInt32 / clampedThreads config len).toInt
  /-- The loop gives every thread lines of the index. -/
  ranges : ∃ plan, searcherThreads config len = .ok plan ∧ ∀ thread ∈ plan,
    1 ≤ thread.count.toNat ∧ thread.start.toNat + thread.count.toNat ≤ len.toNat

/-- A length that is negative as an `int` clamps the threads to a negative number. -/
theorem clampedThreads_neg (config : FSearcher) {len : UInt32} (hlen : 2 ^ 31 ≤ len.toNat) :
    (clampedThreads config len).toInt < 0 := by
  have hnegative := toInt_toInt32_of_le hlen
  have hlt := len.toNat_lt
  rw [clampedThreads]
  split
  · omega
  · next hle =>
      rw [gt_iff_lt, Int32.lt_iff_toInt_lt] at hle
      omega

/-- **The split is well defined** exactly for the indexes whose length is an `int`. -/
theorem splitDefined_iff {config : FSearcher} {len : UInt32}
    (hthreads : 1 ≤ config.threads.toInt) (hlen : 1 ≤ len.toNat) :
    SplitDefined config len ↔ len.toNat < 2 ^ 31 := by
  constructor
  · intro hdefined
    by_contra hlarge
    have hneg := clampedThreads_neg config (not_lt.mp hlarge)
    have hpos := hdefined.one_le_threads
    omega
  · intro hlen'
    have hcount := toInt_clampedThreads hthreads hlen'
    have hpos : 1 ≤ searcherCount config len := by
      rw [searcherCount]
      omega
    have hle : searcherCount config len ≤ len.toNat := Nat.min_le_right _ _
    have hshare : 1 ≤ len.toNat / searcherCount config len := Nat.div_pos hle hpos
    have hplan := searcherThreads_eq_ok hthreads hlen hlen'
    refine ⟨by omega, by omega, ?_, _, hplan, fun thread hthread => ⟨?_, ?_⟩⟩
    · rw [toInt_share hthreads hlen']
      omega
    · obtain ⟨i, hi, rfl⟩ := List.mem_map.mp hthread
      have hend := Nat.mul_le_mul_right (len.toNat / searcherCount config len)
        (show i + 1 ≤ searcherCount config len from List.mem_range.mp hi)
      have hfits := Nat.mul_div_le len.toNat (searcherCount config len)
      rw [toNat_count_plainSearcher config (by omega)]
      exact hshare
    · exact (of_mem_searcherThreads hplan hthread).2.1

/-- Three threads divide ten lines. -/
theorem splitDefined_ten : SplitDefined ⟨3, 1, 100, true⟩ 10 :=
  (splitDefined_iff (by decide) (by decide)).mpr (by decide)

/-- One thread is clamped to `-2147483648` threads when the index has `2147483648` entries. -/
theorem splitDefined_fails_on_large : 1 ≤ (1 : Int32).toInt ∧ 1 ≤ (2147483648 : UInt32).toNat ∧
    clampedThreads ⟨1, 1, 100, true⟩ 2147483648 = -2147483648 ∧
    ¬ SplitDefined ⟨1, 1, 100, true⟩ 2147483648 :=
  ⟨by decide, by decide, by decide, fun hdefined => absurd hdefined.one_le_threads (by decide)⟩

end Flashlight.Search
