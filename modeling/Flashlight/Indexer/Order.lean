/-
# The order of the thread ranges

The results of the threads are joined in thread order, so their ranges are meant to
follow one another through the window. They do as long as the last thread starts inside
the window. Otherwise the first thread that does not fit is clipped, `pages` changes for
all threads behind it, and the next one starts in front of the end of the clipped one,
or the clipped one itself starts behind the window and its size wraps around.
-/

import Flashlight.Indexer.Coverage

namespace Flashlight.Indexer

open Flashlight.Math

/-- The range of the thread lies in the window. -/
structure FIndexerThread.Within (thread : FIndexerThread) (totalBytesCount offset : UInt64) :
    Prop where
  /-- What is left of the window behind the start position is not negative. -/
  start_le : (thread.fromOffset - offset).toNat ≤ totalBytesCount.toNat
  offset_le : offset.toNat ≤ thread.fromOffset.toNat
  from_le : thread.fromOffset.toNat ≤ thread.toOffset.toNat
  to_le : thread.toOffset.toNat ≤ offset.toNat + totalBytesCount.toNat

/-- The ranges of the threads lie in the window, and each ends before the next one
begins. -/
def RangesOrdered (threads : Int32) (totalBytesCount bufferSize offset : UInt64) : Prop :=
  ∃ it, fIndexerThreadsInit threads totalBytesCount bufferSize offset = .ok it ∧
    (∀ thread ∈ it.threads, thread.Within totalBytesCount offset) ∧
    ∀ (i : ℕ) (x y : FIndexerThread), it.threads[i]? = some x → it.threads[i + 1]? = some y →
      x.toOffset.toNat ≤ y.fromOffset.toNat

/-- Thread `i` of a window that is divided in steps of `pages + 1` bytes and ends where the
window does. -/
def clippedThread (totalBytesCount bufferSize offset : UInt64) (pages i : ℕ) : FIndexerThread where
  fromOffset := .ofNat (i * (pages + 1)) + offset
  toOffset := .ofNat (min (i * (pages + 1) + pages) totalBytesCount.toNat) + offset
  totalBytesCount := totalBytesCount
  bufferSize := bufferSize

section

variable {totalBytesCount bufferSize offset : UInt64} {pages : ℕ}

/-- When the last thread starts inside the window, only that one may be clipped. -/
theorem threadsLoop_of_start_le (htotal : totalBytesCount.toNat < 2 ^ 53) (hpages : pages < 2 ^ 53)
    {last : ℕ} (hstart : last * (pages + 1) ≤ totalBytesCount.toNat) :
    threadsLoop totalBytesCount bufferSize offset (last + 1) 0 (.ofNat pages) =
      (List.range (last + 1)).map (clippedThread totalBytesCount bufferSize offset pages) := by
  have hplain : ∀ i, (i + 1) * (pages + 1) ≤ totalBytesCount.toNat + 1 →
      plainThread totalBytesCount bufferSize offset pages i =
        clippedThread totalBytesCount bufferSize offset pages i := by
    intro i hi
    rw [Nat.succ_mul] at hi
    rw [plainThread, clippedThread, Nat.min_eq_left (by omega)]
  have hfront : (List.range' 0 last).map (plainThread totalBytesCount bufferSize offset pages) =
      (List.range last).map (clippedThread totalBytesCount bufferSize offset pages) := by
    rw [← List.range_eq_range']
    refine List.map_congr_left fun i hi => hplain i ?_
    have hstep := Nat.mul_le_mul_right (pages + 1) (show i + 1 ≤ last from List.mem_range.mp hi)
    omega
  rw [threadsLoop_of_fits htotal 1 (by rw [Nat.zero_add]; omega), hfront, Nat.zero_add,
    List.range_succ, List.map_append, List.map_singleton]
  congr 1
  by_cases hfits : (last + 1) * (pages + 1) ≤ totalBytesCount.toNat + 1
  · rw [← hplain last hfits, show (1 : ℕ) = 1 + 0 from rfl, threadsLoop_of_fits htotal 0 hfits]
    rfl
  · rw [show (1 : ℕ) = 0 + 1 from rfl, threadsLoop_of_clip htotal 0 (by omega) (by omega) hpages]
    rw [Nat.succ_mul] at hfits
    rw [clippedThread, Nat.min_eq_right (by omega), UInt64.ofNat_toNat]
    rfl

/-- A position in a window that fits into a `size_t`. -/
theorem toNat_ofNat_add_offset {start : ℕ} (hfits : offset.toNat + totalBytesCount.toNat < 2 ^ 64)
    (hstart : start ≤ totalBytesCount.toNat) :
    (UInt64.ofNat start + offset).toNat = offset.toNat + start := by
  rw [UInt64.toNat_add, UInt64.toNat_ofNat']
  omega

theorem within_clippedThread (htotal : totalBytesCount.toNat < 2 ^ 53)
    (hfits : offset.toNat + totalBytesCount.toNat < 2 ^ 64) {i : ℕ}
    (hstart : i * (pages + 1) ≤ totalBytesCount.toNat) :
    (clippedThread totalBytesCount bufferSize offset pages i).Within totalBytesCount offset := by
  have hfrom := toNat_ofNat_add_offset hfits hstart
  have hto := toNat_ofNat_add_offset hfits
    (Nat.min_le_right (i * (pages + 1) + pages) totalBytesCount.toNat)
  refine ⟨?_, ?_, ?_, ?_⟩
  · rw [clippedThread, UInt64.add_sub_cancel, UInt64.toNat_ofNat']
    omega
  · rw [clippedThread, hfrom]
    omega
  · rw [clippedThread, hfrom, hto]
    omega
  · rw [clippedThread, hto]
    omega

/-- The last thread starts inside the window: each thread starts one byte behind the full
size of the one before. -/
def LastStartsInside (threads : Int32) (total buffer : ℕ) : Prop :=
  (threadCount threads total buffer - 1) * (total / threadCount threads total buffer + 1) ≤ total

instance (threads : Int32) (total buffer : ℕ) : Decidable (LastStartsInside threads total buffer) :=
  inferInstanceAs (Decidable (_ ≤ _))

variable {threads : Int32}

theorem rangesOrdered_of_lastStartsInside (hthreads : 1 ≤ threads.toInt)
    (htotal : 1 ≤ totalBytesCount.toNat) (htotal' : totalBytesCount.toNat < 2 ^ 53)
    (hbuffer : 1 ≤ bufferSize.toNat) (hbuffer' : bufferSize.toNat < 2 ^ 53)
    (hfits : offset.toNat + totalBytesCount.toNat < 2 ^ 64)
    (hcount : totalBytesCount.toNat ⌈/⌉ bufferSize.toNat < 2 ^ 32)
    (hlast : LastStartsInside threads totalBytesCount.toNat bufferSize.toNat) :
    RangesOrdered threads totalBytesCount bufferSize offset := by
  obtain ⟨it, hit, hitThreads⟩ := fIndexerThreadsInit_eq_ok threads offset hthreads htotal
    htotal' hbuffer hbuffer' hcount
  have hdivision := division_of_pos threads hthreads htotal hbuffer
  rw [LastStartsInside] at hlast
  generalize threadCount threads totalBytesCount.toNat bufferSize.toNat = count at *
  generalize totalBytesCount.toNat / count = pages at *
  obtain ⟨last, rfl⟩ := Nat.exists_eq_add_of_le' hdivision.count_pos
  have hpages : pages < 2 ^ 53 := by
    have hle := Nat.le_mul_of_pos_left pages hdivision.count_pos
    have hmul := hdivision.mul_le
    omega
  rw [Nat.add_sub_cancel] at hlast
  rw [threadsLoop_of_start_le htotal' hpages hlast] at hitThreads
  have hstart : ∀ i ≤ last, i * (pages + 1) ≤ totalBytesCount.toNat := fun i hi =>
    (Nat.mul_le_mul_right _ hi).trans hlast
  refine ⟨it, hit, ?_, ?_⟩
  · intro thread hthread
    rw [hitThreads] at hthread
    obtain ⟨i, hi, rfl⟩ := List.mem_map.mp hthread
    exact within_clippedThread htotal' hfits
      (hstart i (Nat.lt_succ_iff.mp (List.mem_range.mp hi)))
  · intro i x y hx hy
    rw [hitThreads, List.getElem?_map, Option.map_eq_some_iff] at hx hy
    obtain ⟨j, hj, rfl⟩ := hx
    obtain ⟨k, hk, rfl⟩ := hy
    obtain ⟨-, rfl⟩ := List.getElem?_eq_some_iff.mp hj
    obtain ⟨hlt, rfl⟩ := List.getElem?_eq_some_iff.mp hk
    rw [List.length_range] at hlt
    rw [List.getElem_range, List.getElem_range]
    have hi := hstart (i + 1) (by omega)
    rw [clippedThread, clippedThread, toNat_ofNat_add_offset hfits (by omega),
      toNat_ofNat_add_offset hfits (by omega), Nat.succ_mul]
    omega

/-- The range of a thread ends before the range of its successor. -/
theorem le_of_adjacent {front rest : List FIndexerThread} {x y : FIndexerThread}
    (horder : ∀ (i : ℕ) (x' y' : FIndexerThread), (front ++ x :: y :: rest)[i]? = some x' →
      (front ++ x :: y :: rest)[i + 1]? = some y' → x'.toOffset.toNat ≤ y'.fromOffset.toNat) :
    x.toOffset.toNat ≤ y.fromOffset.toNat := by
  refine horder front.length x y ?_ ?_
  · rw [List.getElem?_append_right le_rfl, Nat.sub_self, List.getElem?_cons_zero]
  · rw [List.getElem?_append_right (Nat.le_add_right _ 1), Nat.add_sub_cancel_left,
      List.getElem?_cons_succ, List.getElem?_cons_zero]

/-- When the last thread does not start inside the window, some threads fit into it, and at
least one is left over. -/
theorem exists_fitting {total count pages : ℕ} (hcount : 0 < count)
    (hlast : ¬ (count - 1) * (pages + 1) ≤ total) :
    ∃ fitting rest, count = fitting + (rest + 1) ∧ fitting * (pages + 1) ≤ total + 1 ∧
      total + 1 < (fitting + 1) * (pages + 1) := by
  obtain ⟨others, rfl⟩ := Nat.exists_eq_add_of_le' hcount
  rw [Nat.add_sub_cancel] at hlast
  have hfitle := Nat.div_mul_le_self (total + 1) (pages + 1)
  have hfitlt : total + 1 < ((total + 1) / (pages + 1) + 1) * (pages + 1) := by
    rw [Nat.mul_comm]
    exact Nat.lt_mul_div_succ _ (by omega)
  have hmore : (total + 1) / (pages + 1) < others + 1 := by
    by_contra hge
    have hstep := Nat.mul_le_mul_right (pages + 1) (Nat.le_of_not_lt hge)
    rw [Nat.succ_mul] at hstep
    omega
  obtain ⟨rest, hrest⟩ := Nat.exists_eq_add_of_lt hmore
  exact ⟨_, rest, by omega, hfitle, hfitlt⟩

/-- The ranges are out of order as soon as the last thread would start behind the window. -/
theorem not_rangesOrdered_of_not_lastStartsInside (hthreads : 1 ≤ threads.toInt)
    (htotal : 1 ≤ totalBytesCount.toNat) (htotal' : totalBytesCount.toNat < 2 ^ 53)
    (hbuffer : 1 ≤ bufferSize.toNat) (hbuffer' : bufferSize.toNat < 2 ^ 53)
    (hfits : offset.toNat + totalBytesCount.toNat < 2 ^ 64)
    (hcount : totalBytesCount.toNat ⌈/⌉ bufferSize.toNat < 2 ^ 32)
    (hlast : ¬ LastStartsInside threads totalBytesCount.toNat bufferSize.toNat) :
    ¬ RangesOrdered threads totalBytesCount bufferSize offset := by
  obtain ⟨it, hit, hitThreads⟩ := fIndexerThreadsInit_eq_ok threads offset hthreads htotal
    htotal' hbuffer hbuffer' hcount
  have hdivision := division_of_pos threads hthreads htotal hbuffer
  rw [LastStartsInside] at hlast
  generalize threadCount threads totalBytesCount.toNat bufferSize.toNat = count at *
  generalize totalBytesCount.toNat / count = pages at *
  have hpages : pages ≤ totalBytesCount.toNat :=
    (Nat.le_mul_of_pos_left _ hdivision.count_pos).trans hdivision.mul_le
  obtain ⟨fitting, rest, rfl, hfitle, hfitlt⟩ := exists_fitting hdivision.count_pos hlast
  rw [threadsLoop_of_fits htotal' (rest + 1) (by rwa [Nat.zero_add]), Nat.zero_add,
    threadsLoop_of_clip htotal' rest hfitle hfitlt (by omega)] at hitThreads
  rintro ⟨it', hit', hwithin, horder⟩
  obtain rfl : it = it' := Except.ok.inj (hit.symm.trans hit')
  rw [hitThreads] at hwithin horder
  have hstart := (hwithin _ (List.mem_append_right _ List.mem_cons_self)).start_le
  rw [UInt64.add_sub_cancel, UInt64.toNat_ofNat', Nat.mod_eq_of_lt (by omega)] at hstart
  -- the clipped thread starts inside the window, so that it is not the last one
  set clipped := totalBytesCount.toNat - fitting * (pages + 1) with hclipped
  have hsub : totalBytesCount - .ofNat (fitting * (pages + 1)) = .ofNat clipped := by
    rw [hclipped, UInt64.ofNat_sub hstart, UInt64.ofNat_toNat]
  obtain ⟨others, rfl⟩ : ∃ others, rest = others + 1 := by
    refine ⟨rest - 1, ?_⟩
    by_contra hzero
    obtain rfl : rest = 0 := by omega
    exact hlast hstart
  rw [Nat.succ_mul] at hfitlt
  have hnext : (fitting + 2) * (clipped + 1) ≤ totalBytesCount.toNat := by
    have hsteps : (fitting + 2) * (clipped + 1) ≤ (fitting + 2) * pages :=
      Nat.mul_le_mul_left _ (by omega)
    have hthreads : (fitting + 2) * pages ≤ (fitting + (others + 1 + 1)) * pages :=
      Nat.mul_le_mul_right _ (by omega)
    exact hsteps.trans (hthreads.trans hdivision.mul_le)
  have hnext' : (fitting + 1 + 1) * (clipped + 1) ≤ totalBytesCount.toNat + 1 :=
    Nat.le_succ_of_le hnext
  rw [hsub, Nat.add_comm others 1, threadsLoop_of_fits htotal' others hnext',
    List.range'_one, List.map_singleton, List.singleton_append] at horder
  have hbehind := le_of_adjacent horder
  have hstop := toNat_ofNat_add_offset hfits le_rfl
  rw [UInt64.ofNat_toNat] at hstop
  rw [Nat.succ_mul] at hnext
  simp only [plainThread] at hbehind
  rw [hstop, toNat_ofNat_add_offset hfits (by omega)] at hbehind
  omega

/-- **The thread ranges are ordered** exactly if an `unsigned int` can count the chunks of
the window and the last thread starts inside it. -/
theorem rangesOrdered_iff (hthreads : 1 ≤ threads.toInt) (htotal : 1 ≤ totalBytesCount.toNat)
    (htotal' : totalBytesCount.toNat < 2 ^ 53) (hbuffer : 1 ≤ bufferSize.toNat)
    (hbuffer' : bufferSize.toNat < 2 ^ 53) (hfits : offset.toNat + totalBytesCount.toNat < 2 ^ 64) :
    RangesOrdered threads totalBytesCount bufferSize offset ↔
      totalBytesCount.toNat ⌈/⌉ bufferSize.toNat < 2 ^ 32 ∧
        LastStartsInside threads totalBytesCount.toNat bufferSize.toNat := by
  by_cases hcount : totalBytesCount.toNat ⌈/⌉ bufferSize.toNat < 2 ^ 32
  · rw [and_iff_right hcount]
    constructor
    · intro hordered
      by_contra hlast
      exact not_rangesOrdered_of_not_lastStartsInside hthreads htotal htotal' hbuffer hbuffer'
        hfits hcount hlast hordered
    · exact rangesOrdered_of_lastStartsInside hthreads htotal htotal' hbuffer hbuffer' hfits
        hcount
  · refine iff_of_false ?_ (fun h => hcount h.1)
    rintro ⟨it, hit, -⟩
    rw [fIndexerThreadsInit_eq_error threads offset htotal' hbuffer hbuffer' (not_lt.mp hcount)]
      at hit
    cases hit

end

/-- Two threads divide three bytes: the second one gets the last byte. -/
theorem rangesOrdered_two : RangesOrdered 2 3 1 0 :=
  (rangesOrdered_iff (by decide) (by decide) (by decide) (by decide) (by decide)
    (by decide)).mpr ⟨by decide, by decide⟩

/-- Three threads divide three bytes: the last one starts at position `4`, behind the
window. -/
theorem rangesOrdered_fails_on_three : 1 ≤ (3 : Int32).toInt ∧ ¬ RangesOrdered 3 3 1 0 := by
  refine ⟨by decide, ?_⟩
  apply not_rangesOrdered_of_not_lastStartsInside
  all_goals decide

end Flashlight.Indexer
