/-
# The windows of a file

`f_index_text_file` goes through the target file in windows of
`max_bytes_per_iteration` bytes, from the last window down to the first, and hands
one chunk of each window to the lookup file. The lookup file is created by the first
iteration and closed by the last one; for a file of a single window both are the
same.
-/

import Flashlight.Index
import Flashlight.Indexer.Plan
import Mathlib.Order.CompletePartialOrder
import Mathlib.Order.SuccPred.IntervalSucc

namespace Flashlight.TextIndexer

open Flashlight.Math

/-- The number of windows: `thread_it_count`, which is at least `1`. -/
def threadItCount (totalBytesCount maxBytesPerIteration : UInt64) : Except Fault ℕ :=
  match ceilQuotient totalBytesCount maxBytesPerIteration >>= castInt with
  | .error fault => .error fault
  | .ok count => .ok (if count.toInt ≤ 0 then 1 else count.toInt.toNat)

/-- Where window `itc` starts: `thread_it_start`. -/
def threadItStart (maxBytesPerIteration : UInt64) (itc : ℕ) : UInt64 :=
  .ofNat itc * maxBytesPerIteration

/-- The size of window `itc`: `local_max_bytes_per_iteration`. -/
def localMaxBytes (totalBytesCount maxBytesPerIteration : UInt64) (itc : ℕ) : UInt64 :=
  if threadItStart maxBytesPerIteration itc + maxBytesPerIteration > totalBytesCount then
    totalBytesCount - threadItStart maxBytesPerIteration itc
  else maxBytesPerIteration

/-- The part of the window loop that writes the lookup: `handed itc` is the chunk of
window `itc`, on the heap at that time. -/
def windowLoop (handed : ℕ → Heap × FChunk) : ℕ → Option FLookupFile → Option FLookupFile
  | 0, lookup => lookup
  | itc + 1, lookup =>
      (fLookupFileFromChunk (handed itc).1 lookup (handed itc).2 lookup.isNone (itc == 0)).bind
        fun lookup => windowLoop handed itc (some lookup)

/-- The loop hands over the windows from the last one to the first one. -/
theorem windowLoop_eq_fromChunks (handed : ℕ → Heap × FChunk) (n : ℕ)
    (lookup : Option FLookupFile) :
    windowLoop handed n lookup = fromChunks lookup ((List.range n).reverse.map handed) := by
  induction n generalizing lookup with
  | zero => rfl
  | succ n ih =>
      have hempty : (n == 0) = ((List.range n).reverse.map handed).isEmpty := by
        cases n <;> simp [List.range_succ]
      rw [List.range_succ, List.reverse_append, List.reverse_singleton, List.singleton_append,
        List.map_cons, windowLoop, hempty]
      simp only [ih]
      rfl

section

variable {totalBytesCount maxBytesPerIteration : UInt64} {itc : ℕ}

/-- A file has as many windows as it takes to reach its end, and at least one. -/
theorem threadItCount_eq (htotal : totalBytesCount.toNat < 2 ^ 53)
    (hmax : 0 < maxBytesPerIteration.toNat) (hmax' : maxBytesPerIteration.toNat < 2 ^ 53)
    (hcount : totalBytesCount.toNat ⌈/⌉ maxBytesPerIteration.toNat < 2 ^ 31) :
    threadItCount totalBytesCount maxBytesPerIteration =
      .ok (max 1 (totalBytesCount.toNat ⌈/⌉ maxBytesPerIteration.toNat)) := by
  have hcast : (ceilQuotient totalBytesCount maxBytesPerIteration >>= castInt) =
      .ok (.ofNat (totalBytesCount.toNat ⌈/⌉ maxBytesPerIteration.toNat)) := by
    rw [ceilQuotient_eq htotal hmax' hmax]
    exact if_pos hcount
  have hint : (Int32.ofNat (totalBytesCount.toNat ⌈/⌉ maxBytesPerIteration.toNat)).toInt =
      (totalBytesCount.toNat ⌈/⌉ maxBytesPerIteration.toNat : ℕ) :=
    Int32.toInt_ofNat_of_lt hcount
  simp only [threadItCount, hcast, hint]
  congr 1
  split <;> omega

/-- A file has a window. -/
theorem threadItCount_pos {count : ℕ}
    (h : threadItCount totalBytesCount maxBytesPerIteration = .ok count) : 0 < count := by
  unfold threadItCount at h
  split at h
  · cases h
  · obtain rfl := Except.ok.inj h
    split <;> omega

/-- Windows lie side by side; the last one is clipped at the end of the file. -/
theorem window_eq (htotal : totalBytesCount.toNat < 2 ^ 53)
    (hmax : maxBytesPerIteration.toNat < 2 ^ 53)
    (hitc : itc * maxBytesPerIteration.toNat ≤ totalBytesCount.toNat) :
    (threadItStart maxBytesPerIteration itc).toNat = itc * maxBytesPerIteration.toNat ∧
      (localMaxBytes totalBytesCount maxBytesPerIteration itc).toNat =
        min maxBytesPerIteration.toNat
          (totalBytesCount.toNat - itc * maxBytesPerIteration.toNat) := by
  have hstart : (threadItStart maxBytesPerIteration itc).toNat =
      itc * maxBytesPerIteration.toNat := by
    rw [threadItStart, ← UInt64.ofNat_toNat (x := maxBytesPerIteration), ← UInt64.ofNat_mul,
      UInt64.toNat_ofNat', UInt64.ofNat_toNat]
    omega
  refine ⟨hstart, ?_⟩
  have hadd : (threadItStart maxBytesPerIteration itc + maxBytesPerIteration).toNat =
      itc * maxBytesPerIteration.toNat + maxBytesPerIteration.toNat := by
    rw [UInt64.toNat_add, hstart]
    omega
  rw [localMaxBytes]
  split
  · next hgt =>
      rw [gt_iff_lt, UInt64.lt_iff_toNat_lt, hadd] at hgt
      rw [UInt64.toNat_sub_of_le _ _ (UInt64.le_iff_toNat_le.mpr (by omega)), hstart]
      omega
  · next hle =>
      rw [gt_iff_lt, UInt64.lt_iff_toNat_lt, hadd] at hle
      omega

end

/-- The number of windows of a file of `total` bytes. -/
def windowCount (total size : ℕ) : ℕ :=
  max 1 (total ⌈/⌉ size)

/-- The end of the window before window `itc`, which is where window `itc` starts. -/
def windowStart (total size itc : ℕ) : ℕ :=
  min (itc * size) total

/-- The newline ends of window `itc`. -/
def windowEnds (bytes : List UInt8) (size itc : ℕ) : List ℕ :=
  sepEnds isNewline (windowStart bytes.length size itc)
    (slice bytes (windowStart bytes.length size itc) (windowStart bytes.length size (itc + 1)))

theorem mul_le_of_lt_windowCount {total size itc : ℕ} (hsize : 0 < size)
    (hitc : itc < windowCount total size) : itc * size ≤ total := by
  rw [windowCount] at hitc
  rcases Nat.eq_zero_or_pos itc with rfl | hpos
  · simp
  · have hlt := (lt_ceilDiv_iff hsize).mp (show itc < total ⌈/⌉ size by omega)
    rw [Nat.mul_comm]
    exact hlt.le

theorem le_windowCount_mul {total size : ℕ} (hsize : 0 < size) :
    total ≤ windowCount total size * size := by
  have hle := (ceilDiv_le_iff_le_mul hsize).mp (le_refl (total ⌈/⌉ size))
  rw [Nat.mul_comm] at hle
  exact le_trans hle (Nat.mul_le_mul_right _ (Nat.le_max_right _ _))

theorem windowStart_windowCount {total size : ℕ} (hsize : 0 < size) :
    windowStart total size (windowCount total size) = total :=
  Nat.min_eq_right (le_windowCount_mul hsize)

theorem monotone_windowStart (total size : ℕ) : Monotone (windowStart total size) :=
  fun _ _ hle => min_le_min_right _ (Nat.mul_le_mul_right _ hle)

/-- The windows' newline ends are the newline ends of the file. -/
theorem flatMap_windowEnds {bytes : List UInt8} {size : ℕ} (hsize : 0 < size) :
    (List.range (windowCount bytes.length size)).flatMap (windowEnds bytes size) =
      newlineEnds bytes := by
  have hall := flatMap_range_sepEnds isNewline bytes
    (monotone_windowStart bytes.length size) (by simp [windowStart])
    (fun i => Nat.min_le_right _ _) (windowCount bytes.length size)
  rw [windowStart_windowCount hsize, slice_zero_length] at hall
  exact hall

/-- The window sizes and starts of the code are those of the plan. -/
theorem windowStart_eq {target : TargetFile} {maxBytesPerIteration : UInt64} {itc : ℕ}
    (htotal : target.bytes.length < 2 ^ 53) (hmax : 0 < maxBytesPerIteration.toNat)
    (hmax' : maxBytesPerIteration.toNat < 2 ^ 53)
    (hitc : itc < windowCount target.bytes.length maxBytesPerIteration.toNat) :
    (threadItStart maxBytesPerIteration itc).toNat =
        windowStart target.bytes.length maxBytesPerIteration.toNat itc ∧
      (threadItStart maxBytesPerIteration itc).toNat +
          (localMaxBytes (.ofNat target.bytes.length) maxBytesPerIteration itc).toNat =
        windowStart target.bytes.length maxBytesPerIteration.toNat (itc + 1) := by
  have hnat := target.toNat_length
  have hle := mul_le_of_lt_windowCount hmax hitc
  obtain ⟨hstart, hsize⟩ := window_eq (hnat.symm ▸ htotal) hmax' (hnat.symm ▸ hle)
  rw [hstart, hsize, hnat, windowStart, windowStart, Nat.succ_mul]
  omega

/-- The windows cover the file. -/
theorem iUnion_windows {total size : ℕ} (hsize : 0 < size) :
    (⋃ itc < windowCount total size,
      Set.Ico (windowStart total size itc) (windowStart total size (itc + 1))) =
      Set.Ico 0 total := by
  ext p
  simp only [Set.mem_iUnion, Set.mem_Ico, Nat.zero_le, true_and, exists_prop]
  constructor
  · rintro ⟨itc, -, -, hhigh⟩
    exact lt_of_lt_of_le hhigh (Nat.min_le_right _ _)
  · intro hp
    have hhigh : p < (p / size + 1) * size := by
      rw [Nat.mul_comm]
      exact Nat.lt_mul_div_succ p hsize
    have hitc : p / size < windowCount total size := by
      rw [Nat.div_lt_iff_lt_mul hsize]
      exact lt_of_lt_of_le hp (le_windowCount_mul hsize)
    refine ⟨p / size, hitc, ?_, lt_min hhigh hp⟩
    exact (Nat.min_le_left _ _).trans (Nat.div_mul_le_self p size)

/-- Handing over the newline offsets of the windows leaves the exact table behind. -/
theorem windowLoop_exact {target : TargetFile} {size : ℕ} (hsize : 0 < size)
    {handed : ℕ → Heap × FChunk} {nodes : ℕ → List FBytesNode}
    (hnewlines : newlineCount target.bytes < 2 ^ 32 - 1)
    (hhanded : ∀ itc < windowCount target.bytes.length size,
      HoldsCounted (handed itc) (nodes itc) ∧
        (nodes itc).map (fun node => node.offset.toNat) =
          (windowEnds target.bytes size itc).reverse) :
    ∃ lookup, windowLoop handed (windowCount target.bytes.length size) none = some lookup ∧
      FIndex.Exact ⟨target, lookup⟩ := by
  set count := windowCount target.bytes.length size with hcount
  have hcalls : List.Forall₂ HoldsCounted ((List.range count).reverse.map handed)
      ((List.range count).reverse.map nodes) := by
    rw [List.forall₂_map_left_iff, List.forall₂_map_right_iff, List.forall₂_same]
    intro itc hitc
    exact (hhanded itc (by simpa using hitc)).1
  have hoffsets : ((List.range count).reverse.map nodes).flatten.map
      (fun node => node.offset.toNat) = (newlineEnds target.bytes).reverse := by
    rw [← flatMap_windowEnds hsize, List.reverse_flatMap, List.map_flatten, List.map_map,
      ← List.flatMap_def]
    refine List.flatMap_congr fun itc hitc => ?_
    exact (hhanded itc (by simpa using hitc)).2
  have hne : (List.range count).reverse.map handed ≠ [] := by
    rw [hcount, windowCount]
    simp
  rw [windowLoop_eq_fromChunks]
  exact exact_of_fromChunks hcalls hne hoffsets (by omega)

/-- **The windows assemble one table.** The windows of a file are pairwise disjoint,
no longer than asked for, and cover the file; handing over the newline offsets of each
of them, last window first, leaves the exact table behind. -/
theorem windows_assemble (target : TargetFile) (maxBytesPerIteration : UInt64)
    (htotal : target.bytes.length < 2 ^ 53) (hmax : 1 ≤ maxBytesPerIteration.toNat)
    (hmax' : maxBytesPerIteration.toNat < 2 ^ 53)
    (hcount : target.bytes.length ⌈/⌉ maxBytesPerIteration.toNat < 2 ^ 31) :
    ∃ count, threadItCount (.ofNat target.bytes.length) maxBytesPerIteration = .ok count ∧
      (∀ itc < count, (localMaxBytes (.ofNat target.bytes.length) maxBytesPerIteration itc).toNat ≤
        maxBytesPerIteration.toNat) ∧
      (∀ i < count, ∀ j < count, i ≠ j →
        Disjoint
          (Set.Ico (threadItStart maxBytesPerIteration i).toNat
            ((threadItStart maxBytesPerIteration i).toNat +
              (localMaxBytes (.ofNat target.bytes.length) maxBytesPerIteration i).toNat))
          (Set.Ico (threadItStart maxBytesPerIteration j).toNat
            ((threadItStart maxBytesPerIteration j).toNat +
              (localMaxBytes (.ofNat target.bytes.length) maxBytesPerIteration j).toNat))) ∧
      (⋃ itc < count, Set.Ico (threadItStart maxBytesPerIteration itc).toNat
        ((threadItStart maxBytesPerIteration itc).toNat +
          (localMaxBytes (.ofNat target.bytes.length) maxBytesPerIteration itc).toNat)) =
        Set.Ico 0 target.bytes.length ∧
      ∀ (handed : ℕ → Heap × FChunk) (nodes : ℕ → List FBytesNode),
        newlineCount target.bytes < 2 ^ 32 - 1 →
        (∀ itc < count, HoldsCounted (handed itc) (nodes itc) ∧
          (nodes itc).map (fun node => node.offset.toNat) =
            (sepEnds isNewline (threadItStart maxBytesPerIteration itc).toNat
              (slice target.bytes (threadItStart maxBytesPerIteration itc).toNat
                ((threadItStart maxBytesPerIteration itc).toNat +
                  (localMaxBytes (.ofNat target.bytes.length)
                    maxBytesPerIteration itc).toNat))).reverse) →
        ∃ lookup, windowLoop handed count none = some lookup ∧
          lookup.contents = (exactEntries target.bytes).flatMap sizeBytes ∧
          lookup.len.toNat = (exactEntries target.bytes).length := by
  have hnat := target.toNat_length
  have hwindow := fun itc (hitc : itc <
      windowCount target.bytes.length maxBytesPerIteration.toNat) =>
    windowStart_eq htotal hmax hmax' hitc
  have hmono := monotone_windowStart target.bytes.length maxBytesPerIteration.toNat
  refine ⟨windowCount target.bytes.length maxBytesPerIteration.toNat, ?_, ?_, ?_, ?_, ?_⟩
  · rw [threadItCount_eq (hnat.symm ▸ htotal) hmax hmax' (hnat.symm ▸ hcount), hnat]
    rfl
  · intro itc hitc
    obtain ⟨hstart, hend⟩ := hwindow itc hitc
    rw [windowStart] at hstart hend
    rw [Nat.succ_mul] at hend
    omega
  · intro i hi j hj hij
    rw [(hwindow i hi).2, (hwindow j hj).2, (hwindow i hi).1, (hwindow j hj).1]
    exact hmono.pairwise_disjoint_on_Ico_succ hij
  · rw [← iUnion_windows hmax]
    refine Set.iUnion₂_congr fun itc hitc => ?_
    rw [(hwindow itc hitc).2, (hwindow itc hitc).1]
  · intro handed nodes hnewlines hhanded
    obtain ⟨lookup, hlookup, hexact⟩ := windowLoop_exact hmax hnewlines fun itc hitc => by
      obtain ⟨hholds, hnodes⟩ := hhanded itc hitc
      rw [(hwindow itc hitc).2, (hwindow itc hitc).1] at hnodes
      exact ⟨hholds, hnodes⟩
    refine ⟨lookup, hlookup, hexact.contents_eq, ?_⟩
    have hlen := hexact.len_eq
    simpa [exactEntries, newlineEnds, newlineCount] using hlen

/-- What the two one-byte windows of `lineFile` hand over. -/
def lineHanded : ℕ → Heap × FChunk
  | 0 => ([], ⟨0, none, none, true, 0⟩)
  | _ => ([⟨⟨⟨true, 2⟩, ⟨0, 0⟩⟩, none⟩], ⟨0, some 0, some 0, false, 1⟩)

/-- The nodes that these chunks hold. -/
def lineNodes : ℕ → List FBytesNode
  | 0 => []
  | _ => [⟨⟨true, 2⟩, ⟨0, 0⟩⟩]

/-- The table of `lineFile`, assembled from two windows. -/
theorem windows_assemble_line : ∃ lookup,
    threadItCount 2 1 = .ok 2 ∧ windowLoop lineHanded 2 none = some lookup ∧
      lookup.contents = sizeBytes 2 ++ sizeBytes 0 ∧ lookup.len.toNat = 2 := by
  obtain ⟨count, hcount, -, -, -, hassemble⟩ :=
    windows_assemble lineFile 1 (by decide) (by decide) (by decide) (by decide)
  have htwo : threadItCount 2 1 = .ok 2 := by decide +kernel
  obtain rfl : count = 2 := Except.ok.inj (hcount.symm.trans htwo)
  obtain ⟨lookup, hlookup, hcontents, hlen⟩ := hassemble lineHanded lineNodes (by decide) (by
    intro itc hitc
    match itc, hitc with
    | 0, _ => exact ⟨⟨⟨[], ⟨rfl, rfl, rfl⟩, rfl⟩, rfl⟩, by decide⟩
    | 1, _ =>
        exact ⟨⟨⟨[(0, ⟨⟨true, 2⟩, ⟨0, 0⟩⟩)], ⟨⟨rfl, none, rfl, rfl⟩, rfl, rfl⟩, rfl⟩, rfl⟩,
          by decide⟩)
  exact ⟨lookup, htwo, hlookup, hcontents.trans (by decide), hlen.trans (by decide)⟩

/-- A quotient below `2 ^ 31` whose ceiling is not has no window count: the cast to
`int` overflows. -/
theorem threadItCount_undefined : (4294967295 : ℚ) / 2 < 2 ^ 31 ∧
    threadItCount 4294967295 2 = .error .undefined :=
  ⟨by norm_num, by decide +kernel⟩

end Flashlight.TextIndexer
