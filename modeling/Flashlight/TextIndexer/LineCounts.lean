/-
# Line counts

The newlines of a file are counted four times over: by the scan of a chunk, by the batch
loop of a thread, by the joins of a window, and by the lookup file. All four counters are
`unsigned int`s, while the file is as long as it likes. However the newlines are spread
over chunks, threads and windows, the last counter holds their number and one more, up to
multiples of `2 ^ 32`.
-/

import Flashlight.TextIndexer.Completion

namespace Flashlight.TextIndexer

open Flashlight.Math Flashlight.Indexer
open scoped List

/-- The ends of the newlines that a scan found. -/
def scannedEnds (bytes : List UInt8) (entry : FIndexerChunk × ℕ) : List ℕ :=
  sepEnds isNewline entry.1.fromOffset.toNat (scannedBytes bytes entry)

/-- Every newline of the file was found by exactly one scan. -/
def FileRun.FoundOnce (target : TargetFile) (s : FileRun) : Prop :=
  s.examined.flatMap (scannedEnds target.bytes) ~ newlineEnds target.bytes

section

variable {target : TargetFile} {indexer : FIndexer} {s : FileRun} {index : FIndex}

/-- The newlines of a call are those of its windows. -/
theorem FileRun.length_scannedEnds (bytes : List UInt8) (s : FileRun) :
    (s.examined.flatMap (scannedEnds bytes)).length =
      (s.history.map fun entry => (entry.2.map (threadNewlines bytes)).sum).sum := by
  simp only [FileRun.examined, List.flatMap_assoc, List.length_flatMap, scannedEnds,
    length_sepEnds]
  rfl

/-- A returned index counts the newlines that were found, in whatever places. -/
theorem FileRun.Inv.len_eq (h : s.Inv target indexer) (hpc : s.pc = .returned (some index)) :
    index.flookup.len =
      .ofNat ((s.examined.flatMap (scannedEnds target.bytes)).length + 1) := by
  obtain ⟨-, hpast, -, hlookup⟩ := h.returned hpc
  obtain ⟨count, hcount, -, -, handed, hhanded, hloop⟩ := hpast.windows
  have hpos := threadItCount_pos hcount
  have hwindows := hpast.history_eq hcount
  have hfinal := hloop handed fun _ _ => rfl
  rw [windowLoop_eq_fromChunks, ← hwindows, List.map_map, windowLoop, hlookup] at hfinal
  have hne : s.history.map (handed ∘ Prod.fst) ≠ [] := by
    rw [ne_eq, List.map_eq_nil_iff, ← List.map_eq_nil_iff (f := Prod.fst), hwindows,
      List.reverse_eq_nil_iff, List.range_eq_nil]
    omega
  have hcalls : List.Forall₂ (fun call k => call.2.lineCount = .ofNat k)
      (s.history.map (handed ∘ Prod.fst))
      (s.history.map fun entry => (entry.2.map (threadNewlines target.bytes)).sum) := by
    rw [List.forall₂_map_left_iff, List.forall₂_map_right_iff, List.forall₂_same]
    exact fun entry hentry => (hhanded entry hentry).lineCount_eq
  rw [fromChunks_none hne] at hfinal
  rw [len_of_fromChunks hcalls hne hfinal, s.length_scannedEnds]
  simp [fLookupFileInit]

/-- When every newline was found once, `len` is one more than their number, up to multiples
of `2 ^ 32`. -/
theorem len_of_foundOnce
    (hreach : Reaches (fileStep target indexer) (fun _ _ => True) .start s)
    (hpc : s.pc = .returned (some index)) (honce : s.FoundOnce target) :
    index.flookup.len = .ofNat (newlineCount target.bytes + 1) := by
  have hlen := (reported_of_reaches hreach).1.len_eq hpc
  rwa [honce.length_eq, newlineEnds, length_sepEnds] at hlen

/-- **Line counts wrap** at `2 ^ 32` and nowhere else: whenever an index is returned and
every newline was found once, `len` is one more than the number of newlines, and the last
line that a lookup accepts is their number, if and only if an `unsigned int` holds them. -/
theorem lineCounts_iff
    (hreach : Reaches (fileStep target indexer) (fun _ _ => True) .start s)
    (hpc : s.pc = .returned (some index)) (honce : s.FoundOnce target) :
    (index.flookup.len.toNat = newlineCount target.bytes + 1 ∧
      index.flookup.maxLine.toNat = newlineCount target.bytes) ↔
      newlineCount target.bytes + 1 < 2 ^ 32 := by
  have hlen := congrArg UInt32.toNat (len_of_foundOnce hreach hpc honce)
  rw [UInt32.toNat_ofNat'] at hlen
  constructor
  · rintro ⟨hexact, -⟩
    have hlt := index.flookup.len.toNat_lt
    omega
  · intro hlt
    rw [Nat.mod_eq_of_lt hlt] at hlen
    refine ⟨hlen, ?_⟩
    have hone : (1 : UInt32) ≤ index.flookup.len := by
      rw [UInt32.le_iff_toNat_le, hlen]
      exact Nat.le_add_left 1 _
    rw [FLookupFile.maxLine, UInt32.toNat_toUInt64, UInt32.toNat_sub_of_le _ _ hone, hlen]
    rfl

end

/-- The eight newlines of `windowsFile`, each found by a scan of its own. -/
theorem lineCounts_iff_windows : ∃ s : FileRun,
    s.pc = .returned (some windowsIndex) ∧
      windowsIndex.flookup.len.toNat = newlineCount windowsFile.bytes + 1 ∧
      windowsIndex.flookup.maxLine.toNat = newlineCount windowsFile.bytes := by
  obtain ⟨s, hreach, hpc, hexamined⟩ := exists_reaches_windows
  have honce : s.FoundOnce windowsFile := by
    rw [FileRun.FoundOnce, hexamined]
    decide
  exact ⟨s, hpc, (lineCounts_iff (hreach.mono fun _ _ _ => trivial) hpc honce).mpr (by decide)⟩

/-! ## Runs in which nothing goes wrong -/

section

variable {target : TargetFile} {indexer : FIndexer} {s : FileRun} {index : FIndex}

/-- What a thread that read everything found: the newlines of its chunks. -/
theorem Done.flatMap_scannedEnds {bytes : List UInt8} {heap : Heap} {thread : TextThread}
    {ret : FChunk} (h : Done bytes heap thread ret) (hread : ReadAll bytes thread) :
    thread.2.examined.flatMap (scannedEnds bytes) = thread.1.chunks.flatMap (chunkEnds bytes) := by
  rw [h.examined_eq hread, List.flatMap_map]
  refine List.flatMap_congr fun chunk _ => ?_
  rw [scannedEnds, scannedBytes, List.take_length, chunkEnds]

/-- A call in which nothing went wrong finds every newline once, if the chunks of its plan
hold them one after the other. -/
theorem FileRun.Undisturbed.foundOnce (h : s.Undisturbed target indexer) {count : ℕ}
    (hcount : threadItCount (.ofNat target.bytes.length) indexer.maxBytesPerIteration = .ok count)
    (hplanned : (plannedChunks target indexer count).flatMap (chunkEnds target.bytes) =
      newlineEnds target.bytes) (hpc : s.pc = .returned (some index)) : s.FoundOnce target := by
  obtain ⟨-, hpast, -, -⟩ := h.inv.returned hpc
  have hwindows := hpast.history_eq hcount
  have hfound : s.examined.flatMap (scannedEnds target.bytes) =
      (s.history.map Prod.fst).flatMap fun itc =>
        ((windowConfigs target indexer itc).flatMap FTextThread.chunks).flatMap
          (chunkEnds target.bytes) := by
    rw [FileRun.examined, List.flatMap_assoc, List.flatMap_map]
    refine List.flatMap_congr fun entry hentry => ?_
    have hdone := hpast.done entry hentry
    rw [windowConfigs_eq hdone.threadsOf, List.flatMap_assoc, List.flatMap_assoc, List.flatMap_map]
    refine List.flatMap_congr fun thread hthread => ?_
    obtain ⟨heap, ret, hthreadDone⟩ := hdone.done thread hthread
    exact hthreadDone.flatMap_scannedEnds (h.history entry hentry thread hthread)
  rw [FileRun.FoundOnce, hfound, hwindows, ← hplanned, plannedChunks, List.flatMap_assoc]
  exact (List.reverse_perm _).flatMap_right _

end

/-! ## A file that is too long -/

/-- One thread with one coroutine indexes up to four gigabytes in a single window. -/
def soleIndexer : FIndexer where
  threads := 1
  concurrency := 1
  bufferSize := 1073741824
  maxBytesPerIteration := 4294967296

section

variable {target : TargetFile}

/-- The only window is the file, and its only thread gets all of it. -/
theorem exists_soleThread (hpos : 0 < target.bytes.length) (hlt : target.bytes.length < 2 ^ 32) :
    ∃ it, windowPlan target soleIndexer 0 = .ok it ∧
      it.threads = [⟨0, .ofNat target.bytes.length, .ofNat target.bytes.length, 1073741824⟩] := by
  have hnat := target.toNat_length
  have hstart : threadItStart soleIndexer.maxBytesPerIteration 0 = 0 := by decide
  have hwindow : localMaxBytes (.ofNat target.bytes.length) soleIndexer.maxBytesPerIteration 0 =
      .ofNat target.bytes.length := by
    have hgt : (0 : UInt64) + soleIndexer.maxBytesPerIteration > .ofNat target.bytes.length := by
      rw [gt_iff_lt, UInt64.lt_iff_toNat_lt, hnat]
      exact hlt
    rw [localMaxBytes, hstart, if_pos hgt, UInt64.sub_zero]
  have hbuffer : soleIndexer.bufferSize.toNat = 2 ^ 30 := by decide
  have hone : threadCount soleIndexer.threads target.bytes.length (2 ^ 30) = 1 := by
    have hthreads : soleIndexer.threads.toInt.toNat = 1 := by decide
    rw [threadCount, hthreads, Nat.ceilDiv_eq_add_pred_div]
    omega
  obtain ⟨it, hit, hthreads⟩ := fIndexerThreadsInit_eq_ok soleIndexer.threads 0 (by decide)
    (hnat.symm ▸ hpos) (hnat.symm ▸ (by omega)) (by decide) (by decide)
    (show (UInt64.ofNat target.bytes.length).toNat ⌈/⌉ soleIndexer.bufferSize.toNat < 2 ^ 32 by
      rw [hnat, hbuffer, Nat.ceilDiv_eq_add_pred_div]
      omega)
  refine ⟨it, by rw [windowPlan, hwindow, hstart, hit], ?_⟩
  rw [hnat, hbuffer, hone, Nat.div_one, show (1 : ℕ) = 1 + 0 from rfl,
    threadsLoop_of_fits (by omega) 0 (by omega), threadsLoop, List.append_nil] at hthreads
  rw [hthreads]
  simp [plainThread]
  rfl

/-- The configuration of that thread. -/
def soleThread (target : TargetFile) : FTextThread where
  fromOffset := 0
  toOffset := .ofNat target.bytes.length
  totalBytesCount := 4294967296
  bufferSize := 1073741824
  concurrency := 1
  thread := 0

/-- The chunks of that thread: one gigabyte after the other. -/
def soleChunks (target : TargetFile) : List FIndexerChunk :=
  (List.range (target.bytes.length ⌈/⌉ 2 ^ 30)).map (plainChunk 0 target.bytes.length (2 ^ 30))

theorem soleChunks_count (hpos : 0 < target.bytes.length)
    (hlt : target.bytes.length < 2 ^ 32) :
    0 < target.bytes.length ⌈/⌉ 2 ^ 30 ∧ target.bytes.length ⌈/⌉ 2 ^ 30 ≤ 4 := by
  rw [Nat.ceilDiv_eq_add_pred_div]
  omega

theorem windowConfigs_sole (hpos : 0 < target.bytes.length)
    (hlt : target.bytes.length < 2 ^ 32) :
    windowConfigs target soleIndexer 0 = [soleThread target] := by
  obtain ⟨it, hit, hthreads⟩ := exists_soleThread hpos hlt
  simp only [windowConfigs, hit, textThreads, hthreads, List.mapIdx_cons, List.mapIdx_nil]
  rfl

theorem plan_soleThread (hpos : 0 < target.bytes.length) (hlt : target.bytes.length < 2 ^ 32) :
    ∃ ic, (soleThread target).plan = .ok ic ∧ ic.chunks = soleChunks target ∧
      ic.concurrency.toInt = 1 := by
  have hnat := target.toNat_length
  have hbuffer : (1073741824 : UInt64).toNat = 2 ^ 30 := by decide
  obtain ⟨hsome, hfew⟩ := soleChunks_count hpos hlt
  obtain ⟨ic, hplan, hchunks, hconcurrency⟩ := fIndexerChunksInit_eq_ok 1 4294967296
    (show (0 : UInt64).toNat ≤ (UInt64.ofNat target.bytes.length).toNat from Nat.zero_le _)
    (by rw [hnat]; omega) (show 0 < (1073741824 : UInt64).toNat by decide) (by decide)
    (by rw [hnat, hbuffer]; omega) (by rw [hnat, hbuffer, UInt64.toNat_zero, Nat.sub_zero]; omega)
  rw [hnat, hbuffer, UInt64.toNat_zero, Nat.sub_zero] at hchunks hconcurrency
  have hcount : (UInt32.ofNat (target.bytes.length ⌈/⌉ 2 ^ 30)).toNat =
      target.bytes.length ⌈/⌉ 2 ^ 30 :=
    UInt32.toNat_ofNat_of_lt' (by simp only [UInt32.size]; omega)
  refine ⟨ic, hplan, hchunks, ?_⟩
  rw [hconcurrency, toInt_clampCount (by decide) (by omega), hcount,
    show (1 : Int32).toInt = 1 by decide]
  omega

/-- The thread can come to its end: the platform transfers a gigabyte at once. -/
theorem completable_soleThread (hpos : 0 < target.bytes.length)
    (hlt : target.bytes.length < 2 ^ 32) : (soleThread target).Completable target.bytes := by
  obtain ⟨ic, hplan, hchunks, hconcurrency⟩ := plan_soleThread hpos hlt
  obtain ⟨hsome, hfew⟩ := soleChunks_count hpos hlt
  have hlength : ic.chunks.length = target.bytes.length ⌈/⌉ 2 ^ 30 := by
    rw [hchunks, soleChunks, List.length_map, List.length_range]
  refine ⟨ic, hplan, fun i hi _ => by omega, by omega, ?_, fun chunk hchunk => ?_⟩
  · rw [← List.length_pos_iff]
    omega
  · rw [hchunks] at hchunk
    obtain ⟨k, hk, rfl⟩ := List.mem_map.mp hchunk
    rw [List.mem_range] at hk
    rw [toNat_fromOffset_plainChunk (by omega), length_chunkBuffer,
      toNat_count_plainChunk (by omega), maxTransfer]
    omega

/-- The chunks hold the newlines of the file one after the other. -/
theorem flatMap_soleChunks (hlt : target.bytes.length < 2 ^ 32) :
    (soleChunks target).flatMap (chunkEnds target.bytes) = newlineEnds target.bytes := by
  have hmono : Monotone fun k => min (k * 2 ^ 30) target.bytes.length := fun _ _ hle =>
    min_le_min_right _ (Nat.mul_le_mul_right _ hle)
  have hall := flatMap_range_sepEnds isNewline target.bytes hmono (by simp)
    (fun _ => Nat.min_le_right _ _) (target.bytes.length ⌈/⌉ 2 ^ 30)
  have hlast : target.bytes.length ≤ target.bytes.length ⌈/⌉ 2 ^ 30 * 2 ^ 30 := by
    rw [Nat.ceilDiv_eq_add_pred_div]
    omega
  rw [Nat.min_eq_right hlast, slice_zero_length] at hall
  rw [soleChunks, List.flatMap_map, newlineEnds, ← hall]
  refine List.flatMap_congr fun k hk => ?_
  rw [List.mem_range, lt_ceilDiv_iff (by norm_num)] at hk
  rw [chunkEnds, toNat_fromOffset_plainChunk (by omega),
    chunkBuffer_plainChunk (by norm_num) (by omega) (by omega), Nat.zero_add, Nat.zero_add,
    Nat.min_eq_left (show k * 2 ^ 30 ≤ target.bytes.length by omega)]

/-- Some run indexes the file and finds every newline once. -/
theorem exists_soleRun (target : TargetFile) (hpos : 0 < target.bytes.length)
    (hlt : target.bytes.length < 2 ^ 32) :
    ∃ s index, Reaches (fileStep target soleIndexer) (fun _ _ => True) .start s ∧
      s.pc = .returned (some index) ∧ s.FoundOnce target := by
  have hnat := target.toNat_length
  have hmax : soleIndexer.maxBytesPerIteration.toNat = 2 ^ 32 := by decide
  have hone : target.bytes.length ⌈/⌉ 2 ^ 32 = 1 := by
    rw [Nat.ceilDiv_eq_add_pred_div]
    omega
  have hcount : threadItCount (.ofNat target.bytes.length) soleIndexer.maxBytesPerIteration =
      .ok 1 := by
    rw [threadItCount_eq (by omega) (by omega) (by omega) (by rw [hnat, hmax, hone]; omega), hnat,
      hmax, hone]
    rfl
  have hconfigs : ∀ itc < 1, windowConfigs target soleIndexer itc = [soleThread target] := by
    intro itc hitc
    obtain rfl : itc = 0 := by omega
    exact windowConfigs_sole hpos hlt
  have hcompletable : Completable target soleIndexer 1 := by
    refine ⟨fun itc hitc => ?_, fun itc hitc config hconfig => ?_⟩
    · obtain rfl : itc = 0 := by omega
      obtain ⟨it, hit, -⟩ := exists_soleThread hpos hlt
      exact ⟨it, hit⟩
    · rw [hconfigs itc hitc, List.mem_singleton] at hconfig
      rw [hconfig]
      exact completable_soleThread hpos hlt
  obtain ⟨s, index, hreach, hpc⟩ := exists_returned hcount hcompletable
  have hs : s.Undisturbed target soleIndexer := FileRun.undisturbed_of_reaches hcount
    (fun _ hitc _ => hcompletable.windowDefined hitc) hreach
  refine ⟨s, index, hreach.mono fun _ _ _ => trivial, hpc, hs.foundOnce hcount ?_ hpc⟩
  obtain ⟨ic, hplan, hchunks, -⟩ := plan_soleThread hpos hlt
  rw [plannedChunks, List.range_one, List.flatMap_singleton, hconfigs 0 (by omega),
    List.flatMap_singleton, chunks_eq hplan, hchunks, flatMap_soleChunks hlt]

end

/-- A file of `n` empty lines. -/
def newlineFile (n : ℕ) (hn : n < 2 ^ 63) : TargetFile where
  bytes := List.replicate n newline
  size_lt := by rwa [List.length_replicate]

theorem newlineCount_newlineFile (n : ℕ) (hn : n < 2 ^ 63) :
    newlineCount (newlineFile n hn).bytes = n := by
  rw [newlineCount, newlineFile, List.countP_replicate]
  rfl

/-- What becomes of `n` empty lines: every newline is found once, and counted up to
multiples of `2 ^ 32`. -/
theorem exists_newlineFile_run {n : ℕ} (hn : n < 2 ^ 63) (hpos : 0 < n) (hlt : n < 2 ^ 32) :
    ∃ s index, Reaches (fileStep (newlineFile n hn) soleIndexer) (fun _ _ => True) .start s ∧
      s.pc = .returned (some index) ∧ s.FoundOnce (newlineFile n hn) ∧
      index.flookup.len = .ofNat (n + 1) := by
  have hlength : (newlineFile n hn).bytes.length = n := List.length_replicate
  obtain ⟨s, index, hreach, hpc, honce⟩ :=
    exists_soleRun (newlineFile n hn) (by omega) (by omega)
  have hlen := len_of_foundOnce hreach hpc honce
  rw [newlineCount_newlineFile] at hlen
  exact ⟨s, index, hreach, hpc, honce, hlen⟩

theorem two_pow_sub_one_lt : 2 ^ 32 - 1 < 2 ^ 63 := by norm_num

/-- A file of `2 ^ 32 - 1` empty lines. -/
def longFile : TargetFile :=
  newlineFile (2 ^ 32 - 1) two_pow_sub_one_lt

/-- The newlines of `longFile` are all found once, and its index has a `len` of `0`. -/
theorem lineCounts_fails_on_long : ∃ s index,
    Reaches (fileStep longFile soleIndexer) (fun _ _ => True) .start s ∧
      s.pc = .returned (some index) ∧ s.FoundOnce longFile ∧
      newlineCount longFile.bytes = 2 ^ 32 - 1 ∧ index.flookup.len = 0 := by
  obtain ⟨s, index, hreach, hpc, honce, hlen⟩ :=
    exists_newlineFile_run two_pow_sub_one_lt (by norm_num) (by norm_num)
  exact ⟨s, index, hreach, hpc, honce, newlineCount_newlineFile _ _, hlen⟩

end Flashlight.TextIndexer
