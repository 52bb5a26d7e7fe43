/-
# From a file to its matching lines

Whoever indexes a file and searches the index wants the lines of the file that match. When nothing
goes wrong they are what he gets: the callback is given the matching lines, up to the limit, and a
single thread gives them in the order of the file.

The shares of the threads must cover the lines for that: the lines that are left over by the
division are searched by no thread, and a thread whose lines do not make up whole batches leaves
out its last one.
-/

import Flashlight.Search.Batching
import Flashlight.Search.Sequential
import Flashlight.TextIndexer.Termination

namespace Flashlight.Search

open Flashlight.Math Flashlight.TextIndexer
open scoped List

/-- The lines that end with a newline, are not empty and match, with their numbers. -/
def grep (regex : Pcre2Code) (bytes : List UInt8) : List NumberedLine :=
  accepted regex (((List.range (newlineCount bytes)).filter fun k =>
    line isNewline bytes k ≠ []).map (numberedLine bytes))

/-- No line is left over by the division among the threads, and none by their batches. -/
structure FSearcher.CoversLines (config : FSearcher) (len : UInt32) : Prop where
  shares : len.toNat % searcherCount config len ≤ 1
  batches : searcherCount config len = 1 ∨
    config.lineBuffer.toNat ∣ len.toNat / searcherCount config len

instance (config : FSearcher) (len : UInt32) : Decidable (config.CoversLines len) :=
  decidable_of_iff (len.toNat % searcherCount config len ≤ 1 ∧ (searcherCount config len = 1 ∨
      config.lineBuffer.toNat ∣ len.toNat / searcherCount config len))
    ⟨fun ⟨hshares, hbatches⟩ => ⟨hshares, hbatches⟩, fun ⟨hshares, hbatches⟩ => ⟨hshares, hbatches⟩⟩

section

variable {regex : Pcre2Code} {index : FIndex} {config : FSearcher} {bytes : List UInt8}

/-! ## Plain text -/

/-- A line of a short file without zero bytes is searched as it is. -/
theorem cutToken_line (hnul : ∀ byte ∈ bytes, byte ≠ 0) (hlength : bytes.length < 2 ^ 31 - 1)
    (k : ℕ) : cutToken (cString (line isNewline bytes k)) = some (line isNewline bytes k) := by
  have hsub : line isNewline bytes k <+ bytes := by
    rw [line, slice]
    exact (List.drop_sublist _ _).trans (List.take_sublist _ _)
  rw [cString_eq_self fun hmem => hnul 0 (hsub.subset hmem) rfl]
  have hfits := hsub.length_le
  have hint : (Int32.ofNat (line isNewline bytes k).length).toInt =
      (line isNewline bytes k).length := by
    rw [Int32.toInt_ofNat_of_lt (by omega)]
  have hmax : (Int32.maxValue).toInt = 2 ^ 31 - 1 := by decide
  rw [cutToken, if_neg, hint, Int.toNat_natCast, List.take_length]
  rintro (hneg | hlast)
  · rw [Int32.lt_iff_toInt_lt, hint, Int32.toInt_zero] at hneg
    omega
  · have heq := congrArg Int32.toInt hlast
    rw [hint, hmax] at heq
    omega

theorem not_hides_line (hnul : ∀ byte ∈ bytes, byte ≠ 0) (hlength : bytes.length < 2 ^ 31 - 1)
    (k : ℕ) : ¬ Hides (line isNewline bytes k) := by
  have hzero : 0 ∉ line isNewline bytes k := by
    intro hmem
    rw [line, slice] at hmem
    exact hnul 0 (List.mem_of_mem_take (List.mem_of_mem_drop hmem)) rfl
  have hcut := cutToken_line hnul hlength k
  rw [cString_eq_self hzero] at hcut
  simp [Hides, hzero, hcut]

theorem tokenAt_eq_line (hnul : ∀ byte ∈ bytes, byte ≠ 0) (hlength : bytes.length < 2 ^ 31 - 1)
    (k : ℕ) : tokenAt bytes k = line isNewline bytes k := by
  rw [tokenAt, cutToken_line hnul hlength, Option.getD_some]

/-! ## Every line is searched once -/

/-- The threads search every line that is not empty. -/
theorem exists_shown (hexact : index.Exact) (hnul : ∀ byte ∈ index.target.bytes, byte ≠ 0)
    (hlength : index.target.bytes.length < 2 ^ 31 - 1) (hthreads : 1 ≤ config.threads.toInt)
    (hbuffer : 1 ≤ config.lineBuffer.toNat) (hcovers : config.CoversLines index.flookup.len) {k : ℕ}
    (hk : k < newlineCount index.target.bytes) (hline : line isNewline index.target.bytes k ≠ []) :
    ∃ thread ∈ config.plan index, k ∈ thread.shown index.target.bytes := by
  have hnewlines : newlineCount index.target.bytes ≤ index.target.bytes.length :=
    List.countP_le_length
  have hlen := hexact.len_eq
  have hplan := searcherThreads_eq_ok hthreads (show 1 ≤ index.flookup.len.toNat by omega)
    (by omega)
  obtain ⟨threads, hcount⟩ : ∃ threads, searcherCount config index.flookup.len = threads := ⟨_, rfl⟩
  have hshares := hcovers.shares
  have hbatches := hcovers.batches
  rw [hcount] at hplan hshares hbatches
  rw [searcherCount] at hcount
  have hdivision := Nat.div_add_mod index.flookup.len.toNat threads
  obtain ⟨share, hshare⟩ : ∃ share, index.flookup.len.toNat / threads = share := ⟨_, rfl⟩
  have hpos : 0 < share := hshare ▸ Nat.div_pos (by omega) (by omega)
  rw [hshare] at hplan hbatches hdivision
  -- the shares of the threads make up the lines of the file
  obtain ⟨thread, hthread, hlow, hhigh⟩ := (exists_contains_plainSearcher_iff hpos
    (show threads * share < 2 ^ 64 by omega)).mpr (show k < threads * share by omega)
  refine ⟨thread, by simpa only [FSearcher.plan, hplan] using hthread, ?_⟩
  have hinside := inside_of_mem_plan hexact hbuffer hplan hthread
  obtain ⟨i, hi, rfl⟩ := List.mem_map.mp hthread
  have hend : (i + 1) * share ≤ threads * share :=
    Nat.mul_le_mul_right share (List.mem_range.mp hi)
  have hstart := toNat_start_plainSearcher config (show (i + 1) * share < 2 ^ 64 by omega)
  have hlines := toNat_count_plainSearcher config (show (i + 1) * share < 2 ^ 64 by omega)
  -- the batches of the thread make up its share, or its share ends behind the file
  obtain ⟨batch, hbatch, hlow', hhigh'⟩ := (hinside.bounded.exists_inBatch_iff hinside.buffer
    (plainSearcher config share i).start k).mpr ⟨hlow, hhigh, by
      rcases hbatches with rfl | hdvd
      · obtain rfl : i = 0 := by simpa using hi
        right
        rw [hstart, hlines]
        omega
      · left
        rw [hlines, Nat.add_sub_cancel_left]
        exact hdvd⟩
  refine List.mem_flatMap.mpr ⟨batch, hbatch, mem_batchShown.mpr ⟨⟨hlow', hhigh', hk⟩, ?_, ?_⟩⟩
  · exact fun m _ _ => not_hides_line hnul hlength m
  · rwa [tokenAt_eq_line hnul hlength]

/-- One thread after the other finds what there is to find. -/
theorem searchSequentially_eq_grep (hexact : index.Exact)
    (hnul : ∀ byte ∈ index.target.bytes, byte ≠ 0)
    (hlength : index.target.bytes.length < 2 ^ 31 - 1) (hthreads : 1 ≤ config.threads.toInt)
    (hbuffer : 1 ≤ config.lineBuffer.toNat) (hcovers : config.CoversLines index.flookup.len) :
    searchSequentially regex index config = grep regex index.target.bytes := by
  have hnewlines : newlineCount index.target.bytes ≤ index.target.bytes.length :=
    List.countP_le_length
  have hlen := hexact.len_eq
  have hplan := searcherThreads_eq_ok hthreads (show 1 ≤ index.flookup.len.toNat by omega)
    (by omega)
  have hinside : ∀ thread ∈ config.plan index, thread.Inside index := by
    intro thread hthread
    rw [FSearcher.plan, hplan] at hthread
    exact inside_of_mem_plan hexact hbuffer hplan hthread
  have hapart : (config.plan index).Pairwise fun x y =>
      x.start.toNat + x.count.toNat ≤ y.start.toNat := by
    rw [FSearcher.plan, hplan]
    exact pairwise_searcherThreads hplan
  -- both are the lines of an ascending list of numbers, and the numbers are the same
  have hshown : ((config.plan index).flatMap fun thread => thread.shown index.target.bytes) =
      (List.range (newlineCount index.target.bytes)).filter fun k =>
        line isNewline index.target.bytes k ≠ [] := by
    refine List.Pairwise.eq_of_mem_iff (r := (· < ·)) ?_ (List.pairwise_lt_range.filter _) ?_
    · refine List.pairwise_flatMap.mpr
        ⟨fun thread hthread => (hinside thread hthread).pairwise_shown _, ?_⟩
      refine hapart.imp_of_mem fun hx hy hle k hk l hl => ?_
      have hupper := (hinside _ hx).of_mem_shown hk
      have hlower := (hinside _ hy).of_mem_shown hl
      omega
    · intro k
      simp only [List.mem_filter, List.mem_range, decide_eq_true_eq]
      constructor
      · intro hmem
        obtain ⟨thread, hthread, hk⟩ := List.mem_flatMap.mp hmem
        obtain ⟨batch, -, hbatch⟩ := List.mem_flatMap.mp hk
        obtain ⟨⟨-, -, hcount⟩, -, htoken⟩ := mem_batchShown.mp hbatch
        exact ⟨hcount, by rwa [tokenAt_eq_line hnul hlength] at htoken⟩
      · rintro ⟨hk, hline⟩
        obtain ⟨thread, hthread, hmem⟩ :=
          exists_shown hexact hnul hlength hthreads hbuffer hcovers hk hline
        exact List.mem_flatMap.mpr ⟨thread, hthread, hmem⟩
  have hlines : shownLine index.target.bytes = numberedLine index.target.bytes := by
    funext k
    rw [shownLine, tokenAt_eq_line hnul hlength, numberedLine]
  have htokens : ∀ thread ∈ config.plan index, accepted regex (thread.tokens index) =
      accepted regex ((thread.shown index.target.bytes).map (numberedLine index.target.bytes)) := by
    intro thread hthread
    rw [(hinside thread hthread).tokens_eq hexact, hlines]
  rw [grep, ← hshown, searchSequentially, List.flatMap_congr htokens, List.map_flatMap, accepted,
    List.filter_flatMap]
  rfl

/-! ## The search finds the lines of the file -/

/-- What a returned search has delivered. -/
theorem SearchRun.Ordered.delivered_grep {s : SearchRun} (h : s.Ordered regex index config)
    (hreturn : s.pc = .returned 0) (hexact : index.Exact)
    (hnul : ∀ byte ∈ index.target.bytes, byte ≠ 0)
    (hlength : index.target.bytes.length < 2 ^ 31 - 1) (hthreads : 1 ≤ config.threads.toInt)
    (hbuffer : 1 ≤ config.lineBuffer.toNat) (hcovers : config.CoversLines index.flookup.len) :
    s.crew.shared.delivered.map FSearchResult.line <+~ grep regex index.target.bytes ∧
      s.crew.shared.delivered.length =
        min config.resultLimit.toInt.toNat (grep regex index.target.bytes).length ∧
      (config.threads = 1 → s.crew.shared.delivered.map FSearchResult.line =
        (grep regex index.target.bytes).take config.resultLimit.toInt.toNat) := by
  obtain ⟨hconfigs, hcount⟩ := h.length_delivered hreturn
  have hnewlines : newlineCount index.target.bytes ≤ index.target.bytes.length :=
    List.countP_le_length
  have hlen := hexact.len_eq
  have hplan := searcherThreads_eq_ok hthreads (show 1 ≤ index.flookup.len.toNat by omega)
    (by omega)
  have hgrep : searchSequentially regex index config = grep regex index.target.bytes :=
    searchSequentially_eq_grep hexact hnul hlength hthreads hbuffer hcovers
  rw [hgrep] at hcount
  have hstarting : ∀ thread ∈ s.crew.threads,
      thread.2.sent.map FSearchResult.line <+: accepted regex (thread.1.tokens index) :=
    fun thread hthread => (List.prefix_append _ _).trans (h.threads thread hthread).found
  have hshuffle := h.shuffle.map FSearchResult.line
  rw [List.map_map] at hshuffle
  have hfound : grep regex index.target.bytes = s.crew.threads.flatMap fun thread =>
      accepted regex (thread.1.tokens index) := by
    rw [← hgrep, searchSequentially, ← hconfigs, List.flatMap_map]
  refine ⟨?_, hcount, fun hone => ?_⟩
  · rw [hfound]
    refine hshuffle.perm.subperm.trans (List.Sublist.subperm ?_)
    rw [← List.flatMap_def]
    exact List.Sublist.flatMap_right _ fun thread hthread => (hstarting thread hthread).sublist
  · -- the one thread delivers the beginning of its results
    have hplanned : (s.crew.threads.map Prod.fst).length = 1 := by
      rw [hconfigs, FSearcher.plan, hplan, List.length_map, List.length_range, searcherCount, hone]
      have htoInt : (1 : Int32).toInt = 1 := by decide
      omega
    rw [List.length_map] at hplanned
    obtain ⟨thread, hcrew⟩ := List.length_eq_one_iff.mp hplanned
    have hstarts := hstarting thread (hcrew ▸ List.mem_singleton_self thread)
    rw [hcrew] at hshuffle hfound
    rw [List.flatMap_singleton] at hfound
    have hwhole : s.crew.shared.delivered.map FSearchResult.line =
        thread.2.sent.map FSearchResult.line := hshuffle.eq_of_singleton
    rw [← hfound, ← hwhole, List.prefix_iff_eq_take, List.length_map, hcount] at hstarts
    rw [hstarts, ← List.take_eq_take_min]

/-- What a returned search has delivered when its limit leaves room for everything. -/
theorem SearchRun.Ordered.delivered_perm {s : SearchRun} (h : s.Ordered regex index config)
    (hreturn : s.pc = .returned 0) (hexact : index.Exact)
    (hnul : ∀ byte ∈ index.target.bytes, byte ≠ 0)
    (hlength : index.target.bytes.length < 2 ^ 31 - 1) (hthreads : 1 ≤ config.threads.toInt)
    (hbuffer : 1 ≤ config.lineBuffer.toNat) (hcovers : config.CoversLines index.flookup.len)
    (hlimit : (newlineCount index.target.bytes : ℤ) ≤ config.resultLimit.toInt) :
    s.crew.shared.delivered.map FSearchResult.line ~ grep regex index.target.bytes := by
  obtain ⟨hsubperm, hcount, -⟩ :=
    h.delivered_grep hreturn hexact hnul hlength hthreads hbuffer hcovers
  refine hsubperm.perm_of_length_le ?_
  have hfew : (grep regex index.target.bytes).length ≤ newlineCount index.target.bytes := by
    refine (List.length_filter_le _ _).trans ?_
    rw [List.length_map]
    exact (List.length_filter_le _ _).trans (List.length_range).le
  rw [List.length_map]
  omega

end

/-- **Grep.** Where nothing goes wrong with a file of plain text, every schedule of the indexer ends
with an index, and every schedule of a search of it ends with the matching lines of the file: each
at most once, as many as the limit allows, and in their order if there is one thread. -/
theorem index_then_search (regex : Pcre2Code) (config : FSearcher) {target : TargetFile}
    {indexer : FIndexer} {count : ℕ}
    (hcount : threadItCount (.ofNat target.bytes.length) indexer.maxBytesPerIteration = .ok count)
    (hcompletable : Completable target indexer count) (hindexable : Indexable target indexer)
    (hnul : ∀ byte ∈ target.bytes, byte ≠ 0) (hlength : target.bytes.length < 2 ^ 31 - 1)
    (hthreads : 1 ≤ config.threads.toInt) (hbuffer : 1 ≤ config.lineBuffer.toNat)
    (hcallback : config.onResult = true)
    (hcovers : config.CoversLines (.ofNat (newlineCount target.bytes + 1)))
    (hregex : ∀ line, -1 ≤ (regex line).rc) :
    Terminates (fileStep target indexer) (FileRun.Smooth target) .start ∧
      ∀ s, Reaches (fileStep target indexer) (FileRun.Smooth target) .start s →
        Stuck (fileStep target indexer) (FileRun.Smooth target) s →
          ∃ index, s.pc = .returned (some index) ∧
            Terminates (searchStep regex index config) (SearchRun.Smooth regex index) .start ∧
            ∀ s, Reaches (searchStep regex index config) (SearchRun.Smooth regex index) .start s →
              Stuck (searchStep regex index config) (SearchRun.Smooth regex index) s →
                s.pc = .returned 0 ∧
                s.crew.shared.delivered.map FSearchResult.line <+~ grep regex target.bytes ∧
                s.crew.shared.delivered.length =
                  min config.resultLimit.toInt.toNat (grep regex target.bytes).length ∧
                (config.threads = 1 → s.crew.shared.delivered.map FSearchResult.line =
                  (grep regex target.bytes).take config.resultLimit.toInt.toNat) := by
  have hnewlines : newlineCount target.bytes ≤ target.bytes.length := List.countP_le_length
  refine ⟨hcompletable.terminates hcount, fun s hreach hstuck => ?_⟩
  obtain ⟨hundisturbed, index, hpc⟩ := hcompletable.returned_of_stuck hcount hreach hstuck
  obtain ⟨rfl, hexact⟩ := hundisturbed.exact hindexable (by omega) hpc
  refine ⟨index, hpc, terminates_of_buffer regex index hbuffer, fun s hreach hstuck => ?_⟩
  have hlines := hexact.len_eq
  have hfit := batchesFit_of_length_lt hexact hbuffer (by omega)
  obtain ⟨hordered, hreturn⟩ :=
    returned_of_stuck hexact hthreads hbuffer hcallback (by omega) hfit hregex hreach hstuck
  have hlen : index.flookup.len = .ofNat (newlineCount index.target.bytes + 1) := by
    rw [← UInt32.toNat_inj, hlines, UInt32.toNat_ofNat_of_lt' (show _ < 2 ^ 32 by omega)]
  exact ⟨hreturn, hordered.delivered_grep hreturn hexact hnul hlength hthreads hbuffer
    (hlen ▸ hcovers)⟩

/-- The search goes through all lines and has room for the results. -/
structure FSearcher.Thorough (config : FSearcher) (index : FIndex) : Prop where
  threads : 1 ≤ config.threads.toInt
  buffer : 1 ≤ config.lineBuffer.toNat
  callback : config.onResult = true
  covers : config.CoversLines index.flookup.len
  limit : (newlineCount index.target.bytes : ℤ) ≤ config.resultLimit.toInt

/-- **The threads do not show.** Searches in which no call of a thread fails give the same results
in some order, whatever their schedules, their numbers of threads and their buffers are. -/
theorem results_independent {regex : Pcre2Code} {index : FIndex} {config₁ config₂ : FSearcher}
    (hexact : index.Exact) (hnul : ∀ byte ∈ index.target.bytes, byte ≠ 0)
    (hlength : index.target.bytes.length < 2 ^ 31 - 1) (hconfig₁ : config₁.Thorough index)
    (hconfig₂ : config₂.Thorough index) {s₁ s₂ : SearchRun}
    (hreach₁ : Reaches (searchStep regex index config₁) (SearchRun.Unbroken regex index) .start s₁)
    (hreach₂ : Reaches (searchStep regex index config₂) (SearchRun.Unbroken regex index) .start s₂)
    (hreturn₁ : s₁.pc = .returned 0) (hreturn₂ : s₂.pc = .returned 0) :
    s₁.crew.shared.delivered.map FSearchResult.line ~
      s₂.crew.shared.delivered.map FSearchResult.line := by
  have hordered₁ := ordered_of_reaches hconfig₁.callback hconfig₁.buffer hreach₁
  have hordered₂ := ordered_of_reaches hconfig₂.callback hconfig₂.buffer hreach₂
  have hperm₁ := hordered₁.delivered_perm hreturn₁ hexact hnul hlength hconfig₁.threads
    hconfig₁.buffer hconfig₁.covers hconfig₁.limit
  have hperm₂ := hordered₂.delivered_perm hreturn₂ hexact hnul hlength hconfig₂.threads
    hconfig₂.buffer hconfig₂.covers hconfig₂.limit
  exact hperm₁.trans hperm₂.symm

/-- The two lines are searched by one thread, and by two threads line by line. -/
theorem results_independent_pair : ∃ s₁ s₂ : SearchRun,
    Reaches (searchStep anyLine (pairIndex 97) pairSearch)
      (SearchRun.Unbroken anyLine (pairIndex 97)) .start s₁ ∧
    Reaches (searchStep anyLine (pairIndex 97) ⟨2, 2, 1, true⟩)
      (SearchRun.Unbroken anyLine (pairIndex 97)) .start s₂ ∧
    s₁.crew.shared.delivered.map FSearchResult.line ~
      s₂.crew.shared.delivered.map FSearchResult.line := by
  have hexact : (pairIndex 97).Exact := ⟨by decide, by decide⟩
  have hreturns : ∀ config : FSearcher, config.Thorough (pairIndex 97) → ∃ s,
      Reaches (searchStep anyLine (pairIndex 97) config)
        (SearchRun.Unbroken anyLine (pairIndex 97)) .start s ∧ s.pc = .returned 0 := by
    intro config h
    obtain ⟨s, hreach, hstuck⟩ :=
      (terminates_of_buffer anyLine (pairIndex 97) h.buffer).exists_stuck
    have hfit := batchesFit_of_length_lt hexact h.buffer (by decide)
    exact ⟨s, hreach.mono fun _ _ hsmooth => hsmooth.unbroken,
      (returned_of_stuck hexact h.threads h.buffer h.callback (by decide) hfit
        (fun _ => show (-1 : Int32) ≤ 1 by decide) hreach hstuck).2⟩
  have hone : pairSearch.Thorough (pairIndex 97) :=
    ⟨by decide, by decide, rfl, by decide +kernel, by decide⟩
  have htwo : FSearcher.Thorough ⟨2, 2, 1, true⟩ (pairIndex 97) :=
    ⟨by decide, by decide, rfl, by decide +kernel, by decide⟩
  obtain ⟨s₁, hreach₁, hreturn₁⟩ := hreturns pairSearch hone
  obtain ⟨s₂, hreach₂, hreturn₂⟩ := hreturns ⟨2, 2, 1, true⟩ htwo
  exact ⟨s₁, s₂, hreach₁, hreach₂, results_independent hexact
    (by simp [pairIndex, pairFile, newline]) (by decide) hone htwo hreach₁ hreach₂ hreturn₁
    hreturn₂⟩

/-- Indexing `windowsFile` with two threads and searching it with two threads gives the two lines
that are not empty. -/
theorem index_then_search_windows :
    Terminates (fileStep windowsFile windowsIndexer) (FileRun.Smooth windowsFile) .start ∧
      ∀ s, Reaches (fileStep windowsFile windowsIndexer) (FileRun.Smooth windowsFile) .start s →
        Stuck (fileStep windowsFile windowsIndexer) (FileRun.Smooth windowsFile) s →
          ∃ index, s.pc = .returned (some index) ∧
            ∀ s, Reaches (searchStep anyLine index ⟨2, 2, 2, true⟩)
                (SearchRun.Smooth anyLine index) .start s →
              Stuck (searchStep anyLine index ⟨2, 2, 2, true⟩)
                  (SearchRun.Smooth anyLine index) s →
                s.crew.shared.delivered.map FSearchResult.line ~ [(3, [97]), (7, [98])] := by
  have hcount : threadItCount (.ofNat windowsFile.bytes.length)
      windowsIndexer.maxBytesPerIteration = .ok 2 := by decide +kernel
  have hcompletable : Completable windowsFile windowsIndexer 2 := by decide +kernel
  have hgrep : grep anyLine windowsFile.bytes = [(3, [97]), (7, [98])] := by decide +kernel
  obtain ⟨hends, hindex⟩ := index_then_search anyLine ⟨2, 2, 2, true⟩ hcount hcompletable
    (by decide +kernel) (by simp [windowsFile, newline]) (by decide) (by decide) (by decide) rfl
    (by decide) fun _ => show (-1 : Int32) ≤ 1 by decide
  refine ⟨hends, fun s hreach hstuck => ?_⟩
  obtain ⟨index, hpc, -, hsearch⟩ := hindex s hreach hstuck
  refine ⟨index, hpc, fun s hreach hstuck => ?_⟩
  obtain ⟨-, hsubperm, hlength, -⟩ := hsearch s hreach hstuck
  rw [hgrep] at hsubperm hlength
  refine hsubperm.perm_of_length_le ?_
  rw [List.length_map, hlength]
  decide

end Flashlight.Search
