/-
# Search results are lines of the file

Over an exact index of a file without zero bytes, a batch is a run of lines of the file,
and cutting it up gives these lines back with their numbers. The ranges of the threads
and their batches do not overlap, so every result is about a line of its own: its
number, counting from `1`, its content, and the expression accepts it.
-/

import Mathlib.Data.List.TakeWhile
import Flashlight.Search.Limit
import Flashlight.Search.Run

namespace Flashlight.Search

open Flashlight.Math
open scoped List

/-! ## The lines of a batch -/

/-- Line `k` of the file, counting from `0`, as a result names it. -/
def numberedLine (bytes : List UInt8) (k : ℕ) : NumberedLine :=
  (.ofNat (k + 1), line isNewline bytes k)

/-- Consecutive lines, and the empty token behind the last newline, are numbered as the
lines of the file are. -/
theorem numbered_map_line (bytes : List UInt8) (count : ℕ) {i : UInt64}
    (hfits : i.toNat + count < 2 ^ 64) :
    numbered i ((List.range' i.toNat count).map (line isNewline bytes) ++ [[]]) =
      ((List.range' i.toNat count).filter fun k => line isNewline bytes k ≠ []).map
        (numberedLine bytes) := by
  induction count generalizing i with
  | zero => rfl
  | succ count ih =>
      have hnext : (i + 1).toNat = i.toNat + 1 := by
        rw [UInt64.toNat_add, UInt64.toNat_one]
        omega
      have hnumber : i + 1 = .ofNat (i.toNat + 1) := by
        rw [← hnext, UInt64.ofNat_toNat]
      have hrest := ih (i := i + 1) (by omega)
      rw [hnext] at hrest
      rw [List.range'_succ, List.map_cons, List.cons_append, numbered, hrest, List.filter_cons]
      split
      · next hempty => rw [if_neg (by simpa using hempty)]
      · next hempty => rw [if_pos (by simpa using hempty), List.map_cons, numberedLine, hnumber]

/-- The lines to match of a batch: those that a newline ends and that are not empty. -/
def batchKeys (bytes : List UInt8) (batch : UInt64 × UInt64) : List ℕ :=
  (List.range' batch.1.toNat (min (batch.1.toNat + batch.2.toNat) (newlineCount bytes) -
    batch.1.toNat)).filter fun k => line isNewline bytes k ≠ []

/-- The lines to match of a thread. -/
def FSearcherThread.keys (bytes : List UInt8) (config : FSearcherThread) : List ℕ :=
  (config.batches config.start).flatMap (batchKeys bytes)

section

variable {index : FIndex} {config : FSearcherThread} {i : UInt64} {bytes : List UInt8}

theorem mem_batchKeys {batch : UInt64 × UInt64} {k : ℕ} :
    k ∈ batchKeys bytes batch ↔ (batch.1.toNat ≤ k ∧ k < batch.1.toNat + batch.2.toNat ∧
      k < newlineCount bytes) ∧ line isNewline bytes k ≠ [] := by
  rw [batchKeys, List.mem_filter, List.mem_range'_1, decide_eq_true_iff]
  refine and_congr_left fun _ => ?_
  omega

theorem pairwise_batchKeys (bytes : List UInt8) (batch : UInt64 × UInt64) :
    (batchKeys bytes batch).Pairwise (· < ·) :=
  (List.pairwise_lt_range' ).filter _

theorem cString_lineBytes (hnul : ∀ byte ∈ bytes, byte ≠ 0) (j k : ℕ) :
    cString (lineBytes bytes j k) = lineBytes bytes j k := by
  rw [cString, List.takeWhile_eq_self_iff]
  intro byte hbyte
  have hmem : byte ∈ bytes := List.mem_of_mem_take (List.mem_of_mem_drop hbyte)
  simpa using hnul byte hmem

/-- The lines of a batch that was looked up, and the empty token behind them. -/
theorem unread_lineBytes {j k : ℕ} (hjk : j ≤ k) (hk : k ≤ newlineCount bytes) :
    unread (some (lineBytes bytes j k)) =
      (List.range' j (k - j)).map (line isNewline bytes) ++ [[]] :=
  splitOnP_slice_lines hjk hk

/-- Of a batch that was looked up, up to its first zero byte if it has one, every line is shorter
than the batch: a newline ends it. -/
theorem length_le_of_mem_unread {j k : ℕ} (hk : k ≤ newlineCount bytes) {l : List UInt8}
    (hl : l ∈ unread (some (cString (lineBytes bytes j k)))) :
    l.length ≤ (lineBytes bytes j k).length - 1 := by
  have hpiece : l.length + (cString (lineBytes bytes j k)).countP isNewline ≤
      (cString (lineBytes bytes j k)).length := length_add_countP_le_of_mem_splitOnP hl
  have hstart : cString (lineBytes bytes j k) <+: lineBytes bytes j k :=
    List.takeWhile_prefix _
  rcases hstart.length_le.lt_or_eq with hshort | hwhole
  · omega
  · rw [hstart.eq_of_length hwhole] at hpiece
    rcases Nat.lt_or_ge j k with hjk | hkj
    · obtain ⟨byte, hbyte, hcons⟩ := slice_lines_eq_cons hjk hk
      have hmem : byte ∈ lineBytes bytes j k := by
        rw [lineBytes, lineOffset, lineOffset, hcons]
        exact List.mem_append_right _ List.mem_cons_self
      have hnewline : 0 < (lineBytes bytes j k).countP isNewline :=
        List.countP_pos_iff.mpr ⟨byte, hmem, hbyte⟩
      omega
    · have hempty : (lineBytes bytes j k).length = 0 := by
        have hle := lineStart_mono isNewline bytes hkj
        rw [lineBytes, length_slice, lineOffset, lineOffset]
        omega
      omega

/-- The lines to match of a batch are lines of the file. -/
theorem batchLines_eq (hexact : index.Exact) (hnul : ∀ byte ∈ index.target.bytes, byte ≠ 0)
    (hi : i.toNat ≤ newlineCount index.target.bytes)
    (hsum : i.toNat + (config.batchSize i).toNat < 2 ^ 64) :
    batchLines index config i = (batchKeys index.target.bytes (i, config.batchSize i)).map
      fun k => some (numberedLine index.target.bytes k) := by
  simp only [batchLines, hexact.readLookup_eq hi hsum, cString_lineBytes hnul]
  rw [unread_lineBytes (by omega) (by omega), numbered_map_line _ _ (by omega), List.map_map]
  rfl

/-- A thread that searches lines of the index. -/
structure FSearcherThread.Inside (config : FSearcherThread) (index : FIndex) : Prop where
  bounded : config.Bounded
  buffer : 0 < config.buffer.toNat
  range : config.start.toNat + config.count.toNat ≤ newlineCount index.target.bytes + 1

theorem snd_of_mem_batches {batch : UInt64 × UInt64} (hbatch : batch ∈ config.batches i) :
    batch.2 = config.batchSize batch.1 := by
  unfold FSearcherThread.batches at hbatch
  generalize (config.start.toNat + config.count.toNat - i.toNat) ⌈/⌉ config.buffer.toNat = left
    at hbatch
  induction left generalizing i with
  | zero => cases hbatch
  | succ left ih =>
      rcases List.mem_cons.mp hbatch with rfl | hbatch
      · rfl
      · exact ih hbatch

/-- The lines to match of a thread are lines of the file. -/
theorem FSearcherThread.Inside.lines_eq (hinside : config.Inside index) (hexact : index.Exact)
    (hnul : ∀ byte ∈ index.target.bytes, byte ≠ 0) :
    config.lines index = (config.keys index.target.bytes).map fun k =>
      some (numberedLine index.target.bytes k) := by
  rw [FSearcherThread.lines, linesFrom, FSearcherThread.keys, List.map_flatMap]
  refine List.flatMap_congr fun batch hbatch => ?_
  obtain ⟨-, hlt, hle⟩ := hinside.bounded.of_mem_batches hinside.buffer hbatch
  have hrange := hinside.range
  have hsmall := hinside.bounded.range_lt
  have hsize := snd_of_mem_batches hbatch
  rw [batchLines_eq hexact hnul (by omega) (by rw [← hsize]; omega), ← hsize]

/-- The lines of a thread come in their order, and from its range. -/
theorem FSearcherThread.Inside.pairwise_keys (hinside : config.Inside index)
    (bytes : List UInt8) : (config.keys bytes).Pairwise (· < ·) := by
  refine List.pairwise_flatMap.mpr ⟨fun batch _ => pairwise_batchKeys _ _, ?_⟩
  refine (hinside.bounded.pairwise_batches hinside.buffer _).imp ?_
  intro x y hxy j hj k hk
  have hj := (mem_batchKeys.mp hj).1
  have hk := (mem_batchKeys.mp hk).1
  omega

theorem FSearcherThread.Inside.of_mem_keys (hinside : config.Inside index) {k : ℕ}
    (hk : k ∈ config.keys bytes) :
    config.start.toNat ≤ k ∧ k < config.start.toNat + config.count.toNat ∧
      k < newlineCount bytes ∧ line isNewline bytes k ≠ [] := by
  obtain ⟨batch, hbatch, hk⟩ := List.mem_flatMap.mp hk
  obtain ⟨⟨hlow, hhigh, hcount⟩, hline⟩ := mem_batchKeys.mp hk
  have := hinside.bounded.of_mem_batches hinside.buffer hbatch
  exact ⟨by omega, by omega, hcount, hline⟩

end

/-! ## Faithful threads -/

/-- The batches that the thread has still to look up. -/
def Searcher.batchesLeft (config : FSearcherThread) (w : Searcher) : List (UInt64 × UInt64) :=
  match w.pc with
  | .enter => config.batches config.start
  | .batch i => config.batches i
  | .lookup i => config.batches i
  | .line cursor => config.batches (cursor.i + config.buffer)
  | .noMatch cursor => config.batches (cursor.i + config.buffer)
  | .deliver cursor _ => config.batches (cursor.i + config.buffer)
  | .exited _ => []
  | .undefined => []

/-- The batch that the thread is working on. -/
def Searcher.position (w : Searcher) : Option Cursor :=
  match w.pc with
  | .line cursor => some cursor
  | .noMatch cursor => some cursor
  | .deliver cursor _ => some cursor
  | _ => none

/-- No batch of the thread has a line that is too long. -/
def FSearcherThread.ShortLines (index : FIndex) (config : FSearcherThread) : Prop :=
  ∀ batch ∈ config.batches config.start, ∀ bytes, readLookup index batch.1 batch.2 = some bytes →
    ∀ line ∈ unread (some (cString bytes)), FitsInt line

/-- A thread hands its lines over as they are. -/
structure Searcher.Faithful (index : FIndex) (config : FSearcherThread) (w : Searcher) : Prop where
  batches : w.batchesLeft config <:+ config.batches config.start
  fits : ∀ cursor, w.position = some cursor → ∀ line ∈ unread cursor.rest, FitsInt line
  lines : (w.handed.map some ++ w.left index config).Sublist (config.lines index)

section

variable {regex : Pcre2Code} {index : FIndex} {config : FSearcherThread}
  {shared shared' : SearchShared} {w w' : Searcher} {a : SearcherAction}

theorem unread_afterLine_subset {str : List UInt8} {cursor : Cursor}
    (hrest : cursor.rest = some str) :
    ∀ line ∈ unread (cursor.advance (afterLine str)).rest, line ∈ unread cursor.rest := by
  intro line hline
  rw [hrest, unread_some]
  exact List.mem_cons_of_mem _ hline

/-- The batches that are left become fewer, and the lines of a batch that is looked up are
those of a planned batch. -/
theorem Searcher.Faithful.batches_step (h : w.Faithful index config)
    (hw : w.Inv regex index config) (hbounded : config.Bounded)
    (hbuffer : 0 < config.buffer.toNat) (hshort : config.ShortLines index)
    (hmove : SearcherMove regex index config shared w a shared' w') (hhonest : a.Honest index) :
    w'.batchesLeft config <:+ w.batchesLeft config ∧
      ∀ cursor, w'.position = some cursor → ∀ line ∈ unread cursor.rest, FitsInt line := by
  have hended : w'.pc = .exited true ∨ w'.pc = .exited false ∨ w'.pc = .undefined →
      w'.batchesLeft config <:+ w.batchesLeft config ∧
        ∀ cursor, w'.position = some cursor → ∀ line ∈ unread cursor.rest, FitsInt line := by
    intro hpc
    have hnil : w'.batchesLeft config = [] := by
      rcases hpc with hpc | hpc | hpc <;> simp only [Searcher.batchesLeft, hpc]
    have hnone : w'.position = none := by
      rcases hpc with hpc | hpc | hpc <;> simp only [Searcher.position, hpc]
    rw [hnil, hnone]
    exact ⟨List.nil_suffix, by simp⟩
  have hadvance : ∀ {cursor str}, w.pc = .line cursor → cursor.rest = some str →
      (w'.pc = .line (cursor.advance (afterLine str)) ∨
        w'.pc = .noMatch (cursor.advance (afterLine str)) ∨
        ∃ result, w'.pc = .deliver (cursor.advance (afterLine str)) result) →
      w'.batchesLeft config <:+ w.batchesLeft config ∧
        ∀ cursor, w'.position = some cursor → ∀ line ∈ unread cursor.rest, FitsInt line := by
    intro cursor str hpc hrest hpc'
    have hposition : w'.position = some (cursor.advance (afterLine str)) := by
      rcases hpc' with hpc' | hpc' | ⟨result, hpc'⟩ <;> simp only [Searcher.position, hpc']
    have hbatches : w'.batchesLeft config = w.batchesLeft config := by
      rcases hpc' with hpc' | hpc' | ⟨result, hpc'⟩ <;>
        simp only [Searcher.batchesLeft, hpc, hpc', Cursor.advance]
    rw [hbatches, hposition]
    refine ⟨List.suffix_refl _, ?_⟩
    rintro _ ⟨⟩ line hline
    exact h.fits cursor (by simp [Searcher.position, hpc]) line
      (unread_afterLine_subset hrest line hline)
  cases hmove with
  | entered hpc =>
      simp only [Searcher.batchesLeft, Searcher.position, hpc]
      exact ⟨List.suffix_refl _, by simp⟩
  | fault _ => exact hended (Or.inr (Or.inl rfl))
  | metLimit _ _ => exact hended (Or.inl rfl)
  | batchesDone _ _ => exact hended (Or.inr (Or.inl rfl))
  | batch hpc _ _ =>
      simp only [Searcher.batchesLeft, Searcher.position, hpc]
      exact ⟨List.suffix_refl _, by simp⟩
  | @lookup i env bytes hpc hlookup =>
      have hcons := hbounded.batches_eq_cons (hw.range i hpc) hbuffer
      have hbatch : (i, config.batchSize i) ∈ config.batches config.start := by
        refine h.batches.subset ?_
        simp only [Searcher.batchesLeft, hpc, hcons]
        exact List.mem_cons_self
      simp only [Searcher.batchesLeft, Searcher.position, hpc, hcons]
      refine ⟨List.suffix_cons _ _, ?_⟩
      rintro _ ⟨⟩
      exact hshort _ hbatch bytes (readLookup_of_honest hhonest hlookup)
  | lookupFailed _ _ hover =>
      rcases hover with rfl | rfl
      · exact hended (Or.inr (Or.inl rfl))
      · exact hended (Or.inr (Or.inr rfl))
  | linesDone hpc _ =>
      simp only [Searcher.batchesLeft, Searcher.position, hpc, Searcher.nextBatch]
      exact ⟨List.suffix_refl _, by simp⟩
  | cutShort hpc _ _ hover =>
      rcases hover with rfl | ⟨-, rfl⟩
      · simp only [Searcher.batchesLeft, Searcher.position, hpc, Searcher.nextBatch]
        exact ⟨List.suffix_refl _, by simp⟩
      · exact hended (Or.inr (Or.inr rfl))
  | emptyLine hpc hrest _ _ => exact hadvance hpc hrest (Or.inl rfl)
  | @matched cursor env str token hpc hrest _ _ =>
      obtain ⟨pc, progress, hmatched, heq⟩ :=
        w.matched_eq regex config env token (cursor.advance (afterLine str))
      have hpc' := congrArg Searcher.pc heq
      cases hmatched with
      | failed _ => exact hended (Or.inr (Or.inl hpc'))
      | noMatch _ _ => exact hadvance hpc hrest (Or.inr (Or.inl hpc'))
      | noResult _ _ _ => exact hended (Or.inr (Or.inl hpc'))
      | deliver _ _ _ _ => exact hadvance hpc hrest (Or.inr (Or.inr ⟨_, hpc'⟩))
      | discard _ _ _ _ => exact hadvance hpc hrest (Or.inl hpc')
  | passed hpc _ =>
      simp only [Searcher.batchesLeft, Searcher.position, hpc]
      refine ⟨List.suffix_refl _, ?_⟩
      rintro _ ⟨⟩
      exact h.fits _ (by simp [Searcher.position, hpc])
  | delivered hpc _ =>
      simp only [Searcher.batchesLeft, Searcher.position, hpc]
      refine ⟨List.suffix_refl _, ?_⟩
      rintro _ ⟨⟩
      exact h.fits _ (by simp [Searcher.position, hpc])

/-- **A step of a faithful thread.** -/
theorem Searcher.Faithful.step (h : w.Faithful index config) (hw : w.Inv regex index config)
    (hbounded : config.Bounded) (hbuffer : 0 < config.buffer.toNat)
    (hshort : config.ShortLines index)
    (hmove : SearcherMove regex index config shared w a shared' w') (hhonest : a.Honest index) :
    w'.Faithful index config := by
  obtain ⟨hbatches, hposition⟩ := h.batches_step hw hbounded hbuffer hshort hmove hhonest
  refine ⟨hbatches.trans h.batches, hposition, ?_⟩
  refine ((hmove.linesStep hbounded hhonest hw.range).sublist ?_).trans h.lines
  intro cursor str hpc hrest
  refine h.fits cursor (by simp [Searcher.position, hpc]) _ ?_
  rw [hrest, unread_some]
  exact List.mem_cons_self

theorem Searcher.faithful_start (index : FIndex) (config : FSearcherThread) :
    Searcher.start.Faithful index config :=
  ⟨List.suffix_refl _, by simp [Searcher.start, Searcher.position],
    by simp [Searcher.start, Searcher.left]⟩

/-- What a faithful thread has delivered: lines of its own, in their order, that match. -/
theorem Searcher.Faithful.sent_sublist (h : w.Faithful index config)
    (hw : w.Inv regex index config) (hinside : config.Inside index) (hexact : index.Exact)
    (hnul : ∀ byte ∈ index.target.bytes, byte ≠ 0) :
    (w.sent.map FSearchResult.line).Sublist
        ((config.keys index.target.bytes).map (numberedLine index.target.bytes)) ∧
      ∀ result ∈ w.sent, Accepts regex result.str := by
  have hsent : (w.sent.map FSearchResult.line).Sublist (accepted regex w.handed) :=
    (List.sublist_append_left _ _).trans hw.sent
  have hhanded : w.handed.Sublist
      ((config.keys index.target.bytes).map (numberedLine index.target.bytes)) := by
    have hlines := (List.sublist_append_left _ _).trans h.lines
    rw [hinside.lines_eq hexact hnul] at hlines
    simpa using hlines.filterMap id
  refine ⟨(hsent.trans List.filter_sublist).trans hhanded, fun result hresult => ?_⟩
  have hmem := hsent.subset (List.mem_map_of_mem hresult)
  exact of_decide_eq_true (List.mem_filter.mp hmem).2

end

/-! ## Sound searches -/

/-- Every batch of the search is shorter than `2 ^ 31` bytes, so that the length of a token is
an `int`. Whether one transfer has room for a batch is left to the reads. -/
def BatchesFit (index : FIndex) (config : FSearcher) : Prop :=
  ∀ plan, searcherThreads config index.flookup.len = .ok plan → ∀ thread ∈ plan,
    ∀ batch ∈ thread.batches thread.start, ∀ bytes, readLookup index batch.1 batch.2 = some bytes →
      bytes.length < 2 ^ 31

/-- The threads of the search are faithful. -/
structure SearchRun.Faithful (regex : Pcre2Code) (index : FIndex) (config : FSearcher)
    (s : SearchRun) : Prop where
  inv : s.Inv regex index config
  threads : ∀ thread ∈ s.crew.threads, thread.2.Faithful index thread.1

section

variable {regex : Pcre2Code} {index : FIndex} {config : FSearcher} {s s' : SearchRun}
  {a : SearchAction}

theorem inside_of_mem_plan (hexact : index.Exact) (hbuffer : 1 ≤ config.lineBuffer.toNat)
    {plan : List FSearcherThread}
    (hplan : searcherThreads config index.flookup.len = .ok plan) {thread : FSearcherThread}
    (hthread : thread ∈ plan) : thread.Inside index := by
  obtain ⟨hbounded, hrange, hsize, -, -⟩ := of_mem_searcherThreads hplan hthread
  refine ⟨hbounded, ?_, hexact.len_eq ▸ hrange⟩
  rw [hsize, UInt32.toNat_toUInt64]
  exact hbuffer

/-- The lines of a batch fit when the batch does. -/
theorem shortLines_of_batchesFit (hexact : index.Exact) (hbuffer : 1 ≤ config.lineBuffer.toNat)
    (hfit : BatchesFit index config) {plan : List FSearcherThread}
    (hplan : searcherThreads config index.flookup.len = .ok plan) {thread : FSearcherThread}
    (hthread : thread ∈ plan) : thread.ShortLines index := by
  intro batch hbatch bytes hlookup l hl
  have hlength := hfit plan hplan thread hthread batch hbatch bytes hlookup
  have hinside := inside_of_mem_plan hexact hbuffer hplan hthread
  obtain ⟨-, hlt, hle⟩ := hinside.bounded.of_mem_batches hinside.buffer hbatch
  have hrange := hinside.range
  have hsmall := hinside.bounded.range_lt
  rw [hexact.readLookup_eq (by omega) (by omega)] at hlookup
  obtain rfl := Option.some.inj hlookup
  have hline := length_le_of_mem_unread (Nat.min_le_right _ _) hl
  rw [FitsInt]
  omega

/-- A file of fewer than `2 ^ 31` bytes has no batch that is too long. -/
theorem batchesFit_of_length_lt (hexact : index.Exact) (hbuffer : 1 ≤ config.lineBuffer.toNat)
    (hlength : index.target.bytes.length < 2 ^ 31) : BatchesFit index config := by
  intro plan hplan thread hthread batch hbatch bytes hlookup
  have hinside := inside_of_mem_plan hexact hbuffer hplan hthread
  obtain ⟨-, hlt, hle⟩ := hinside.bounded.of_mem_batches hinside.buffer hbatch
  have hrange := hinside.range
  have hsmall := hinside.bounded.range_lt
  rw [hexact.readLookup_eq (by omega) (by omega)] at hlookup
  rw [← Option.some.inj hlookup, lineBytes, length_slice]
  omega

/-- The configuration of a thread that was created is a planned one. -/
theorem SearchRun.Inv.mem_plan (h : s.Inv regex index config) {thread : SearchThread}
    (hthread : thread ∈ s.crew.threads) :
    searcherThreads config index.flookup.len = .ok s.plan ∧ thread.1 ∈ s.plan := by
  have hmem : thread.1 ∈ s.plan := h.created.subset (List.mem_map_of_mem hthread)
  refine ⟨h.planned.resolve_left fun hnil => ?_, hmem⟩
  rw [hnil] at hmem
  cases hmem

theorem SearchRun.faithful_start (regex : Pcre2Code) (index : FIndex) (config : FSearcher) :
    SearchRun.start.Faithful regex index config :=
  ⟨SearchRun.inv_start _ _ _, by simp [SearchRun.start]⟩

/-- **A step of the search** keeps the threads faithful. -/
theorem SearchRun.Faithful.step (h : s.Faithful regex index config) (hexact : index.Exact)
    (hbuffer : 1 ≤ config.lineBuffer.toNat) (hfit : BatchesFit index config)
    (hstep : searchStep regex index config a s = some s')
    (hhonest : ∀ t b, a = .searcher t b → b.Honest index) : s'.Faithful regex index config := by
  refine ⟨h.inv.step (searchMove_of_step hstep) hhonest, fun thread hthread => ?_⟩
  cases threadOrigin_of_step hstep hthread with
  | kept hold => exact h.threads thread hold
  | created _ hstart =>
      rw [hstart]
      exact Searcher.faithful_start _ _
  | @moved t b w shared ha hold hmoved =>
      have hmem := List.mem_of_getElem? hold
      obtain ⟨hplan, hconfig⟩ := h.inv.mem_plan hmem
      have hinside := inside_of_mem_plan hexact hbuffer hplan hconfig
      have hshort := shortLines_of_batchesFit hexact hbuffer hfit hplan hconfig
      exact (h.threads _ hmem).step (h.inv.crew.threads _ hmem).2.2 hinside.bounded
        hinside.buffer hshort (searcherMove_of_step hmoved) (hhonest t b ha)

theorem toNat_numberedLine (bytes : List UInt8) {k : ℕ} (hk : k + 1 < 2 ^ 64) :
    (numberedLine bytes k).1.toNat = k + 1 :=
  UInt64.toNat_ofNat_of_lt' (by simp only [UInt64.size]; omega)

/-- A result of a thread is one of its lines. -/
theorem SearchRun.Faithful.exists_key (h : s.Faithful regex index config)
    (hexact : index.Exact) (hnul : ∀ byte ∈ index.target.bytes, byte ≠ 0)
    (hbuffer : 1 ≤ config.lineBuffer.toNat) {thread : SearchThread}
    (hthread : thread ∈ s.crew.threads) {result : FSearchResult}
    (hresult : result ∈ thread.2.sent) :
    Accepts regex result.str ∧ ∃ k ∈ thread.1.keys index.target.bytes,
      result.line = numberedLine index.target.bytes k ∧ result.lineNumber.toNat = k + 1 := by
  obtain ⟨hplan, hconfig⟩ := h.inv.mem_plan hthread
  have hinside := inside_of_mem_plan hexact hbuffer hplan hconfig
  obtain ⟨hsub, haccepts⟩ := (h.threads thread hthread).sent_sublist
    (h.inv.crew.threads thread hthread).2.2 hinside hexact hnul
  obtain ⟨k, hk, heq⟩ := List.mem_map.mp (hsub.subset (List.mem_map_of_mem hresult))
  have hsmall := index.flookup.len.toNat_lt
  rw [hexact.len_eq] at hsmall
  have hlt := (hinside.of_mem_keys hk).2.2.1
  refine ⟨haccepts result hresult, k, hk, heq.symm, ?_⟩
  rw [← toNat_numberedLine index.target.bytes (show k + 1 < 2 ^ 64 by omega), heq]
  rfl

/-- A thread delivers no line twice. -/
theorem SearchRun.Faithful.nodup_sent (h : s.Faithful regex index config)
    (hexact : index.Exact) (hnul : ∀ byte ∈ index.target.bytes, byte ≠ 0)
    (hbuffer : 1 ≤ config.lineBuffer.toNat) {thread : SearchThread}
    (hthread : thread ∈ s.crew.threads) :
    (thread.2.sent.map FSearchResult.lineNumber).Nodup := by
  obtain ⟨hplan, hconfig⟩ := h.inv.mem_plan hthread
  have hinside := inside_of_mem_plan hexact hbuffer hplan hconfig
  obtain ⟨hsub, -⟩ := (h.threads thread hthread).sent_sublist
    (h.inv.crew.threads thread hthread).2.2 hinside hexact hnul
  have hsmall := index.flookup.len.toNat_lt
  rw [hexact.len_eq] at hsmall
  have hnumbers : (((thread.1.keys index.target.bytes).map
      (numberedLine index.target.bytes)).map Prod.fst).Nodup := by
    rw [List.map_map]
    refine List.Nodup.map_on ?_ ((hinside.pairwise_keys _).imp fun hlt => hlt.ne)
    intro j hj k hk heq
    have hj := (hinside.of_mem_keys hj).2.2.1
    have hk := (hinside.of_mem_keys hk).2.2.1
    have hnat := congrArg UInt64.toNat heq
    simp only [Function.comp] at hnat
    rw [toNat_numberedLine _ (by omega), toNat_numberedLine _ (by omega)] at hnat
    omega
  have hline := (hsub.map Prod.fst).nodup hnumbers
  rwa [List.map_map] at hline

/-- The threads deliver different lines. -/
theorem SearchRun.Faithful.nodup_delivered (h : s.Faithful regex index config)
    (hexact : index.Exact) (hnul : ∀ byte ∈ index.target.bytes, byte ≠ 0)
    (hbuffer : 1 ≤ config.lineBuffer.toNat) :
    (s.crew.shared.delivered.map FSearchResult.lineNumber).Nodup := by
  have hperm := h.inv.crew.delivered.map FSearchResult.lineNumber
  rw [hperm.nodup_iff, List.map_flatMap, List.nodup_flatMap]
  refine ⟨fun thread hthread => h.nodup_sent hexact hnul hbuffer hthread, ?_⟩
  have hranges : s.crew.threads.Pairwise fun x y =>
      x.1.start.toNat + x.1.count.toNat ≤ y.1.start.toNat := by
    rcases h.inv.planned with hnil | hplan
    · have hcreated := h.inv.created
      rw [hnil, List.prefix_nil, List.map_eq_nil_iff] at hcreated
      rw [hcreated]
      exact List.Pairwise.nil
    · exact List.pairwise_map.mp
        ((pairwise_searcherThreads hplan).sublist h.inv.created.sublist)
  refine hranges.imp_of_mem fun {x y} hx hy hle => ?_
  intro number hnumber hother
  obtain ⟨first, hfirst, rfl⟩ := List.mem_map.mp hnumber
  obtain ⟨second, hsecond, heq⟩ := List.mem_map.mp hother
  obtain ⟨-, j, hj, -, hjNumber⟩ := h.exists_key hexact hnul hbuffer hx hfirst
  obtain ⟨-, k, hk, -, hkNumber⟩ := h.exists_key hexact hnul hbuffer hy hsecond
  obtain ⟨hplan, hxPlan⟩ := h.inv.mem_plan hx
  obtain ⟨-, hyPlan⟩ := h.inv.mem_plan hy
  have hj := (inside_of_mem_plan hexact hbuffer hplan hxPlan).of_mem_keys hj
  have hk := (inside_of_mem_plan hexact hbuffer hplan hyPlan).of_mem_keys hk
  rw [heq] at hkNumber
  omega

end

/-- **Search soundness.** Whatever the order of the steps and whatever fails, a result is a
line of the file that matches, under its number, and no line is delivered twice. -/
theorem delivered_sound (regex : Pcre2Code) (index : FIndex) (config : FSearcher)
    (hexact : index.Exact) (hnul : ∀ byte ∈ index.target.bytes, byte ≠ 0)
    (hbuffer : 1 ≤ config.lineBuffer.toNat) (hfit : BatchesFit index config) {s : SearchRun}
    (hreach : Reaches (searchStep regex index config)
      (fun _ a => ∀ t b, a = .searcher t b → b.Honest index) .start s) :
    (∀ result ∈ s.crew.shared.delivered, ∃ k < newlineCount index.target.bytes,
      result.lineNumber.toNat = k + 1 ∧ result.str = line isNewline index.target.bytes k ∧
        result.str ≠ [] ∧ Accepts regex result.str) ∧
      (s.crew.shared.delivered.map FSearchResult.lineNumber).Nodup := by
  have hs : s.Faithful regex index config :=
    hreach.invariant (SearchRun.faithful_start regex index config)
      fun _ _ _ h hhonest hstep => h.step hexact hbuffer hfit hstep hhonest
  refine ⟨fun result hresult => ?_, hs.nodup_delivered hexact hnul hbuffer⟩
  obtain ⟨thread, hthread, hsent⟩ := List.mem_flatMap.mp (hs.inv.crew.delivered.subset hresult)
  obtain ⟨haccepts, k, hk, hline, hnumber⟩ := hs.exists_key hexact hnul hbuffer hthread hsent
  obtain ⟨hplan, hconfig⟩ := hs.inv.mem_plan hthread
  obtain ⟨-, -, hlt, hne⟩ := (inside_of_mem_plan hexact hbuffer hplan hconfig).of_mem_keys hk
  have hstr : result.str = line isNewline index.target.bytes k := (Prod.mk.inj hline).2
  exact ⟨k, hlt, hnumber, hstr, hstr ▸ hne, haccepts⟩

/-- A search with one thread and one batch. -/
def oneBatch : FSearcher := ⟨1, 1, 2, true⟩

/-- A search with two threads and one line in a batch. -/
def twoSearchers : FSearcher := ⟨2, 2, 1, true⟩

/-- A thread that finds its only line. -/
def lineSteps : List SearcherAction :=
  [.proceed, .proceed, .lookup (generousEnv 64), .line ⟨true, false, true⟩, .proceed,
    .line ⟨true, false, true⟩, .line ⟨true, false, true⟩, .proceed]

/-- The threads take turns, and the second one is always the first to move. -/
def takingTurns : List SearchAction :=
  List.replicate 4 .proceed ++ (lineSteps.flatMap fun a => [.searcher 1 a, .searcher 0 a]) ++
    List.replicate 5 .proceed

/-- Searching `pairFile` with two threads: the second line is delivered first. -/
theorem exists_run_pair : ∃ trace s,
    Run (searchStep anyLine (pairIndex 97) twoSearchers) .start trace s ∧
    (∀ move ∈ trace, ∀ t b, move.2 = .searcher t b → b.Honest (pairIndex 97)) ∧
    s.pc = .returned 0 ∧
    s.crew.shared.delivered = [⟨2, [98], [0], [1], 1⟩, ⟨1, [97], [0], [1], 1⟩] := by
  have hsummary : (runTrace (searchStep anyLine (pairIndex 97) twoSearchers) takingTurns
      .start).map (fun run => (run.2.pc, run.2.crew.shared.delivered, run.1.all fun move =>
        match move.2 with
        | .searcher _ b => decide (b.Honest (pairIndex 97))
        | _ => true)) =
      some (.returned 0, [⟨2, [98], [0], [1], 1⟩, ⟨1, [97], [0], [1], 1⟩], true) := by
    decide +kernel
  obtain ⟨⟨trace, s⟩, hrun, hpair⟩ := Option.map_eq_some_iff.mp hsummary
  obtain ⟨hreturn, hpair⟩ := Prod.mk.inj hpair
  obtain ⟨hdelivered, hhonest⟩ := Prod.mk.inj hpair
  refine ⟨trace, s, run_of_runTrace hrun, fun move hmove t b hb => ?_, hreturn, hdelivered⟩
  have hmove := List.all_eq_true.mp hhonest move hmove
  rw [hb] at hmove
  exact of_decide_eq_true hmove

/-- Both results are lines of `pairFile`, under different numbers. -/
theorem delivered_sound_pair : ∃ s : SearchRun,
    Reaches (searchStep anyLine (pairIndex 97) twoSearchers)
      (fun _ a => ∀ t b, a = .searcher t b → b.Honest (pairIndex 97)) .start s ∧
    s.crew.shared.delivered = [⟨2, [98], [0], [1], 1⟩, ⟨1, [97], [0], [1], 1⟩] ∧
    (∀ result ∈ s.crew.shared.delivered, ∃ k < newlineCount (pairFile 97).bytes,
      result.lineNumber.toNat = k + 1 ∧ result.str = line isNewline (pairFile 97).bytes k ∧
        result.str ≠ [] ∧ Accepts anyLine result.str) ∧
    (s.crew.shared.delivered.map FSearchResult.lineNumber).Nodup := by
  obtain ⟨trace, s, hrun, hhonest, -, hdelivered⟩ := exists_run_pair
  have hreach : Reaches (searchStep anyLine (pairIndex 97) twoSearchers)
      (fun _ a => ∀ t b, a = .searcher t b → b.Honest (pairIndex 97)) .start s :=
    hrun.reaches_of_forall hhonest
  have hexact : (pairIndex 97).Exact := ⟨by decide, by decide⟩
  have hnul : ∀ byte ∈ (pairIndex 97).target.bytes, byte ≠ 0 := by
    simp [pairIndex, pairFile, newline]
  exact ⟨s, hreach, hdelivered, delivered_sound anyLine (pairIndex 97) twoSearchers hexact hnul
    (by decide) (batchesFit_of_length_lt hexact (by decide) (by decide)) hreach⟩

end Flashlight.Search
