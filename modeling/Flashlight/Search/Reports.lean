/-
# The progress that a search reports

While `f_index_search` watches a thread it goes through rounds. A round samples whether the watched
thread is close enough to its end, adds up the progress of all threads, one read after the other,
and calls `on_progress`. The threads go on between these reads, and each operation of the sum is
rounded.

The machine below refines the one for the search: the main thread takes the reads of a round one by
one, and what `on_progress` gets is recorded. A round reads each thread later than the round before,
so no report is smaller than an earlier one.
-/

import Flashlight.Math.RoundedSums
import Flashlight.Search.Complete
import Flashlight.Search.Progress

namespace Flashlight.Search

open Flashlight.Math

/-- A round of the join loop, before its report. -/
structure WatchRound where
  /-- The watched thread was close enough to its end when the round began. -/
  next : Bool
  /-- The thread that is read next. -/
  p : ℕ
  /-- The sum over the threads that were read. -/
  progress : ℚ
  deriving DecidableEq, Repr

/-- The search with the variables that belong to its reports. -/
structure WatchedRun where
  /-- The state of the search. -/
  run : SearchRun
  /-- The round that is in progress. -/
  round : Option WatchRound
  /-- The values that `on_progress` got. -/
  reports : List ℚ

/-- Before the call. -/
def WatchedRun.start : WatchedRun where
  run := .start
  round := none
  reports := []

/-- The end of a round: a report, and the watched thread is joined if it was close enough to its end
when the round began. -/
def WatchedRun.called (s : WatchedRun) (i : ℕ) (round : WatchRound) : WatchedRun where
  run := if round.next then { s.run with pc := .join i } else s.run
  round := none
  reports := s.reports ++ [round.progress]

/-- One step of the main thread. -/
def watchedMain (index : FIndex) (config : FSearcher) (s : WatchedRun) : Option WatchedRun :=
  match s.run.pc, s.round with
  | .watch i, some round =>
      match s.run.crew.threads[round.p]? with
      | some thread => some { s with
          round := some { round with
            p := round.p + 1
            progress := roundTo 53 (round.progress +
              roundTo 53 (thread.2.progress / s.run.crew.threads.length)) } }
      | none => some (s.called i round)
  | .watch i, none =>
      match s.run.crew.threads[i]? with
      | some thread => some { s with round := some ⟨joinableProgress ≤ thread.2.progress, 0, 0⟩ }
      | none => (searchMainStep index config s.run).map fun run => { s with run := run }
  | _, _ => (searchMainStep index config s.run).map fun run => { s with run := run }

/-- One step of `f_index_search` and its threads, with `on_progress` set. -/
def watchedStep (regex : Pcre2Code) (index : FIndex) (config : FSearcher) (a : SearchAction)
    (s : WatchedRun) : Option WatchedRun :=
  match a with
  | .proceed => watchedMain index config s
  | a => (searchStep regex index config a s.run).map fun run => { s with run := run }

/-! ## What a step can do -/

/-- The main thread is at a place where the step of the search is its own. -/
def WatchedRun.Outside (s : WatchedRun) : Prop :=
  ∀ i, s.run.pc = .watch i → s.round = none ∧ s.run.crew.threads[i]? = none

/-- The steps, one constructor for each. -/
inductive WatchedMove (regex : Pcre2Code) (index : FIndex) (config : FSearcher) (s : WatchedRun) :
    SearchAction → WatchedRun → Prop
  | sampled {i : ℕ} {thread : SearchThread} (hpc : s.run.pc = .watch i) (hround : s.round = none)
      (hthread : s.run.crew.threads[i]? = some thread) :
      WatchedMove regex index config s .proceed
        { s with round := some ⟨joinableProgress ≤ thread.2.progress, 0, 0⟩ }
  | read {i : ℕ} {round : WatchRound} {thread : SearchThread} (hpc : s.run.pc = .watch i)
      (hround : s.round = some round) (hthread : s.run.crew.threads[round.p]? = some thread) :
      WatchedMove regex index config s .proceed { s with
        round := some { round with
          p := round.p + 1
          progress := roundTo 53 (round.progress +
            roundTo 53 (thread.2.progress / s.run.crew.threads.length)) } }
  | called {i : ℕ} {round : WatchRound} (hpc : s.run.pc = .watch i)
      (hround : s.round = some round) (hall : s.run.crew.threads[round.p]? = none) :
      WatchedMove regex index config s .proceed (s.called i round)
  | main {run : SearchRun} (houtside : s.Outside)
      (hstep : searchStep regex index config .proceed s.run = some run) :
      WatchedMove regex index config s .proceed { s with run := run }
  | other {a : SearchAction} {run : SearchRun} (ha : a ≠ .proceed)
      (hstep : searchStep regex index config a s.run = some run) :
      WatchedMove regex index config s a { s with run := run }

section

variable {regex : Pcre2Code} {index : FIndex} {config : FSearcher} {s s' : WatchedRun}
  {a : SearchAction}

/-- Every step is one of these. -/
theorem watchedMove_of_step (hstep : watchedStep regex index config a s = some s') :
    WatchedMove regex index config s a s' := by
  cases a with
  | proceed =>
      simp only [watchedStep, watchedMain] at hstep
      split at hstep
      · next i round hpc hround =>
          split at hstep
          · next thread hthread =>
              obtain rfl := Option.some.inj hstep
              exact .read hpc hround hthread
          · next hall =>
              obtain rfl := Option.some.inj hstep
              exact .called hpc hround hall
      · next i hpc hround =>
          split at hstep
          · next thread hthread =>
              obtain rfl := Option.some.inj hstep
              exact .sampled hpc hround hthread
          · next hall =>
              obtain ⟨run, hrun, rfl⟩ := Option.map_eq_some_iff.mp hstep
              refine .main (fun i' hpc' => ⟨hround, ?_⟩) hrun
              cases hpc.symm.trans hpc'
              exact hall
      · next hsome hnone =>
          obtain ⟨run, hrun, rfl⟩ := Option.map_eq_some_iff.mp hstep
          refine .main (fun i hpc => ?_) hrun
          cases hround : s.round with
          | none => exact absurd hround (hnone i hpc)
          | some round => exact absurd hround (hsome i round hpc)
  | fault =>
      obtain ⟨run, hrun, rfl⟩ := Option.map_eq_some_iff.mp hstep
      exact .other (by simp) hrun
  | invalidRegex =>
      obtain ⟨run, hrun, rfl⟩ := Option.map_eq_some_iff.mp hstep
      exact .other (by simp) hrun
  | searcher t b =>
      obtain ⟨run, hrun, rfl⟩ := Option.map_eq_some_iff.mp hstep
      exact .other (by simp) hrun

end

/-! ## The progress of a thread grows -/

section

variable {regex : Pcre2Code} {index : FIndex} {config : FSearcherThread}
  {shared shared' : SearchShared} {w w' : Searcher} {a : SearcherAction} {i : UInt64}

/-- What a thread publishes behind a batch is no less than what it has published before. -/
theorem Searcher.InBatch.progress_le (h : w.InBatch config i) (hbounded : config.Bounded)
    (hcount : config.count.toNat < 2 ^ 32) (hi : i < config.count + config.start) :
    w.progress ≤ (w.nextBatch config i).progress ∧ (w.nextBatch config i).progress ≤ 1 := by
  have hi' := hbounded.lt_end_iff.mp hi
  have hrange := hbounded.range_lt
  have hlow : config.start.toNat ≤ i.toNat := by
    rcases h.start_le with rfl | hle
    · exact le_rfl
    · omega
  have hsub : (i - config.start).toNat = i.toNat - config.start.toNat :=
    UInt64.toNat_sub_of_le _ _ (UInt64.le_iff_toNat_le.mpr hlow)
  have hcountQ : (0 : ℚ) < config.count.toNat := by exact_mod_cast (by omega : 0 < _)
  have hnext : (w.nextBatch config i).progress =
      roundTo 53 ((i - config.start).toNat / config.count.toNat) := by
    rw [Searcher.nextBatch, toDouble_eq (by omega), toDouble_eq (by omega)]
  rw [hnext]
  constructor
  · rw [h.progress_eq, FSearcherThread.progressAt]
    split
    · exact roundTo_nonneg (by norm_num) (by positivity)
    · next hstart =>
        have hbatch := h.start_le.resolve_left hstart
        have hbuffer : (i - config.buffer).toNat = i.toNat - config.buffer.toNat :=
          UInt64.toNat_sub_of_le _ _ (UInt64.le_iff_toNat_le.mpr (by omega))
        have hbefore : (i - config.buffer - config.start).toNat =
            i.toNat - config.buffer.toNat - config.start.toNat := by
          rw [UInt64.toNat_sub_of_le _ _ (UInt64.le_iff_toNat_le.mpr (by omega)), hbuffer]
        rw [toDouble_eq (by omega), toDouble_eq (by omega)]
        refine roundTo_mono (by norm_num) (by positivity) ?_
        gcongr
        omega
  · have hone : roundTo 53 ((1 : ℕ) : ℚ) = (1 : ℕ) := roundTo_natCast (by norm_num)
    rw [Nat.cast_one] at hone
    rw [← hone]
    refine roundTo_mono (by norm_num) (by positivity) ?_
    rw [div_le_one hcountQ]
    exact_mod_cast (by omega : (i - config.start).toNat ≤ config.count.toNat)

/-- A line does not change the progress, unless the thread ends with it. -/
theorem Searcher.progress_matched (w : Searcher) (regex : Pcre2Code) (config : FSearcherThread)
    (env : LineEnv) (line : List UInt8) (cursor : Cursor) :
    (w.matched regex config env line cursor).progress = w.progress ∨
      (w.matched regex config env line cursor).progress = 1 := by
  rw [Searcher.matched]
  simp only
  split
  · exact Or.inr rfl
  · split
    · exact Or.inl rfl
    · split
      · exact Or.inl rfl
      · split
        · exact Or.inl rfl
        · exact Or.inl rfl

/-- **The progress of a thread** never decreases and never exceeds `1`. -/
theorem SearcherMove.progress_le (hmove : SearcherMove regex index config shared w a shared' w')
    (hreported : w.Reported config) (hbounded : config.Bounded)
    (hcount : config.count.toNat < 2 ^ 32) (hone : w.progress ≤ 1) :
    w.progress ≤ w'.progress ∧ w'.progress ≤ 1 := by
  cases hmove with
  | entered _ => exact ⟨le_rfl, hone⟩
  | fault _ => exact ⟨le_rfl, hone⟩
  | metLimit _ _ => exact ⟨hone, le_rfl⟩
  | batchesDone _ _ => exact ⟨hone, le_rfl⟩
  | batch _ _ _ => exact ⟨le_rfl, hone⟩
  | lookup _ _ => exact ⟨le_rfl, hone⟩
  | lookupFailed _ _ hended =>
      rcases hended with rfl | rfl
      · exact ⟨hone, le_rfl⟩
      · exact ⟨le_rfl, hone⟩
  | linesDone hpc _ =>
      simp only [Searcher.Reported, hpc] at hreported
      exact hreported.2.progress_le hbounded hcount hreported.1
  | cutShort hpc _ _ hended =>
      simp only [Searcher.Reported, hpc] at hreported
      rcases hended with rfl | ⟨-, rfl⟩
      · exact hreported.2.progress_le hbounded hcount hreported.1
      · exact ⟨le_rfl, hone⟩
  | emptyLine _ _ _ _ => exact ⟨le_rfl, hone⟩
  | @matched cursor env str token _ _ _ _ =>
      rcases w.progress_matched regex config env token (cursor.advance (afterLine str)) with
        heq | heq
      · exact ⟨heq.ge, heq.le.trans hone⟩
      · exact ⟨hone.trans heq.ge, heq.le⟩
  | passed _ _ => exact ⟨le_rfl, hone⟩
  | delivered _ _ => exact ⟨le_rfl, hone⟩

end

/-- The progress that thread `j` has published. -/
def SearchRun.progressOf (s : SearchRun) (j : ℕ) : ℚ :=
  match s.crew.threads[j]? with
  | none => 0
  | some thread => thread.2.progress

/-- No thread has published anything outside of the unit interval. -/
def SearchRun.InUnit (s : SearchRun) : Prop :=
  ∀ thread ∈ s.crew.threads, 0 ≤ thread.2.progress ∧ thread.2.progress ≤ 1

section

variable {regex : Pcre2Code} {index : FIndex} {config : FSearcher} {s s' : SearchRun}
  {a : SearchAction}

/-- A step of the search lowers no progress. -/
theorem progressOf_le_of_step (hreported : s.Reported) (hunit : s.InUnit)
    (hstep : searchStep regex index config a s = some s') :
    s'.InUnit ∧ ∀ j, s.progressOf j ≤ s'.progressOf j := by
  constructor
  · intro thread hmem
    cases threadOrigin_of_step hstep hmem with
    | kept hold => exact hunit thread hold
    | created _ hstart =>
        rw [hstart]
        exact ⟨le_rfl, zero_le_one⟩
    | moved _ hold hmoved =>
        have hmem := List.mem_of_getElem? hold
        obtain ⟨hbounded, hcount, hw⟩ := hreported.created _ hmem
        obtain ⟨hnonneg, hone⟩ := hunit _ hmem
        have hmove := searcherMove_of_step hmoved
        obtain ⟨hle, hle'⟩ := hmove.progress_le hw hbounded hcount hone
        exact ⟨hnonneg.trans hle, hle'⟩
  · intro j
    unfold SearchRun.progressOf
    cases (searchMove_of_step hstep).threadStep j with
    | @moved b config' w w' shared _ hthread hmove hthread' =>
        have hmem := List.mem_of_getElem? hthread
        obtain ⟨hbounded, hcount, hw⟩ := hreported.created _ hmem
        simp only [hthread, hthread']
        exact (hmove.progress_le hw hbounded hcount (hunit _ hmem).2).1
    | created _ hthread hthread' =>
        simp only [hthread, hthread']
        exact le_rfl
    | kept _ hkept => rw [hkept]

end

/-! ## What every step keeps -/

/-- The last round has read `last`, and the first `done` threads were close enough to their end
then. -/
structure WatchedRun.Watching (s : WatchedRun) (done : ℕ) (last : ℕ → ℚ) : Prop where
  pos : 0 < s.run.crew.threads.length
  nonneg : ∀ j < s.run.crew.threads.length, 0 ≤ last j
  le : ∀ j < s.run.crew.threads.length, last j ≤ s.run.progressOf j
  below : ∀ x ∈ s.reports, x ≤
    roundedMean 53 s.run.crew.threads.length last s.run.crew.threads.length
  done_le : done ≤ s.run.crew.threads.length
  latest : 0 < done → s.reports.getLast? =
    some (roundedMean 53 s.run.crew.threads.length last s.run.crew.threads.length)
  near : ∀ j < done, joinableProgress ≤ last j

/-- The round that watches thread `i` has read `now`. -/
structure WatchedRun.Reading (s : WatchedRun) (i : ℕ) (last : ℕ → ℚ) (round : WatchRound)
    (now : ℕ → ℚ) : Prop where
  le_length : round.p ≤ s.run.crew.threads.length
  progress : round.progress = roundedMean 53 s.run.crew.threads.length now round.p
  last_le : ∀ j < round.p, last j ≤ now j
  le : ∀ j < round.p, now j ≤ s.run.progressOf j
  next : round.next = true → i < s.run.crew.threads.length ∧
    joinableProgress ≤ s.run.progressOf i ∧ (i < round.p → joinableProgress ≤ now i)

/-- What the place in the loop says about the reports. -/
def WatchedRun.Stage (s : WatchedRun) : Prop :=
  match s.run.pc with
  | .enter => s.round = none ∧ s.reports = [] ∧ s.run.crew.threads = []
  | .create i => s.round = none ∧ s.reports = [] ∧ s.run.plan ≠ [] ∧
      s.run.crew.threads.length = i
  | .watch i => ∃ last, s.Watching i last ∧
      ∀ round, s.round = some round → ∃ now, s.Reading i last round now
  | .join i => s.round = none ∧ ∃ last, s.Watching (i + 1) last
  | .returned rc => rc = 0 → ∃ last, s.Watching s.run.crew.threads.length last
  | .undefined => True

/-- The invariant of the reports. -/
structure WatchedRun.Inv (regex : Pcre2Code) (index : FIndex) (config : FSearcher)
    (s : WatchedRun) : Prop where
  reaches : Reaches (searchStep regex index config) (fun _ _ => True) .start s.run
  unit : s.run.InUnit
  sorted : s.reports.Pairwise (· ≤ ·)
  bounded : ∀ x ∈ s.reports, 0 ≤ x ∧
    x ≤ (1 + 1 / 2 ^ 53) ^ (s.run.crew.threads.length + 1)
  stage : s.Stage

section

variable {regex : Pcre2Code} {index : FIndex} {config : FSearcher} {s s' : WatchedRun}
  {a : SearchAction} {i done : ℕ} {last now : ℕ → ℚ} {round : WatchRound} {run : SearchRun}

/-- Threads that go on do not change what was read. -/
theorem WatchedRun.Watching.grow (h : s.Watching done last)
    (hlength : run.crew.threads.length = s.run.crew.threads.length)
    (hgrow : ∀ j, s.run.progressOf j ≤ run.progressOf j) :
    ({ s with run := run } : WatchedRun).Watching done last where
  pos := hlength ▸ h.pos
  nonneg := hlength ▸ h.nonneg
  le j hj := (h.le j (hlength ▸ hj)).trans (hgrow j)
  below := by
    simp only [hlength]
    exact h.below
  done_le := hlength ▸ h.done_le
  latest := by
    simp only [hlength]
    exact h.latest
  near := h.near

theorem WatchedRun.Reading.grow (h : s.Reading i last round now)
    (hlength : run.crew.threads.length = s.run.crew.threads.length)
    (hgrow : ∀ j, s.run.progressOf j ≤ run.progressOf j) :
    ({ s with run := run } : WatchedRun).Reading i last round now where
  le_length := hlength ▸ h.le_length
  progress := by
    simp only [hlength]
    exact h.progress
  last_le := h.last_le
  le j hj := (h.le j hj).trans (hgrow j)
  next hnext := by
    obtain ⟨hi, hprogress, hread⟩ := h.next hnext
    exact ⟨hlength ▸ hi, hprogress.trans (hgrow i), hread⟩

/-- A round begins with a sample of the watched thread. -/
theorem WatchedRun.reading_sampled {thread : SearchThread}
    (hthread : s.run.crew.threads[i]? = some thread) :
    ({ s with round := some ⟨joinableProgress ≤ thread.2.progress, 0, 0⟩ } : WatchedRun).Reading i
      last ⟨joinableProgress ≤ thread.2.progress, 0, 0⟩ fun _ => 0 where
  le_length := Nat.zero_le _
  progress := rfl
  last_le j hj := absurd hj (Nat.not_lt_zero j)
  le j hj := absurd hj (Nat.not_lt_zero j)
  next hnext := by
    refine ⟨(List.getElem?_eq_some_iff.mp hthread).1, ?_, fun hi => absurd hi (Nat.not_lt_zero i)⟩
    simp only [SearchRun.progressOf, hthread]
    exact of_decide_eq_true hnext

/-- A round reads the next thread. -/
theorem WatchedRun.Reading.read (h : s.Reading i last round now) (hwatching : s.Watching done last)
    {thread : SearchThread} (hthread : s.run.crew.threads[round.p]? = some thread) :
    ∃ now', ({ s with round := some { round with
        p := round.p + 1
        progress := roundTo 53 (round.progress +
          roundTo 53 (thread.2.progress / s.run.crew.threads.length)) } } : WatchedRun).Reading i
      last { round with
        p := round.p + 1
        progress := roundTo 53 (round.progress +
          roundTo 53 (thread.2.progress / s.run.crew.threads.length)) } now' := by
  have hlt : round.p < s.run.crew.threads.length := (List.getElem?_eq_some_iff.mp hthread).1
  have hprogress : s.run.progressOf round.p = thread.2.progress := by
    simp only [SearchRun.progressOf, hthread]
  have hold : ∀ j < round.p,
      Function.update now round.p thread.2.progress j = now j := fun j hj =>
    Function.update_of_ne (Nat.ne_of_lt hj) _ _
  refine ⟨Function.update now round.p thread.2.progress, hlt, ?_, fun j hj => ?_, fun j hj => ?_,
    fun hnext => ?_⟩
  · simp only
    rw [h.progress, roundedMean, Function.update_self, roundedMean_congr fun j hj => hold j hj]
  · rcases Nat.lt_succ_iff_lt_or_eq.mp hj with hj | rfl
    · rw [hold j hj]
      exact h.last_le j hj
    · rw [Function.update_self, ← hprogress]
      exact hwatching.le _ hlt
  · rcases Nat.lt_succ_iff_lt_or_eq.mp hj with hj | rfl
    · rw [hold j hj]
      exact h.le j hj
    · rw [Function.update_self]
      exact hprogress.ge
  · obtain ⟨hi, hnear, hread⟩ := h.next hnext
    refine ⟨hi, hnear, fun hj => ?_⟩
    rcases Nat.lt_succ_iff_lt_or_eq.mp hj with hj | rfl
    · rw [hold i hj]
      exact hread hj
    · rw [Function.update_self, ← hprogress]
      exact hnear

/-- **The report of a round** is no less than the reports before it. -/
theorem WatchedRun.Reading.called (h : s.Reading i last round now)
    (hwatching : s.Watching i last) (hall : s.run.crew.threads[round.p]? = none)
    (hunit : s.run.InUnit) :
    (∀ x ∈ s.reports, x ≤ round.progress) ∧ 0 ≤ round.progress ∧
      round.progress ≤ (1 + 1 / 2 ^ 53) ^ (s.run.crew.threads.length + 1) ∧
      (s.called i round).Watching (if round.next then i + 1 else i) now := by
  have hp : round.p = s.run.crew.threads.length :=
    Nat.le_antisymm h.le_length (List.getElem?_eq_none_iff.mp hall)
  have hprogress := h.progress
  have hlast := h.last_le
  have hle := h.le
  rw [hp] at hprogress hlast hle
  have hnonneg : ∀ j < s.run.crew.threads.length, 0 ≤ now j := fun j hj =>
    (hwatching.nonneg j hj).trans (hlast j hj)
  have hone : ∀ j < s.run.crew.threads.length, now j ≤ 1 := by
    intro j hj
    refine (hle j hj).trans ?_
    simp only [SearchRun.progressOf, List.getElem?_eq_getElem hj]
    exact (hunit _ (List.getElem_mem hj)).2
  have hmono := roundedMean_mono (p := 53) (n := s.run.crew.threads.length) (by norm_num)
    hwatching.nonneg hlast
  have hbelow : ∀ x ∈ s.reports, x ≤ round.progress := fun x hx =>
    (hwatching.below x hx).trans (hmono.trans hprogress.ge)
  have hdone : (if round.next then i + 1 else i) ≤ s.run.crew.threads.length ∧
      ∀ j < (if round.next then i + 1 else i), joinableProgress ≤ now j := by
    have hold : ∀ j < i, joinableProgress ≤ now j := fun j hj =>
      (hwatching.near j hj).trans (hlast j (hj.trans_le hwatching.done_le))
    split
    · next hnext =>
        obtain ⟨hi, -, hread⟩ := h.next hnext
        refine ⟨hi, fun j hj => ?_⟩
        rcases Nat.lt_succ_iff_lt_or_eq.mp hj with hj | rfl
        · exact hold j hj
        · exact hread (hp ▸ hi)
    · exact ⟨hwatching.done_le, hold⟩
  have hreports : ({ s with round := none, reports := s.reports ++ [round.progress] } :
      WatchedRun).Watching (if round.next then i + 1 else i) now :=
    { pos := hwatching.pos
      nonneg := hnonneg
      le := hle
      below := by
        intro x hx
        rcases List.mem_append.mp hx with hx | hx
        · exact (hbelow x hx).trans hprogress.le
        · rw [List.mem_singleton.mp hx]
          exact hprogress.le
      done_le := hdone.1
      latest := fun _ => by simp [hprogress]
      near := hdone.2 }
  refine ⟨hbelow, hprogress ▸ roundedMean_nonneg (by norm_num) hnonneg, ?_, ?_⟩
  · rw [hprogress]
    refine (roundedMean_le (by norm_num) hnonneg hone zero_le_one).trans ?_
    rw [mul_one]
    exact mul_le_of_le_one_left (by positivity) (div_self_le_one _)
  · rw [WatchedRun.called]
    split
    · next hnext =>
        rw [if_pos hnext] at hreports
        exact hreports.grow rfl fun _ => le_rfl
    · next hnext =>
        rw [if_neg hnext] at hreports
        exact hreports

/-- A plan has a thread. -/
theorem ne_nil_of_searcherThreads {len : UInt32} {plan : List FSearcherThread}
    (hplan : searcherThreads config len = .ok plan) : plan ≠ [] := by
  unfold searcherThreads at hplan
  simp only at hplan
  generalize (if config.threads > len.toInt32 then len.toInt32 else config.threads) = threads
    at hplan
  split at hplan
  · cases hplan
  · next hneg =>
      split at hplan
      · cases hplan
      · next hzero =>
          rw [Int32.lt_iff_toInt_lt, Int32.toInt_zero] at hneg
          rw [← Int32.toInt_inj, Int32.toInt_zero] at hzero
          obtain ⟨k, hk⟩ : ∃ k, threads.toInt.toNat = k + 1 := ⟨threads.toInt.toNat - 1, by omega⟩
          rw [hk, rangesLoop] at hplan
          rw [← Except.ok.inj hplan]
          exact List.cons_ne_nil _ _

/-- The loop begins with no report. -/
theorem WatchedRun.watching_zero (hreports : s.reports = []) (hunit : s.run.InUnit)
    (hpos : 0 < s.run.crew.threads.length) : s.Watching 0 fun _ => 0 where
  pos := hpos
  nonneg _ _ := le_rfl
  le j hj := by
    simp only [SearchRun.progressOf, List.getElem?_eq_getElem hj]
    exact (hunit _ (List.getElem_mem hj)).1
  below := by simp [hreports]
  done_le := Nat.zero_le _
  latest h := absurd h (lt_irrefl 0)
  near j hj := absurd hj (Nat.not_lt_zero j)

/-- The thread that a round has found close enough to its end can still be joined behind it. -/
theorem WatchedRun.Reading.reaches (h : s.Reading i last round now) (hpc : s.run.pc = .watch i)
    (hreach : Reaches (searchStep regex index config) (fun _ _ => True) .start s.run) :
    Reaches (searchStep regex index config) (fun _ _ => True) .start (s.called i round).run := by
  rw [WatchedRun.called]
  split
  · next hnext =>
      obtain ⟨hi, hprogress, -⟩ := h.next hnext
      simp only [SearchRun.progressOf, List.getElem?_eq_getElem hi] at hprogress
      refine hreach.trans (.single (a := .proceed) trivial ?_)
      simp only [searchStep, searchMainStep, hpc, List.getElem?_eq_getElem hi, if_pos hprogress]
  · exact hreach

/-- A round reports. -/
theorem WatchedRun.Inv.called (h : s.Inv regex index config) (hpc : s.run.pc = .watch i)
    (hround : s.round = some round) (hall : s.run.crew.threads[round.p]? = none) :
    (s.called i round).Inv regex index config := by
  have hstage := h.stage
  simp only [WatchedRun.Stage, hpc] at hstage
  obtain ⟨last, hwatching, hreading⟩ := hstage
  obtain ⟨now, hnow⟩ := hreading round hround
  obtain ⟨hbelow, hnonneg, hle, hnext⟩ := hnow.called hwatching hall h.unit
  have hcrew : (s.called i round).run.crew = s.run.crew := by
    rw [WatchedRun.called]
    split <;> rfl
  refine ⟨hnow.reaches hpc h.reaches, ?_, ?_, fun x hx => ?_, ?_⟩
  · rw [SearchRun.InUnit, hcrew]
    exact h.unit
  · refine List.pairwise_append.mpr ⟨h.sorted, List.pairwise_singleton _ _, fun x hx y hy => ?_⟩
    rw [List.mem_singleton.mp hy]
    exact hbelow x hx
  · rw [hcrew]
    rcases List.mem_append.mp hx with hx | hx
    · exact h.bounded x hx
    · rw [List.mem_singleton.mp hx]
      exact ⟨hnonneg, hle⟩
  · cases hjoin : round.next with
    | true =>
        rw [hjoin] at hnext
        have hpc' : (s.called i round).run.pc = .join i := by rw [WatchedRun.called, if_pos hjoin]
        simp only [WatchedRun.Stage, hpc']
        exact ⟨rfl, now, hnext⟩
    | false =>
        rw [hjoin] at hnext
        have hpc' : (s.called i round).run.pc = .watch i := by
          rw [WatchedRun.called, if_neg (by simp [hjoin]), hpc]
        simp only [WatchedRun.Stage, hpc']
        exact ⟨now, hnext, fun round hround => absurd hround (by simp [WatchedRun.called])⟩

/-- The steps of the search that are no reads. -/
theorem WatchedRun.Stage.move (h : s.Stage) (hunit : s.run.InUnit)
    (houtside : a = .proceed → s.Outside)
    (hmove : SearchMove regex index config s.run a run)
    (hgrow : ∀ j, s.run.progressOf j ≤ run.progressOf j) :
    ({ s with run := run } : WatchedRun).Stage := by
  cases hmove with
  | planned hpc hplan =>
      simp only [WatchedRun.Stage, hpc] at h ⊢
      exact ⟨h.1, h.2.1, ne_nil_of_searcherThreads hplan, by rw [h.2.2, List.length_nil]⟩
  | created hpc _ =>
      simp only [WatchedRun.Stage, hpc] at h
      obtain ⟨hround, hreports, hplan, hlength⟩ := h
      exact ⟨hround, hreports, hplan, by simp [SearchRun.created, hlength]⟩
  | @allCreated i hpc hthread =>
      simp only [WatchedRun.Stage, hpc] at h ⊢
      obtain ⟨hround, hreports, hplan, hlength⟩ := h
      have hpos : 0 < s.run.crew.threads.length := by
        rw [hlength]
        exact (List.length_pos_iff.mpr hplan).trans_le (List.getElem?_eq_none_iff.mp hthread)
      refine ⟨_, WatchedRun.watching_zero hreports hunit hpos, fun round hround' => ?_⟩
      exact absurd (hround.symm.trans hround') (by simp)
  | watched hpc hthread _ =>
      exact absurd ((houtside rfl _ hpc).2.symm.trans hthread) (by simp)
  | joined hpc _ _ =>
      simp only [WatchedRun.Stage, hpc] at h ⊢
      obtain ⟨hround, last, hwatching⟩ := h
      exact ⟨last, hwatching.grow rfl fun _ => le_rfl, fun round hround' =>
        absurd (hround.symm.trans hround') (by simp)⟩
  | @allJoined i hpc hthread =>
      simp only [WatchedRun.Stage, hpc] at h ⊢
      obtain ⟨last, hwatching, -⟩ := h
      obtain rfl : i = s.run.crew.threads.length :=
        Nat.le_antisymm hwatching.done_le (List.getElem?_eq_none_iff.mp hthread)
      exact fun _ => ⟨last, hwatching.grow rfl fun _ => le_rfl⟩
  | failed _ hended =>
      rcases hended with rfl | rfl | rfl
      · exact fun hzero => absurd hzero (by decide)
      · exact fun hzero => absurd hzero (by decide)
      · trivial
  | @searcher t b crew hmove =>
      have hlength : crew.threads.length = s.run.crew.threads.length := by
        simpa using congrArg List.length hmove.frame.1
      unfold WatchedRun.Stage at h ⊢
      simp only
      cases hpc : s.run.pc with
      | enter =>
          simp only [hpc] at h
          exact ⟨h.1, h.2.1, List.length_eq_zero_iff.mp (by rw [hlength, h.2.2, List.length_nil])⟩
      | create i =>
          simp only [hpc] at h
          exact ⟨h.1, h.2.1, h.2.2.1, hlength.trans h.2.2.2⟩
      | watch i =>
          simp only [hpc] at h
          obtain ⟨last, hwatching, hreading⟩ := h
          refine ⟨last, hwatching.grow hlength hgrow, fun round hround => ?_⟩
          obtain ⟨now, hnow⟩ := hreading round hround
          exact ⟨now, hnow.grow hlength hgrow⟩
      | join i =>
          simp only [hpc] at h
          obtain ⟨hround, last, hwatching⟩ := h
          exact ⟨hround, last, hwatching.grow hlength hgrow⟩
      | returned rc =>
          simp only [hpc] at h
          intro hzero
          obtain ⟨last, hwatching⟩ := h hzero
          rw [hlength]
          exact ⟨last, hwatching.grow hlength hgrow⟩
      | undefined => trivial

/-- Before the loop there is no report, and from there on there are no new threads. -/
theorem WatchedRun.Stage.length_eq (h : s.Stage)
    (hmove : SearchMove regex index config s.run a run) :
    s.reports = [] ∨ run.crew.threads.length = s.run.crew.threads.length := by
  cases hmove with
  | created hpc _ =>
      simp only [WatchedRun.Stage, hpc] at h
      exact Or.inl h.2.1
  | searcher hmove => exact Or.inr (by simpa using congrArg List.length hmove.frame.1)
  | _ => exact Or.inr rfl

/-- A step of the search that is no read. -/
theorem WatchedRun.Inv.move (h : s.Inv regex index config) (houtside : a = .proceed → s.Outside)
    (hstep : searchStep regex index config a s.run = some run) :
    ({ s with run := run } : WatchedRun).Inv regex index config := by
  obtain ⟨hunit, hgrow⟩ := progressOf_le_of_step (reported_of_reaches h.reaches) h.unit hstep
  have hmove := searchMove_of_step hstep
  refine ⟨h.reaches.trans (.single trivial hstep), hunit, h.sorted, fun x hx => ?_,
    h.stage.move h.unit houtside hmove hgrow⟩
  rcases h.stage.length_eq hmove with hnone | hlength
  · simp only [hnone, List.not_mem_nil] at hx
  · simp only [hlength]
    exact h.bounded x hx

/-- **A step of the search** keeps the reports in order. -/
theorem WatchedRun.Inv.step (h : s.Inv regex index config)
    (hstep : watchedStep regex index config a s = some s') : s'.Inv regex index config := by
  have hstage := h.stage
  cases watchedMove_of_step hstep with
  | sampled hpc hround hthread =>
      simp only [WatchedRun.Stage, hpc] at hstage
      obtain ⟨last, hwatching, -⟩ := hstage
      refine ⟨h.reaches, h.unit, h.sorted, h.bounded, ?_⟩
      simp only [WatchedRun.Stage, hpc]
      refine ⟨last, ⟨hwatching.pos, hwatching.nonneg, hwatching.le, hwatching.below,
        hwatching.done_le, hwatching.latest, hwatching.near⟩, fun round hround' => ?_⟩
      obtain rfl := Option.some.inj hround'
      exact ⟨_, WatchedRun.reading_sampled hthread⟩
  | read hpc hround hthread =>
      simp only [WatchedRun.Stage, hpc] at hstage
      obtain ⟨last, hwatching, hreading⟩ := hstage
      obtain ⟨now, hnow⟩ := hreading _ hround
      refine ⟨h.reaches, h.unit, h.sorted, h.bounded, ?_⟩
      simp only [WatchedRun.Stage, hpc]
      refine ⟨last, ⟨hwatching.pos, hwatching.nonneg, hwatching.le, hwatching.below,
        hwatching.done_le, hwatching.latest, hwatching.near⟩, fun round hround' => ?_⟩
      obtain rfl := Option.some.inj hround'
      exact hnow.read hwatching hthread
  | called hpc hround hall => exact h.called hpc hround hall
  | main houtside hrun => exact h.move (fun _ => houtside) hrun
  | other ha hrun => exact h.move (fun heq => absurd heq ha) hrun

theorem WatchedRun.inv_start (regex : Pcre2Code) (index : FIndex) (config : FSearcher) :
    WatchedRun.start.Inv regex index config where
  reaches := .refl _
  unit thread hthread := absurd hthread (by simp [WatchedRun.start, SearchRun.start])
  sorted := List.Pairwise.nil
  bounded x hx := absurd hx (by simp [WatchedRun.start])
  stage := ⟨rfl, rfl, rfl⟩

end

/-- **The reports of a search.** Whatever the threads do while a round reads their progress: what
`on_progress` gets never decreases, it lies between `0` and `1` up to the rounding errors of the
sum, and before the search returns `0` it has got at least the progress at which a thread is
joined, up to these errors. -/
theorem search_reports (regex : Pcre2Code) (index : FIndex) (config : FSearcher) {s : WatchedRun}
    (hreach : Reaches (watchedStep regex index config) (fun _ _ => True) .start s) :
    Reaches (searchStep regex index config) (fun _ _ => True) .start s.run ∧
      s.reports.Pairwise (· ≤ ·) ∧
      (∀ x ∈ s.reports, 0 ≤ x ∧ x ≤ (1 + 1 / 2 ^ 53) ^ (s.run.crew.threads.length + 1)) ∧
      (s.run.pc = .returned 0 → ∃ x, s.reports.getLast? = some x ∧
        joinableProgress * (1 - 1 / 2 ^ 53) ^ (s.run.crew.threads.length + 1) ≤ x) := by
  have hinv : s.Inv regex index config :=
    hreach.invariant (WatchedRun.inv_start regex index config) fun _ _ _ h _ hstep => h.step hstep
  refine ⟨hinv.reaches, hinv.sorted, hinv.bounded, fun hreturn => ?_⟩
  have hstage := hinv.stage
  rw [WatchedRun.Stage, hreturn] at hstage
  obtain ⟨last, hwatching⟩ := hstage rfl
  refine ⟨_, hwatching.latest hwatching.pos, ?_⟩
  have hle := le_roundedMean (p := 53) (n := s.run.crew.threads.length) (by norm_num)
    hwatching.near (roundTo_nonneg (by norm_num) (by norm_num))
  rwa [div_self (by exact_mod_cast hwatching.pos.ne'), one_mul] at hle

/-- Two rounds of the search of `lineFile`: one while its thread is busy, and one behind it. -/
theorem search_reports_line : ∃ s,
    Reaches (watchedStep anyLine lineIndex oneBatch) (fun _ _ => True) .start s ∧
      s.run.pc = .returned 0 ∧ s.reports = [0, 1] ∧
      Reaches (searchStep anyLine lineIndex oneBatch) (fun _ _ => True) .start s.run ∧
      s.reports.Pairwise (· ≤ ·) ∧
      (∀ x ∈ s.reports, 0 ≤ x ∧ x ≤ (1 + 1 / 2 ^ 53) ^ (s.run.crew.threads.length + 1)) ∧
      (s.run.pc = .returned 0 → ∃ x, s.reports.getLast? = some x ∧
        joinableProgress * (1 - 1 / 2 ^ 53) ^ (s.run.crew.threads.length + 1) ≤ x) := by
  have hsummary : (runTrace (watchedStep anyLine lineIndex oneBatch)
      (searchUpTo (generousEnv 16) ++ [.proceed, .proceed, .proceed,
        .searcher 0 (.line ⟨true, false, true⟩), .searcher 0 .proceed,
        .searcher 0 (.line ⟨true, false, true⟩), .searcher 0 (.line ⟨true, false, true⟩),
        .searcher 0 .proceed, .proceed, .proceed, .proceed, .proceed, .proceed]) .start).map
      (fun run => (run.2.run.pc, run.2.reports)) = some (.returned 0, [0, 1]) := by
    decide +kernel
  obtain ⟨⟨trace, s⟩, hrun, hpair⟩ := Option.map_eq_some_iff.mp hsummary
  obtain ⟨hreturn, hreports⟩ := Prod.mk.inj hpair
  have hreach := (run_of_runTrace hrun).reaches
  exact ⟨s, hreach, hreturn, hreports, search_reports anyLine lineIndex oneBatch hreach⟩

end Flashlight.Search
