/-
# The reported progress

The join loop reports progress while it watches a thread. A round of it samples whether
the watched thread is done, then adds up the progress of all threads, one read after the
other, and calls `on_progress`. The threads go on publishing between these reads, and the
total of a window is carried over into the next one through the last value that was seen.

The machine below refines the one for the call: the main thread takes the reads of a round
one by one, and the values that `on_progress` gets are recorded. Rationals stand for the
doubles.
-/

import Flashlight.Math.Collecting
import Flashlight.TextIndexer.Progress

namespace Flashlight.TextIndexer

open Flashlight.Math Flashlight.Indexer

/-- A round of the join loop, before its report. -/
structure Round where
  /-- The watched thread was done when the round began. -/
  next : Bool
  /-- The thread that is read next. -/
  p : ℕ
  /-- The sum over the threads that were read. -/
  progress : ℚ
  deriving DecidableEq, Repr

/-- The call with the variables that belong to its reports. -/
structure ReportRun where
  /-- The state of the call. -/
  file : FileRun
  /-- The number of windows. -/
  threadItCount : ℕ
  /-- The round that is in progress. -/
  round : Option Round
  /-- The share of the current window in the last report. -/
  report : ℚ
  /-- The share of the windows that are done. -/
  reportedProgress : ℚ
  /-- The values that `on_progress` got. -/
  reports : List ℚ

/-- Before the call. -/
def ReportRun.start : ReportRun where
  file := .start
  threadItCount := 0
  round := none
  report := 0
  reportedProgress := 0
  reports := []

/-- A step of the main thread outside of the rounds. The number of windows is computed
before the first one, the share of a window starts at zero with its threads and is added to
the total when all of them are joined. -/
def ReportRun.moved (target : TargetFile) (indexer : FIndexer) (s : ReportRun) (file : FileRun) :
    ReportRun :=
  match s.file.pc with
  | .enter => { s with
      file := file
      threadItCount :=
        match TextIndexer.threadItCount (.ofNat target.bytes.length)
            indexer.maxBytesPerIteration with
        | .ok count => count
        | .error _ => 0 }
  | .window (_ + 1) => { s with file := file, report := 0 }
  | .finish _ => { s with file := file, reportedProgress := s.reportedProgress + s.report }
  | _ => { s with file := file }

/-- The end of a round: a report, and the watched thread is joined if it was done when the
round began. -/
def ReportRun.called (s : ReportRun) (itc i : ℕ) (round : Round) : ReportRun :=
  { s with
    file := if round.next then { s.file with pc := .join itc i } else s.file
    round := none
    report := round.progress / s.threadItCount
    reports := s.reports ++ [round.progress / s.threadItCount + s.reportedProgress] }

/-- One step of the main thread. -/
def reportMain (target : TargetFile) (indexer : FIndexer) (s : ReportRun) : Option ReportRun :=
  match s.file.pc, s.round with
  | .watch itc i, some round =>
      match s.file.threads[round.p]? with
      | some thread => some { s with
          round := some { round with
            p := round.p + 1
            progress := round.progress + thread.2.progress / s.file.threads.length } }
      | none => some (s.called itc i round)
  | .watch _ i, none =>
      match s.file.threads[i]? with
      | some thread => some { s with round := some ⟨1 ≤ thread.2.progress, 0, 0⟩ }
      | none => (mainStep target indexer s.file).map (s.moved target indexer)
  | _, _ => (mainStep target indexer s.file).map (s.moved target indexer)

/-- One step of `f_index_text_file` and its threads, with `on_progress` set. -/
def reportStep (target : TargetFile) (indexer : FIndexer) (a : FileAction) (s : ReportRun) :
    Option ReportRun :=
  match a with
  | .proceed => reportMain target indexer s
  | a => (fileStep target indexer a s.file).map fun file => { s with file := file }

/-! ## What a step can do -/

/-- The main thread is at a place where the step of the call is its own. -/
def ReportRun.Outside (s : ReportRun) : Prop :=
  ∀ itc i, s.file.pc = .watch itc i → s.round = none ∧ s.file.threads[i]? = none

/-- The steps, one constructor for each. -/
inductive ReportMove (target : TargetFile) (indexer : FIndexer) (s : ReportRun) :
    FileAction → ReportRun → Prop
  | sampled {itc i : ℕ} {thread : TextThread} (hpc : s.file.pc = .watch itc i)
      (hround : s.round = none) (hthread : s.file.threads[i]? = some thread) :
      ReportMove target indexer s .proceed
        { s with round := some ⟨1 ≤ thread.2.progress, 0, 0⟩ }
  | read {itc i : ℕ} {round : Round} {thread : TextThread} (hpc : s.file.pc = .watch itc i)
      (hround : s.round = some round) (hthread : s.file.threads[round.p]? = some thread) :
      ReportMove target indexer s .proceed { s with
        round := some { round with
          p := round.p + 1
          progress := round.progress + thread.2.progress / s.file.threads.length } }
  | called {itc i : ℕ} {round : Round} (hpc : s.file.pc = .watch itc i)
      (hround : s.round = some round) (hall : s.file.threads[round.p]? = none) :
      ReportMove target indexer s .proceed (s.called itc i round)
  | main {file : FileRun} (houtside : s.Outside)
      (hstep : mainStep target indexer s.file = some file) :
      ReportMove target indexer s .proceed (s.moved target indexer file)
  | other {a : FileAction} {file : FileRun} (ha : a ≠ .proceed)
      (hstep : fileStep target indexer a s.file = some file) :
      ReportMove target indexer s a { s with file := file }

/-- Every step is one of these. -/
theorem reportMove_of_step {target : TargetFile} {indexer : FIndexer} {s s' : ReportRun}
    {a : FileAction} (hstep : reportStep target indexer a s = some s') :
    ReportMove target indexer s a s' := by
  cases a with
  | proceed =>
      simp only [reportStep] at hstep
      unfold reportMain at hstep
      split at hstep
      · next itc i round hpc hround =>
          split at hstep
          · next thread hthread =>
              obtain rfl := Option.some.inj hstep
              exact .read hpc hround hthread
          · next hall =>
              obtain rfl := Option.some.inj hstep
              exact .called hpc hround hall
      · next itc i hpc hround =>
          split at hstep
          · next thread hthread =>
              obtain rfl := Option.some.inj hstep
              exact .sampled hpc hround hthread
          · next hall =>
              obtain ⟨file, hfile, rfl⟩ := Option.map_eq_some_iff.mp hstep
              refine .main (fun itc' i' hpc' => ⟨hround, ?_⟩) hfile
              cases hpc.symm.trans hpc'
              exact hall
      · next hsome hnone =>
          obtain ⟨file, hfile, rfl⟩ := Option.map_eq_some_iff.mp hstep
          refine .main (fun itc i hpc => ?_) hfile
          cases hround : s.round with
          | none => exact absurd hround (hnone itc i hpc)
          | some round => exact absurd hround (hsome itc i round hpc)
  | fault =>
      obtain ⟨file, hfile, rfl⟩ := Option.map_eq_some_iff.mp hstep
      exact .other (by simp) hfile
  | worker t a =>
      obtain ⟨file, hfile, rfl⟩ := Option.map_eq_some_iff.mp hstep
      exact .other (by simp) hfile

/-! ## What a round adds up -/

/-- What the threads add to the progress of their window: together at most `1`. -/
def FileRun.shares (s : FileRun) : List ℚ :=
  s.threads.map fun thread => thread.2.progress / s.threads.length

/-- The whole share of a thread. -/
def FileRun.wholeShare (s : FileRun) : ℚ :=
  1 / s.threads.length

/-- The main thread is busy with window `itc`, whose first `done` threads have done their
work, and has added up `seen` over the first `p` threads: every report so far is at most
what the next one will be if no thread makes progress until then. -/
structure ReportRun.Watching (s : ReportRun) (itc done p : ℕ) (seen : ℚ) : Prop where
  lt : itc < s.threadItCount
  base : s.reportedProgress = (s.threadItCount - (itc + 1)) / s.threadItCount
  collecting : Collecting s.file.shares s.file.wholeShare done p seen
  below : ∀ x ∈ s.reports,
    x ≤ outlook s.file.shares p seen / s.threadItCount + s.reportedProgress

/-- The last report counts the first `done` threads of the window in full. -/
def ReportRun.Due (s : ReportRun) (done : ℕ) : Prop :=
  0 < done → s.reports.getLast? = some (s.report + s.reportedProgress) ∧
    done * s.file.wholeShare / s.threadItCount ≤ s.report

/-- What was reported before window `left - 1`. -/
structure ReportRun.Between (s : ReportRun) (left : ℕ) : Prop where
  round : s.round = none
  pos : 0 < s.threadItCount
  le : left ≤ s.threadItCount
  base : s.reportedProgress = (s.threadItCount - left) / s.threadItCount
  below : ∀ x ∈ s.reports, x ≤ s.reportedProgress
  last : left < s.threadItCount → s.reports.getLast? = some s.reportedProgress

/-- How many threads have done their work for sure, in the middle of a round that began
with `i` of them. -/
def Round.done (round : Round) (i : ℕ) : ℕ :=
  if round.next then i + 1 else i

/-- What the place in the loop says about the reports. -/
def ReportRun.Stage (s : ReportRun) : Prop :=
  match s.file.pc with
  | .enter => s = .start
  | .window left => s.Between left
  | .watch itc i =>
      s.Due i ∧
        (s.round = none → s.Watching itc i 0 0) ∧
        ∀ round, s.round = some round → s.Watching itc (round.done i) round.p round.progress
  | .join itc i => s.round = none ∧ s.Due (i + 1) ∧ s.Watching itc (i + 1) 0 0
  | .finish itc =>
      s.round = none ∧ s.Due s.file.threads.length ∧
        s.Watching itc s.file.threads.length 0 0
  | .close => s.reports.getLast? = some 1
  | .returned (some _) => s.reports.getLast? = some 1
  | .returned none => True
  | .undefined => True

/-- The invariant of the reports. -/
structure ReportRun.Inv (target : TargetFile) (indexer : FIndexer) (s : ReportRun) : Prop where
  reaches : Reaches (fileStep target indexer) (fun _ _ => True) .start s.file
  bounds : ∀ thread ∈ s.file.threads, 0 ≤ thread.2.progress ∧ thread.2.progress ≤ 1
  sorted : s.reports.Pairwise (· ≤ ·)
  le_one : ∀ x ∈ s.reports, x ≤ 1
  stage : s.Stage

/-! ## Shares -/

section

variable {s : FileRun}

theorem FileRun.length_shares (s : FileRun) : s.shares.length = s.threads.length :=
  List.length_map _

/-- The shares of a window add up to `1` at most. -/
theorem FileRun.sum_shares_le (hbounds : ∀ thread ∈ s.threads, thread.2.progress ≤ 1) :
    s.shares.sum ≤ 1 := by
  have hle : s.shares.sum ≤ s.shares.length • s.wholeShare := by
    refine List.sum_le_card_nsmul _ _ fun x hx => ?_
    obtain ⟨thread, hthread, rfl⟩ := List.mem_map.mp hx
    exact div_le_div_of_nonneg_right (hbounds thread hthread) (Nat.cast_nonneg _)
  refine hle.trans ?_
  rw [s.length_shares, nsmul_eq_mul, FileRun.wholeShare, mul_one_div]
  exact div_self_le_one _

theorem FileRun.getElem?_shares {p : ℕ} {thread : TextThread}
    (hthread : s.threads[p]? = some thread) :
    s.shares[p]? = some (thread.2.progress / s.threads.length) := by
  rw [FileRun.shares, List.getElem?_map, hthread]
  rfl

/-- A step of a thread lets the shares grow. -/
theorem FileRun.shares_le_set {t : ℕ} {config : FTextThread} {w w' : Worker} (heap : Heap)
    (hthread : s.threads[t]? = some (config, w)) (hle : w.progress ≤ w'.progress) :
    List.Forall₂ (· ≤ ·) s.shares
      (FileRun.shares { s with heap := heap, threads := s.threads.set t (config, w') }) := by
  refine List.forall₂_iff_get.mpr ⟨by simp [FileRun.shares], fun j hj hj' => ?_⟩
  simp only [FileRun.shares, List.get_eq_getElem, List.getElem_map, List.getElem_set,
    List.length_set]
  refine div_le_div_of_nonneg_right ?_ (Nat.cast_nonneg _)
  split
  · next heq =>
      subst heq
      obtain ⟨_, hget⟩ := List.getElem?_eq_some_iff.mp hthread
      rwa [hget]
  · exact le_rfl

end

/-! ## The rounds -/

section

variable {s : ReportRun} {itc i done p : ℕ} {seen : ℚ}

/-- Windows and threads that are done leave room for one more. -/
theorem ReportRun.Watching.base_le (h : s.Watching itc done p seen) :
    1 / s.threadItCount + s.reportedProgress = (s.threadItCount - itc) / s.threadItCount := by
  rw [h.base, ← add_div]
  congr 1
  ring

/-- While a thread makes progress the next report can only become larger. -/
theorem ReportRun.Watching.worker (h : s.Watching itc done p seen) {t : ℕ}
    {config : FTextThread} {w w' : Worker} (heap : Heap)
    (hthread : s.file.threads[t]? = some (config, w)) (hle : w.progress ≤ w'.progress) :
    ReportRun.Watching
      { s with file := { s.file with heap := heap, threads := s.file.threads.set t (config, w') } }
      itc done p seen := by
  have hgrow := FileRun.shares_le_set heap hthread hle
  have hwhole : FileRun.wholeShare
      { s.file with heap := heap, threads := s.file.threads.set t (config, w') } =
        s.file.wholeShare := by
    simp [FileRun.wholeShare]
  refine ⟨h.lt, h.base, ?_, fun x hx => (h.below x hx).trans ?_⟩
  · simp only [hwhole]
    exact h.collecting.grow hgrow
  · have hmono := div_le_div_of_nonneg_right (outlook_mono hgrow p seen)
      (Nat.cast_nonneg s.threadItCount (α := ℚ))
    exact add_le_add_left hmono _

/-- A round begins: it knows one thread more if that is done. -/
theorem ReportRun.Watching.sampled (h : s.Watching itc i 0 0) {thread : TextThread}
    (hthread : s.file.threads[i]? = some thread) (round : Round)
    (hround : round = ⟨1 ≤ thread.2.progress, 0, 0⟩) :
    s.Watching itc (round.done i) 0 0 := by
  subst hround
  have hi := (List.getElem?_eq_some_iff.mp hthread).1
  refine ⟨h.lt, h.base, ?_, h.below⟩
  simp only [Round.done, decide_eq_true_eq]
  split
  · next hdone =>
      refine collecting_zero (by rw [FileRun.length_shares]; omega) fun x hx => ?_
      rw [List.take_add_one, FileRun.getElem?_shares hthread, List.mem_append] at hx
      rcases hx with hx | hx
      · exact h.collecting.front x hx
      · obtain rfl : x = _ := by simpa using hx
        exact div_le_div_of_nonneg_right hdone (Nat.cast_nonneg _)
  · exact h.collecting

/-- The progress of one thread is read. -/
theorem ReportRun.Watching.read (h : s.Watching itc done p seen) {thread : TextThread}
    (hthread : s.file.threads[p]? = some thread) (hnonneg : 0 ≤ thread.2.progress) :
    s.Watching itc done (p + 1) (seen + thread.2.progress / s.file.threads.length) := by
  have hshare := FileRun.getElem?_shares hthread
  refine ⟨h.lt, h.base, h.collecting.read hshare (div_nonneg hnonneg (Nat.cast_nonneg _)), ?_⟩
  rw [outlook_read hshare]
  exact h.below

/-- The value of the next report, when all threads were read. -/
theorem ReportRun.Watching.value (h : s.Watching itc done p seen)
    (hall : s.file.threads[p]? = none)
    (hbounds : ∀ thread ∈ s.file.threads, thread.2.progress ≤ 1) :
    (∀ x ∈ s.reports, x ≤ seen / s.threadItCount + s.reportedProgress) ∧
      seen / s.threadItCount + s.reportedProgress ≤ 1 ∧
      done * s.file.wholeShare / s.threadItCount ≤ seen / s.threadItCount ∧
      seen / s.threadItCount ≤ outlook s.file.shares 0 0 / s.threadItCount := by
  have hp : s.file.shares.length ≤ p := by
    rw [FileRun.length_shares]
    exact List.getElem?_eq_none_iff.mp hall
  have hcount : (0 : ℚ) < s.threadItCount := by
    exact_mod_cast Nat.zero_lt_of_lt h.lt
  obtain ⟨hdone, hsum⟩ := h.collecting.bounds hp
  have hone := hsum.trans (FileRun.sum_shares_le hbounds)
  have hrestart := h.collecting.outlook_le
  have hbelow := h.below
  rw [outlook_of_le hp] at hrestart hbelow
  rw [nsmul_eq_mul] at hdone
  refine ⟨hbelow, ?_, div_le_div_of_nonneg_right hdone hcount.le,
    div_le_div_of_nonneg_right hrestart hcount.le⟩
  calc seen / s.threadItCount + s.reportedProgress
      ≤ 1 / s.threadItCount + s.reportedProgress :=
        add_le_add_left (div_le_div_of_nonneg_right hone hcount.le) _
    _ = (s.threadItCount - itc) / s.threadItCount := h.base_le
    _ ≤ 1 := (div_le_one hcount).mpr (sub_le_self _ (Nat.cast_nonneg _))

/-- A round ends with a report. -/
theorem ReportRun.Watching.called {round : Round}
    (h : s.Watching itc (round.done i) round.p round.progress)
    (hall : s.file.threads[round.p]? = none)
    (hbounds : ∀ thread ∈ s.file.threads, thread.2.progress ≤ 1) :
    (s.called itc i round).Due (round.done i) ∧
      (s.called itc i round).Watching itc (round.done i) 0 0 := by
  obtain ⟨hbelow, -, hdone, hrestart⟩ := h.value hall hbounds
  have hthreads : (s.called itc i round).file.threads = s.file.threads := by
    unfold ReportRun.called
    split <;> rfl
  have hshares : (s.called itc i round).file.shares = s.file.shares := by
    rw [FileRun.shares, FileRun.shares, hthreads]
  have hwhole : (s.called itc i round).file.wholeShare = s.file.wholeShare := by
    rw [FileRun.wholeShare, FileRun.wholeShare, hthreads]
  refine ⟨fun _ => ⟨by simp [ReportRun.called], by rw [hwhole]; exact hdone⟩, h.lt, h.base, ?_, ?_⟩
  · rw [hshares, hwhole]
    exact collecting_zero h.collecting.done_le h.collecting.front
  · intro x hx
    rw [hshares]
    rcases List.mem_append.mp hx with hx | hx
    · exact (hbelow x hx).trans (add_le_add_left hrestart _)
    · rw [List.mem_singleton.mp hx]
      exact add_le_add_left hrestart _

end

/-! ## Steps -/

section

variable {target : TargetFile} {indexer : FIndexer} {s s' : ReportRun}

/-- There are threads in a window that is in progress. -/
theorem ThreadsOf.ne_nil {itc : ℕ} {threads : List TextThread}
    (h : ThreadsOf target indexer itc threads) : threads ≠ [] := by
  obtain ⟨it, -, hconfigs⟩ := h
  rintro rfl
  have hlength := congrArg List.length hconfigs
  have hpos := it.len_pos
  simp [textThreads] at hlength
  simp [hlength] at hpos

/-- A step of the call keeps the progress of its threads between `0` and `1`. -/
theorem ReportRun.Inv.bounds_of_step (h : s.Inv target indexer) {a : FileAction} {file : FileRun}
    (hstep : fileStep target indexer a s.file = some file) :
    ∀ thread ∈ file.threads, 0 ≤ thread.2.progress ∧ thread.2.progress ≤ 1 := by
  intro thread hthread
  obtain ⟨hinv, hreported⟩ := reported_of_reaches h.reaches
  cases threadOrigin_of_step hstep hthread with
  | kept hold => exact h.bounds thread hold
  | spawned hstart =>
      rw [hstart]
      exact ⟨le_rfl, zero_le_one⟩
  | moved _ hold hmoved =>
      have hmem := List.mem_of_getElem? hold
      obtain ⟨hle, hone⟩ := (hinv.threads _ _ hold).2.progress_mono (hreported _ hmem)
        (workerMove_of_step hmoved)
      exact ⟨(h.bounds _ hmem).1.trans hle, hone (h.bounds _ hmem).2⟩

/-- The watched thread is still done when the round that found it done is over. -/
theorem ReportRun.Watching.progress_ge {itc i p : ℕ} {seen : ℚ}
    (h : s.Watching itc (i + 1) p seen) :
    ∃ thread, s.file.threads[i]? = some thread ∧ 1 ≤ thread.2.progress := by
  have hi : i < s.file.threads.length := by
    have hle := h.collecting.done_le
    rw [FileRun.length_shares] at hle
    omega
  refine ⟨s.file.threads[i], List.getElem?_eq_getElem hi, ?_⟩
  have hfront : s.file.wholeShare ≤ s.file.threads[i].2.progress / s.file.threads.length := by
    refine h.collecting.front _ (List.mem_of_getElem? (i := i) ?_)
    rw [List.getElem?_take_of_lt (by omega)]
    exact FileRun.getElem?_shares (List.getElem?_eq_getElem hi)
  have hpos : (0 : ℚ) < s.file.threads.length := by exact_mod_cast Nat.zero_lt_of_lt hi
  rwa [FileRun.wholeShare, div_le_div_iff_of_pos_right hpos] at hfront

/-- A step of a thread keeps the stage. -/
theorem ReportRun.Inv.stage_worker (h : s.Inv target indexer) {t : ℕ} {a : WorkerAction}
    {config : FTextThread} {w w' : Worker} {heap : Heap}
    (hthread : s.file.threads[t]? = some (config, w))
    (hmove : WorkerMove target.bytes config s.file.heap w a heap w') :
    ReportRun.Stage { s with
      file := { s.file with heap := heap, threads := s.file.threads.set t (config, w') } } := by
  obtain ⟨hinv, hreported⟩ := reported_of_reaches h.reaches
  have hle := ((hinv.threads _ _ hthread).2.progress_mono
    (hreported _ (List.mem_of_getElem? hthread)) hmove).1
  have hwatching : ∀ {itc done p : ℕ} {seen : ℚ}, s.Watching itc done p seen → _ :=
    fun h => h.worker heap hthread hle
  have hdue : ∀ {i : ℕ}, s.Due i → ReportRun.Due { s with
      file := { s.file with heap := heap, threads := s.file.threads.set t (config, w') } } i := by
    intro i hdue hi
    simpa [FileRun.wholeShare] using hdue hi
  have hstage := h.stage
  unfold ReportRun.Stage at hstage ⊢
  cases hpc : s.file.pc with
  | enter =>
      simp only [hpc] at hstage
      rw [hstage] at hthread
      simp [ReportRun.start, FileRun.start] at hthread
  | window left =>
      simp only [hpc] at hstage
      exact ⟨hstage.round, hstage.pos, hstage.le, hstage.base, hstage.below, hstage.last⟩
  | watch itc i =>
      simp only [hpc] at hstage
      obtain ⟨hdue', houtside, hinside⟩ := hstage
      exact ⟨hdue hdue', fun hround => hwatching (houtside hround),
        fun round hround => hwatching (hinside round hround)⟩
  | join itc i =>
      simp only [hpc] at hstage
      exact ⟨hstage.1, hdue hstage.2.1, hwatching hstage.2.2⟩
  | finish itc =>
      simp only [hpc] at hstage
      simp only [List.length_set]
      exact ⟨hstage.1, hdue hstage.2.1, hwatching hstage.2.2⟩
  | close => simpa only [hpc] using hstage
  | returned index =>
      cases index with
      | none => exact trivial
      | some index => simpa only [hpc] using hstage
  | undefined => exact trivial

/-- A report is at least as large as those before it and at most `1`. -/
theorem ReportRun.Inv.called (h : s.Inv target indexer) {itc i : ℕ} {round : Round}
    (hpc : s.file.pc = .watch itc i) (hround : s.round = some round)
    (hall : s.file.threads[round.p]? = none) : (s.called itc i round).Inv target indexer := by
  have hbounds : ∀ thread ∈ s.file.threads, thread.2.progress ≤ 1 := fun thread hthread =>
    (h.bounds thread hthread).2
  have hstage := h.stage
  simp only [ReportRun.Stage, hpc] at hstage
  have hwatching := hstage.2.2 round hround
  obtain ⟨hbelow, hone, -, -⟩ := hwatching.value hall hbounds
  obtain ⟨hdue, hnext⟩ := hwatching.called hall hbounds
  have hsorted : (s.called itc i round).reports.Pairwise (· ≤ ·) :=
    List.pairwise_append.mpr ⟨h.sorted, List.pairwise_singleton _ _, fun x hx y hy => by
      rw [List.mem_singleton.mp hy]
      exact hbelow x hx⟩
  have hle_one : ∀ x ∈ (s.called itc i round).reports, x ≤ 1 := by
    intro x hx
    rcases List.mem_append.mp hx with hx | hx
    · exact h.le_one x hx
    · rw [List.mem_singleton.mp hx]
      exact hone
  cases hdone : round.next with
  | false =>
      have hfile : (s.called itc i round).file = s.file := by simp [ReportRun.called, hdone]
      simp only [Round.done, hdone, Bool.false_eq_true, if_false] at hdue hnext
      refine ⟨by rw [hfile]; exact h.reaches, by rw [hfile]; exact h.bounds, hsorted, hle_one, ?_⟩
      simp only [ReportRun.Stage, hfile, hpc]
      refine ⟨hdue, fun _ => hnext, fun other hother => ?_⟩
      cases hother
  | true =>
      have hfile : (s.called itc i round).file = { s.file with pc := .join itc i } := by
        simp [ReportRun.called, hdone]
      simp only [Round.done, hdone, if_true] at hdue hnext hwatching
      -- the join is the step that the call takes when the watched thread is done
      obtain ⟨thread, hthread, hprogress⟩ := hwatching.progress_ge
      have hstep : fileStep target indexer .proceed s.file =
          some { s.file with pc := .join itc i } := by
        simp only [fileStep, mainStep, hpc, hthread, if_pos hprogress]
      refine ⟨?_, by rw [hfile]; exact h.bounds, hsorted, hle_one, ?_⟩
      · rw [hfile]
        exact h.reaches.trans (.single trivial hstep)
      · simp only [ReportRun.Stage, hfile]
        exact ⟨rfl, hdue, hnext⟩

/-- When all threads are joined, the last report counts the window in full. -/
theorem ReportRun.Watching.report_eq {itc : ℕ} (h : s.Watching itc s.file.threads.length 0 0)
    (hdue : s.Due s.file.threads.length) (hne : s.file.threads ≠ [])
    (hbounds : ∀ thread ∈ s.file.threads, thread.2.progress ≤ 1) :
    s.reports.getLast? = some (s.report + s.reportedProgress) ∧
      s.report = 1 / s.threadItCount ∧
      ∀ x ∈ s.reports, x ≤ s.report + s.reportedProgress := by
  have hpos := List.length_pos_iff.mpr hne
  have hlength : (s.file.threads.length : ℚ) ≠ 0 := by exact_mod_cast hpos.ne'
  have hcount : (0 : ℚ) ≤ s.threadItCount := Nat.cast_nonneg _
  obtain ⟨hlast, hge⟩ := hdue hpos
  rw [FileRun.wholeShare, mul_one_div_cancel hlength] at hge
  have hlevel : ∀ x ∈ s.reports, x ≤ 1 / s.threadItCount + s.reportedProgress := by
    intro x hx
    refine (h.below x hx).trans (add_le_add_left (div_le_div_of_nonneg_right ?_ hcount) _)
    rw [outlook, List.drop_zero, zero_add]
    exact FileRun.sum_shares_le hbounds
  have hle := hlevel _ (List.mem_of_getLast? hlast)
  have hreport : s.report = 1 / s.threadItCount := le_antisymm (le_of_add_le_add_right hle) hge
  exact ⟨hlast, hreport, by rwa [hreport]⟩

/-- At the start of a window its threads have no progress, and nothing was reported that the
next report does not reach. -/
theorem ReportRun.Between.spawned {itc : ℕ} (h : s.Between (itc + 1)) (indexer : FIndexer)
    (it : FIndexerThreads) :
    ReportRun.Watching { s with file := s.file.spawned indexer itc it, report := 0 } itc 0 0 0 where
  lt := h.le
  base := by rw [show s.reportedProgress = _ from h.base, Nat.cast_add, Nat.cast_one]
  collecting := collecting_zero (Nat.zero_le _) (by simp)
  below := by
    intro x hx
    refine (h.below x hx).trans (le_add_of_nonneg_left (div_nonneg ?_ (Nat.cast_nonneg _)))
    rw [outlook, zero_add, List.drop_zero]
    refine List.sum_nonneg fun y hy => ?_
    simp only [FileRun.shares, FileRun.spawned, List.map_map] at hy
    obtain ⟨config, -, rfl⟩ := List.mem_map.mp hy
    simp [Worker.start]

/-- At the end of a window its share is that of all windows alike. -/
theorem ReportRun.Watching.finished {itc : ℕ} (h : s.Watching itc s.file.threads.length 0 0)
    (hround : s.round = none) (hdue : s.Due s.file.threads.length) (hne : s.file.threads ≠ [])
    (hbounds : ∀ thread ∈ s.file.threads, thread.2.progress ≤ 1) (file : FileRun) :
    ReportRun.Between { s with file := file, reportedProgress := s.reportedProgress + s.report }
      itc := by
  obtain ⟨hlast, hreport, hbelow⟩ := h.report_eq hdue hne hbounds
  have hcomm : s.report + s.reportedProgress = s.reportedProgress + s.report := add_comm _ _
  refine ⟨hround, Nat.zero_lt_of_lt h.lt, h.lt.le, ?_, ?_, fun _ => ?_⟩
  · rw [← h.base_le, ← hcomm, hreport]
  · rwa [← hcomm]
  · rw [hlast, hcomm]

/-- A step of the main thread outside of the rounds. -/
theorem ReportRun.Inv.stage_main (h : s.Inv target indexer) (houtside : s.Outside)
    {file : FileRun} (hmove : FileMove target indexer s.file .proceed file) :
    (s.moved target indexer file).Stage := by
  have hstage := h.stage
  unfold ReportRun.Stage at hstage
  cases hmove with
  | @opened count hpc hcount =>
      simp only [hpc] at hstage
      obtain rfl := hstage
      have hpos := threadItCount_pos hcount
      simp only [ReportRun.moved, hpc, hcount, ReportRun.Stage]
      exact ⟨rfl, hpos, le_rfl, by simp [ReportRun.start], by simp [ReportRun.start], by simp⟩
  | unopened hpc _ hended =>
      rcases hended with rfl | rfl <;> simp only [ReportRun.moved, hpc, ReportRun.Stage]
  | windowsDone hpc =>
      simp only [hpc] at hstage
      have hcount : (s.threadItCount : ℚ) ≠ 0 := by exact_mod_cast hstage.pos.ne'
      have hlast := hstage.last hstage.pos
      rw [hstage.base, Nat.cast_zero, sub_zero, div_self hcount] at hlast
      simpa only [ReportRun.moved, hpc, ReportRun.Stage] using hlast
  | @spawned itc it hpc hplan =>
      simp only [hpc] at hstage
      simp only [ReportRun.moved, hpc, ReportRun.Stage, FileRun.spawned]
      refine ⟨fun hzero => absurd hzero (lt_irrefl 0), fun _ => hstage.spawned indexer it,
        fun round hround => ?_⟩
      rw [show s.round = none from hstage.round] at hround
      cases hround
  | unplanned hpc _ hended =>
      rcases hended with rfl | rfl <;> simp only [ReportRun.moved, hpc, ReportRun.Stage]
  | watched hpc hthread _ =>
      rw [(houtside _ _ hpc).2] at hthread
      cases hthread
  | @allJoined itc i hpc hthread =>
      simp only [hpc] at hstage
      obtain ⟨hround, -⟩ := houtside _ _ hpc
      obtain ⟨hdue, hwatching, -⟩ := hstage
      have hdone := (hwatching hround).collecting.done_le
      rw [FileRun.length_shares] at hdone
      obtain rfl : i = s.file.threads.length :=
        le_antisymm hdone (List.getElem?_eq_none_iff.mp hthread)
      have hwatching := hwatching hround
      simp only [ReportRun.moved, hpc, ReportRun.Stage]
      exact ⟨hround, hdue, hwatching.lt, hwatching.base, hwatching.collecting, hwatching.below⟩
  | @joined itc i thread result hpc hthread hresult =>
      simp only [hpc] at hstage
      obtain ⟨hround, hdue, hwatching⟩ := hstage
      simp only [ReportRun.moved, hpc]
      cases result with
      | none => exact trivial
      | some ret =>
          unfold FileRun.joined
          simp only
          split
          · refine ⟨hdue, fun _ => ?_, fun round hround' => ?_⟩
            · exact ⟨hwatching.lt, hwatching.base, hwatching.collecting, hwatching.below⟩
            · cases hround.symm.trans hround'
          · exact trivial
  | @finished itc hpc =>
      simp only [hpc] at hstage
      obtain ⟨hround, hdue, hwatching⟩ := hstage
      have hinv := (reported_of_reaches h.reaches).1
      have hfile := hinv.stage
      simp only [FileRun.Stage, hpc] at hfile
      obtain ⟨heap, chunk, lookup, -, -, heq⟩ := hinv.exists_finished hfile.1
      rw [heq]
      simp only [ReportRun.moved, hpc, ReportRun.Stage]
      exact hwatching.finished hround hdue hfile.1.threadsOf.ne_nil
        (fun thread hthread => (h.bounds thread hthread).2) _
  | closed hpc =>
      simp only [hpc] at hstage
      simp only [ReportRun.moved, hpc, ReportRun.Stage]
      cases s.file.lookup with
      | none => exact trivial
      | some lookup => exact hstage

/-- The step of the call that belongs to a step outside of the rounds. -/
theorem ReportRun.file_moved (s : ReportRun) (target : TargetFile) (indexer : FIndexer)
    (file : FileRun) : (s.moved target indexer file).file = file ∧
      (s.moved target indexer file).reports = s.reports := by
  unfold ReportRun.moved
  split <;> exact ⟨rfl, rfl⟩

/-- **Step lemma.** Every step keeps the invariant of the reports. -/
theorem ReportRun.Inv.step (h : s.Inv target indexer) {a : FileAction}
    (hmove : ReportMove target indexer s a s') : s'.Inv target indexer := by
  cases hmove with
  | @sampled itc i thread hpc hround hthread =>
      have hstage := h.stage
      simp only [ReportRun.Stage, hpc] at hstage
      refine ⟨h.reaches, h.bounds, h.sorted, h.le_one, ?_⟩
      simp only [ReportRun.Stage, hpc]
      refine ⟨hstage.1, fun hnone => ?_, fun round hround' => ?_⟩
      · cases hnone
      · obtain rfl := Option.some.inj hround'
        have hnext := (hstage.2.1 hround).sampled hthread _ rfl
        exact ⟨hnext.lt, hnext.base, hnext.collecting, hnext.below⟩
  | @read itc i round thread hpc hround hthread =>
      have hstage := h.stage
      simp only [ReportRun.Stage, hpc] at hstage
      refine ⟨h.reaches, h.bounds, h.sorted, h.le_one, ?_⟩
      simp only [ReportRun.Stage, hpc]
      refine ⟨hstage.1, fun hnone => ?_, fun round' hround' => ?_⟩
      · cases hnone
      · obtain rfl := Option.some.inj hround'
        have hnext := (hstage.2.2 round hround).read hthread
          (h.bounds _ (List.mem_of_getElem? hthread)).1
        exact ⟨hnext.lt, hnext.base, hnext.collecting, hnext.below⟩
  | called hpc hround hall => exact h.called hpc hround hall
  | @main file houtside hstep =>
      have hfile : fileStep target indexer .proceed s.file = some file := hstep
      obtain ⟨hsame, hreports⟩ := s.file_moved target indexer file
      refine ⟨?_, ?_, ?_, ?_, h.stage_main houtside (fileMove_of_mainStep hstep)⟩
      · rw [hsame]
        exact h.reaches.trans (.single trivial hfile)
      · rw [hsame]
        exact h.bounds_of_step hfile
      · rw [hreports]
        exact h.sorted
      · rw [hreports]
        exact h.le_one
  | @other _ file ha hstep =>
      refine ⟨h.reaches.trans (.single trivial hstep), h.bounds_of_step hstep, h.sorted, h.le_one,
        ?_⟩
      cases fileMove_of_step hstep with
      | fault _ => exact trivial
      | worker hthread hmove => exact h.stage_worker hthread hmove
      | _ => exact absurd rfl ha

theorem ReportRun.inv_start (target : TargetFile) (indexer : FIndexer) :
    ReportRun.start.Inv target indexer where
  reaches := .refl _
  bounds := by simp [ReportRun.start, FileRun.start]
  sorted := List.Pairwise.nil
  le_one := by simp [ReportRun.start]
  stage := rfl

/-- **The reported progress** never decreases and never exceeds `1`, whatever the order of
the steps, and when the call returns an index the last report was `1`. -/
theorem reports_of_reaches
    (hreach : Reaches (reportStep target indexer) (fun _ _ => True) .start s) :
    s.reports.Pairwise (· ≤ ·) ∧ (∀ x ∈ s.reports, x ≤ 1) ∧
      ∀ index, s.file.pc = .returned (some index) → s.reports.getLast? = some 1 := by
  have h : s.Inv target indexer := hreach.invariant (ReportRun.inv_start target indexer)
    fun _ _ _ h _ hstep => h.step (reportMove_of_step hstep)
  refine ⟨h.sorted, h.le_one, fun index hpc => ?_⟩
  have hstage := h.stage
  simpa only [ReportRun.Stage, hpc] using hstage

end

/-- What a finished call has reported. -/
def ReportRun.summary (s : ReportRun) : Option (List ℚ) :=
  match s.file.pc with
  | .returned (some _) => some s.reports
  | _ => none

/-- A window of `windowsFile` with one round of reports before a thread begins and one after its
last step, which is joined then. -/
def reportedWindow : List FileAction :=
  let round := List.replicate 4 .proceed
  [.proceed] ++ round ++ pairSteps.map (.worker 0 ·) ++ round ++ [.proceed] ++ round ++
    pairSteps.map (.worker 1 ·) ++ round ++ [.proceed, .proceed, .proceed]

/-- Indexing `windowsFile`: the reports count the threads and the windows that are done. -/
theorem reports_of_reaches_windows :
    ∃ s index, Reaches (reportStep windowsFile windowsIndexer) (fun _ _ => True) .start s ∧
      s.file.pc = .returned (some index) ∧
      s.reports = [0, 1 / 4, 1 / 4, 1 / 2, 1 / 2, 3 / 4, 3 / 4, 1] ∧
      s.reports.Pairwise (· ≤ ·) ∧ s.reports.getLast? = some 1 := by
  have hsummary : (runTrace (reportStep windowsFile windowsIndexer)
      ([.proceed] ++ reportedWindow ++ reportedWindow ++ [.proceed, .proceed]) .start).bind
        (fun run => run.2.summary) =
      some [0, 1 / 4, 1 / 4, 1 / 2, 1 / 2, 3 / 4, 3 / 4, 1] := by
    decide +kernel
  obtain ⟨⟨trace, s⟩, hrun, hreports⟩ := Option.bind_eq_some_iff.mp hsummary
  have hreach := (run_of_runTrace hrun).reaches
  unfold ReportRun.summary at hreports
  split at hreports
  · next index hpc =>
      obtain ⟨hsorted, -, hlast⟩ := reports_of_reaches hreach
      exact ⟨s, index, hreach, hpc, Option.some.inj hreports, hsorted, hlast index hpc⟩
  · cases hreports

end Flashlight.TextIndexer
