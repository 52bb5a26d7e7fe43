/-
# The progress of an indexing thread

The main thread learns from its progress alone that an indexing thread has ended: it
joins the thread once the progress has reached `1`. A thread publishes its progress at
the end of each batch, as the share of its chunks in the batches that are done.

So a thread with an empty range, which has no batch, publishes nothing, and a thread that
fails before its last batch is done stays below `1` for good.
-/

import Flashlight.TextIndexer.BatchLoop
import Flashlight.TextIndexer.FileInvariant

namespace Flashlight.TextIndexer

open Flashlight.Math Flashlight.Indexer

/-- The published progress is the share of the chunks in the batches that are done. A
thread without chunks publishes `0 / 0`, which is `0` here. -/
def Worker.Reported (w : Worker) : Prop :=
  match w.pc with
  | .enter => w.progress = 0
  | .batch i => w.progress = (min i w.ic.length : ℕ) / w.ic.length
  | .launch i _ => w.progress = i / w.ic.length
  | .receive i _ => w.progress = i / w.ic.length
  | .reduce => w.progress = w.ic.length / w.ic.length
  | .exited (some _) => w.progress = w.ic.length / w.ic.length
  | .exited none => True
  | .undefined => True

/-- If the thread fails with this step, the main thread will notice: only the reduction of
what at least one batch has received fails late enough. -/
def Worker.Releases (config : FTextThread) (w : Worker) (a : WorkerAction) : Prop :=
  match w.pc, a with
  | .enter, .proceed => config.plan ≠ .error .refused
  | .reduce, .fault => w.ic ≠ []
  | _, .fault => False
  | _, _ => True

section

variable {bytes : List UInt8} {config : FTextThread} {heap heap' : Heap} {w w' : Worker}
  {a : WorkerAction}

/-- At the end of a batch all of its chunks were received. -/
theorem Worker.Inv.chunksFinished_eq (h : w.Inv bytes config heap) {i c : ℕ}
    (hpc : w.pc = .receive i c) (hchunk : w.chunkAt i c = none) :
    i < w.ic.length ∧ w.chunksFinished = min (i + w.concurrency) w.ic.length := by
  obtain ⟨ic, -, hworking⟩ := h.exists_working hpc (by simp) (by simp) (by simp)
  have hposition := hworking.position
  simp only [Worker.Position, hpc] at hposition
  obtain ⟨-, hi, hc, hlen, hwritten, -⟩ := hposition
  have hall := hworking.chunkAt_eq_none hchunk hc hlen
  refine ⟨by rwa [hworking.ic_eq], ?_⟩
  rw [hworking.finished_eq, hwritten, hall, hworking.ic_eq]

/-- **A step keeps the report.** -/
theorem Worker.Inv.reported (h : w.Inv bytes config heap)
    (hmove : WorkerMove bytes config heap w a heap' w') (hw : w.Reported) : w'.Reported := by
  cases hmove with
  | planned hpc _ =>
      obtain rfl := h.eq_start hpc
      simp [Worker.Reported, Worker.planned, Worker.start]
  | unplanned _ _ hended => rcases hended with rfl | rfl <;> exact trivial
  | fault _ => exact trivial
  | @batch i hpc =>
      simp only [Worker.Reported, hpc] at hw
      by_cases hi : i < w.ic.length
      · rw [Nat.min_eq_left hi.le] at hw
        simpa only [Worker.Reported, if_pos hi] using hw
      · rw [Nat.min_eq_right (by omega)] at hw
        simpa only [Worker.Reported, if_neg hi] using hw
  | launchDone hpc _ => simpa only [Worker.Reported, hpc] using hw
  | @scan i c chunk env _ outcome hpc _ _ =>
      simp only [Worker.Reported, hpc] at hw
      cases outcome with
      | sent message n => exact hw
      | silent => exact hw
      | undefined => exact trivial
  | @batchDone i c hpc hchunk =>
      obtain ⟨-, hfinished⟩ := h.chunksFinished_eq hpc hchunk
      unfold Worker.Reported Worker.finished
      by_cases hi : i + w.concurrency < 2 ^ 31
      · simp only [if_pos hi, hfinished]
      · simp only [if_neg hi]
  | @recv i c k chunk message hpc _ _ =>
      simp only [Worker.Reported, hpc] at hw
      rw [Worker.received]
      split
      · exact hw
      · exact trivial
  | reduce hpc =>
      obtain ⟨ic, -, hworking⟩ := h.exists_working hpc (by simp) (by simp) (by simp)
      obtain ⟨-, ⟨ret, heq⟩, -⟩ := hworking.reduced hpc
      simp only [Worker.Reported, hpc] at hw
      rw [heq]
      exact hw

/-- The progress of a thread only grows, and stays at `1` at most. -/
theorem Worker.Inv.progress_mono (h : w.Inv bytes config heap) (hw : w.Reported)
    (hmove : WorkerMove bytes config heap w a heap' w') :
    w.progress ≤ w'.progress ∧ (w.progress ≤ 1 → w'.progress ≤ 1) := by
  cases hmove with
  | planned _ _ => exact ⟨le_rfl, id⟩
  | unplanned _ _ _ => exact ⟨le_rfl, id⟩
  | fault _ => exact ⟨le_rfl, id⟩
  | batch _ => exact ⟨le_rfl, id⟩
  | launchDone _ _ => exact ⟨le_rfl, id⟩
  | @scan i c chunk env _ outcome _ _ _ => cases outcome <;> exact ⟨le_rfl, id⟩
  | @batchDone i c hpc hchunk =>
      obtain ⟨hi, hfinished⟩ := h.chunksFinished_eq hpc hchunk
      simp only [Worker.Reported, hpc] at hw
      have hpos : (0 : ℚ) < w.ic.length := by exact_mod_cast Nat.zero_lt_of_lt hi
      have hle : (i : ℚ) ≤ w.chunksFinished := by
        exact_mod_cast hfinished ▸ Nat.le_min.mpr ⟨Nat.le_add_right _ _, hi.le⟩
      have hle' : (w.chunksFinished : ℚ) ≤ w.ic.length := by
        exact_mod_cast hfinished ▸ Nat.min_le_right _ _
      refine ⟨?_, fun _ => (div_le_one hpos).mpr hle'⟩
      rw [hw]
      exact div_le_div_of_nonneg_right hle hpos.le
  | @recv i c k chunk message _ _ _ =>
      rw [Worker.received]
      split <;> exact ⟨le_rfl, id⟩
  | reduce hpc =>
      obtain ⟨ic, -, hworking⟩ := h.exists_working hpc (by simp) (by simp) (by simp)
      obtain ⟨-, ⟨ret, heq⟩, -⟩ := hworking.reduced hpc
      rw [heq]
      exact ⟨le_rfl, id⟩

theorem Worker.reported_start : Worker.start.Reported := rfl

/-- What a thread that was planned has published when it is done. -/
theorem Worker.Reported.progress_eq {ret : FChunk} (hw : w.Reported)
    (hpc : w.pc = .exited (some ret)) : w.progress = if w.ic = [] then 0 else 1 := by
  simp only [Worker.Reported, hpc] at hw
  split
  · next hnil => simpa [hnil] using hw
  · next hne =>
      rw [hw, div_self]
      exact_mod_cast fun hzero => hne (List.length_eq_zero_iff.mp hzero)

/-- In the middle of a batch the progress of a thread is below `1`. -/
theorem Worker.Inv.progress_lt_one (h : w.Inv bytes config heap) (hw : w.Reported) {i c : ℕ}
    (hpc : w.pc = .launch i c ∨ w.pc = .receive i c) : w.progress < 1 := by
  obtain ⟨ic, -, hworking⟩ := h.exists_working rfl (by rcases hpc with hpc | hpc <;> simp [hpc])
    (by rcases hpc with hpc | hpc <;> simp [hpc]) (by rcases hpc with hpc | hpc <;> simp [hpc])
  have hposition := hworking.position
  have hi : i < w.ic.length ∧ w.progress = i / w.ic.length := by
    rw [hworking.ic_eq]
    rcases hpc with hpc | hpc
    · simp only [Worker.Position, Worker.Reported, hpc, hworking.ic_eq] at hposition hw
      exact ⟨hposition.2.1, hw⟩
    · simp only [Worker.Position, Worker.Reported, hpc, hworking.ic_eq] at hposition hw
      exact ⟨hposition.2.1, hw⟩
  rw [hi.2, div_lt_one (by exact_mod_cast Nat.zero_lt_of_lt hi.1)]
  exact_mod_cast hi.1

/-- **A failing exit** releases the main thread exactly if the step meets the condition. -/
theorem Worker.Inv.released_iff (h : w.Inv bytes config heap) (hw : w.Reported)
    (hstep : workerStep bytes config a heap w = some (heap', w')) (hexit : w'.pc = .exited none) :
    1 ≤ w'.progress ↔ w.Releases config a := by
  cases workerMove_of_step hstep with
  | planned _ _ => cases hexit
  | @unplanned fault pc hpc hplan _ =>
      obtain rfl := h.eq_start hpc
      obtain rfl : fault = .refused := by
        cases fault with
        | refused => rfl
        | undefined =>
            simp only [workerStep, Worker.start, hplan] at hstep
            obtain ⟨-, heq⟩ := Prod.mk.inj (Option.some.inj hstep)
            obtain rfl : WorkerPc.undefined = pc := congrArg Worker.pc heq
            cases hexit
      exact iff_of_false (by norm_num [Worker.start]) fun hreleases => hreleases hplan
  | fault hpc' =>
      cases hpc : w.pc with
      | enter =>
          obtain rfl := h.eq_start hpc
          exact iff_of_false (by norm_num [Worker.start]) id
      | batch i => simp [workerStep, hpc] at hstep
      | launch i c =>
          simp only [Worker.Releases, hpc]
          exact iff_of_false (not_le.mpr (h.progress_lt_one hw (Or.inl hpc))) id
      | receive i c =>
          simp only [Worker.Releases, hpc]
          exact iff_of_false (not_le.mpr (h.progress_lt_one hw (Or.inr hpc))) id
      | reduce =>
          simp only [Worker.Reported, hpc] at hw
          simp only [Worker.Releases, hpc, hw]
          by_cases hnil : w.ic = []
          · simp only [hnil, List.length_nil]
            norm_num
          · rw [div_self (by exact_mod_cast fun hzero => hnil (List.length_eq_zero_iff.mp hzero))]
            exact iff_of_true le_rfl hnil
      | exited result => exact absurd (Or.inr ⟨result, hpc⟩) hpc'
      | undefined => exact absurd (Or.inl hpc) hpc'
  | batch _ =>
      simp only at hexit
      split at hexit <;> cases hexit
  | launchDone _ _ => cases hexit
  | @scan i c chunk env _ outcome _ _ _ => cases outcome <;> cases hexit
  | batchDone _ _ =>
      simp only [Worker.finished] at hexit
      split at hexit <;> cases hexit
  | recv _ _ _ =>
      rw [Worker.received] at hexit
      split at hexit <;> cases hexit
  | reduce hpc =>
      obtain ⟨ic, -, hworking⟩ := h.exists_working hpc (by simp) (by simp) (by simp)
      obtain ⟨-, ⟨ret, heq⟩, -⟩ := hworking.reduced hpc
      rw [heq] at hexit
      cases hexit

end

/-! ## Runs -/

/-- The plan that a thread works on is that of its range. -/
theorem Worker.Inv.ic_eq_nil_iff {bytes : List UInt8} {config : FTextThread} {heap : Heap}
    {w : Worker} {ret : FChunk} (h : w.Inv bytes config heap) (hpc : w.pc = .exited (some ret)) :
    w.ic = [] ↔ config.fromOffset = config.toOffset := by
  obtain ⟨ic, hplan, hworking⟩ := h.exists_working hpc (by simp) (by simp) (by simp)
  rw [hworking.ic_eq]
  exact chunks_eq_nil_iff _ _ hplan

/-- A thread that is done has published `1`, unless its range is empty. -/
theorem Worker.Inv.progress_eq {bytes : List UInt8} {config : FTextThread} {heap : Heap}
    {w : Worker} {ret : FChunk} (h : w.Inv bytes config heap) (hw : w.Reported)
    (hpc : w.pc = .exited (some ret)) :
    w.progress = if config.fromOffset = config.toOffset then 0 else 1 := by
  rw [hw.progress_eq hpc]
  simp only [h.ic_eq_nil_iff hpc]

/-- The state of a thread that runs on its own. -/
theorem inv_of_reaches {bytes : List UInt8} {config : FTextThread} {heap : Heap}
    {s : Heap × Worker} (hreach : Reaches (workerSystem bytes config) (fun _ _ => True)
      (heap, Worker.start) s) : s.2.Inv bytes config s.1 ∧ s.2.Reported := by
  have hstart : Worker.start.Inv bytes config heap ∧ Worker.start.Reported :=
    ⟨.unplanned (Or.inl rfl) rfl, Worker.reported_start⟩
  have hkeep : ∀ (s : Heap × Worker) a s', s.2.Inv bytes config s.1 ∧ s.2.Reported → True →
      workerSystem bytes config a s = some s' → s'.2.Inv bytes config s'.1 ∧ s'.2.Reported := by
    rintro s a s' ⟨h, hw⟩ - hstep
    have hmove := workerMove_of_step hstep
    exact ⟨(h.step hmove).1, h.reported hmove hw⟩
  exact hreach.invariant hstart hkeep

/-- A step of the call keeps the reports of its threads. -/
theorem FileRun.Inv.reported_step {target : TargetFile} {indexer : FIndexer} {s s' : FileRun}
    {a : FileAction} (h : s.Inv target indexer)
    (hreported : ∀ thread ∈ s.threads, thread.2.Reported)
    (hstep : fileStep target indexer a s = some s') :
    ∀ thread ∈ s'.threads, thread.2.Reported := by
  intro thread hthread
  cases threadOrigin_of_step hstep hthread with
  | kept hold => exact hreported thread hold
  | spawned hstart =>
      rw [hstart]
      exact Worker.reported_start
  | moved _ hold hmoved =>
      exact (h.threads _ _ hold).2.reported (workerMove_of_step hmoved)
        (hreported _ (List.mem_of_getElem? hold))

/-- The threads of a call have published their progress. -/
theorem reported_of_reaches {target : TargetFile} {indexer : FIndexer} {s : FileRun}
    (hreach : Reaches (fileStep target indexer) (fun _ _ => True) .start s) :
    s.Inv target indexer ∧ ∀ thread ∈ s.threads, thread.2.Reported := by
  have hstart : FileRun.start.Inv target indexer ∧
      ∀ thread ∈ FileRun.start.threads, thread.2.Reported :=
    ⟨FileRun.inv_start _ _, by simp [FileRun.start]⟩
  have hkeep : ∀ (s : FileRun) a s',
      s.Inv target indexer ∧ (∀ thread ∈ s.threads, thread.2.Reported) → True →
      fileStep target indexer a s = some s' →
      s'.Inv target indexer ∧ ∀ thread ∈ s'.threads, thread.2.Reported := by
    rintro s a s' ⟨h, hreported⟩ - hstep
    exact ⟨h.step (fileMove_of_step hstep), h.reported_step hreported hstep⟩
  exact hreach.invariant hstart hkeep

/-- If a thread fails with this step, the main thread will notice. -/
def FileRun.Releases (s : FileRun) (a : FileAction) : Prop :=
  ∀ t b, a = .worker t b → ∀ thread ∈ s.threads[t]?, thread.2.Releases thread.1 b

/-- The main thread can join every thread that has failed. -/
def FileRun.Joinable (s : FileRun) : Prop :=
  ∀ thread ∈ s.threads, thread.2.pc = .exited none → 1 ≤ thread.2.progress

/-- A step of the call that meets the condition leaves no failed thread behind. -/
theorem FileRun.Joinable.step {target : TargetFile} {indexer : FIndexer} {s s' : FileRun}
    {a : FileAction} (hjoinable : s.Joinable) (h : s.Inv target indexer)
    (hreported : ∀ thread ∈ s.threads, thread.2.Reported) (hreleases : s.Releases a)
    (hstep : fileStep target indexer a s = some s') : s'.Joinable := by
  intro thread hthread hexit
  cases threadOrigin_of_step hstep hthread with
  | kept hold => exact hjoinable thread hold hexit
  | spawned hstart =>
      rw [hstart] at hexit
      cases hexit
  | moved ha hold hmoved =>
      have hw := hreported _ (List.mem_of_getElem? hold)
      exact ((h.threads _ _ hold).2.released_iff hw hmoved hexit).mpr (hreleases _ _ ha _ hold)

/-- While every step meets the condition, no failed thread is left behind. -/
theorem joinable_of_reaches {target : TargetFile} {indexer : FIndexer} {s : FileRun}
    (hreach : Reaches (fileStep target indexer) FileRun.Releases .start s) : s.Joinable := by
  have hstart : (FileRun.start.Inv target indexer ∧
      ∀ thread ∈ FileRun.start.threads, thread.2.Reported) ∧ FileRun.start.Joinable :=
    ⟨reported_of_reaches (.refl _), by simp [FileRun.Joinable, FileRun.start]⟩
  have hkeep : ∀ (s : FileRun) a s',
      (s.Inv target indexer ∧ ∀ thread ∈ s.threads, thread.2.Reported) ∧ s.Joinable →
      s.Releases a → fileStep target indexer a s = some s' →
      (s'.Inv target indexer ∧ ∀ thread ∈ s'.threads, thread.2.Reported) ∧ s'.Joinable := by
    rintro s a s' ⟨⟨h, hreported⟩, hjoinable⟩ hreleases hstep
    exact ⟨⟨h.step (fileMove_of_step hstep), h.reported_step hreported hstep⟩,
      hjoinable.step h hreported hreleases hstep⟩
  exact (hreach.invariant hstart hkeep).2

/-- The join loop goes on with a thread as soon as its progress allows it. -/
theorem isSome_mainStep_watch (target : TargetFile) (indexer : FIndexer) {s : FileRun} {itc i : ℕ}
    {thread : TextThread} (hpc : s.pc = .watch itc i) (hthread : s.threads[i]? = some thread) :
    (mainStep target indexer s).isSome ↔ 1 ≤ thread.2.progress := by
  simp only [mainStep, hpc, hthread]
  split <;> simp_all

/-- The thread that the join loop is watching. -/
def FileRun.watching (s : FileRun) : Option TextThread :=
  match s.pc with
  | .watch _ i => s.threads[i]?
  | _ => none

theorem FileRun.exists_of_watching {s : FileRun} {thread : TextThread}
    (h : s.watching = some thread) :
    ∃ itc i, s.pc = .watch itc i ∧ s.threads[i]? = some thread := by
  unfold FileRun.watching at h
  split at h
  · next itc i hpc => exact ⟨itc, i, hpc, h⟩
  · cases h

/-- A thread that is created, and comes to its end in these steps. -/
def untilReturned (steps : List WorkerAction) : List FileAction :=
  [.proceed, .proceed] ++ steps.map (.worker 0 ·)

end Flashlight.TextIndexer
