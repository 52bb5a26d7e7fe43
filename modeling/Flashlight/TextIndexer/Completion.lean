/-
# Calls that return

A call in which nothing goes wrong can always be brought to its end: if every window and
every thread has a plan, no thread has nothing to do, and the platform transfers every chunk
at once, then there is a run that returns an index. The run serves one thread after the
other, the way the main thread watches them.
-/

import Flashlight.TextIndexer.Exactness
import Flashlight.TextIndexer.Progress

namespace Flashlight.TextIndexer

open Flashlight.Math Flashlight.Indexer

/-- The thread can come to its end with a progress of `1`. -/
def FTextThread.Completable (bytes : List UInt8) (config : FTextThread) : Prop :=
  ∃ ic, config.plan = .ok ic ∧ CountsOn ic ∧ 0 < ic.concurrency.toInt.toNat ∧ ic.chunks ≠ [] ∧
    ∀ chunk ∈ ic.chunks, chunk.fromOffset.toNat < 2 ^ 63 ∧
      (chunkBuffer bytes chunk).length ≤ maxTransfer

instance (bytes : List UInt8) (config : FTextThread) : Decidable (config.Completable bytes) :=
  match hplan : config.plan with
  | .ok ic =>
      decidable_of_iff (CountsOn ic ∧ 0 < ic.concurrency.toInt.toNat ∧ ic.chunks ≠ [] ∧
          ∀ chunk ∈ ic.chunks, chunk.fromOffset.toNat < 2 ^ 63 ∧
            (chunkBuffer bytes chunk).length ≤ maxTransfer)
        ⟨fun h => ⟨ic, hplan, h⟩, fun ⟨_, hic, h⟩ => Except.ok.inj (hplan.symm.trans hic) ▸ h⟩
  | .error _ => .isFalse fun ⟨_, hic, _⟩ => by cases hplan.symm.trans hic

/-- All windows below `count` have a plan, and their threads can come to their end. -/
structure Completable (target : TargetFile) (indexer : FIndexer) (count : ℕ) : Prop where
  plan : ∀ itc < count, ∃ it, windowPlan target indexer itc = .ok it
  threads : ∀ itc < count, ∀ config ∈ windowConfigs target indexer itc,
    config.Completable target.bytes

/-- Nothing went wrong so far, and the threads have published their progress. -/
structure FileRun.Calm (target : TargetFile) (indexer : FIndexer) (s : FileRun) : Prop where
  undisturbed : s.Undisturbed target indexer
  reported : ∀ thread ∈ s.threads, thread.2.Reported

/-- The main thread watches thread `i` of window `itc`, whose threads have these
configurations. -/
structure FileRun.Serving (target : TargetFile) (indexer : FIndexer) (itc i : ℕ)
    (configs : List FTextThread) (s : FileRun) : Prop where
  calm : s.Calm target indexer
  pc_eq : s.pc = .watch itc i
  configs_eq : s.threads.map Prod.fst = configs

/-- Thread `i`, with this configuration, has returned a chunk. -/
def FileRun.Served (i : ℕ) (config : FTextThread) (s : FileRun) : Prop :=
  ∃ w, s.threads[i]? = some (config, w) ∧ ∃ ret, w.pc = .exited (some ret)

/-- How many steps thread `i` can still take, with a plan of `len` chunks. -/
def FileRun.remaining (i len : ℕ) (s : FileRun) : ℕ :=
  (s.threads[i]?.map fun thread => thread.2.remaining len).getD 0

section

variable {target : TargetFile} {indexer : FIndexer} {s s' : FileRun} {count itc i : ℕ}
  {configs : List FTextThread} {config : FTextThread}

theorem Completable.windowDefined (h : Completable target indexer count) (hitc : itc < count) :
    WindowDefined target indexer itc where
  plan := h.plan itc hitc
  threads := by
    intro config hconfig
    obtain ⟨ic, hplan, hcounts, -⟩ := h.threads itc hitc config hconfig
    exact ⟨ic, hplan, hcounts⟩

instance (target : TargetFile) (indexer : FIndexer) (count : ℕ) :
    Decidable (Completable target indexer count) :=
  decidable_of_iff ((∀ itc < count, WindowDefined target indexer itc) ∧
      ∀ itc < count, ∀ config ∈ windowConfigs target indexer itc,
        config.Completable target.bytes)
    ⟨fun ⟨hdefined, hthreads⟩ => ⟨fun itc hitc => (hdefined itc hitc).plan, hthreads⟩,
      fun h => ⟨fun _ hitc => h.windowDefined hitc, h.threads⟩⟩

theorem FileRun.calm_start (target : TargetFile) (indexer : FIndexer) :
    FileRun.start.Calm target indexer :=
  ⟨FileRun.undisturbed_start target indexer, by simp [FileRun.start]⟩

/-- A smooth step keeps the calm. -/
theorem FileRun.Calm.step (h : s.Calm target indexer)
    (hcount : threadItCount (.ofNat target.bytes.length) indexer.maxBytesPerIteration = .ok count)
    (hcompletable : Completable target indexer count) {a : FileAction}
    (hsmooth : s.Smooth target a) (hstep : fileStep target indexer a s = some s') :
    s'.Calm target indexer where
  undisturbed := h.undisturbed.step hcount (fun _ hitc _ => hcompletable.windowDefined hitc)
    hsmooth (fileMove_of_step hstep)
  reported := h.undisturbed.inv.reported_step h.reported hstep

/-- A step of the main thread when no call fails. -/
theorem reaches_proceed (hstep : fileStep target indexer .proceed s = some s') :
    Reaches (fileStep target indexer) (FileRun.Smooth target) s s' :=
  .single (a := .proceed) trivial hstep

theorem FileRun.Calm.proceed (h : s.Calm target indexer)
    (hcount : threadItCount (.ofNat target.bytes.length) indexer.maxBytesPerIteration = .ok count)
    (hcompletable : Completable target indexer count)
    (hstep : fileStep target indexer .proceed s = some s') : s'.Calm target indexer :=
  h.step (a := .proceed) hcount hcompletable trivial hstep

/-- A step of a thread, seen from the call. -/
theorem fileStep_worker {t : ℕ} {a : WorkerAction} {config : FTextThread} {w w' : Worker}
    {heap : Heap} (hthread : s.threads[t]? = some (config, w))
    (hstep : workerStep target.bytes config a s.heap w = some (heap, w')) :
    fileStep target indexer (.worker t a) s =
      some { s with heap := heap, threads := s.threads.set t (config, w') } := by
  have hmoved : stepAt (threadStep target.bytes) t a s.heap s.threads =
      some (heap, s.threads.set t (config, w')) :=
    stepAt_eq_some_iff.mpr ⟨_, _, hthread, by rw [threadStep, hstep]; rfl, rfl⟩
  simp only [fileStep, hmoved, Option.map_some]

/-- The watched thread takes a step. -/
theorem FileRun.Serving.exists_step (h : s.Serving target indexer itc i configs)
    (hcount : threadItCount (.ofNat target.bytes.length) indexer.maxBytesPerIteration = .ok count)
    (hcompletable : Completable target indexer count) (hconfig : configs[i]? = some config)
    {ic : FIndexerChunks} (hplan : config.plan = .ok ic)
    (hconcurrency : 0 < ic.concurrency.toInt.toNat)
    (hread : ∀ chunk ∈ ic.chunks, chunk.fromOffset.toNat < 2 ^ 63 ∧
      (chunkBuffer target.bytes chunk).length ≤ maxTransfer)
    (hrunning : ¬ s.Served i config) :
    ∃ a s', s.Smooth target a ∧ fileStep target indexer a s = some s' ∧
      s'.Serving target indexer itc i configs ∧
      s'.remaining i ic.chunks.length < s.remaining i ic.chunks.length := by
  have hget := hconfig
  rw [← h.configs_eq, List.getElem?_map, Option.map_eq_some_iff] at hget
  obtain ⟨⟨config, w⟩, hthread, rfl⟩ := hget
  have hw := (h.calm.undisturbed.threads _ (List.mem_of_getElem? hthread)).2
  obtain ⟨a, hsmooth, hsome⟩ := hw.exists_step hplan hread fun ret hexited =>
    hrunning ⟨w, hthread, ret, hexited⟩
  obtain ⟨⟨heap, w'⟩, hmoved⟩ := Option.isSome_iff_exists.mp hsome
  have hstep : fileStep target indexer (.worker i a) s =
      some { s with heap := heap, threads := s.threads.set i (config, w') } :=
    fileStep_worker hthread hmoved
  have hallowed : s.Smooth target (.worker i a) := by
    intro thread hmem
    obtain rfl := Option.some.inj (hthread.symm.trans hmem)
    exact hsmooth
  refine ⟨_, _, hallowed, hstep, ⟨h.calm.step hcount hcompletable hallowed hstep, h.pc_eq, ?_⟩, ?_⟩
  · rw [← h.configs_eq]
    exact map_fst_set hthread
  · have hlt := (List.getElem?_eq_some_iff.mp hthread).1
    simp only [FileRun.remaining, List.getElem?_set_self hlt, hthread, Option.map_some,
      Option.getD_some]
    exact hw.remaining_lt hplan hconcurrency (workerMove_of_step hmoved)

/-- The watched thread can be brought to its end while the main thread waits. -/
theorem FileRun.Serving.exists_served (h : s.Serving target indexer itc i configs)
    (hcount : threadItCount (.ofNat target.bytes.length) indexer.maxBytesPerIteration = .ok count)
    (hcompletable : Completable target indexer count) (hconfig : configs[i]? = some config)
    (hwork : config.Completable target.bytes) :
    ∃ s' w ret, Reaches (fileStep target indexer) (FileRun.Smooth target) s s' ∧
      s'.Serving target indexer itc i configs ∧ s'.threads[i]? = some (config, w) ∧
      w.pc = .exited (some ret) ∧ w.progress = 1 ∧ w.ic ≠ [] := by
  obtain ⟨ic, hplan, -, hconcurrency, hne, hread⟩ := hwork
  -- every step of the thread lowers the number of steps it has left
  have hserved : ∃ s', Reaches (fileStep target indexer) (FileRun.Smooth target) s s' ∧
      s'.Serving target indexer itc i configs ∧ s'.Served i config :=
    exists_reaches_of_measure (FileRun.Serving target indexer itc i configs)
      (FileRun.Served i config) (FileRun.remaining i ic.chunks.length)
      (fun _ h hrunning =>
        h.exists_step hcount hcompletable hconfig hplan hconcurrency hread hrunning) h
  obtain ⟨s', hreach, hserving, w, hthread, ret, hexited⟩ := hserved
  have hmem := List.mem_of_getElem? hthread
  have hworking := (hserving.calm.undisturbed.threads _ hmem).2.working hplan (by simp [hexited])
  have hic : w.ic ≠ [] := by rwa [hworking.ic_eq]
  refine ⟨s', w, ret, hreach, hserving, hthread, hexited, ?_, hic⟩
  rw [(hserving.calm.reported _ hmem).progress_eq hexited, if_neg hic]

/-- The main thread goes on to the next thread. -/
theorem FileRun.Serving.exists_next (h : s.Serving target indexer itc i configs)
    (hcount : threadItCount (.ofNat target.bytes.length) indexer.maxBytesPerIteration = .ok count)
    (hcompletable : Completable target indexer count) (hconfig : configs[i]? = some config)
    (hwork : config.Completable target.bytes) :
    ∃ s', Reaches (fileStep target indexer) (FileRun.Smooth target) s s' ∧
      s'.Serving target indexer itc (i + 1) configs := by
  obtain ⟨s₁, w, ret, hreach, hserving, hthread, hexited, hprogress, hic⟩ :=
    h.exists_served hcount hcompletable hconfig hwork
  have hwatched : fileStep target indexer .proceed s₁ = some { s₁ with pc := .join itc i } := by
    simp only [fileStep, mainStep, hserving.pc_eq, hthread, hprogress, le_refl, if_true]
  have hcalm₂ := hserving.calm.proceed hcount hcompletable hwatched
  have hjoined : fileStep target indexer .proceed { s₁ with pc := .join itc i } =
      some ({ s₁ with pc := .join itc i }.joined itc i (some ret)) := by
    simp only [fileStep, mainStep, hthread, hexited]
  have hcalm₃ := hcalm₂.proceed hcount hcompletable hjoined
  have hinv := hcalm₂.undisturbed.inv
  have hstage := hinv.stage
  simp only [FileRun.Stage] at hstage
  obtain ⟨hindex, hw⟩ := hinv.threads i _ hthread
  obtain ⟨-, hthreads, -, hpc⟩ := hstage.1.next hthread hindex (done_of_inv hw hic hexited)
  refine ⟨_, (hreach.trans (reaches_proceed hwatched)).trans (reaches_proceed hjoined), hcalm₃,
    hpc, ?_⟩
  rw [hthreads]
  exact hserving.configs_eq

/-- All threads of the window are joined, one after the other, and their results handed to
the lookup file. -/
theorem FileRun.Serving.exists_window (h : s.Serving target indexer itc i configs)
    (hcount : threadItCount (.ofNat target.bytes.length) indexer.maxBytesPerIteration = .ok count)
    (hcompletable : Completable target indexer count)
    (hwork : ∀ config ∈ configs, config.Completable target.bytes) :
    ∃ s', Reaches (fileStep target indexer) (FileRun.Smooth target) s s' ∧
      s'.Calm target indexer ∧ s'.pc = .window itc ∧ s'.lookup.isSome := by
  induction hleft : configs.length - i generalizing s i with
  | zero =>
      have hthread : s.threads[i]? = none := by
        rw [List.getElem?_eq_none_iff, ← List.length_map Prod.fst, h.configs_eq]
        omega
      have hall : fileStep target indexer .proceed s = some { s with pc := .finish itc } := by
        simp only [fileStep, mainStep, h.pc_eq, hthread]
      have hcalm := h.calm.proceed hcount hcompletable hall
      have hfinish : fileStep target indexer .proceed { s with pc := .finish itc } =
          some ({ s with pc := .finish itc }.finished itc) := rfl
      have hcalm' := hcalm.proceed hcount hcompletable hfinish
      have hstage := hcalm.undisturbed.inv.stage
      simp only [FileRun.Stage] at hstage
      obtain ⟨heap, chunk, lookup, -, -, heq⟩ := hcalm.undisturbed.inv.exists_finished hstage.1
      refine ⟨_, (reaches_proceed hall).trans (reaches_proceed hfinish), hcalm', ?_, ?_⟩
      · rw [heq]
      · rw [heq]
        rfl
  | succ left ih =>
      have hi : i < configs.length := by omega
      obtain ⟨s', hreach, hserving⟩ := h.exists_next hcount hcompletable
        (List.getElem?_eq_getElem hi) (hwork _ (List.getElem_mem hi))
      obtain ⟨s'', hreach', hrest⟩ := ih hserving (by omega)
      exact ⟨s'', hreach.trans hreach', hrest⟩

/-- The windows are done one after the other, down to the first one. -/
theorem FileRun.Calm.exists_windows (h : s.Calm target indexer)
    (hcount : threadItCount (.ofNat target.bytes.length) indexer.maxBytesPerIteration = .ok count)
    (hcompletable : Completable target indexer count) {left : ℕ} (hpc : s.pc = .window left)
    (hle : left ≤ count) (hlookup : left = 0 → s.lookup.isSome) :
    ∃ s', Reaches (fileStep target indexer) (FileRun.Smooth target) s s' ∧
      s'.pc = .window 0 ∧ s'.lookup.isSome := by
  induction left generalizing s with
  | zero => exact ⟨s, .refl s, hpc, hlookup rfl⟩
  | succ itc ih =>
      obtain ⟨it, hplan⟩ := hcompletable.plan itc hle
      have hspawned : fileStep target indexer .proceed s = some (s.spawned indexer itc it) := by
        simp only [fileStep, mainStep, hpc, hplan]
      have hcalm := h.proceed hcount hcompletable hspawned
      have hserving : (s.spawned indexer itc it).Serving target indexer itc 0
          (textThreads indexer it) :=
        ⟨hcalm, rfl, by simp [FileRun.spawned, Function.comp_def]⟩
      have hwork : ∀ config ∈ textThreads indexer it, config.Completable target.bytes := by
        intro config hconfig
        refine hcompletable.threads itc hle config ?_
        simpa only [windowConfigs, hplan] using hconfig
      obtain ⟨s', hreach, hcalm', hpc', hsome⟩ := hserving.exists_window hcount hcompletable hwork
      obtain ⟨s'', hreach', hrest⟩ := ih hcalm' hpc' (by omega) fun _ => hsome
      exact ⟨s'', ((reaches_proceed hspawned).trans hreach).trans hreach', hrest⟩

/-- **A completable call returns** an index in some run. -/
theorem exists_returned
    (hcount : threadItCount (.ofNat target.bytes.length) indexer.maxBytesPerIteration = .ok count)
    (hcompletable : Completable target indexer count) :
    ∃ s index, Reaches (fileStep target indexer) (FileRun.Smooth target) .start s ∧
      s.pc = .returned (some index) := by
  have hopened : fileStep target indexer .proceed .start =
      some { FileRun.start with pc := .window count } := by
    simp only [fileStep, mainStep, FileRun.start, hcount]
  have hcalm := (FileRun.calm_start target indexer).proceed hcount hcompletable hopened
  obtain ⟨s, hreach, hpc, hsome⟩ := hcalm.exists_windows hcount hcompletable rfl le_rfl
    fun hzero => absurd hzero (threadItCount_pos hcount).ne'
  obtain ⟨lookup, hlookup⟩ := Option.isSome_iff_exists.mp hsome
  have hclose : fileStep target indexer .proceed s = some { s with pc := .close } := by
    simp only [fileStep, mainStep, hpc]
  have hreturn : fileStep target indexer .proceed { s with pc := .close } =
      some { s with pc := .returned (some ⟨target, lookup⟩) } := by
    simp only [fileStep, mainStep, hlookup, Option.map_some]
  exact ⟨_, _, (((reaches_proceed hopened).trans hreach).trans
    (reaches_proceed hclose)).trans (reaches_proceed hreturn), rfl⟩

end

end Flashlight.TextIndexer
