/-
# Exact indexes

When no call fails and every read delivers its whole chunk, `f_index_text_file` can
still return a table that is not exact: the two planners may leave a byte out or plan
it twice, and a reduction of several lists of which exactly one is not empty loses
that list. Where the plan of a file avoids this, every index that is returned is
exact, whatever the order of the steps of the threads.

A window in which some thread has no chunk, or a chunk that cannot be read, is never
completed: the main thread goes on watching that thread, and what is planned for the
windows before it does not matter.
-/

import Flashlight.TextIndexer.FileInvariant
import Flashlight.TextIndexer.Smooth

namespace Flashlight.TextIndexer

open Flashlight.Math Flashlight.Indexer
open scoped List

/-! ## The plan of a file -/

/-- The configurations of the threads of window `itc`. -/
def windowConfigs (target : TargetFile) (indexer : FIndexer) (itc : ℕ) : List FTextThread :=
  match windowPlan target indexer itc with
  | .ok it => textThreads indexer it
  | .error _ => []

/-- The chunks of a thread. -/
def FTextThread.chunks (config : FTextThread) : List FIndexerChunk :=
  match config.plan with
  | .ok ic => ic.chunks
  | .error _ => []

/-- The ends of the newlines in the range of a chunk. -/
def chunkEnds (bytes : List UInt8) (chunk : FIndexerChunk) : List ℕ :=
  sepEnds isNewline chunk.fromOffset.toNat (chunkBuffer bytes chunk)

/-- All chunks planned for the windows below `count`, window by window and thread by
thread. -/
def plannedChunks (target : TargetFile) (indexer : FIndexer) (count : ℕ) : List FIndexerChunk :=
  (List.range count).flatMap fun itc => (windowConfigs target indexer itc).flatMap
    FTextThread.chunks

/-- The thread has a plan, and its loop over the batches counts on. -/
def FTextThread.Defined (config : FTextThread) : Prop :=
  ∃ ic, config.plan = .ok ic ∧ CountsOn ic

/-- Window `itc` has a plan, and so have its threads. -/
structure WindowDefined (target : TargetFile) (indexer : FIndexer) (itc : ℕ) : Prop where
  plan : ∃ it, windowPlan target indexer itc = .ok it
  threads : ∀ config ∈ windowConfigs target indexer itc, config.Defined

/-- A thread of the window has nothing to read, or a chunk that no read delivers. -/
def WindowStalls (target : TargetFile) (indexer : FIndexer) (itc : ℕ) : Prop :=
  ∃ config ∈ windowConfigs target indexer itc, config.chunks = [] ∨
    ∃ chunk ∈ config.chunks, 2 ^ 63 ≤ chunk.fromOffset.toNat ∨
      maxTransfer < (chunkBuffer target.bytes chunk).length

/-- The planned chunks hold the newlines in their order, and no reduction loses one. -/
structure ReadsInOrder (target : TargetFile) (indexer : FIndexer) (count : ℕ) : Prop where
  /-- Every newline is in the range of a chunk. -/
  covered : ∀ e ∈ newlineEnds target.bytes, ∃ chunk ∈ plannedChunks target indexer count,
    e ∈ chunkEnds target.bytes chunk
  /-- The newlines of a chunk come before those of the chunks planned after it. -/
  ascending : (plannedChunks target indexer count).Pairwise fun x y =>
    ∀ d ∈ chunkEnds target.bytes x, ∀ e ∈ chunkEnds target.bytes y, d < e
  /-- A thread has one chunk, or not exactly one chunk with newlines. -/
  chunks : ∀ itc < count, ∀ config ∈ windowConfigs target indexer itc,
    Published (config.chunks.map (chunkEnds target.bytes))
  /-- A window has one thread, or not exactly one thread with newlines. -/
  threads : ∀ itc < count, Published ((windowConfigs target indexer itc).map fun config =>
    config.chunks.flatMap (chunkEnds target.bytes))

/-- The plan of the file: what is reached of it is defined, and if no window stalls, it
reads the newlines in order. -/
def Indexable (target : TargetFile) (indexer : FIndexer) : Prop :=
  ∃ count, threadItCount (.ofNat target.bytes.length) indexer.maxBytesPerIteration = .ok count ∧
    (∀ itc < count, (∀ j < count, itc < j → ¬ WindowStalls target indexer j) →
      WindowDefined target indexer itc) ∧
    ((∀ itc < count, ¬ WindowStalls target indexer itc) → ReadsInOrder target indexer count)

/-! Whether a file can be indexed can be computed from its plan. -/

instance (ic : FIndexerChunks) : Decidable (CountsOn ic) :=
  inferInstanceAs (Decidable (∀ i < ic.chunks.length, ic.concurrency.toInt.toNat ∣ i →
    i + ic.concurrency.toInt.toNat < 2 ^ 31))

instance {α : Type*} (lists : List (List α)) : Decidable (Published lists) :=
  inferInstanceAs (Decidable (lists.length = 1 ∨ nonempties lists ≠ 1))

instance (config : FTextThread) : Decidable config.Defined :=
  match hplan : config.plan with
  | .ok ic =>
      decidable_of_iff (CountsOn ic)
        ⟨fun h => ⟨ic, hplan, h⟩, fun ⟨_, hic, h⟩ => Except.ok.inj (hplan.symm.trans hic) ▸ h⟩
  | .error _ => .isFalse fun ⟨_, hic, _⟩ => by cases hplan.symm.trans hic

instance (target : TargetFile) (indexer : FIndexer) (itc : ℕ) :
    Decidable (WindowDefined target indexer itc) :=
  match hplan : windowPlan target indexer itc with
  | .ok it =>
      decidable_of_iff (∀ config ∈ windowConfigs target indexer itc, config.Defined)
        ⟨fun h => ⟨⟨it, hplan⟩, h⟩, WindowDefined.threads⟩
  | .error _ => .isFalse fun h => by
      obtain ⟨_, hit⟩ := h.plan
      cases hplan.symm.trans hit

instance (target : TargetFile) (indexer : FIndexer) (itc : ℕ) :
    Decidable (WindowStalls target indexer itc) :=
  inferInstanceAs (Decidable (∃ config ∈ windowConfigs target indexer itc, config.chunks = [] ∨
    ∃ chunk ∈ config.chunks, 2 ^ 63 ≤ chunk.fromOffset.toNat ∨
      maxTransfer < (chunkBuffer target.bytes chunk).length))

instance (target : TargetFile) (indexer : FIndexer) (count : ℕ) :
    Decidable (ReadsInOrder target indexer count) :=
  decidable_of_iff
    ((∀ e ∈ newlineEnds target.bytes, ∃ chunk ∈ plannedChunks target indexer count,
        e ∈ chunkEnds target.bytes chunk) ∧
      ((plannedChunks target indexer count).Pairwise fun x y =>
        ∀ d ∈ chunkEnds target.bytes x, ∀ e ∈ chunkEnds target.bytes y, d < e) ∧
      (∀ itc < count, ∀ config ∈ windowConfigs target indexer itc,
        Published (config.chunks.map (chunkEnds target.bytes))) ∧
      ∀ itc < count, Published ((windowConfigs target indexer itc).map fun config =>
        config.chunks.flatMap (chunkEnds target.bytes)))
    ⟨fun ⟨hcovered, hascending, hchunks, hthreads⟩ => ⟨hcovered, hascending, hchunks, hthreads⟩,
      fun ⟨hcovered, hascending, hchunks, hthreads⟩ => ⟨hcovered, hascending, hchunks, hthreads⟩⟩

instance (target : TargetFile) (indexer : FIndexer) : Decidable (Indexable target indexer) :=
  match hcount : threadItCount (.ofNat target.bytes.length) indexer.maxBytesPerIteration with
  | .ok count =>
      decidable_of_iff
        ((∀ itc < count, (∀ j < count, itc < j → ¬ WindowStalls target indexer j) →
            WindowDefined target indexer itc) ∧
          ((∀ itc < count, ¬ WindowStalls target indexer itc) →
            ReadsInOrder target indexer count))
        ⟨fun h => ⟨count, hcount, h⟩,
          fun ⟨_, hother, h⟩ => by
            obtain rfl := Except.ok.inj (hcount.symm.trans hother)
            exact h⟩
  | .error _ => .isFalse fun ⟨_, hother, _⟩ => by cases hcount.symm.trans hother

/-! ## Smooth runs -/

/-- Nothing goes wrong in a step. -/
def FileRun.Smooth (target : TargetFile) (s : FileRun) : FileAction → Prop
  | .proceed => True
  | .fault => False
  | .worker t a => ∀ thread ∈ s.threads[t]?, thread.2.Smooth target.bytes a

instance (target : TargetFile) (s : FileRun) (a : FileAction) : Decidable (s.Smooth target a) :=
  match a with
  | .proceed => .isTrue trivial
  | .fault => .isFalse id
  | .worker t a => inferInstanceAs
      (Decidable (∀ thread ∈ s.threads[t]?, thread.2.Smooth target.bytes a))

/-- The thread has read all of its chunks, in full. -/
structure ReadAll (bytes : List UInt8) (thread : TextThread) : Prop where
  scanned : ∀ entry ∈ thread.2.examined, entry.2 = (chunkBuffer bytes entry.1).length
  transferred : ∀ entry ∈ thread.2.examined, (chunkBuffer bytes entry.1).length ≤ maxTransfer

/-- The state of the call after a smooth run. -/
structure FileRun.Undisturbed (target : TargetFile) (indexer : FIndexer) (s : FileRun) :
    Prop where
  inv : s.Inv target indexer
  defined : s.pc ≠ .undefined
  threads : ∀ thread ∈ s.threads, thread.1.Defined ∧
    thread.2.Undisturbed target.bytes thread.1 s.heap
  history : ∀ entry ∈ s.history, ∀ thread ∈ entry.2, ReadAll target.bytes thread

section

variable {target : TargetFile} {indexer : FIndexer} {s s' : FileRun} {a : FileAction} {itc : ℕ}
  {threads : List TextThread} {thread : TextThread} {heap heap' : Heap} {ret : FChunk}

theorem windowConfigs_eq (h : ThreadsOf target indexer itc threads) :
    windowConfigs target indexer itc = threads.map Prod.fst := by
  obtain ⟨it, hplan, hconfigs⟩ := h
  simp only [windowConfigs, hplan, hconfigs]

theorem chunks_eq {config : FTextThread} {ic : FIndexerChunks} (hplan : config.plan = .ok ic) :
    config.chunks = ic.chunks := by
  simp only [FTextThread.chunks, hplan]

theorem FileRun.undisturbed_start (target : TargetFile) (indexer : FIndexer) :
    FileRun.start.Undisturbed target indexer :=
  ⟨FileRun.inv_start _ _, by simp [FileRun.start], by simp [FileRun.start],
    by simp [FileRun.start]⟩

/-- A thread that is done and has read everything has examined its chunks. -/
theorem Done.examined_eq {bytes : List UInt8} (h : Done bytes heap thread ret)
    (hread : ReadAll bytes thread) :
    thread.2.examined = thread.1.chunks.map fun chunk =>
      (chunk, (chunkBuffer bytes chunk).length) := by
  obtain ⟨ic, hplan, hw, hwritten⟩ := h.written_eq
  rw [chunks_eq hplan]
  exact hw.examined_eq hwritten hread.scanned

/-- A window that is done did not stall. -/
theorem WindowDone.not_stalls (h : WindowDone target indexer itc threads)
    (hread : ∀ thread ∈ threads, ReadAll target.bytes thread) :
    ¬ WindowStalls target indexer itc := by
  rintro ⟨config, hconfig, hstalls⟩
  rw [windowConfigs_eq h.threadsOf] at hconfig
  obtain ⟨thread, hthread, rfl⟩ := List.mem_map.mp hconfig
  obtain ⟨heap, ret, hdone⟩ := h.done thread hthread
  have hexamined := hdone.examined_eq (hread thread hthread)
  obtain ⟨ic, hplan, hne, hw⟩ := hdone.plan
  rcases hstalls with hnil | ⟨chunk, hchunk, hstalls⟩
  · rw [chunks_eq hplan] at hnil
    exact hne hnil
  · have hentry : (chunk, (chunkBuffer target.bytes chunk).length) ∈ thread.2.examined := by
      rw [hexamined]
      exact List.mem_map_of_mem hchunk
    have hfrom := (hw.planned _ hentry).2.1
    have hlength := (hread thread hthread).transferred _ hentry
    simp only at hfrom hlength
    omega

/-- The windows behind the current one did not stall. -/
theorem FileRun.Undisturbed.not_stalls (h : s.Undisturbed target indexer) {left count : ℕ}
    (hpast : s.Past target indexer left)
    (hcount : threadItCount (.ofNat target.bytes.length) indexer.maxBytesPerIteration = .ok count) :
    left ≤ count ∧ ∀ j, left ≤ j → j < count → ¬ WindowStalls target indexer j := by
  obtain ⟨count', hcount', hle, -⟩ := hpast.windows
  obtain rfl : count = count' := Except.ok.inj (hcount.symm.trans hcount')
  refine ⟨hle, fun j hj hlt => ?_⟩
  obtain ⟨threads, hentry⟩ := hpast.exists_threads hcount hj hlt
  exact (hpast.done _ hentry).not_stalls (h.history _ hentry)

/-- **Smooth steps** keep the call undisturbed if every window that is reached has a plan. -/
theorem FileRun.Undisturbed.step {count : ℕ}
    (hcount : threadItCount (.ofNat target.bytes.length) indexer.maxBytesPerIteration = .ok count)
    (hdefined : ∀ itc < count, (∀ j < count, itc < j → ¬ WindowStalls target indexer j) →
      WindowDefined target indexer itc)
    (h : s.Undisturbed target indexer) (hsmooth : s.Smooth target a)
    (hmove : FileMove target indexer s a s') : s'.Undisturbed target indexer := by
  have hinv := h.inv.step hmove
  have hstage := h.inv.stage
  cases hmove with
  | opened hpc _ => exact ⟨hinv, by simp, h.threads, h.history⟩
  | unopened _ hcount' _ => cases hcount.symm.trans hcount'
  | windowsDone _ => exact ⟨hinv, by simp, h.threads, h.history⟩
  | @spawned itc it hpc hplan =>
      simp only [FileRun.Stage, hpc] at hstage
      obtain ⟨hle, hstalls⟩ := h.not_stalls hstage.2 hcount
      have hwindow := hdefined itc (by omega) fun j hlt hj => hstalls j (by omega) hlt
      refine ⟨hinv, by simp [FileRun.spawned], fun thread hthread => ?_, h.history⟩
      obtain ⟨config, hconfig, rfl⟩ := List.mem_map.mp hthread
      refine ⟨hwindow.threads config ?_, Worker.undisturbed_start _ _ _⟩
      simp only [windowConfigs, hplan]
      exact hconfig
  | @unplanned itc fault pc hpc hplan _ =>
      simp only [FileRun.Stage, hpc] at hstage
      obtain ⟨hle, hstalls⟩ := h.not_stalls hstage.2 hcount
      obtain ⟨it, hok⟩ := (hdefined itc (by omega) fun j hlt hj => hstalls j (by omega) hlt).plan
      cases hok.symm.trans hplan
  | watched _ _ _ => exact ⟨hinv, by simp, h.threads, h.history⟩
  | allJoined _ _ => exact ⟨hinv, by simp, h.threads, h.history⟩
  | @joined itc i thread result hpc hthread hresult =>
      simp only [FileRun.Stage, hpc] at hstage
      obtain ⟨hjoining, -, other, hother, hic⟩ := hstage
      obtain rfl : thread = other := Option.some.inj (hthread.symm.trans hother)
      obtain ⟨hindex, hw⟩ := h.inv.threads i thread hthread
      cases result with
      | none =>
          exact absurd hresult (h.threads thread (List.mem_of_getElem? hthread)).2.notFailed
      | some ret =>
          obtain ⟨-, hthreads, hheap, hpc'⟩ :=
            hjoining.next hthread hindex (done_of_inv hw hic hresult)
          refine ⟨hinv, by simp [hpc'], by rw [hthreads, hheap]; exact h.threads, ?_⟩
          rw [FileRun.joined]
          split <;> exact h.history
  | @finished itc hpc =>
      simp only [FileRun.Stage, hpc] at hstage
      obtain ⟨heap, chunk, lookup, -, -, heq⟩ := h.inv.exists_finished hstage.1
      rw [heq] at hinv ⊢
      refine ⟨hinv, by simp, by simp, fun entry hentry => ?_⟩
      rcases List.mem_append.mp hentry with hentry | hentry
      · exact h.history entry hentry
      · rw [List.mem_singleton.mp hentry]
        intro thread hthread
        have hw := (h.threads thread hthread).2
        exact ⟨hw.inFull.scanned_eq, hw.transferred⟩
  | closed _ => exact ⟨hinv, by simp, h.threads, h.history⟩
  | fault _ => exact hsmooth.elim
  | @worker t b config w w' heap hthread hmove =>
      refine ⟨hinv, h.defined, fun thread hmem => ?_, h.history⟩
      obtain ⟨u, hu⟩ := List.getElem?_of_mem hmem
      rw [List.getElem?_set] at hu
      split at hu
      · split at hu
        · obtain rfl := Option.some.inj hu
          obtain ⟨hdef, hw⟩ := h.threads _ (List.mem_of_getElem? hthread)
          obtain ⟨ic, hplan, hcounts⟩ := hdef
          exact ⟨⟨ic, hplan, hcounts⟩, hw.step hplan hcounts (hsmooth _ hthread) hmove⟩
        · cases hu
      · next hne =>
          obtain ⟨hdef, hw⟩ := h.threads thread (List.mem_of_getElem? hu)
          have hagree := h.inv.agreeOn_other hthread hmove hu (Ne.symm hne)
          exact ⟨hdef, hw.inv.agreeOn hagree, hw.inFull, hw.transferred, hw.defined, hw.notFailed⟩

/-- **A smooth run** leaves the call undisturbed. -/
theorem FileRun.undisturbed_of_reaches {count : ℕ}
    (hcount : threadItCount (.ofNat target.bytes.length) indexer.maxBytesPerIteration = .ok count)
    (hdefined : ∀ itc < count, (∀ j < count, itc < j → ¬ WindowStalls target indexer j) →
      WindowDefined target indexer itc)
    (hreach : Reaches (fileStep target indexer) (FileRun.Smooth target) .start s) :
    s.Undisturbed target indexer :=
  hreach.invariant (FileRun.undisturbed_start target indexer)
    fun _ _ _ h hsmooth hstep => h.step hcount hdefined hsmooth (fileMove_of_step hstep)

end

/-! ## The table of an indexable file -/

theorem published_congr {α β γ : Type*} {l : List α} {f : α → List β} {g : α → List γ}
    (hempty : ∀ x ∈ l, f x = [] ↔ g x = []) : Published (l.map f) ↔ Published (l.map g) := by
  have hcount : nonempties (l.map f) = nonempties (l.map g) := by
    rw [nonempties, nonempties, List.countP_map, List.countP_map]
    refine List.countP_congr fun x hx => ?_
    simp [hempty x hx]
  rw [Published, Published, hcount, List.length_map, List.length_map]

/-- The nodes that a thread will have read. -/
def plannedNodes (bytes : List UInt8) (config : FTextThread) : List FBytesNode :=
  (config.chunks.map fun chunk => scanNodes ⟨config.thread, chunk.index.toNat⟩
    chunk.fromOffset.toNat (chunkBuffer bytes chunk)).reverse.flatten

/-- The nodes that will be handed over for window `itc`. -/
def windowNodes (target : TargetFile) (indexer : FIndexer) (itc : ℕ) : List FBytesNode :=
  ((windowConfigs target indexer itc).map (plannedNodes target.bytes)).reverse.flatten

section

variable {target : TargetFile} {indexer : FIndexer} {itc count : ℕ} {threads : List TextThread}
  {thread : TextThread} {heap : Heap} {ret : FChunk} {bytes : List UInt8}

theorem chunkEnds_eq_nil_iff {chunk : FIndexerChunk} :
    chunkEnds bytes chunk = [] ↔ (chunkBuffer bytes chunk).countP isNewline = 0 := by
  rw [← List.length_eq_zero_iff, chunkEnds, length_sepEnds]

/-- The newline ends in the range of a chunk are those of the file in that range. -/
theorem mem_chunkEnds {chunk : FIndexerChunk} {e : ℕ} :
    e ∈ chunkEnds bytes chunk ↔ e ∈ newlineEnds bytes ∧ chunk.fromOffset.toNat < e ∧
      e ≤ chunk.fromOffset.toNat + chunk.count.toNat := by
  have hslice : chunkBuffer bytes chunk =
      slice bytes chunk.fromOffset.toNat (chunk.fromOffset.toNat + chunk.count.toNat) := by
    rw [slice_eq_take_drop, Nat.add_sub_cancel_left, chunkBuffer]
  rw [chunkEnds, hslice]
  exact mem_sepEnds_slice

/-- A plan that reads in order meets the newlines of the file one after the other. -/
theorem ReadsInOrder.flatMap_chunkEnds (h : ReadsInOrder target indexer count) :
    (plannedChunks target indexer count).flatMap (chunkEnds target.bytes) =
      newlineEnds target.bytes := by
  apply eq_sepEnds
  · exact List.pairwise_flatMap.mpr ⟨fun chunk _ => pairwise_sepEnds _ _ _, h.ascending⟩
  · intro e
    rw [List.mem_flatMap]
    constructor
    · rintro ⟨chunk, -, he⟩
      exact (mem_chunkEnds.mp he).1
    · exact h.covered e

/-- A thread that is done holds the nodes that were planned. -/
theorem Done.threadNodes_eq (h : Done bytes heap thread ret) (hread : ReadAll bytes thread) :
    threadNodes bytes thread = plannedNodes bytes thread.1 := by
  rw [threadNodes, examinedNodes, h.examined_eq hread, List.map_map, plannedNodes]
  congr 3
  funext chunk
  simp only [Function.comp, entryNodes, scannedBytes, List.take_length]

theorem plannedNodes_eq_nil_iff {config : FTextThread} :
    plannedNodes bytes config = [] ↔ config.chunks.flatMap (chunkEnds bytes) = [] := by
  simp only [plannedNodes, List.flatten_eq_nil_iff, List.mem_reverse, List.mem_map,
    forall_exists_index, and_imp, forall_apply_eq_imp_iff₂, scanNodes_eq_nil_iff,
    List.flatMap_eq_nil_iff, chunkEnds_eq_nil_iff]

/-- A plan that reads in order loses nothing in a window. -/
theorem WindowDone.published (h : WindowDone target indexer itc threads)
    (hread : ∀ thread ∈ threads, ReadAll target.bytes thread)
    (horder : ReadsInOrder target indexer count) (hitc : itc < count) :
    WindowPublished target.bytes threads where
  chunks := by
    intro thread hthread
    obtain ⟨heap, ret, hdone⟩ := h.done thread hthread
    have hchunks := horder.chunks itc hitc thread.1 (by
      rw [windowConfigs_eq h.threadsOf]
      exact List.mem_map_of_mem hthread)
    rw [hdone.examined_eq (hread thread hthread), List.map_map]
    refine (published_congr fun chunk _ => ?_).mpr hchunks
    simp only [Function.comp, entryNodes, scannedBytes, List.take_length, scanNodes_eq_nil_iff,
      chunkEnds_eq_nil_iff]
  threads := by
    have hthreads := horder.threads itc hitc
    rw [windowConfigs_eq h.threadsOf, List.map_map] at hthreads
    refine (published_congr fun thread hthread => ?_).mpr hthreads
    obtain ⟨heap, ret, hdone⟩ := h.done thread hthread
    rw [hdone.threadNodes_eq (hread thread hthread), plannedNodes_eq_nil_iff]
    rfl

theorem length_threadNodes (bytes : List UInt8) (thread : TextThread) :
    (threadNodes bytes thread).length = threadNewlines bytes thread := by
  rw [threadNodes, examinedNodes, List.length_flatten, List.map_reverse, List.sum_reverse,
    List.map_map, threadNewlines, examinedNewlines]
  congr 1
  refine List.map_congr_left fun entry _ => ?_
  exact length_scanNodes _ _ _

/-- The nodes of a window. -/
theorem WindowDone.nodes_eq (h : WindowDone target indexer itc threads)
    (hread : ∀ thread ∈ threads, ReadAll target.bytes thread) :
    (threads.map (threadNodes target.bytes)).reverse.flatten = windowNodes target indexer itc := by
  rw [windowNodes, windowConfigs_eq h.threadsOf, List.map_map]
  congr 2
  refine List.map_congr_left fun thread hthread => ?_
  obtain ⟨heap, ret, hdone⟩ := h.done thread hthread
  exact hdone.threadNodes_eq (hread thread hthread)

theorem map_offset_plannedNodes {config : FTextThread}
    (hfits : ∀ chunk ∈ config.chunks,
      chunk.fromOffset.toNat + (chunkBuffer bytes chunk).length < 2 ^ 64) :
    (plannedNodes bytes config).map (fun node => node.offset.toNat) =
      (config.chunks.flatMap (chunkEnds bytes)).reverse := by
  rw [plannedNodes, List.map_flatten, ← List.map_reverse, List.map_map, ← List.flatMap_def,
    List.reverse_flatMap]
  refine List.flatMap_congr fun chunk hchunk => ?_
  exact map_offset_scanNodes (hfits chunk (List.mem_reverse.mp hchunk))

/-- The offsets of the nodes of a window: its newline ends, last one first. -/
theorem map_offset_windowNodes (hstalls : ¬ WindowStalls target indexer itc) :
    (windowNodes target indexer itc).map (fun node => node.offset.toNat) =
      (((windowConfigs target indexer itc).flatMap FTextThread.chunks).flatMap
        (chunkEnds target.bytes)).reverse := by
  rw [windowNodes, List.map_flatten, ← List.map_reverse, List.map_map, ← List.flatMap_def,
    List.flatMap_assoc, List.reverse_flatMap]
  refine List.flatMap_congr fun config hconfig => ?_
  refine map_offset_plannedNodes fun chunk hchunk => ?_
  by_contra hlarge
  refine hstalls ⟨config, List.mem_reverse.mp hconfig, Or.inr ⟨chunk, hchunk, ?_⟩⟩
  rw [maxTransfer]
  omega

/-- The nodes of all windows, as they are handed over: the newline ends of the file, last
one first. -/
theorem ReadsInOrder.map_offset_nodes (h : ReadsInOrder target indexer count)
    (hstalls : ∀ itc < count, ¬ WindowStalls target indexer itc) :
    ((List.range count).reverse.map (windowNodes target indexer)).flatten.map
      (fun node => node.offset.toNat) = (newlineEnds target.bytes).reverse := by
  rw [← h.flatMap_chunkEnds, plannedChunks, List.map_flatten, List.map_map, ← List.flatMap_def,
    List.flatMap_assoc, List.reverse_flatMap]
  refine List.flatMap_congr fun itc hitc => ?_
  exact map_offset_windowNodes (hstalls itc (by simpa using hitc))

/-- The index that is returned at the end of an undisturbed call of an indexable file. -/
theorem FileRun.Undisturbed.index_eq {s : FileRun} {index : FIndex}
    (h : s.Undisturbed target indexer) (hindexable : Indexable target indexer)
    (hpc : s.pc = .returned (some index)) :
    index = ⟨target, ⟨(exactEntries target.bytes).flatMap sizeBytes,
      .ofNat (newlineCount target.bytes + 1)⟩⟩ := by
  obtain ⟨count, hcount, -, horder⟩ := hindexable
  obtain ⟨-, hpast, htarget, hlookup⟩ := h.inv.returned hpc
  obtain ⟨count', hcount', -, -, handed, hhanded, hloop⟩ := hpast.windows
  obtain rfl : count = count' := Except.ok.inj (hcount.symm.trans hcount')
  have hstalls : ∀ itc < count, ¬ WindowStalls target indexer itc := fun itc hitc =>
    (h.not_stalls hpast hcount).2 itc (Nat.zero_le _) hitc
  have horder := horder hstalls
  have hoffsets := horder.map_offset_nodes hstalls
  have hcalls : List.Forall₂ HoldsWrapped ((List.range count).reverse.map handed)
      ((List.range count).reverse.map (windowNodes target indexer)) := by
    rw [List.forall₂_map_left_iff, List.forall₂_map_right_iff, List.forall₂_same]
    intro itc hitc
    have hlt : itc < count := by simpa using hitc
    obtain ⟨threads, hentry⟩ := hpast.exists_threads hcount (Nat.zero_le itc) hlt
    have hdone := hpast.done _ hentry
    have hread := h.history _ hentry
    have hcall := hhanded _ hentry
    have hnodes := hdone.nodes_eq hread
    refine ⟨?_, ?_⟩
    · rw [← hnodes]
      exact hcall.holds (hdone.published hread horder hlt)
    · have hsum : (threads.map (threadNewlines target.bytes)).sum =
          (windowNodes target indexer itc).length := by
        rw [← hnodes, List.length_flatten, List.map_reverse, List.sum_reverse, List.map_map]
        congr 1
        exact List.map_congr_left fun thread _ => (length_threadNodes _ thread).symm
      rw [hcall.lineCount_eq, hsum]
  have hpos := threadItCount_pos hcount
  have hne : (List.range count).reverse.map handed ≠ [] := by
    simp only [ne_eq, List.map_eq_nil_iff, List.reverse_eq_nil_iff, List.range_eq_nil]
    omega
  have hfinal := hloop handed fun _ _ => rfl
  rw [windowLoop_eq_fromChunks, fromChunks_eq_of_offsets hcalls hne hoffsets, windowLoop,
    hlookup] at hfinal
  obtain ⟨_, _⟩ := index
  obtain rfl := htarget
  rw [FIndex.mk.injEq]
  exact ⟨rfl, (Option.some.inj hfinal).symm⟩

/-- **The table is exact** as long as an `unsigned int` counts its lines. -/
theorem FileRun.Undisturbed.exact {s : FileRun} {index : FIndex}
    (h : s.Undisturbed target indexer) (hindexable : Indexable target indexer)
    (hnewlines : newlineCount target.bytes < 2 ^ 32 - 1)
    (hpc : s.pc = .returned (some index)) : index.target = target ∧ index.Exact := by
  rw [h.index_eq hindexable hpc]
  exact ⟨rfl, rfl, UInt32.toNat_ofNat_of_lt' (by simp only [UInt32.size]; omega)⟩

end

/-- **Index exactness.** In every run in which nothing goes wrong, on a file whose plan
reads its newlines in order, the call stays defined, and the index that it returns is
the exact index of the file. -/
theorem fIndexTextFile_exact (target : TargetFile) (indexer : FIndexer)
    (hnewlines : newlineCount target.bytes < 2 ^ 32 - 1)
    (hindexable : Indexable target indexer) {s : FileRun}
    (hreach : Reaches (fileStep target indexer) (FileRun.Smooth target) .start s) :
    s.pc ≠ .undefined ∧ (∀ thread ∈ s.threads, thread.2.pc ≠ .undefined) ∧
      ∀ index, s.pc = .returned (some index) → index.target = target ∧ index.Exact := by
  have hs : s.Undisturbed target indexer := by
    obtain ⟨count, hcount, hdefined, -⟩ := hindexable
    exact FileRun.undisturbed_of_reaches hcount hdefined hreach
  exact ⟨hs.defined, fun thread hthread => (hs.threads thread hthread).2.defined,
    fun index hpc => hs.exact hindexable hnewlines hpc⟩

/-- A smooth run can be found by computing it. -/
theorem exists_reaches_of_summary {target : TargetFile} {indexer : FIndexer}
    {actions : List FileAction} {lookup : FLookupFile} {examined : List (FIndexerChunk × ℕ)}
    (h : (runTrace (fileStep target indexer) actions .start).map (fun run => (run.2.summary,
      run.1.all fun move => decide (move.1.Smooth target move.2))) =
      some ((some lookup, examined), true)) :
    ∃ s, Reaches (fileStep target indexer) (FileRun.Smooth target) .start s ∧
      s.pc = .returned (some ⟨target, lookup⟩) ∧ s.examined = examined := by
  obtain ⟨⟨trace, s⟩, hrun, hpair⟩ := Option.map_eq_some_iff.mp h
  obtain ⟨hsummary, hsmooth⟩ := Prod.mk.inj hpair
  have hrun := run_of_runTrace hrun
  have hsmooth : ∀ move ∈ trace, move.1.Smooth target move.2 := by
    intro move hmove
    exact of_decide_eq_true (List.all_eq_true.mp hsmooth move hmove)
  exact ⟨s, hrun.reaches_of_forall hsmooth,
    ((FileRun.inv_start target indexer).of_run hrun).returned_of_summary hsummary⟩

/-- Indexing `windowsFile`. -/
theorem exists_reaches_windows : ∃ s,
    Reaches (fileStep windowsFile windowsIndexer) (FileRun.Smooth windowsFile) .start s ∧
      s.pc = .returned (some windowsIndex) ∧
      s.examined = [(⟨0, 5, 1⟩, 1), (⟨1, 6, 1⟩, 1), (⟨0, 8, 1⟩, 1), (⟨1, 9, 1⟩, 1),
        (⟨0, 0, 1⟩, 1), (⟨1, 1, 1⟩, 1), (⟨0, 3, 1⟩, 1), (⟨1, 4, 1⟩, 1)] := by
  have hsummary : (runTrace (fileStep windowsFile windowsIndexer) windowsActions .start).map
      (fun run => (run.2.summary,
        run.1.all fun move => decide (move.1.Smooth windowsFile move.2))) =
      some ((some windowsIndex.flookup, [(⟨0, 5, 1⟩, 1), (⟨1, 6, 1⟩, 1), (⟨0, 8, 1⟩, 1),
        (⟨1, 9, 1⟩, 1), (⟨0, 0, 1⟩, 1), (⟨1, 1, 1⟩, 1), (⟨0, 3, 1⟩, 1), (⟨1, 4, 1⟩, 1)]),
        true) := by
    decide +kernel
  exact exists_reaches_of_summary hsummary

/-- The table of `windowsFile`, whose windows are indexed from the last one to the first one
by two threads at a time. -/
theorem fIndexTextFile_exact_windows : ∃ s,
    Reaches (fileStep windowsFile windowsIndexer) (FileRun.Smooth windowsFile) .start s ∧
      s.pc = .returned (some windowsIndex) ∧ windowsIndex.Exact := by
  obtain ⟨s, hreach, hpc, -⟩ := exists_reaches_windows
  obtain ⟨-, -, hexact⟩ :=
    fIndexTextFile_exact windowsFile windowsIndexer (by decide) (by decide +kernel) hreach
  exact ⟨s, hreach, hpc, (hexact _ hpc).2⟩

/-- Read as two chunks of one byte, of which only the second one has a newline, `lineFile`
gets a table without it. -/
theorem fIndexTextFile_inexact : ¬ ∀ (target : TargetFile) (indexer : FIndexer),
    newlineCount target.bytes < 2 ^ 32 - 1 → 1 ≤ indexer.threads.toInt →
    1 ≤ indexer.concurrency.toInt → 1 ≤ indexer.bufferSize.toNat →
    1 ≤ indexer.maxBytesPerIteration.toNat → ∀ s,
    Reaches (fileStep target indexer) (FileRun.Smooth target) .start s →
    ∀ index, s.pc = .returned (some index) → index.Exact := by
  intro halways
  have hsummary : (runTrace (fileStep lineFile { lineIndexer with bufferSize := 1 })
      [.proceed, .proceed, .worker 0 .proceed,
        .worker 0 .proceed, .worker 0 (.scan ⟨true, some 1, none, true, true⟩),
        .worker 0 .proceed, .worker 0 (.recv 0), .worker 0 .proceed,
        .worker 0 .proceed, .worker 0 (.scan ⟨true, some 1, none, true, true⟩),
        .worker 0 .proceed, .worker 0 (.recv 0), .worker 0 .proceed,
        .worker 0 .proceed, .proceed, .worker 0 .proceed, .proceed, .proceed,
        .proceed, .proceed, .proceed] .start).map
      (fun run => (run.2.summary,
        run.1.all fun move => decide (move.1.Smooth lineFile move.2))) =
      some ((some ⟨sizeBytes 0, 2⟩, [(⟨0, 0, 1⟩, 1), (⟨1, 1, 1⟩, 1)]), true) := by
    decide +kernel
  obtain ⟨s, hreach, hpc, -⟩ := exists_reaches_of_summary hsummary
  have hexact := halways _ _ (by decide) (by decide) (by decide) (by decide) (by decide) s hreach
    _ hpc
  exact absurd hexact.contents_eq (by decide)

end Flashlight.TextIndexer
