/-
# What the main thread knows

Whatever goes wrong: while a window is in progress, every thread of it keeps its own
invariant, and the threads that were joined have ended with a result. For the windows
that are done, the lookup file is what the loop over the windows makes of the chunks
that were handed over; a chunk holds the nodes of all threads of its window, unless
a reduction lost a first node.
-/

import Flashlight.TextIndexer.Batches
import Flashlight.TextIndexer.File

namespace Flashlight.TextIndexer

open Flashlight.Math Flashlight.Indexer
open scoped List

/-- The nodes of a thread. -/
def threadNodes (bytes : List UInt8) (thread : TextThread) : List FBytesNode :=
  examinedNodes bytes thread.1.thread thread.2.examined

/-- The number of newlines that a thread found. -/
def threadNewlines (bytes : List UInt8) (thread : TextThread) : ℕ :=
  examinedNewlines bytes thread.2.examined

/-- No reduction in the window loses a first node. -/
structure WindowPublished (bytes : List UInt8) (threads : List TextThread) : Prop where
  chunks : ∀ thread ∈ threads,
    Published (thread.2.examined.map (entryNodes bytes thread.1.thread))
  threads : Published (threads.map (threadNodes bytes))

/-- The thread has ended with the result `ret`, and it had something to do. -/
structure Done (bytes : List UInt8) (heap : Heap) (thread : TextThread) (ret : FChunk) :
    Prop where
  plan : ∃ ic, thread.1.plan = .ok ic ∧ ic.chunks ≠ [] ∧
    thread.2.Working bytes thread.1.thread ic heap
  pc_eq : thread.2.pc = .exited (some ret)

/-- These are the threads that are planned for window `itc`. -/
def ThreadsOf (target : TargetFile) (indexer : FIndexer) (itc : ℕ) (threads : List TextThread) :
    Prop :=
  ∃ it, windowPlan target indexer itc = .ok it ∧ threads.map Prod.fst = textThreads indexer it

/-- The threads of a window that is done. -/
structure WindowDone (target : TargetFile) (indexer : FIndexer) (itc : ℕ)
    (threads : List TextThread) : Prop where
  threadsOf : ThreadsOf target indexer itc threads
  done : ∀ thread ∈ threads, ∃ heap ret, Done target.bytes heap thread ret

/-- The chunk that was handed to the lookup file, on the heap at that time, for a window
with these threads. -/
structure Handed (bytes : List UInt8) (threads : List TextThread) (call : Heap × FChunk) :
    Prop where
  holds : WindowPublished bytes threads →
    call.2.Holds call.1 (threads.map (threadNodes bytes)).reverse.flatten
  lineCount_eq : call.2.lineCount = .ofNat (threads.map (threadNewlines bytes)).sum

/-- The windows from `left` on are done. -/
structure FileRun.Past (target : TargetFile) (indexer : FIndexer) (s : FileRun) (left : ℕ) :
    Prop where
  windows : ∃ count, threadItCount (.ofNat target.bytes.length) indexer.maxBytesPerIteration =
    .ok count ∧ left ≤ count ∧
      s.history.map Prod.fst = (List.range' left (count - left)).reverse ∧
      ∃ handed : ℕ → Heap × FChunk,
        (∀ entry ∈ s.history, Handed target.bytes entry.2 (handed entry.1)) ∧
        ∀ handed', (∀ itc, left ≤ itc → handed' itc = handed itc) →
          windowLoop handed' count none = windowLoop handed' left s.lookup
  done : ∀ entry ∈ s.history, WindowDone target indexer entry.1 entry.2

/-- The first `i` threads of window `itc` are joined. -/
structure FileRun.Joining (target : TargetFile) (indexer : FIndexer) (s : FileRun) (itc i : ℕ) :
    Prop where
  threadsOf : ThreadsOf target indexer itc s.threads
  le : i ≤ s.threads.length
  slots : s.chunks.length = s.threads.length
  joined : ∀ (j : ℕ) (thread : TextThread), j < i → s.threads[j]? = some thread →
    ∃ ret, Done target.bytes s.heap thread ret ∧ s.chunks[j]? = some (some ret)
  lineCount_eq : s.lineCount = .ofNat ((s.threads.take i).map (threadNewlines target.bytes)).sum

/-- What the place in the loop says about the window in progress and the windows that
are done. -/
def FileRun.Stage (target : TargetFile) (indexer : FIndexer) (s : FileRun) : Prop :=
  match s.pc with
  | .enter => s = .start
  | .window left => s.threads = [] ∧ s.Past target indexer left
  | .watch itc i => s.Joining target indexer itc i ∧ s.Past target indexer (itc + 1)
  | .join itc i =>
      s.Joining target indexer itc i ∧ s.Past target indexer (itc + 1) ∧
        ∃ thread, s.threads[i]? = some thread ∧ thread.2.ic ≠ []
  | .finish itc =>
      s.Joining target indexer itc s.threads.length ∧ s.Past target indexer (itc + 1)
  | .close => s.threads = [] ∧ s.Past target indexer 0
  | .returned (some index) =>
      s.threads = [] ∧ s.Past target indexer 0 ∧ index.target = target ∧
        s.lookup = some index.flookup
  | .returned none => True
  | .undefined => True

/-- The invariant of the call. -/
structure FileRun.Inv (target : TargetFile) (indexer : FIndexer) (s : FileRun) : Prop where
  threads : ∀ (t : ℕ) (thread : TextThread), s.threads[t]? = some thread →
    thread.1.thread = t ∧ thread.2.Inv target.bytes thread.1 s.heap
  stage : s.Stage target indexer

theorem FileRun.inv_start (target : TargetFile) (indexer : FIndexer) :
    FileRun.start.Inv target indexer where
  threads := by simp [FileRun.start]
  stage := rfl

section

variable {target : TargetFile} {indexer : FIndexer} {s : FileRun} {left count itc : ℕ}

/-- The windows that are done. -/
theorem FileRun.Past.mem_history (h : s.Past target indexer left)
    (hcount : threadItCount (.ofNat target.bytes.length) indexer.maxBytesPerIteration = .ok count) :
    itc ∈ s.history.map Prod.fst ↔ left ≤ itc ∧ itc < count := by
  obtain ⟨count', hcount', hle, hwindows, -⟩ := h.windows
  obtain rfl : count = count' := Except.ok.inj (hcount.symm.trans hcount')
  rw [hwindows, List.mem_reverse, List.mem_range'_1]
  omega

/-- A window that is done left its threads behind. -/
theorem FileRun.Past.exists_threads (h : s.Past target indexer left)
    (hcount : threadItCount (.ofNat target.bytes.length) indexer.maxBytesPerIteration = .ok count)
    (hleft : left ≤ itc) (hitc : itc < count) : ∃ threads, (itc, threads) ∈ s.history := by
  obtain ⟨⟨itc, threads⟩, hentry, rfl⟩ := List.mem_map.mp ((h.mem_history hcount).mpr ⟨hleft, hitc⟩)
  exact ⟨threads, hentry⟩

/-- When all windows are done they were done from the last one to the first one. -/
theorem FileRun.Past.history_eq (h : s.Past target indexer 0)
    (hcount : threadItCount (.ofNat target.bytes.length) indexer.maxBytesPerIteration = .ok count) :
    s.history.map Prod.fst = (List.range count).reverse := by
  obtain ⟨count', hcount', -, hwindows, -⟩ := h.windows
  obtain rfl : count = count' := Except.ok.inj (hcount.symm.trans hcount')
  rwa [Nat.sub_zero, ← List.range_eq_range'] at hwindows

/-- A call that returned an index is done with all windows. -/
theorem FileRun.Inv.returned {index : FIndex} (h : s.Inv target indexer)
    (hpc : s.pc = .returned (some index)) :
    s.threads = [] ∧ s.Past target indexer 0 ∧ index.target = target ∧
      s.lookup = some index.flookup := by
  have hstage := h.stage
  simpa only [FileRun.Stage, hpc] using hstage

end

/-! ## Threads -/

section

variable {bytes : List UInt8} {heap heap' : Heap} {thread : TextThread} {ret : FChunk}

theorem Done.agreeOn (h : Done bytes heap thread ret)
    (hagree : ListHeap.AgreeOn (fun node => node.owner.thread = thread.1.thread) heap heap') :
    Done bytes heap' thread ret := by
  obtain ⟨ic, hplan, hne, hw⟩ := h.plan
  exact ⟨⟨ic, hplan, hne, hw.agreeOn hagree⟩, h.pc_eq⟩

/-- A thread with a nonempty plan that ends with a result is done. -/
theorem done_of_inv (h : thread.2.Inv bytes thread.1 heap) (hic : thread.2.ic ≠ [])
    (hpc : thread.2.pc = .exited (some ret)) : Done bytes heap thread ret := by
  obtain ⟨ic, hplan, hw⟩ := h.exists_working hpc (by simp) (by simp) (by simp)
  exact ⟨⟨ic, hplan, by rwa [← hw.ic_eq], hw⟩, hpc⟩

/-- A thread that has progress has a plan. -/
theorem ic_ne_nil_of_progress (h : thread.2.Inv bytes thread.1 heap)
    (hprogress : 1 ≤ thread.2.progress) : thread.2.ic ≠ [] := by
  intro hnil
  cases h with
  | unplanned _ hw =>
      rw [hw] at hprogress
      simp [Worker.start] at hprogress
      exact absurd hprogress (by norm_num)
  | working _ hw =>
      rw [hw.progress_eq (by rw [← hw.ic_eq, hnil])] at hprogress
      exact absurd hprogress (by norm_num)

namespace Done

theorem written_eq (h : Done bytes heap thread ret) :
    ∃ ic, thread.1.plan = .ok ic ∧ thread.2.Working bytes thread.1.thread ic heap ∧
      thread.2.written.length = ic.chunks.length := by
  obtain ⟨ic, hplan, -, hw⟩ := h.plan
  have hposition := hw.position
  simp only [Worker.Position, h.pc_eq] at hposition
  exact ⟨ic, hplan, hw, hposition⟩

theorem returns (h : Done bytes heap thread ret) :
    thread.2.Returns bytes thread.1.thread heap ret := by
  obtain ⟨ic, -, -, hw⟩ := h.plan
  exact hw.result ret h.pc_eq

theorem lineCount_eq (h : Done bytes heap thread ret) :
    ret.lineCount = .ofNat (threadNewlines bytes thread) := by
  obtain ⟨ic, -, hw, hwritten⟩ := h.written_eq
  have hline := hw.lineCount_eq
  rw [(hw.complete hwritten).1] at hline
  rw [h.returns.lineCount_eq]
  simpa [threadNewlines] using hline

end Done

theorem owner_of_mem_threadNodes {node : FBytesNode} (hmem : node ∈ threadNodes bytes thread) :
    node.owner.thread = thread.1.thread := by
  obtain ⟨nodes, hnodes, hnode⟩ := List.mem_flatten.mp hmem
  obtain ⟨entry, -, rfl⟩ := List.mem_map.mp (List.mem_reverse.mp hnodes)
  rw [owner_of_mem_scanNodes hnode]

end

/-! ## The end of a window -/

section

variable {target : TargetFile} {indexer : FIndexer} {s : FileRun} {itc i : ℕ}

/-- All slots are filled with results that hold the nodes of the threads. -/
theorem FileRun.Joining.forall₂_done (h : s.Joining target indexer itc s.threads.length) :
    s.chunks.all Option.isSome = true ∧
      List.Forall₂ (fun ret thread => Done target.bytes s.heap thread ret)
        s.chunks.reduceOption s.threads := by
  have hslots : List.Forall₂ (fun slot thread => ∃ ret, slot = some ret ∧
      Done target.bytes s.heap thread ret) s.chunks s.threads := by
    refine List.forall₂_iff_get.mpr ⟨h.slots, fun j hj hj' => ?_⟩
    obtain ⟨ret, hdone, hslot⟩ := h.joined j _ hj' (List.getElem?_eq_getElem hj')
    exact ⟨ret, (List.getElem?_eq_some_iff.mp hslot).2, hdone⟩
  generalize s.chunks = slots at hslots
  generalize s.threads = threads at hslots
  induction hslots with
  | nil => exact ⟨rfl, List.Forall₂.nil⟩
  | cons hslot _ ih =>
      obtain ⟨ret, rfl, hdone⟩ := hslot
      rw [List.reduceOption_cons_of_some]
      exact ⟨by simpa using ih.1, List.Forall₂.cons hdone ih.2⟩

/-- The nodes of different threads are different. -/
theorem FileRun.Inv.pairwise_apart (h : s.Inv target indexer) :
    (s.threads.map (threadNodes target.bytes)).Pairwise fun xs ys =>
      ∀ x ∈ xs, ∀ y ∈ ys, x ≠ y := by
  rw [List.pairwise_map, List.pairwise_iff_getElem]
  intro i j hi hj hij x hx y hy heq
  have hxi := (h.threads i _ (List.getElem?_eq_getElem hi)).1
  have hyj := (h.threads j _ (List.getElem?_eq_getElem hj)).1
  have howner := congrArg (fun node => node.owner.thread) heq
  simp only [owner_of_mem_threadNodes hx, owner_of_mem_threadNodes hy] at howner
  omega

/-- A lookup file can be extended by every list that ends. -/
theorem exists_fLookupFileFromChunk {heap : Heap} (lookup : Option FLookupFile) (chunk : FChunk)
    (last : Bool) (hlist : (heap.toList chunk.first).isSome) :
    ∃ lookup', fLookupFileFromChunk heap lookup chunk lookup.isNone last = some lookup' := by
  obtain ⟨nodes, hnodes⟩ := Option.isSome_iff_exists.mp hlist
  cases lookup with
  | none => simp [fLookupFileFromChunk, hnodes]
  | some lookup => simp [fLookupFileFromChunk, hnodes]

/-- The results of a window can be reduced and appended, and when nothing was lost the
chunk that is handed over holds the nodes of all threads. -/
theorem FileRun.Inv.exists_finished (h : s.Inv target indexer)
    (hjoining : s.Joining target indexer itc s.threads.length) :
    ∃ heap chunk lookup, Handed target.bytes s.threads (heap, chunk) ∧
      fLookupFileFromChunk heap s.lookup chunk s.lookup.isNone (itc == 0) = some lookup ∧
      s.finished itc = { s with
        pc := .window itc
        heap := heap
        threads := []
        lookup := some lookup
        history := s.history ++ [(itc, s.threads)] } := by
  obtain ⟨hall, hdone⟩ := hjoining.forall₂_done
  have hends : List.Forall₂ (fun ret nodes => ret.Ends s.heap nodes) s.chunks.reduceOption
      (s.threads.map (threadNodes target.bytes)) :=
    List.forall₂_map_right_iff.mpr (hdone.imp fun _ _ hdone => hdone.returns.ends)
  obtain ⟨heap, chunk, hreduce, hlist, hholds⟩ : ∃ heap chunk,
      fChunkArrayReverseReduce s.heap 0 s.chunks.reduceOption = some (heap, chunk) ∧
      (heap.toList chunk.first).isSome ∧ (WindowPublished target.bytes s.threads →
        chunk.Holds heap (s.threads.map (threadNodes target.bytes)).reverse.flatten) := by
    by_cases hpublished : WindowPublished target.bytes s.threads
    · have hall : List.Forall₂ (fun ret nodes => ret.Holds s.heap nodes) s.chunks.reduceOption
          (s.threads.map (threadNodes target.bytes)) := by
        rw [List.forall₂_map_right_iff]
        refine List.forall₂_iff_get.mpr ⟨hdone.length_eq, fun j hj hj' => ?_⟩
        have hget := (List.forall₂_iff_get.mp hdone).2 j hj hj'
        exact hget.returns.holds (hpublished.chunks _ (List.get_mem _ _))
      obtain ⟨heap, chunk, hreduce, -, -, hholds, -⟩ := reduce_holds 0 hall h.pairwise_apart
      have hchunk := hholds (by
        rw [hall.length_eq]
        exact hpublished.threads)
      exact ⟨heap, chunk, hreduce, by rw [hchunk.toList_eq]; rfl, fun _ => hchunk⟩
    · obtain ⟨heap, chunk, hreduce, hlist⟩ := reduce_ends 0 hends h.pairwise_apart
      exact ⟨heap, chunk, hreduce, hlist, fun hpub => absurd hpub hpublished⟩
  obtain ⟨lookup, hlookup⟩ := exists_fLookupFileFromChunk s.lookup
    { chunk with lineCount := s.lineCount } (itc == 0) hlist
  refine ⟨heap, _, lookup, ⟨fun hpublished => (hholds hpublished).withLineCount _, ?_⟩,
    hlookup, ?_⟩
  · have hline := hjoining.lineCount_eq
    rwa [List.take_length] at hline
  · simp only [FileRun.finished, hall, if_true, hreduce, hlookup]

/-- A window that is done joins the past. -/
theorem FileRun.Past.finished (h : s.Past target indexer (itc + 1))
    (hjoining : s.Joining target indexer itc s.threads.length) {heap : Heap} {chunk : FChunk}
    {lookup : FLookupFile} (hhanded : Handed target.bytes s.threads (heap, chunk))
    (hlookup : fLookupFileFromChunk heap s.lookup chunk s.lookup.isNone (itc == 0) = some lookup) :
    FileRun.Past target indexer { s with
      pc := .window itc
      heap := heap
      threads := []
      lookup := some lookup
      history := s.history ++ [(itc, s.threads)] } itc := by
  obtain ⟨count, hcount, hle, hwindows, handed, hhanded', hloop⟩ := h.windows
  refine ⟨⟨count, hcount, by omega, ?_, Function.update handed itc (heap, chunk), ?_, ?_⟩, ?_⟩
  · rw [List.map_append, hwindows, show count - itc = (count - (itc + 1)) + 1 by omega,
      List.range'_succ, List.reverse_cons]
    rfl
  · intro entry hentry
    rcases List.mem_append.mp hentry with hentry | hentry
    · have hmem : entry.1 ∈ s.history.map Prod.fst := List.mem_map_of_mem hentry
      rw [hwindows, List.mem_reverse, List.mem_range'_1] at hmem
      rw [Function.update_of_ne (by omega)]
      exact hhanded' entry hentry
    · rw [List.mem_singleton.mp hentry, Function.update_self]
      exact hhanded
  · intro handed' hsame
    rw [hloop handed' fun j hj => by
      rw [hsame j (by omega), Function.update_of_ne (by omega)]]
    rw [windowLoop, hsame itc (le_refl _), Function.update_self, hlookup, Option.bind_some]
  · intro entry hentry
    rcases List.mem_append.mp hentry with hentry | hentry
    · exact h.done entry hentry
    · rw [List.mem_singleton.mp hentry]
      refine ⟨hjoining.threadsOf, fun thread hthread => ?_⟩
      obtain ⟨j, hj, rfl⟩ := List.getElem_of_mem hthread
      obtain ⟨ret, hdone, -⟩ := hjoining.joined j _ hj (List.getElem?_eq_getElem hj)
      exact ⟨s.heap, ret, hdone⟩

/-- The threads of a window at their start. -/
theorem FileRun.joining_spawned {it : FIndexerThreads}
    (hplan : windowPlan target indexer itc = .ok it) :
    (s.spawned indexer itc it).Joining target indexer itc 0 where
  threadsOf := ⟨it, hplan, by simp [FileRun.spawned, Function.comp_def]⟩
  le := Nat.zero_le _
  slots := by simp [FileRun.spawned, textThreads]
  joined := by
    intro j thread hj
    omega
  lineCount_eq := rfl

/-- Joining does not depend on the place in the loop. -/
theorem FileRun.Joining.moved (h : s.Joining target indexer itc i) (pc : FilePc) :
    FileRun.Joining target indexer { s with pc := pc } itc i :=
  ⟨h.threadsOf, h.le, h.slots, h.joined, h.lineCount_eq⟩

/-- An `int` counts the threads of a window. -/
theorem ThreadsOf.length_lt {threads : List TextThread}
    (h : ThreadsOf target indexer itc threads) : threads.length < 2 ^ 31 := by
  obtain ⟨it, -, hconfigs⟩ := h
  have hlength := congrArg List.length hconfigs
  rw [List.length_map, textThreads, List.length_mapIdx] at hlength
  have hlen := it.len_eq
  have hbound := it.len.toInt_lt
  omega

/-- Joining the next thread. -/
theorem FileRun.Joining.next (h : s.Joining target indexer itc i) {thread : TextThread}
    (hthread : s.threads[i]? = some thread) (hindex : thread.1.thread = i) {ret : FChunk}
    (hdone : Done target.bytes s.heap thread ret) :
    (s.joined itc i (some ret)).Joining target indexer itc (i + 1) ∧
      (s.joined itc i (some ret)).threads = s.threads ∧
      (s.joined itc i (some ret)).heap = s.heap ∧
      (s.joined itc i (some ret)).pc = .watch itc (i + 1) := by
  have hi := (List.getElem?_eq_some_iff.mp hthread).1
  have hcurrent : ret.current.toNat = i := by
    have hlt := h.threadsOf.length_lt
    rw [hdone.returns.current_eq, hindex]
    exact UInt64.toNat_ofNat_of_lt' (by simp only [UInt64.size]; omega)
  have hslot : ret.current.toNat < s.chunks.length := by
    rw [hcurrent, h.slots]
    exact hi
  rw [FileRun.joined, if_pos hslot]
  refine ⟨?_, rfl, rfl, rfl⟩
  exact {
    threadsOf := h.threadsOf
    le := hi
    slots := by rw [List.length_set, h.slots]
    joined := by
      intro j other hj hother
      rcases Nat.lt_succ_iff_lt_or_eq.mp hj with hlt | rfl
      · obtain ⟨ret', hdone', hget⟩ := h.joined j other hlt hother
        refine ⟨ret', hdone', ?_⟩
        rw [List.getElem?_set_ne (by omega), hget]
      · obtain rfl : thread = other := Option.some.inj (hthread.symm.trans hother)
        refine ⟨ret, hdone, ?_⟩
        simp only [hcurrent]
        rw [List.getElem?_set_self (by rwa [h.slots])]
    lineCount_eq := by
      simp only [List.take_add_one, hthread, List.map_append, List.sum_append, UInt32.ofNat_add,
        h.lineCount_eq, hdone.lineCount_eq]
      simp }

/-- A step of a thread leaves the nodes of the other threads alone. -/
theorem FileRun.Inv.agreeOn_other (h : s.Inv target indexer) {t u : ℕ} {a : WorkerAction}
    {config : FTextThread} {w w' : Worker} {heap : Heap} {other : TextThread}
    (hthread : s.threads[t]? = some (config, w))
    (hmove : WorkerMove target.bytes config s.heap w a heap w')
    (hother : s.threads[u]? = some other) (hne : u ≠ t) :
    ListHeap.AgreeOn (fun node => node.owner.thread = other.1.thread) s.heap heap := by
  obtain ⟨hindex, hw⟩ := h.threads t _ hthread
  intro p cell hcell hown
  apply (hw.step hmove).2 p cell hcell
  rw [show cell.value.owner.thread = other.1.thread from hown, (h.threads u _ hother).1]
  rw [show config.thread = t from hindex]
  exact hne

/-- A step of a thread does not disturb the threads that were joined. -/
theorem FileRun.Joining.worker (h : s.Joining target indexer itc i) {t : ℕ} {a : WorkerAction}
    {config : FTextThread} {w w' : Worker} {heap : Heap}
    (hthread : s.threads[t]? = some (config, w)) (hinv : s.Inv target indexer)
    (hmove : WorkerMove target.bytes config s.heap w a heap w') :
    FileRun.Joining target indexer
      { s with heap := heap, threads := s.threads.set t (config, w') } itc i := by
  have hle : i ≤ t := by
    by_contra hlt
    obtain ⟨ret, hdone, -⟩ := h.joined t _ (by omega) hthread
    exact hmove.not_exited _ hdone.pc_eq
  exact {
    threadsOf := by
      obtain ⟨it, hplan, hconfigs⟩ := h.threadsOf
      exact ⟨it, hplan, by rw [map_fst_set hthread, hconfigs]⟩
    le := by rw [List.length_set]; exact h.le
    slots := by rw [List.length_set]; exact h.slots
    joined := by
      intro j other hj hother
      have hne : t ≠ j := by omega
      rw [List.getElem?_set_ne hne] at hother
      obtain ⟨ret, hdone, hslot⟩ := h.joined j other hj hother
      exact ⟨ret, hdone.agreeOn (hinv.agreeOn_other hthread hmove hother hne.symm), hslot⟩
    lineCount_eq := by
      simp only [List.take_set_of_le hle]
      exact h.lineCount_eq }

/-- The past is not touched by what the threads do. -/
theorem FileRun.Past.congr (h : s.Past target indexer i) {s' : FileRun}
    (hlookup : s'.lookup = s.lookup) (hhistory : s'.history = s.history) :
    s'.Past target indexer i := by
  obtain ⟨hwindows, hdone⟩ := h
  exact ⟨by rwa [hlookup, hhistory], by rwa [hhistory]⟩

/-- A step of a thread keeps the stage of the call. -/
theorem FileRun.Inv.stage_worker (h : s.Inv target indexer) {t : ℕ} {a : WorkerAction}
    {config : FTextThread} {w w' : Worker} {heap : Heap}
    (hthread : s.threads[t]? = some (config, w))
    (hmove : WorkerMove target.bytes config s.heap w a heap w') :
    FileRun.Stage target indexer
      { s with heap := heap, threads := s.threads.set t (config, w') } := by
  have hstage := h.stage
  have hnone : s.threads ≠ [] := by
    intro hnil
    rw [hnil] at hthread
    cases hthread
  unfold FileRun.Stage at hstage ⊢
  cases hpc : s.pc with
  | enter =>
      simp only [hpc] at hstage
      exact absurd (by rw [hstage]; rfl) hnone
  | window left =>
      simp only [hpc] at hstage
      exact absurd hstage.1 hnone
  | watch itc i =>
      simp only [hpc] at hstage
      exact ⟨(hstage.1.worker hthread h hmove).moved _, hstage.2.congr rfl rfl⟩
  | join itc i =>
      simp only [hpc] at hstage
      obtain ⟨hjoining, hpast, thread, hget, hic⟩ := hstage
      refine ⟨(hjoining.worker hthread h hmove).moved _, hpast.congr rfl rfl, ?_⟩
      by_cases heq : t = i
      · subst heq
        obtain rfl : thread = (config, w) := Option.some.inj (hget.symm.trans hthread)
        refine ⟨(config, w'), ?_, (h.threads t _ hthread).2.ic_ne_nil hmove hic⟩
        rw [List.getElem?_set_self (List.getElem?_eq_some_iff.mp hthread).1]
      · exact ⟨thread, by rw [List.getElem?_set_ne heq, hget], hic⟩
  | finish itc =>
      simp only [hpc] at hstage
      simp only [List.length_set]
      exact ⟨(hstage.1.worker hthread h hmove).moved _, hstage.2.congr rfl rfl⟩
  | close =>
      simp only [hpc] at hstage
      exact absurd hstage.1 hnone
  | returned index =>
      cases index with
      | none => exact trivial
      | some index =>
          simp only [hpc] at hstage
          exact absurd hstage.1 hnone
  | undefined => exact trivial

/-- **Step lemma.** Every step of the call keeps its invariant. -/
theorem FileRun.Inv.step (h : s.Inv target indexer) {a : FileAction} {s' : FileRun}
    (hmove : FileMove target indexer s a s') : s'.Inv target indexer := by
  have hstage := h.stage
  unfold FileRun.Stage at hstage
  cases hmove with
  | @opened count hpc hcount =>
      simp only [hpc] at hstage
      obtain rfl := hstage
      refine ⟨h.threads, rfl, ⟨⟨count, hcount, le_refl _, ?_, fun _ => ([], fChunkNew 0 none none),
        ?_, fun _ _ => rfl⟩, ?_⟩⟩
      · simp [FileRun.start]
      · simp [FileRun.start]
      · simp [FileRun.start]
  | unopened hpc hcount hended =>
      rcases hended with rfl | rfl <;> exact ⟨h.threads, trivial⟩
  | windowsDone hpc =>
      simp only [hpc] at hstage
      exact ⟨h.threads, hstage.1, hstage.2.congr rfl rfl⟩
  | @spawned itc it hpc hplan =>
      simp only [hpc] at hstage
      refine ⟨fun t thread hthread => ?_, FileRun.joining_spawned hplan, hstage.2.congr rfl rfl⟩
      simp only [FileRun.spawned, textThreads, List.getElem?_map, List.getElem?_mapIdx] at hthread
      obtain ⟨config, hconfig, rfl⟩ := Option.map_eq_some_iff.mp hthread
      obtain ⟨thread, -, rfl⟩ := Option.map_eq_some_iff.mp hconfig
      exact ⟨rfl, .unplanned (Or.inl rfl) rfl⟩
  | unplanned hpc hplan hended =>
      rcases hended with rfl | rfl <;> exact ⟨h.threads, trivial⟩
  | @watched itc i thread hpc hthread hprogress =>
      simp only [hpc] at hstage
      obtain ⟨hjoining, hpast⟩ := hstage
      refine ⟨h.threads, hjoining.moved _, hpast.congr rfl rfl, thread, hthread, ?_⟩
      exact ic_ne_nil_of_progress (h.threads i thread hthread).2 hprogress
  | @allJoined itc i hpc hthread =>
      simp only [hpc] at hstage
      obtain ⟨hjoining, hpast⟩ := hstage
      obtain rfl : i = s.threads.length := by
        have hge := List.getElem?_eq_none_iff.mp hthread
        have hle := hjoining.le
        omega
      exact ⟨h.threads, hjoining.moved _, hpast.congr rfl rfl⟩
  | @joined itc i thread result hpc hthread hresult =>
      simp only [hpc] at hstage
      obtain ⟨hjoining, hpast, other, hother, hic⟩ := hstage
      obtain rfl : thread = other := Option.some.inj (hthread.symm.trans hother)
      obtain ⟨hindex, hw⟩ := h.threads i thread hthread
      cases result with
      | none => exact ⟨h.threads, trivial⟩
      | some ret =>
          obtain ⟨hnext, hthreads, hheap, hpc'⟩ :=
            hjoining.next hthread hindex (done_of_inv hw hic hresult)
          refine ⟨by rw [hthreads, hheap]; exact h.threads, ?_⟩
          simp only [FileRun.Stage, hpc']
          refine ⟨hnext, hpast.congr ?_ ?_⟩ <;>
          · rw [FileRun.joined]
            split <;> rfl
  | @finished itc hpc =>
      simp only [hpc] at hstage
      obtain ⟨hjoining, hpast⟩ := hstage
      obtain ⟨heap, chunk, lookup, hhanded, hlookup, heq⟩ := h.exists_finished hjoining
      rw [heq]
      exact ⟨by simp, rfl, hpast.finished hjoining hhanded hlookup⟩
  | closed hpc =>
      simp only [hpc] at hstage
      refine ⟨h.threads, ?_⟩
      cases hlookup : s.lookup with
      | none => exact trivial
      | some lookup => exact ⟨hstage.1, hstage.2.congr hlookup.symm rfl, rfl, rfl⟩
  | fault hpc => exact ⟨h.threads, trivial⟩
  | @worker t a config w w' heap hthread hmove =>
      refine ⟨?_, h.stage_worker hthread hmove⟩
      obtain ⟨hindex, hw⟩ := h.threads t _ hthread
      refine forall_getElem?_set ⟨hindex, (hw.step hmove).1⟩ fun u other hne hother => ?_
      obtain ⟨hindex', hother'⟩ := h.threads u other hother
      exact ⟨hindex', hother'.agreeOn (h.agreeOn_other hthread hmove hother hne)⟩

end

/-! ## Runs -/

section

variable {target : TargetFile} {indexer : FIndexer} {s s' : FileRun}
  {trace : List (FileRun × FileAction)}

/-- Every state of a run that starts in a state with the invariant has it. -/
theorem FileRun.Inv.of_run (h : s.Inv target indexer)
    (hrun : Run (fileStep target indexer) s trace s') : s'.Inv target indexer := by
  apply hrun.reaches.invariant h
  intro s a s' h _ hstep
  exact h.step (fileMove_of_step hstep)

/-- The threads of a window are told apart by their numbers. -/
theorem ThreadsOf.thread_eq {itc t : ℕ} {threads : List TextThread} {thread : TextThread}
    (h : ThreadsOf target indexer itc threads) (hthread : threads[t]? = some thread) :
    thread.1.thread = t := by
  obtain ⟨it, -, hconfigs⟩ := h
  have hget : (threads.map Prod.fst)[t]? = some thread.1 := by
    rw [List.getElem?_map, hthread]
    rfl
  rw [hconfigs, textThreads, List.getElem?_mapIdx] at hget
  obtain ⟨planned, -, hplanned⟩ := Option.map_eq_some_iff.mp hget
  rw [← hplanned]
  rfl

/-- There is one thread for each configuration. -/
theorem ThreadsOf.eq_of_mem {itc : ℕ} {threads : List TextThread} {config : FTextThread}
    {w w' : Worker} (h : ThreadsOf target indexer itc threads) (hw : (config, w) ∈ threads)
    (hw' : (config, w') ∈ threads) : w = w' := by
  obtain ⟨t, ht⟩ := List.getElem?_of_mem hw
  obtain ⟨t', ht'⟩ := List.getElem?_of_mem hw'
  have heq : config.thread = t := h.thread_eq ht
  have heq' : config.thread = t' := h.thread_eq ht'
  obtain rfl : t = t' := heq.symm.trans heq'
  exact congrArg Prod.snd (Option.some.inj (ht.symm.trans ht'))

/-- A window is done once. -/
theorem FileRun.Past.eq_of_mem {left itc : ℕ} {threads threads' : List TextThread}
    (h : s.Past target indexer left) (hmem : (itc, threads) ∈ s.history)
    (hmem' : (itc, threads') ∈ s.history) : threads = threads' := by
  obtain ⟨count, -, -, hwindows, -⟩ := h.windows
  have hnodup : (s.history.map Prod.fst).Nodup := by
    rw [hwindows, List.nodup_reverse]
    exact List.nodup_range'
  exact congrArg Prod.snd (List.inj_on_of_nodup_map hnodup hmem hmem' rfl)

end

/-! ## Runs that can be computed -/

/-- The chunks that the threads of all windows examined, with the number of bytes. -/
def FileRun.examined (s : FileRun) : List (FIndexerChunk × ℕ) :=
  s.history.flatMap fun entry => entry.2.flatMap fun thread => thread.2.examined

/-- What a finished call leaves behind: its lookup file, and what was examined. -/
def FileRun.summary (s : FileRun) : Option FLookupFile × List (FIndexerChunk × ℕ) :=
  (match s.pc with
    | .returned (some index) => some index.flookup
    | _ => none,
    s.examined)

/-- The state behind a summary with a lookup file. -/
theorem FileRun.Inv.returned_of_summary {target : TargetFile} {indexer : FIndexer} {s : FileRun}
    {lookup : FLookupFile} {examined : List (FIndexerChunk × ℕ)} (h : s.Inv target indexer)
    (hsummary : s.summary = (some lookup, examined)) :
    s.pc = .returned (some ⟨target, lookup⟩) ∧ s.examined = examined := by
  obtain ⟨hlookup, hexamined⟩ := Prod.mk.inj hsummary
  refine ⟨?_, hexamined⟩
  split at hlookup
  · next index hpc =>
      obtain ⟨-, -, htarget, -⟩ := h.returned hpc
      obtain ⟨_, _⟩ := index
      obtain rfl := htarget
      obtain rfl := Option.some.inj hlookup
      exact hpc
  · cases hlookup

/-- A run can be found by computing it. -/
theorem exists_run_of_summary {target : TargetFile} {indexer : FIndexer}
    {actions : List FileAction} {lookup : FLookupFile} {examined : List (FIndexerChunk × ℕ)}
    (h : (runTrace (fileStep target indexer) actions .start).map (fun run => run.2.summary) =
      some (some lookup, examined)) :
    ∃ trace s, Run (fileStep target indexer) .start trace s ∧
      s.pc = .returned (some ⟨target, lookup⟩) ∧ s.examined = examined := by
  obtain ⟨⟨trace, s⟩, hrun, hsummary⟩ := Option.map_eq_some_iff.mp h
  have hrun := run_of_runTrace hrun
  exact ⟨trace, s, hrun,
    ((FileRun.inv_start target indexer).of_run hrun).returned_of_summary hsummary⟩

/-- The configuration of the small runs: one thread, one coroutine. -/
def lineIndexer : FIndexer where
  threads := 1
  concurrency := 1
  bufferSize := 2
  maxBytesPerIteration := 2

/-- Indexing `lineFile` when its only read delivers `read`. -/
def lineActions (read : Delivery) : List FileAction :=
  [.proceed, .proceed, .worker 0 .proceed, .worker 0 .proceed,
    .worker 0 (.scan ⟨true, read, none, true, true⟩), .worker 0 .proceed, .worker 0 (.recv 0),
    .worker 0 .proceed, .worker 0 .proceed, .proceed, .worker 0 .proceed, .proceed, .proceed,
    .proceed, .proceed, .proceed]

/-- A file of two windows of five bytes. The threads of `windowsIndexer` read the first two
and the last two bytes of a window, and the byte between them is not a newline. -/
def windowsFile : TargetFile where
  bytes := [newline, newline, 97, newline, newline, newline, newline, 98, newline, newline]
  size_lt := by decide

/-- Two threads, with two coroutines each. -/
def windowsIndexer : FIndexer where
  threads := 2
  concurrency := 2
  bufferSize := 1
  maxBytesPerIteration := 5

/-- The index of `windowsFile`. -/
def windowsIndex : FIndex :=
  ⟨windowsFile, ⟨[10, 9, 7, 6, 5, 4, 2, 1, 0].flatMap sizeBytes, 9⟩⟩

/-- A thread reads its two chunks of one byte; the second coroutine delivers first. -/
def pairSteps : List WorkerAction :=
  [.proceed, .proceed, .scan ⟨true, some 1, none, true, true⟩,
    .scan ⟨true, some 1, none, true, true⟩, .proceed, .recv 1, .recv 0, .proceed, .proceed,
    .proceed]

/-- A window of `windowsFile`, whose threads take turns. -/
def windowActions : List FileAction :=
  [.proceed] ++ (pairSteps.flatMap fun a => [.worker 1 a, .worker 0 a]) ++
    List.replicate 6 .proceed

/-- Indexing `windowsFile`. -/
def windowsActions : List FileAction :=
  [.proceed] ++ windowActions ++ windowActions ++ [.proceed, .proceed]

end Flashlight.TextIndexer
