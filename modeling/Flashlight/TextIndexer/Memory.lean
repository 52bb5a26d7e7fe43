/-
# Memory of a whole indexing run

The blocks of the main thread, of the threads of the windows and of their coroutines make up one
memory. However the threads are scheduled and whatever fails, no block is used or freed when it is
not there. What is left when an index is returned can be counted: a node whose offset the lookup
file misses was not freed either.
-/

import Flashlight.TextIndexer.Footprint
import Flashlight.TextIndexer.MainBlocks
import Flashlight.TextIndexer.Sequential

namespace Flashlight.TextIndexer

open Flashlight.Math Flashlight.Indexer

/-! ## What every step keeps -/

/-- How many bytes were written to the lookup file. -/
def FileRun.written (s : FileRun) : ℕ :=
  s.lookup.elim 0 fun lookup => lookup.contents.length

/-- The closing entry of the lookup file is written. -/
def FilePc.closing : FilePc → Bool
  | .window 0 => true
  | .close => true
  | .returned (some _) => true
  | _ => false

/-- What the main thread owns. -/
def FileRun.MainOwns (s : FileRun) (file : Finset FileVar) : Prop :=
  match s.pc with
  | .enter => file = ∅
  | .window _ => file = keptOwners s.lookup
  | .watch _ _ => file = keptOwners s.lookup ∪ windowOwners s.threads.length
  | .join _ _ => file = keptOwners s.lookup ∪ windowOwners s.threads.length
  | .finish _ => file = keptOwners s.lookup ∪ windowOwners s.threads.length
  | .close => file = keptOwners s.lookup
  -- the threads that were not joined still read their configurations
  | .returned none => ∀ t < s.threads.length, .tthread t ∈ file
  | .returned (some _) => file = insert .index (keptOwners s.lookup)
  | .undefined => False

/-- The owners between two steps. The nodes of the current window begin at `base`; thread `t` has
allocated `news t` of them. -/
structure FileRun.Owns (target : TargetFile) (s : FileRun) (h : Holdings) (base : ℕ)
    (news : ℕ → ℕ) : Prop where
  main : s.MainOwns h.file
  threads : ∀ (t : ℕ) (thread : TextThread), s.threads[t]? = some thread →
    thread.2.Within s.heap base ∧ ∃ spare, thread.2.Owns (h.thread t) spare ∧
      news t = threadNewlines target.bytes thread + spare
  /-- What a thread takes is bounded by its plan. -/
  bounds : ∀ (t : ℕ) (thread : TextThread), s.threads[t]? = some thread →
    h.thread t ⊆ threadVars thread.1.chunks.length ∧ news t ≤ thread.2.budget
  fresh : ∀ t, s.threads.length ≤ t → h.thread t = ∅
  nodes : ∀ p ∈ h.nodes, p < s.heap.length
  /-- Nodes are freed with their window and not before. -/
  live : ∀ p, base ≤ p → p < s.heap.length → p ∈ h.nodes
  closed : s.heap.ClosedFrom base
  base_eq : base = examinedNewlines target.bytes s.examined
  length_eq : s.heap.length = base + ∑ t ∈ Finset.range s.threads.length, news t
  /-- A node that is not there any more has its entry in the lookup file. -/
  written_eq : 8 * s.heap.length + (if s.pc.closing then 8 else 0) = 8 * h.nodes.card + s.written

/-- The call has failed and all threads have ended: there are no more steps. -/
def FileRun.Stopped (s : FileRun) : Prop :=
  (s.pc = .returned none ∨ s.pc = .undefined) ∧
    ∀ thread ∈ s.threads, ∃ result, thread.2.pc = .exited result

/-- The nodes that are left of a heap when those of `gone` are gone. -/
structure NodesLeft (nodes : Finset Ptr) (heap : Heap) (gone : List Ptr) : Prop where
  gone_lt : ∀ p ∈ gone, p < heap.length
  mem_iff : ∀ p, p ∈ nodes ↔ p < heap.length ∧ p ∉ gone

/-- From one heap to the next, with new nodes behind the old ones, and without those of `gone`. -/
structure NodesGoOn (nodes : Finset Ptr) (heap : Heap) (gone : List Ptr) (nodes' : Finset Ptr)
    (heap' : Heap) : Prop where
  le : heap.length ≤ heap'.length
  gone_lt : ∀ p ∈ gone, p < heap.length
  nodes_eq : nodes' = (nodes ∪ Finset.Ico heap.length heap'.length) \ gone.toFinset

theorem NodesGoOn.refl (nodes : Finset Ptr) (heap : Heap) : NodesGoOn nodes heap [] nodes heap :=
  ⟨le_rfl, by simp, by simp⟩

theorem NodesLeft.append {nodes nodes' : Finset Ptr} {heap heap' : Heap} {past gone : List Ptr}
    (h : NodesLeft nodes heap past) (hstep : NodesGoOn nodes heap gone nodes' heap') :
    NodesLeft nodes' heap' (past ++ gone) where
  gone_lt p hp := by
    rcases List.mem_append.mp hp with hp | hp
    · exact (h.gone_lt p hp).trans_le hstep.le
    · exact (hstep.gone_lt p hp).trans_le hstep.le
  mem_iff p := by
    rw [hstep.nodes_eq, Finset.mem_sdiff, Finset.mem_union, Finset.mem_Ico, List.mem_toFinset,
      h.mem_iff, List.mem_append, not_or]
    constructor
    · rintro ⟨⟨hlt, hold⟩ | ⟨hge, hlt⟩, hnew⟩
      · exact ⟨hlt.trans_le hstep.le, hold, hnew⟩
      · exact ⟨hlt, fun hp => absurd (h.gone_lt p hp) (Nat.not_lt_of_le hge), hnew⟩
    · rintro ⟨hlt, hold, hnew⟩
      refine ⟨?_, hnew⟩
      by_cases hbefore : p < heap.length
      · exact Or.inl ⟨hbefore, hold⟩
      · exact Or.inr ⟨Nat.le_of_not_lt hbefore, hlt⟩

/-- A step whose operations are not refused, and which takes the nodes `gone` away. -/
def FileRun.Continues (target : TargetFile) (s : FileRun) (h : Holdings)
    (ops : List (MemOp IndexBlock)) (gone : List Ptr) (s' : FileRun) : Prop :=
  (∃ h' base news, ownersAfter (h.owners s.threads.length) ops =
      some (h'.owners s'.threads.length) ∧ s'.Owns target h' base news ∧
      NodesGoOn h.nodes s.heap gone h'.nodes s'.heap) ∨
    (s'.Stopped ∧ ∃ owned, ownersAfter (h.owners s.threads.length) ops = some owned)

section

variable {target : TargetFile} {indexer : FIndexer} {s s' : FileRun} {h : Holdings} {base : ℕ}
  {news : ℕ → ℕ} {a : FileAction} {ops : List (MemOp IndexBlock)} {itc i : ℕ}

theorem FileRun.owns_start (target : TargetFile) :
    FileRun.start.Owns target ⟨∅, ∅, fun _ => ∅⟩ 0 fun _ => 0 where
  main := rfl
  threads := by simp [FileRun.start]
  bounds := by simp [FileRun.start]
  fresh _ _ := rfl
  nodes := by simp
  live := by simp [FileRun.start]
  closed := ListHeap.closedFrom_length _
  base_eq := rfl
  length_eq := rfl
  written_eq := rfl

theorem mem_owners_thread {count t : ℕ} {x : TextVar} :
    .inr (.inr ⟨t, x⟩) ∈ h.owners count ↔ t < count ∧ x ∈ h.thread t := by
  simp [Holdings.owners, together]

/-- As long as no thread has a block, their number does not matter. -/
theorem Holdings.owners_eq (hthread : ∀ t, h.thread t = ∅) (count count' : ℕ) :
    h.owners count = h.owners count' := by
  have hempty : ∀ n, (Finset.range n).sigma h.thread = ∅ := fun n => by
    ext x
    simp [hthread]
  rw [Holdings.owners, Holdings.owners, together, together, hempty, hempty]

/-- A step of the main thread that leaves the nodes and the threads alone. -/
theorem FileRun.Owns.congr (hs : s.Owns target h base news) {file : Finset FileVar}
    (hmain : s'.MainOwns file) (hheap : s'.heap = s.heap) (hthreads : s'.threads = s.threads)
    (hlookup : s'.lookup = s.lookup) (hhistory : s'.history = s.history)
    (hclosing : s'.pc.closing = s.pc.closing) :
    s'.Owns target { h with file := file } base news where
  main := hmain
  threads := by rw [hheap, hthreads]; exact hs.threads
  bounds := by rw [hthreads]; exact hs.bounds
  fresh := by rw [hthreads]; exact hs.fresh
  nodes := by rw [hheap]; exact hs.nodes
  live := by rw [hheap]; exact hs.live
  closed := by rw [hheap]; exact hs.closed
  base_eq := by rw [FileRun.examined, hhistory]; exact hs.base_eq
  length_eq := by rw [hheap, hthreads]; exact hs.length_eq
  written_eq := by
    rw [hheap, hclosing, FileRun.written, hlookup]
    exact hs.written_eq

/-- Such a step, with its operations. -/
theorem FileRun.Owns.goes (hs : s.Owns target h base news) (file : Finset FileVar)
    (hops : Takes s.threads.length h ops { h with file := file }) (hmain : s'.MainOwns file)
    (hheap : s'.heap = s.heap) (hthreads : s'.threads = s.threads) (hlookup : s'.lookup = s.lookup)
    (hhistory : s'.history = s.history) (hclosing : s'.pc.closing = s.pc.closing) :
    s.Continues target h ops [] s' := by
  refine Or.inl ⟨_, base, news, ?_, hs.congr hmain hheap hthreads hlookup hhistory hclosing, ?_⟩
  · rw [hthreads]
    exact hops
  · rw [hheap]
    exact .refl _ _

/-- A step that ends the call while no thread runs. -/
theorem FileRun.Continues.stops {ops : List (MemOp FileVar)} {gone : List Ptr}
    (hops : ∃ owned, ownersAfter h.file ops = some owned) (hthreads : s'.threads = [])
    (hpc : s'.pc = .returned none ∨ s'.pc = .undefined) :
    s.Continues target h (onFile ops) gone s' := by
  obtain ⟨owned, hops⟩ := hops
  exact Or.inr ⟨⟨hpc, by simp [hthreads]⟩, _, Takes.onFile hops⟩

/-! ## Steps of a thread -/

/-- The configuration of a thread is there while the thread may run. -/
theorem FileRun.Owns.config_mem (hs : s.Owns target h base news) (hinv : s.Inv target indexer)
    {t : ℕ} (ht : t < s.threads.length) : .tthread t ∈ h.file := by
  have hmain := hs.main
  have hstage := hinv.stage
  have hwindow : FileVar.tthread t ∈ keptOwners s.lookup ∪ windowOwners s.threads.length := by
    simp [windowOwners, ht]
  have hnone : s.threads ≠ [] := List.ne_nil_of_length_pos (by omega)
  unfold FileRun.MainOwns at hmain
  unfold FileRun.Stage at hstage
  cases hpc : s.pc with
  | enter =>
      simp only [hpc] at hstage
      exact absurd (congrArg FileRun.threads hstage) hnone
  | window left =>
      simp only [hpc] at hstage
      exact absurd hstage.1 hnone
  | watch itc i =>
      simp only [hpc] at hmain
      rwa [hmain]
  | join itc i =>
      simp only [hpc] at hmain
      rwa [hmain]
  | finish itc =>
      simp only [hpc] at hmain
      rwa [hmain]
  | close =>
      simp only [hpc] at hstage
      exact absurd hstage.1 hnone
  | returned index =>
      cases index with
      | none =>
          simp only [hpc] at hmain
          exact hmain t ht
      | some index =>
          simp only [hpc] at hstage
          exact absurd hstage.1 hnone
  | undefined =>
      simp only [hpc] at hmain

theorem FileRun.Owns.base_le (hs : s.Owns target h base news) : base ≤ s.heap.length := by
  rw [hs.length_eq]
  exact Nat.le_add_right _ _

theorem FileRun.MainOwns.congr {file : Finset FileVar} (hmain : s.MainOwns file)
    (hpc : s'.pc = s.pc) (hlookup : s'.lookup = s.lookup)
    (hlength : s'.threads.length = s.threads.length) : s'.MainOwns file := by
  unfold FileRun.MainOwns
  rw [hpc, hlookup, hlength]
  exact hmain

theorem FileRun.Owns.worker (hs : s.Owns target h base news) (hinv : s.Inv target indexer)
    {t : ℕ} {config : FTextThread} {w w' : Worker} {a : WorkerAction} {heap : Heap}
    (hthread : s.threads[t]? = some (config, w))
    (hmove : WorkerMove target.bytes config s.heap w a heap w') (blocks : ℕ) :
    s.Continues target h (s.memOps target indexer blocks (.worker t a)) []
      { s with heap := heap, threads := s.threads.set t (config, w') } := by
  obtain ⟨hindex, hw⟩ := hinv.threads t _ hthread
  obtain ⟨hwithin, spare, howns, hnews⟩ := hs.threads t _ hthread
  have ht : t < s.threads.length := (List.getElem?_eq_some_iff.mp hthread).1
  have hlength : (s.threads.set t (config, w')).length = s.threads.length := List.length_set
  obtain ⟨hwithin', hclosed', hle⟩ := hwithin.step hs.closed hs.base_le hmove
  have hready : h.Ready s.threads.length t s.heap base :=
    ⟨ht, hs.config_mem hinv ht, hs.nodes, hs.live, hs.closed, hs.base_le⟩
  obtain ⟨owned, spare', hops, howns', hcount⟩ :=
    howns.step hready hw hindex hwithin hmove blocks
  have hmemOps : s.memOps target indexer blocks (.worker t a) =
      workerOps target.bytes config t blocks a s.heap w := by
    simp only [FileRun.memOps, hthread]
  refine Or.inl ⟨h.moved s.heap.length heap.length t owned, base,
    Function.update news t (news t + (heap.length - s.heap.length)), ?_, ?_, ?_⟩
  · rw [hmemOps, hlength]
    exact hops
  · constructor
    case main => exact hs.main.congr rfl rfl hlength
    case threads =>
      refine forall_getElem?_set ⟨hwithin', spare', ?_, ?_⟩ fun u thread hne hthread' => ?_
      · rwa [Holdings.moved_thread_self]
      · simp only [threadNewlines] at hnews hcount ⊢
        rw [Function.update_self]
        omega
      · obtain ⟨hwithin, spare, howns, hnews⟩ := hs.threads u thread hthread'
        refine ⟨hwithin.mono hle, spare, ?_, ?_⟩
        · rwa [h.moved_thread_of_ne _ _ _ hne]
        · rwa [Function.update_of_ne hne]
    case bounds =>
      obtain ⟨hvars, hbudget⟩ := hs.bounds t _ hthread
      have hmoved := hmove.budget_le hw hs.closed hwithin
      refine forall_getElem?_set ⟨fun x hx => ?_, ?_⟩ fun u thread hne hthread' => ?_
      · have hx' := (@mem_owners_thread (h.moved s.heap.length heap.length t owned) _ t x).mpr
          ⟨ht, hx⟩
        rcases mem_or_gains_of_ownersAfter hops hx' with hold | hgains
        · exact hvars (mem_owners_thread.mp hold).2
        · exact gains_workerOps hgains fun i c chunk => hw.chunkAt_lt
      · rw [Function.update_self]
        simp only at hbudget hmoved ⊢
        omega
      · rw [h.moved_thread_of_ne _ _ _ hne, Function.update_of_ne hne]
        exact hs.bounds u thread hthread'
    case fresh =>
      intro u hu
      have hne : u ≠ t := by
        rintro rfl
        exact absurd ht (Nat.not_lt_of_le (hlength ▸ hu))
      rw [h.moved_thread_of_ne _ _ _ hne]
      exact hs.fresh u (hlength ▸ hu)
    case nodes =>
      intro p hp
      rcases Finset.mem_union.mp hp with hp | hp
      · exact (hs.nodes p hp).trans_le hle
      · exact (Finset.mem_Ico.mp hp).2
    case live =>
      intro p hbase hp
      refine Finset.mem_union.mpr ?_
      by_cases hold : p < s.heap.length
      · exact Or.inl (hs.live p hbase hold)
      · exact Or.inr (Finset.mem_Ico.mpr ⟨Nat.le_of_not_lt hold, hp⟩)
    case closed => exact hclosed'
    case base_eq => exact hs.base_eq
    case length_eq =>
      have hbefore := Finset.sum_update_of_mem (Finset.mem_range.mpr ht) news (news t)
      rw [Function.update_eq_self] at hbefore
      have hlen := hs.length_eq
      simp only [hlength]
      rw [Finset.sum_update_of_mem (Finset.mem_range.mpr ht)]
      omega
    case written_eq =>
      -- the new nodes lie behind the old ones, so none of them is counted twice
      have hdisjoint : Disjoint h.nodes (Finset.Ico s.heap.length heap.length) := by
        refine Finset.disjoint_left.mpr fun p hp hnew => ?_
        exact absurd (Finset.mem_Ico.mp hnew).1 (Nat.not_le_of_lt (hs.nodes p hp))
      have hwritten := hs.written_eq
      simp only [Holdings.moved, FileRun.written, Finset.card_union_of_disjoint hdisjoint,
        Nat.card_Ico] at hwritten ⊢
      omega
  · exact ⟨hle, by simp, by simp [Holdings.moved]⟩

/-! ## Steps of the main thread -/

/-- What the end of a window makes of the results. -/
theorem FileRun.Inv.exists_reduced (hinv : s.Inv target indexer)
    (hjoining : s.Joining target indexer itc s.threads.length) :
    ∃ heap finalChunk nodes lookup,
      fChunkArrayReverseReduce s.heap 0 s.chunks.reduceOption = some (heap, finalChunk) ∧
      heap.toList finalChunk.first = some nodes ∧
      lookup.contents.length = s.written + 8 * (nodes.length + if itc = 0 then 1 else 0) ∧
      s.finished itc = { s with
        pc := .window itc
        heap := heap
        threads := []
        lookup := some lookup
        history := s.history ++ [(itc, s.threads)] } := by
  obtain ⟨_, _, _, -, -, heq⟩ := hinv.exists_finished hjoining
  have hall := hjoining.forall₂_done.1
  have hpc : (s.finished itc).pc = .window itc := by rw [heq]
  clear heq
  simp only [FileRun.finished, hall, if_true] at hpc
  cases hreduce : fChunkArrayReverseReduce s.heap 0 s.chunks.reduceOption with
  | none => simp only [hreduce, reduceCtorEq] at hpc
  | some result =>
      obtain ⟨heap, finalChunk⟩ := result
      cases hlookup : fLookupFileFromChunk heap s.lookup
          { finalChunk with lineCount := s.lineCount } s.lookup.isNone (itc == 0) with
      | none => simp only [hreduce, hlookup, reduceCtorEq] at hpc
      | some lookup =>
          obtain ⟨nodes, hlist⟩ : ∃ nodes, heap.toList finalChunk.first = some nodes := by
            cases hlist : heap.toList finalChunk.first with
            | some nodes => exact ⟨nodes, rfl⟩
            | none =>
                unfold fLookupFileFromChunk at hlookup
                split at hlookup
                · next hnodes => cases hlist.symm.trans hnodes
                · cases hlookup
          refine ⟨heap, finalChunk, nodes, lookup, rfl, hlist, ?_, ?_⟩
          · have hcontents := @contents_of_fLookupFileFromChunk heap s.lookup
              { finalChunk with lineCount := s.lineCount } nodes lookup (itc == 0) hlist hlookup
            rw [hcontents, List.length_append, length_flatMap_of_width length_sizeBytes,
              List.length_append, List.length_map, FileRun.written]
            by_cases hitc : itc = 0
            · cases s.lookup <;> simp [hitc] <;> omega
            · cases s.lookup <;> simp [hitc] <;> omega
          · simp only [FileRun.finished, hall, if_true, hreduce, hlookup]

theorem Worker.Owns.of_exited {w : Worker} {owned : Finset TextVar} {spare : ℕ} {ret : FChunk}
    (howns : w.Owns owned spare) (hpc : w.pc = .exited (some ret)) :
    owned = {.ret} ∧ spare = 0 := by
  unfold Worker.Owns at howns
  rwa [hpc] at howns

/-- What the threads of a window have when all of them are joined. -/
theorem FileRun.Owns.joined_threads (hs : s.Owns target h base news)
    (hjoining : s.Joining target indexer itc s.threads.length) {t : ℕ}
    (ht : t < s.threads.length) : h.thread t = {.ret} ∧
      news t = threadNewlines target.bytes s.threads[t] := by
  have hthread : s.threads[t]? = some s.threads[t] := List.getElem?_eq_getElem ht
  obtain ⟨ret, hdone, -⟩ := hjoining.joined t _ ht hthread
  obtain ⟨-, spare, howns, hnews⟩ := hs.threads t _ hthread
  obtain ⟨howned, rfl⟩ := howns.of_exited hdone.pc_eq
  exact ⟨howned, hnews⟩

/-- The results of a window lie in its region. -/
theorem FileRun.Owns.within_chunks (hs : s.Owns target h base news)
    (hjoining : s.Joining target indexer itc s.threads.length) :
    ∀ chunk ∈ s.chunks.reduceOption, chunk.Within s.heap base := by
  intro chunk hmem
  obtain ⟨j, hj, rfl⟩ := List.mem_iff_getElem.mp hmem
  obtain ⟨hlength, hdone⟩ := List.forall₂_iff_get.mp hjoining.forall₂_done.2
  have hthread := List.getElem?_eq_getElem (hlength ▸ hj)
  exact (hs.threads j _ hthread).1.result _ (hdone j hj (hlength ▸ hj)).pc_eq

theorem examinedNewlines_append (bytes : List UInt8) (xs ys : List (FIndexerChunk × ℕ)) :
    examinedNewlines bytes (xs ++ ys) = examinedNewlines bytes xs + examinedNewlines bytes ys := by
  simp [examinedNewlines]

theorem examinedNewlines_flatMap (bytes : List UInt8) (threads : List TextThread) :
    examinedNewlines bytes (threads.flatMap fun thread => thread.2.examined) =
      (threads.map (threadNewlines bytes)).sum := by
  induction threads with
  | nil => rfl
  | cons thread threads ih =>
      rw [List.flatMap_cons, examinedNewlines_append, ih, List.map_cons, List.sum_cons,
        threadNewlines]

theorem FileRun.Owns.finished (hs : s.Owns target h base news) (hinv : s.Inv target indexer)
    (hpc : s.pc = .finish itc) :
    s.Continues target h s.finishOps (s.handedNodes .proceed) (s.finished itc) ∧
      ∃ h', Takes s.threads.length h s.finishOps h' := by
  have hstage := hinv.stage
  simp only [FileRun.Stage, hpc] at hstage
  obtain ⟨hjoining, -⟩ := hstage
  have hmain := hs.main
  simp only [FileRun.MainOwns, hpc] at hmain
  obtain ⟨heap, finalChunk, nodes, lookup, hreduce, hlist, hcontents, hfinished⟩ :=
    hinv.exists_reduced hjoining
  obtain ⟨hclosed, hlength, hresult, huses⟩ :=
    fChunkArrayReverseReduce_within hs.closed (hs.within_chunks hjoining) hreduce
  obtain ⟨hnodup, hcount⟩ := ListHeap.nodup_cellsOf hlist
  have hcells : ∀ p ∈ heap.cellsOf finalChunk.first, base ≤ p ∧ p < s.heap.length := by
    rw [← hlength]
    exact hclosed.within_cellsOf hresult.first
  have hops := takes_finishOps hmain (fun t ht => (hs.joined_threads hjoining ht).1) hs.fresh
    hs.live huses hreduce hcells hnodup
  -- the next window begins at the end of the heap, where its region is empty
  refine ⟨Or.inl ⟨h.handed (heap.cellsOf finalChunk.first), s.heap.length, fun _ => 0, ?_, ?_,
    ?_⟩, _, hops⟩
  · rw [hfinished, @Holdings.owners_eq (h.handed _) (fun _ => rfl) _ s.threads.length]
    exact hops
  · rw [hfinished]
    constructor
    case main => simp [FileRun.MainOwns, keptOwners, Holdings.handed]
    case threads => simp
    case bounds => simp
    case fresh => simp [Holdings.handed]
    case nodes =>
      intro p hp
      rw [hlength]
      exact hs.nodes p (Finset.mem_sdiff.mp hp).1
    case live =>
      intro p hbase hp
      rw [hlength] at hp
      exact absurd hp (Nat.not_lt_of_le hbase)
    case closed =>
      rw [← hlength]
      exact ListHeap.closedFrom_length heap
    case base_eq =>
      have hnews : ∑ t ∈ Finset.range s.threads.length, news t =
          (s.threads.map (threadNewlines target.bytes)).sum :=
        calc ∑ t ∈ Finset.range s.threads.length, news t
          _ = ∑ t : Fin s.threads.length, news t := Finset.sum_range _
          _ = ∑ t : Fin s.threads.length, threadNewlines target.bytes s.threads[t.1] :=
            Finset.sum_congr rfl fun t _ => (hs.joined_threads hjoining t.2).2
          _ = (s.threads.map (threadNewlines target.bytes)).sum := Fin.sum_univ_fun_getElem _ _
      rw [hs.length_eq, hs.base_eq, hnews, ← examinedNewlines_flatMap]
      simp only [FileRun.examined, List.flatMap_append, List.flatMap_singleton,
        examinedNewlines_append]
    case length_eq => simpa using hlength
    case written_eq =>
      have hsub : (heap.cellsOf finalChunk.first).toFinset ⊆ h.nodes := fun p hp =>
        hs.live p (hcells p (List.mem_toFinset.mp hp)).1 (hcells p (List.mem_toFinset.mp hp)).2
      have hcard := Finset.card_sdiff_add_card_eq_card hsub
      rw [List.toFinset_card_of_nodup hnodup, hcount] at hcard
      have hwritten := hs.written_eq
      simp only [hpc, FilePc.closing, Bool.false_eq_true, if_false] at hwritten
      rw [hlength]
      simp only [FileRun.written, Option.elim_some, Holdings.handed] at hwritten hcontents ⊢
      rw [hcontents]
      cases itc with
      | zero =>
          simp only [FilePc.closing, if_true]
          omega
      | succ itc =>
          simp only [FilePc.closing, Bool.false_eq_true, if_false, Nat.add_one_ne_zero]
          omega
  · have hhanded : s.handedNodes .proceed = heap.cellsOf finalChunk.first := by
      simp only [FileRun.handedNodes, hpc, hreduce]
    rw [hhanded, hfinished]
    exact ⟨hlength.ge, fun p hp => (hcells p hp).2, by simp [Holdings.handed, hlength]⟩

/-- While no window is indexed no thread has a block. -/
theorem FileRun.Owns.thread_eq (hs : s.Owns target h base news) (hthreads : s.threads = [])
    (t : ℕ) : h.thread t = ∅ :=
  hs.fresh t (by simp [hthreads])

theorem FileRun.Owns.spawned (hs : s.Owns target h base news) (hinv : s.Inv target indexer)
    {it : FIndexerThreads} (hpc : s.pc = .window (itc + 1))
    (hplan : windowPlan target indexer itc = .ok it) (blocks : ℕ) :
    s.Continues target h (s.memOps target indexer blocks .proceed) []
      (s.spawned indexer itc it) := by
  have hstage := hinv.stage
  simp only [FileRun.Stage, hpc] at hstage
  have hmain := hs.main
  simp only [FileRun.MainOwns, hpc] at hmain
  have hlength : (s.spawned indexer itc it).threads.length = it.threads.length := by
    simp [FileRun.spawned, textThreads]
  have hempty := hs.thread_eq hstage.1
  have hheap : s.heap.length = base := by
    have hlen := hs.length_eq
    simpa [hstage.1] using hlen
  let file : Finset FileVar := keptOwners s.lookup ∪ windowOwners it.threads.length
  refine Or.inl ⟨{ h with file := file }, base, fun _ => 0, ?_, ?_, .refl _ _⟩
  · have hops : Takes s.threads.length h (onFile (spawnOps it.threads.length))
        { h with file := file } := by
      refine .onFile ?_
      rw [hmain]
      exact ownersAfter_spawnOps _ _
    simp only [FileRun.memOps, FileRun.mainOps, hpc, hplan]
    rw [@Holdings.owners_eq { h with file := file } hempty _ s.threads.length]
    exact hops
  · constructor
    case main =>
      simp only [FileRun.MainOwns, FileRun.spawned, file]
      simp [textThreads]
    case threads =>
      intro t thread hthread
      obtain ⟨config, hconfig, rfl⟩ : ∃ config, (textThreads indexer it)[t]? = some config ∧
          (config, Worker.start) = thread := by
        simpa [FileRun.spawned] using hthread
      refine ⟨Worker.within_start _ _, 0, ⟨hempty t, rfl⟩, rfl⟩
    case bounds =>
      intro t thread _
      exact ⟨by simp [hempty t], Nat.zero_le _⟩
    case fresh => exact fun t _ => hempty t
    case nodes => exact hs.nodes
    case live => exact hs.live
    case closed => exact hs.closed
    case base_eq => exact hs.base_eq
    case length_eq => simpa [FileRun.spawned] using hheap
    case written_eq =>
      have hwritten := hs.written_eq
      simpa [hpc, FilePc.closing, FileRun.spawned, FileRun.written] using hwritten

/-- The main thread joins a thread and reads its result for the line count. -/
theorem FileRun.Owns.joined (hs : s.Owns target h base news) (hinv : s.Inv target indexer)
    {thread : TextThread} {result : Option FChunk} (hpc : s.pc = .join itc i)
    (hthread : s.threads[i]? = some thread) (hresult : thread.2.pc = .exited result)
    (blocks : ℕ) :
    s.Continues target h (s.memOps target indexer blocks .proceed) []
      (s.joined itc i result) := by
  have hstage := hinv.stage
  simp only [FileRun.Stage, hpc] at hstage
  obtain ⟨hjoining, -, other, hother, hic⟩ := hstage
  obtain rfl : thread = other := Option.some.inj (hthread.symm.trans hother)
  have hmain := hs.main
  simp only [FileRun.MainOwns, hpc] at hmain
  have ht : i < s.threads.length := (List.getElem?_eq_some_iff.mp hthread).1
  have hids : Takes s.threads.length h (onFile [.use .threadIds]) h :=
    .fileUses [.threadIds] (by simp [hmain, windowOwners])
  simp only [FileRun.memOps, FileRun.mainOps, hpc, hthread, hresult]
  cases result with
  | none =>
      refine hs.goes h.file (hids.append (.nil _ _)) ?_ rfl rfl rfl rfl (by rw [hpc]; rfl)
      intro t ht
      simp only [FileRun.joined] at ht
      simp [hmain, windowOwners, ht]
  | some ret =>
      obtain ⟨hindex, hw⟩ := hinv.threads i thread hthread
      obtain ⟨-, hthreads, hheap, hpc'⟩ :=
        hjoining.next hthread hindex (done_of_inv hw hic hresult)
      have hframe : (s.joined itc i (some ret)).lookup = s.lookup ∧
          (s.joined itc i (some ret)).history = s.history := by
        rw [FileRun.joined]
        split <;> exact ⟨rfl, rfl⟩
      obtain ⟨-, spare, howns, -⟩ := hs.threads i thread hthread
      have hret : ∀ x ∈ [TextVar.ret], x ∈ h.thread i := by
        simp [(howns.of_exited hresult).1]
      have huses : Takes s.threads.length h
          (onThread i [.use .ret] ++ onFile [.use .chunks]) h :=
        Takes.append (.threadUses [.ret] ht hret)
          (.fileUses [.chunks] (by simp [hmain, windowOwners]))
      refine hs.goes h.file (hids.append huses) ?_ hheap hthreads hframe.1 hframe.2
        (by rw [hpc', hpc]; rfl)
      simp only [FileRun.MainOwns, hpc']
      rw [hthreads, hframe.1, hmain]

/-- The call returns an index only if there is a lookup file. -/
theorem FileRun.Owns.exists_lookup (hs : s.Owns target h base news)
    (hclosing : s.pc.closing = true) : ∃ lookup, s.lookup = some lookup := by
  have hsub : h.nodes ⊆ Finset.range s.heap.length := fun p hp =>
    Finset.mem_range.mpr (hs.nodes p hp)
  have hcard := Finset.card_le_card hsub
  have hwritten := hs.written_eq
  rw [Finset.card_range] at hcard
  rw [if_pos hclosing] at hwritten
  cases hlookup : s.lookup with
  | some lookup => exact ⟨lookup, rfl⟩
  | none =>
      simp only [FileRun.written, hlookup, Option.elim_none] at hwritten
      omega

/-- A step of the main thread. -/
theorem FileRun.Owns.main_step (hs : s.Owns target h base news) (hinv : s.Inv target indexer)
    (hmove : FileMove target indexer s a s') (hmain : a = .proceed) (blocks : ℕ) :
    s.Continues target h (s.memOps target indexer blocks a) (s.handedNodes a) s' := by
  have hstage := hinv.stage
  have howns := hs.main
  unfold FileRun.Stage at hstage
  unfold FileRun.MainOwns at howns
  cases hmove with
  | @opened count hpc hcount =>
      simp only [hpc] at hstage howns
      simp only [FileRun.memOps, FileRun.mainOps, FileRun.handedNodes, hpc, hcount]
      have hclosing : (FilePc.window count).closing = false := by
        cases count with
        | zero => exact absurd (threadItCount_pos hcount) (lt_irrefl _)
        | succ count => rfl
      refine hs.goes {.indexFilename} (.onFile ?_) ?_ rfl rfl rfl rfl ?_
      · rw [howns]
        rfl
      · simp [FileRun.MainOwns, keptOwners, hstage, FileRun.start]
      · rw [hclosing, hpc]
        rfl
  | unopened hpc hcount hended =>
      simp only [hpc] at hstage
      simp only [FileRun.memOps, FileRun.mainOps, FileRun.handedNodes, hpc, hcount]
      exact @FileRun.Continues.stops _ _ _ _ [] _ ⟨_, rfl⟩ (by rw [hstage]; rfl) hended
  | windowsDone hpc =>
      simp only [hpc] at howns
      simp only [FileRun.memOps, FileRun.mainOps, FileRun.handedNodes, hpc]
      exact hs.goes h.file (.nil _ _) howns rfl rfl rfl rfl (by rw [hpc]; rfl)
  | spawned hpc hplan =>
      simp only [FileRun.handedNodes, hpc]
      exact hs.spawned hinv hpc hplan blocks
  | @unplanned itc fault pc hpc hplan hended =>
      simp only [hpc] at hstage howns
      cases fault with
      | refused =>
          simp only [FileRun.memOps, FileRun.mainOps, FileRun.handedNodes, hpc, hplan]
          -- `f_indexer_threads_init` frees its result itself
          have hnew : FileVar.it ∉ keptOwners s.lookup := fresh_of_keptOwners (by decide)
          refine .stops ⟨keptOwners s.lookup, ?_⟩ hstage.1 hended
          simp [howns, ownersAfter, ownersStep, hnew]
      | undefined =>
          simp only [FileRun.memOps, FileRun.mainOps, FileRun.handedNodes, hpc, hplan]
          refine .stops ⟨_, ownersAfter_take_mallocs (by decide) (fun x hx => ?_) blocks⟩
            hstage.1 hended
          rw [howns]
          refine fresh_of_keptOwners ?_
          fin_cases hx <;> decide
  | @watched itc i thread hpc hthread hprogress =>
      simp only [hpc] at howns
      simp only [FileRun.memOps, FileRun.mainOps, FileRun.handedNodes, hpc, hthread]
      refine hs.goes h.file (.fileUses _ fun x hx => ?_) howns rfl rfl rfl rfl (by rw [hpc]; rfl)
      rw [howns]
      refine Finset.mem_union_right _ ?_
      rcases List.mem_append.mp hx with hx | hx
      · fin_cases hx <;> simp [windowOwners]
      · simp only [List.mem_map, List.mem_range] at hx
        simp [windowOwners, hx]
  | @allJoined itc i hpc hthread =>
      simp only [hpc] at howns
      simp only [FileRun.memOps, FileRun.mainOps, FileRun.handedNodes, hpc, hthread]
      refine hs.goes h.file (.fileUses [.it] fun x hx => ?_) howns rfl rfl rfl rfl
        (by rw [hpc]; rfl)
      rw [howns]
      fin_cases hx
      simp [windowOwners]
  | joined hpc hthread hresult =>
      simp only [FileRun.handedNodes, hpc]
      exact hs.joined hinv hpc hthread hresult blocks
  | @finished itc hpc =>
      simp only [FileRun.memOps, FileRun.mainOps, hpc]
      exact (hs.finished hinv hpc).1
  | closed hpc =>
      simp only [hpc] at hstage howns
      simp only [FileRun.memOps, FileRun.mainOps, FileRun.handedNodes, hpc]
      obtain ⟨lookup, hlookup⟩ := hs.exists_lookup (by rw [hpc]; rfl)
      have hnew : FileVar.index ∉ keptOwners s.lookup := fresh_of_keptOwners (by decide)
      refine hs.goes (insert .index (keptOwners s.lookup)) (.onFile ?_) ?_ rfl rfl rfl rfl ?_
      · simp [howns, ownersAfter, ownersStep, hnew]
      · simp [FileRun.MainOwns, hlookup]
      · rw [hpc, hlookup]
        rfl
  | fault hpc => cases hmain
  | worker hthread hmove => cases hmain

/-- A failing step of the main thread. -/
theorem FileRun.Owns.fault_step (hs : s.Owns target h base news) (hinv : s.Inv target indexer)
    (hfail : s.pc.canFail = true) (blocks : ℕ) :
    s.Continues target h (s.memOps target indexer blocks .fault) []
      { s with pc := .returned none } := by
  have hstage := hinv.stage
  have howns := hs.main
  unfold FileRun.Stage at hstage
  unfold FileRun.MainOwns at howns
  have hnothing : s.threads = [] → s.Continues target h [] [] { s with pc := .returned none } :=
    fun hthreads => @FileRun.Continues.stops _ _ _ _ [] _ ⟨_, rfl⟩ hthreads (Or.inl rfl)
  cases hpc : s.pc with
  | enter =>
      simp only [hpc] at hstage
      simp only [FileRun.memOps, FileRun.faultOps, hpc]
      exact hnothing (by rw [hstage]; rfl)
  | window left =>
      simp only [hpc] at hstage howns
      cases left with
      | zero =>
          simp only [FileRun.memOps, FileRun.faultOps, hpc]
          exact hnothing hstage.1
      | succ itc =>
          simp only [FileRun.memOps, FileRun.faultOps, hpc]
          cases windowPlan target indexer itc with
          | error fault => exact hnothing hstage.1
          | ok it =>
              have hops := exists_ownersAfter_spawnFaultOps s.lookup it.threads.length blocks
              rw [← howns] at hops
              exact .stops hops hstage.1 (Or.inl rfl)
  | watch itc i => rw [hpc] at hfail; cases hfail
  | join itc i => rw [hpc] at hfail; cases hfail
  | finish itc =>
      simp only [hpc] at hstage
      simp only [FileRun.memOps, FileRun.faultOps, hpc]
      obtain ⟨h', hops⟩ := (hs.finished hinv hpc).2
      refine Or.inr ⟨⟨Or.inl rfl, fun thread hmem => ?_⟩, exists_ownersAfter_take hops blocks⟩
      obtain ⟨t, ht, rfl⟩ := List.mem_iff_getElem.mp hmem
      obtain ⟨ret, hdone, -⟩ := hstage.1.joined t _ ht (List.getElem?_eq_getElem ht)
      exact ⟨some ret, hdone.pc_eq⟩
  | close =>
      simp only [hpc] at hstage howns
      simp only [FileRun.memOps, FileRun.faultOps, hpc]
      refine .stops ⟨_, ownersAfter_take_mallocs (List.nodup_singleton _) (fun x hx => ?_) blocks⟩
        hstage.1 (Or.inl rfl)
      rw [howns, List.mem_singleton.mp hx]
      exact fresh_of_keptOwners (by decide)
  | returned index => rw [hpc] at hfail; cases hfail
  | undefined => rw [hpc] at hfail; cases hfail

/-- **A step** of the call keeps the account, or ends it. -/
theorem FileRun.Owns.step (hs : s.Owns target h base news) (hinv : s.Inv target indexer)
    (hstep : fileStep target indexer a s = some s') (blocks : ℕ) :
    s.Continues target h (s.memOps target indexer blocks a) (s.handedNodes a) s' := by
  have hmove := fileMove_of_step hstep
  cases a with
  | proceed => exact hs.main_step hinv hmove rfl blocks
  | fault =>
      cases hmove with
      | fault hfail =>
          rw [s.handedNodes_eq_nil (by simp)]
          exact hs.fault_step hinv hfail blocks
  | worker t a =>
      cases hmove with
      | worker hthread hmove =>
          rw [s.handedNodes_eq_nil (by simp)]
          exact hs.worker hinv hthread hmove blocks

theorem FileRun.Stopped.fileStep_eq (hstopped : s.Stopped) :
    fileStep target indexer a s = none := by
  obtain ⟨hpc, hthreads⟩ := hstopped
  refine Option.eq_none_iff_forall_ne_some.mpr fun s' hstep => ?_
  have hmove := fileMove_of_step hstep
  cases hmove
  case worker t a config w w' heap hthread hmove =>
    obtain ⟨result, hexited⟩ := hthreads _ (List.mem_of_getElem? hthread)
    exact hmove.not_exited result hexited
  all_goals rcases hpc with hpc | hpc <;> simp_all [FilePc.canFail]

/-- The account of the owners over a whole run. -/
theorem owners_of_run {trace : List (FileRun × FileAction)}
    (hrun : Run (fileStep target indexer) .start trace s) (blocks : FileRun × FileAction → ℕ) :
    (∃ h base news, ownersAfter ∅ (trace.flatMap fun move =>
        move.1.memOps target indexer (blocks move) move.2) = some (h.owners s.threads.length) ∧
      s.Owns target h base news ∧
      NodesLeft h.nodes s.heap (trace.flatMap fun move => move.1.handedNodes move.2)) ∨
    (s.Stopped ∧ ∃ owned, ownersAfter ∅ (trace.flatMap fun move =>
        move.1.memOps target indexer (blocks move) move.2) = some owned) := by
  let Account (past : List (FileRun × FileAction)) (s : FileRun) : Prop :=
    s.Inv target indexer ∧
      ((∃ h base news, ownersAfter ∅ (past.flatMap fun move =>
          move.1.memOps target indexer (blocks move) move.2) = some (h.owners s.threads.length) ∧
        s.Owns target h base news ∧
        NodesLeft h.nodes s.heap (past.flatMap fun move => move.1.handedNodes move.2)) ∨
      (s.Stopped ∧ ∃ owned, ownersAfter ∅ (past.flatMap fun move =>
          move.1.memOps target indexer (blocks move) move.2) = some owned))
  have hkeep : ∀ past (s : FileRun) a s', Account past s → True →
      fileStep target indexer a s = some s' → Account (past ++ [(s, a)]) s' := by
    intro past s a s' ⟨hinv, haccount⟩ _ hstep
    refine ⟨hinv.step (fileMove_of_step hstep), ?_⟩
    rcases haccount with ⟨h, base, news, hafter, hs, hleft⟩ | ⟨hstopped, -⟩
    · rw [List.flatMap_append, ownersAfter_append_of hafter, List.flatMap_singleton]
      rcases hs.step hinv hstep (blocks (s, a)) with ⟨h', base', news', hops, hs', hnodes⟩ | hstop
      · refine Or.inl ⟨h', base', news', hops, hs', ?_⟩
        rw [List.flatMap_append, List.flatMap_singleton]
        exact hleft.append hnodes
      · exact Or.inr hstop
    · cases hstopped.fileStep_eq.symm.trans hstep
  have hok : ∀ move ∈ trace, (fun _ : FileRun × FileAction => True) move := fun _ _ => trivial
  have hstart : Account [] .start := ⟨FileRun.inv_start target indexer,
    Or.inl ⟨_, _, _, rfl, FileRun.owns_start target, ⟨by simp, by simp [FileRun.start]⟩⟩⟩
  exact (hrun.history hok hstart hkeep).2

/-- The account when an index is returned: what was scanned is in the lookup file, or is a node that
is left. -/
theorem owners_of_returned {trace : List (FileRun × FileAction)}
    (hrun : Run (fileStep target indexer) .start trace s) (blocks : FileRun × FileAction → ℕ)
    {index : FIndex} (hpc : s.pc = .returned (some index)) :
    ∃ h : Holdings, ownersAfter ∅ (trace.flatMap fun move =>
        move.1.memOps target indexer (blocks move) move.2) = some (h.owners 0) ∧
      h.file = {.index, .indexFilename, .lookup} ∧
      NodesLeft h.nodes s.heap (trace.flatMap fun move => move.1.handedNodes move.2) ∧
      8 * (examinedNewlines target.bytes s.examined + 1) =
        8 * h.nodes.card + index.flookup.contents.length := by
  have hinv := (FileRun.inv_start target indexer).of_run hrun
  obtain ⟨hthreads, -, -, hlookup⟩ := hinv.returned hpc
  rcases owners_of_run hrun blocks with ⟨h, base, news, hafter, hs, hleft⟩ | ⟨hstopped, -⟩
  · have hmain := hs.main
    simp only [FileRun.MainOwns, hpc, hlookup] at hmain
    have hlength := hs.length_eq
    have hwritten := hs.written_eq
    rw [hthreads, List.length_nil, Finset.sum_range_zero, hs.base_eq] at hlength
    simp only [hpc, FilePc.closing, FileRun.written, hlookup, Option.elim_some, if_true] at hwritten
    rw [hthreads] at hafter
    refine ⟨h, hafter, hmain, hleft, ?_⟩
    omega
  · rcases hstopped.1 with hstop | hstop <;> cases hpc.symm.trans hstop

theorem Holdings.card_owners (h : Holdings) (count : ℕ) : (h.owners count).card =
    2 * h.nodes.card + (h.file.card + ∑ t ∈ Finset.range count, (h.thread t).card) := by
  rw [Holdings.owners, Finset.card_disjSum, card_nodeOwners, card_together]

/-- Indexing `lineFile`. -/
theorem exists_run_line : ∃ trace s, Run (fileStep lineFile lineIndexer) .start trace s ∧
    s.pc = .returned (some ⟨lineFile, ⟨sizeBytes 2 ++ sizeBytes 0, 2⟩⟩) ∧
    examinedNewlines lineFile.bytes s.examined = 1 := by
  have hsummary : (runTrace (fileStep lineFile lineIndexer) (lineActions (some 2)) .start).map
      (fun run => run.2.summary) =
      some (some ⟨sizeBytes 2 ++ sizeBytes 0, 2⟩, [(⟨0, 0, 2⟩, 2)]) := by decide +kernel
  obtain ⟨trace, s, hrun, hpc, hexamined⟩ := exists_run_of_summary hsummary
  refine ⟨trace, s, hrun, hpc, ?_⟩
  rw [hexamined]
  decide

theorem FileRun.MainOwns.card_le {file : Finset FileVar} (hmain : s.MainOwns file)
    (hreturned : s.pc ≠ .returned none) : file.card ≤ 7 + s.threads.length := by
  have hkept : (keptOwners s.lookup).card ≤ 2 := by
    rcases keptOwners_eq s.lookup with heq | heq <;> rw [heq] <;> decide
  have hwindow : (keptOwners s.lookup ∪ windowOwners s.threads.length).card ≤
      7 + s.threads.length := by
    have hthreads : ((Finset.range s.threads.length).image FileVar.tthread).card ≤
        s.threads.length := Finset.card_image_le.trans (Finset.card_range _).le
    have hfive : ({.it, .itThreads, .chunks, .tthreads, .threadIds} : Finset FileVar).card = 5 :=
      rfl
    have hunion := Finset.card_union_le
      ({.it, .itThreads, .chunks, .tthreads, .threadIds} : Finset FileVar)
      ((Finset.range s.threads.length).image .tthread)
    have hall := Finset.card_union_le (keptOwners s.lookup) (windowOwners s.threads.length)
    rw [windowOwners] at hall ⊢
    omega
  unfold FileRun.MainOwns at hmain
  cases hpc : s.pc with
  | enter =>
      simp only [hpc] at hmain
      simp [hmain]
  | window left =>
      simp only [hpc] at hmain
      rw [hmain]
      omega
  | watch itc i =>
      simp only [hpc] at hmain
      rwa [hmain]
  | join itc i =>
      simp only [hpc] at hmain
      rwa [hmain]
  | finish itc =>
      simp only [hpc] at hmain
      rwa [hmain]
  | close =>
      simp only [hpc] at hmain
      rw [hmain]
      omega
  | returned index =>
      cases index with
      | none => exact absurd hpc hreturned
      | some index =>
          simp only [hpc] at hmain
          have hinsert := Finset.card_insert_le FileVar.index (keptOwners s.lookup)
          rw [hmain]
          omega
  | undefined =>
      simp only [hpc] at hmain

/-- What the threads of a window have, with their configurations and their nodes. -/
theorem FileRun.Owns.sum_threads_le (hs : s.Owns target h base news) (hinv : s.Inv target indexer) :
    ∑ t ∈ Finset.range s.threads.length, (1 + (h.thread t).card + 2 * news t) ≤
      (s.threads.map fun thread =>
        5 + 4 * thread.1.chunks.length + 2 * chunkBytes thread.1.chunks).sum := by
  refine sum_range_le_sum_map s.threads _ fun t ht => ?_
  have hthread : s.threads[t]? = some s.threads[t] := List.getElem?_eq_getElem ht
  obtain ⟨hvars, hnews⟩ := hs.bounds t _ hthread
  have hcard := (Finset.card_le_card hvars).trans (card_threadVars_le _)
  have hbudget := (hinv.threads t _ hthread).2.budget_le
  omega

/-- **Consistent memory.** As long as the call has not failed, what is there at any moment depends
on the plan of the current window, and not on the size of the file: each thread has at most five
blocks, four for each chunk and two for each byte of its plan. Beside these there are two blocks for
each newline of the finished windows that is missing in the lookup file. -/
theorem index_footprint {trace : List (FileRun × FileAction)}
    (hrun : Run (fileStep target indexer) .start trace s) (hreturned : s.pc ≠ .returned none)
    (hundefined : s.pc ≠ .undefined) (blocks : FileRun × FileAction → ℕ) :
    ∃ m, (Mem.empty IndexBlock).run (trace.flatMap fun move =>
        move.1.memOps target indexer (blocks move) move.2) = some m ∧
      m.live.card + 2 * (s.written / 8) ≤
        7 + 2 * (examinedNewlines target.bytes s.examined + 1) +
          (s.threads.map fun thread =>
            5 + 4 * thread.1.chunks.length + 2 * chunkBytes thread.1.chunks).sum := by
  have hinv := (FileRun.inv_start target indexer).of_run hrun
  rcases owners_of_run hrun blocks with ⟨h, base, news, hafter, hs, -⟩ | ⟨⟨hstop, -⟩, -⟩
  · obtain ⟨m, hm, howned, -⟩ := (Mem.Owned.empty IndexBlock).run hafter
    refine ⟨m, hm, ?_⟩
    have hfile := hs.main.card_le hreturned
    have hthreads := hs.sum_threads_le hinv
    have hlength := hs.length_eq
    have hwritten := hs.written_eq
    have hbase := hs.base_eq
    rw [Finset.sum_add_distrib, Finset.sum_add_distrib, ← Finset.mul_sum, Finset.sum_const,
      Finset.card_range, smul_eq_mul, Nat.mul_one] at hthreads
    rw [howned.card_live, h.card_owners]
    split at hwritten <;> omega
  · rcases hstop with hstop | hstop
    · exact absurd hstop hreturned
    · exact absurd hstop hundefined

/-- The first window of `windowsFile`, which is the second one to be indexed, when both threads have
scanned their chunks. -/
theorem index_footprint_windows : ∃ trace s m,
    Run (fileStep windowsFile windowsIndexer) .start trace s ∧
      (∃ thread, s.watching = some thread) ∧ s.threads.length = 2 ∧
      (Mem.empty IndexBlock).run (trace.flatMap fun move =>
        move.1.memOps windowsFile windowsIndexer 0 move.2) = some m ∧ m.live.card ≤ 43 := by
  have hsummary : (runTrace (fileStep windowsFile windowsIndexer) ([.proceed] ++ windowActions ++
      [.proceed] ++ (pairSteps.take 5).flatMap fun a => [.worker 1 a, .worker 0 a]) .start).map
        (fun run => (run.2.watching.isSome, run.2.written,
          examinedNewlines windowsFile.bytes run.2.examined, run.2.threads.map fun thread =>
            5 + 4 * thread.1.chunks.length + 2 * chunkBytes thread.1.chunks)) =
      some (true, 32, 4, [17, 17]) := by
    decide +kernel
  obtain ⟨⟨trace, s⟩, hrun, hpair⟩ := Option.map_eq_some_iff.mp hsummary
  obtain ⟨hwatching, hpair⟩ := Prod.mk.inj hpair
  obtain ⟨hwritten, hpair⟩ := Prod.mk.inj hpair
  obtain ⟨hnewlines, hplans⟩ := Prod.mk.inj hpair
  have hrun := run_of_runTrace hrun
  obtain ⟨thread, hthread⟩ : ∃ thread, s.watching = some thread :=
    Option.isSome_iff_exists.mp hwatching
  obtain ⟨itc, i, hpc, -⟩ := FileRun.exists_of_watching hthread
  obtain ⟨m, hm, hlive⟩ := index_footprint hrun (by simp [hpc]) (by simp [hpc]) fun _ => 0
  have hcount : s.threads.length = 2 := by simpa using congrArg List.length hplans
  refine ⟨trace, s, m, hrun, ⟨thread, hthread⟩, hcount, hm, ?_⟩
  rw [hnewlines, hplans, hwritten] at hlive
  simpa using hlive

/-- **Indexing and freeing the index.** After every run that returns an index, `f_index_free` frees
what is there. Nothing is left if and only if the lookup file has an entry for each newline that was
scanned, and one more. -/
theorem index_then_free {trace : List (FileRun × FileAction)} {index : FIndex}
    (hrun : Run (fileStep target indexer) .start trace s) (hpc : s.pc = .returned (some index))
    (blocks : FileRun × FileAction → ℕ) :
    ∃ m, (Mem.empty IndexBlock).run ((trace.flatMap fun move =>
        move.1.memOps target indexer (blocks move) move.2) ++ onFile indexFreeOps) = some m ∧
      (m.live = ∅ ↔ index.flookup.contents.length =
        8 * (examinedNewlines target.bytes s.examined + 1)) := by
  obtain ⟨h, hafter, hfile, -, hcount⟩ := owners_of_returned hrun blocks hpc
  have hfree : Takes 0 h (onFile indexFreeOps) { h with file := ∅ } := by
    refine .onFile ?_
    rw [hfile]
    decide
  obtain ⟨m, hm, howned, -⟩ := (Mem.Owned.empty IndexBlock).run
    ((ownersAfter_append_of hafter _).trans hfree)
  have hlive : m.live.card = 2 * h.nodes.card := by
    rw [howned.card_live, Holdings.card_owners]
    rfl
  refine ⟨m, hm, ?_⟩
  rw [← Finset.card_eq_zero, hlive]
  omega

/-- `f_index_free` frees them. -/
theorem index_then_free_line : ∃ trace s m,
    Run (fileStep lineFile lineIndexer) .start trace s ∧
      s.pc = .returned (some ⟨lineFile, ⟨sizeBytes 2 ++ sizeBytes 0, 2⟩⟩) ∧
      (Mem.empty IndexBlock).run ((trace.flatMap fun move =>
        move.1.memOps lineFile lineIndexer 0 move.2) ++ onFile indexFreeOps) = some m ∧
      m.live = ∅ := by
  obtain ⟨trace, s, hrun, hpc, hnewlines⟩ := exists_run_line
  obtain ⟨m, hm, hempty⟩ := index_then_free hrun hpc fun _ => 0
  refine ⟨trace, s, m, hrun, hpc, hm, hempty.mpr ?_⟩
  rw [hnewlines]
  simp

end

end Flashlight.TextIndexer
