/-
# What the main thread of the indexer allocates

The main thread allocates the path of the lookup file once, and for each window the plan, the array
of the results, the configurations of the threads and their identifiers. When all threads of a
window are joined it reads their results, writes the list of nodes to the lookup file, frees the
nodes that it meets there, and then the results and its own blocks.
-/

import Flashlight.TextIndexer.Owners

namespace Flashlight.TextIndexer

open Flashlight.Math Flashlight.Indexer

/-! ## The blocks of the main thread -/

/-- `f_indexer_threads_init` of `n` threads, behind the two blocks for its result. -/
def threadConfigOps (n : ℕ) : List (MemOp FileVar) :=
  (List.range n).flatMap fun _ => [.use .it, .use .itThreads]

/-- The main thread starts thread `i`. -/
def spawnThreadOps (i : ℕ) : List (MemOp FileVar) :=
  [.use .it, .malloc (.tthread i), .use .itThreads, .use (.tthread i), .use .tthreads,
    .use .threadIds]

/-- The main thread starts the `n` threads of a window. -/
def spawnOps (n : ℕ) : List (MemOp FileVar) :=
  [.malloc .it, .use .it, .malloc .itThreads] ++ threadConfigOps n ++
    [.use .it, .malloc .chunks, .malloc .tthreads, .malloc .threadIds] ++
    (List.range n).flatMap spawnThreadOps

/-- The threads of a window cannot be started. Only a plan without its threads is freed. -/
def spawnFaultOps (n blocks : ℕ) : List (MemOp FileVar) :=
  if blocks = 1 then [.malloc .it, .use .it, .free .it] else (spawnOps n).take blocks

/-- The main thread watches the progress of `n` threads. -/
def watchOps (n : ℕ) : List (MemOp FileVar) :=
  ([FileVar.it, .tthreads] ++ (List.range n).map FileVar.tthread).map .use

/-- The blocks of a window with `n` threads are freed, behind the results. -/
def windowFreeOps (n : ℕ) : List (MemOp FileVar) :=
  .free .chunks ::
    (List.range n).flatMap (fun i => [.use .it, .use .tthreads, .free (.tthread i)]) ++
    [.use .it, .free .itThreads, .free .it, .free .tthreads, .free .threadIds]

/-- The main thread does the same with the result of each of `n` threads. -/
def resultOps (n : ℕ) (op : MemOp TextVar) : List (MemOp IndexBlock) :=
  (List.range n).flatMap fun i => onFile [.use .chunks] ++ onThread i [op]

/-- `f_lookup_file_from_chunk`, for a chunk with the given nodes. -/
def lookupFileOps (lookup : Option FLookupFile) (nodes : List Ptr) : List (MemOp IndexBlock) :=
  onFile ((if lookup.isNone then [.malloc .lookup, .use .indexFilename] else []) ++
      [.use .finalChunk, .use .lookup]) ++
    onNodes (nodeFreeOps nodes) ++ onFile [.use .lookup, .free .finalChunk]

/-- The results of a window are reduced and handed to the lookup file, and the blocks of the window
are freed. -/
def FileRun.finishOps (s : FileRun) : List (MemOp IndexBlock) :=
  onFile [.malloc .finalChunk] ++ resultOps s.threads.length (.use .ret) ++
    onNodes ((reverseReduceUses s.heap s.chunks.reduceOption).map fun p => .use (.node p)) ++
    match fChunkArrayReverseReduce s.heap 0 s.chunks.reduceOption with
    | none => []
    | some (heap, finalChunk) =>
        onFile [.use .finalChunk] ++ lookupFileOps s.lookup (heap.cellsOf finalChunk.first) ++
          resultOps s.threads.length (.free .ret) ++ onFile (windowFreeOps s.threads.length)

/-- The nodes that a step hands to the lookup file: those of the chunk that the results of a window
are reduced to. -/
def FileRun.handedNodes (s : FileRun) (a : FileAction) : List Ptr :=
  match s.pc, a with
  | .finish _, .proceed =>
      match fChunkArrayReverseReduce s.heap 0 s.chunks.reduceOption with
      | none => []
      | some (heap, finalChunk) => heap.cellsOf finalChunk.first
  | _, _ => []

/-- Only the main thread hands nodes over. -/
theorem FileRun.handedNodes_eq_nil (s : FileRun) {a : FileAction} (ha : a ≠ .proceed) :
    s.handedNodes a = [] := by
  unfold FileRun.handedNodes
  split
  · exact absurd rfl ha
  · rfl

/-- `f_index_free`, with `f_lookup_file_free`. -/
def indexFreeOps : List (MemOp FileVar) :=
  [.use .index, .use .lookup, .use .indexFilename, .use .lookup, .free .indexFilename,
    .free .lookup, .use .index, .free .index]

/-- What a step of the main thread does with the blocks, when no call fails. A plan that has no
meaning may lose it behind the allocation of `blocks` blocks. -/
def FileRun.mainOps (target : TargetFile) (indexer : FIndexer) (blocks : ℕ) (s : FileRun) :
    List (MemOp IndexBlock) :=
  match s.pc with
  | .enter =>
      match threadItCount (.ofNat target.bytes.length) indexer.maxBytesPerIteration with
      | .ok _ => onFile [.malloc .indexFilename, .use .indexFilename]
      | .error _ => []
  | .window 0 => []
  | .window (itc + 1) =>
      match windowPlan target indexer itc with
      | .ok it => onFile (spawnOps it.threads.length)
      | .error .refused => onFile [.malloc .it, .use .it, .free .it]
      | .error .undefined => onFile (([FileVar.it, .itThreads].take blocks).map .malloc)
  | .watch _ i =>
      match s.threads[i]? with
      | none => onFile [.use .it]
      | some _ => onFile (watchOps s.threads.length)
  | .join _ i =>
      match s.threads[i]? with
      | none => []
      | some thread =>
          onFile [.use .threadIds] ++
            match thread.2.pc with
            | .exited (some _) => onThread i [.use .ret] ++ onFile [.use .chunks]
            | _ => []
  | .finish _ => s.finishOps
  | .close => onFile [.malloc .index, .use .index]
  | .returned _ => []
  | .undefined => []

/-- What the main thread did with the blocks before a call failed. -/
def FileRun.faultOps (target : TargetFile) (indexer : FIndexer) (blocks : ℕ) (s : FileRun) :
    List (MemOp IndexBlock) :=
  match s.pc with
  | .window (itc + 1) =>
      match windowPlan target indexer itc with
      | .ok it => onFile (spawnFaultOps it.threads.length blocks)
      | .error _ => []
  | .finish _ => s.finishOps.take blocks
  | .close => onFile (([FileVar.index].take blocks).map .malloc)
  | _ => []

/-- What a step of the call does with the blocks. When it fails, `blocks` tells how far it got. -/
def FileRun.memOps (target : TargetFile) (indexer : FIndexer) (blocks : ℕ) (s : FileRun)
    (a : FileAction) : List (MemOp IndexBlock) :=
  match a with
  | .proceed => s.mainOps target indexer blocks
  | .fault => s.faultOps target indexer blocks
  | .worker t a =>
      match s.threads[t]? with
      | none => []
      | some (config, w) => workerOps target.bytes config t blocks a s.heap w

/-! ## What the main thread owns -/

/-- What the main thread keeps from one window to the next. -/
def keptOwners (lookup : Option FLookupFile) : Finset FileVar :=
  if lookup.isSome then {.indexFilename, .lookup} else {.indexFilename}

/-- What the main thread has for a window with `n` threads. -/
def windowOwners (n : ℕ) : Finset FileVar :=
  {.it, .itThreads, .chunks, .tthreads, .threadIds} ∪ (Finset.range n).image .tthread

theorem keptOwners_eq (lookup : Option FLookupFile) :
    keptOwners lookup = {.indexFilename} ∨ keptOwners lookup = {.indexFilename, .lookup} := by
  unfold keptOwners
  split
  · exact Or.inr rfl
  · exact Or.inl rfl

theorem fresh_of_keptOwners {lookup : Option FLookupFile} {x : FileVar}
    (hx : x ∉ ({.indexFilename, .lookup} : Finset FileVar)) : x ∉ keptOwners lookup := by
  rcases keptOwners_eq lookup with heq | heq
  · rw [heq]
    exact fun hmem => hx (Finset.mem_insert.mpr (Or.inl (Finset.mem_singleton.mp hmem)))
  · rwa [heq]

theorem ownersAfter_threadConfigOps {owners : Finset FileVar} (hit : .it ∈ owners)
    (hthreads : .itThreads ∈ owners) (n : ℕ) :
    ownersAfter owners (threadConfigOps n) = some owners := by
  rw [threadConfigOps]
  refine ownersAfter_flatMap_range (fun _ => owners) fun k _ => ?_
  simp [ownersAfter, ownersStep, hit, hthreads]

theorem ownersAfter_spawnThreadOps {kept : Finset FileVar} {k : ℕ} (hnew : .tthread k ∉ kept) :
    ownersAfter (kept ∪ windowOwners k) (spawnThreadOps k) =
      some (kept ∪ windowOwners (k + 1)) := by
  have hnext : insert (.tthread k) (kept ∪ windowOwners k) = kept ∪ windowOwners (k + 1) := by
    simp only [windowOwners]
    rw [Finset.range_add_one, Finset.image_insert, Finset.union_insert, Finset.union_insert]
  have hfresh : FileVar.tthread k ∉ kept ∪ windowOwners k := by simp [hnew, windowOwners]
  have huses : ∀ x ∈ [FileVar.itThreads, .tthread k, .tthreads, .threadIds],
      x ∈ kept ∪ windowOwners (k + 1) := by
    intro x hx
    fin_cases hx <;> simp [windowOwners]
  rw [spawnThreadOps, ownersAfter_use (by simp [windowOwners]), ownersAfter_malloc hfresh,
    hnext]
  exact ownersAfter_uses huses

theorem ownersAfter_spawnOps (lookup : Option FLookupFile) (n : ℕ) :
    ownersAfter (keptOwners lookup) (spawnOps n) =
      some (keptOwners lookup ∪ windowOwners n) := by
  let kept := keptOwners lookup
  have hit : FileVar.it ∉ kept := fresh_of_keptOwners (by decide)
  have hitThreads : FileVar.itThreads ∉ kept := fresh_of_keptOwners (by decide)
  have hchunks : FileVar.chunks ∉ kept := fresh_of_keptOwners (by decide)
  have htthreads : FileVar.tthreads ∉ kept := fresh_of_keptOwners (by decide)
  have hthreadIds : FileVar.threadIds ∉ kept := fresh_of_keptOwners (by decide)
  have hinit : ownersAfter kept [.malloc .it, .use .it, .malloc .itThreads] =
      some (insert .itThreads (insert .it kept)) := by
    simp [ownersAfter, ownersStep, hit, hitThreads]
  have hconfigs := @ownersAfter_threadConfigOps (insert .itThreads (insert .it kept)) (by simp)
    (by simp) n
  have harrays : ownersAfter (insert .itThreads (insert .it kept))
      [.use .it, .malloc .chunks, .malloc .tthreads, .malloc .threadIds] =
        some (kept ∪ windowOwners 0) := by
    have hall : insert FileVar.threadIds (insert .tthreads (insert .chunks
        (insert .itThreads (insert .it kept)))) = kept ∪ windowOwners 0 := by
      simp only [windowOwners, Finset.range_zero, Finset.image_empty]
      grind
    rw [← hall]
    simp [ownersAfter, ownersStep, hchunks, htthreads, hthreadIds]
  have hthreads : ownersAfter (kept ∪ windowOwners 0) ((List.range n).flatMap spawnThreadOps) =
      some (kept ∪ windowOwners n) :=
    ownersAfter_flatMap_range (fun k => kept ∪ windowOwners k) fun k _ =>
      ownersAfter_spawnThreadOps (fresh_of_keptOwners (by simp))
  rw [spawnOps, ownersAfter_append_of ((ownersAfter_append_of ((ownersAfter_append_of hinit _).trans
    hconfigs) _).trans harrays)]
  exact hthreads

theorem exists_ownersAfter_spawnFaultOps (lookup : Option FLookupFile) (n blocks : ℕ) :
    ∃ owned, ownersAfter (keptOwners lookup) (spawnFaultOps n blocks) = some owned := by
  unfold spawnFaultOps
  split
  · refine ⟨keptOwners lookup, ?_⟩
    rcases keptOwners_eq lookup with heq | heq <;> rw [heq] <;> decide
  · exact exists_ownersAfter_take (ownersAfter_spawnOps lookup n) blocks

theorem ownersAfter_windowFreeOps (n : ℕ) :
    ownersAfter ({.indexFilename, .lookup} ∪ windowOwners n) (windowFreeOps n) =
      some {.indexFilename, .lookup} := by
  let owners (k : ℕ) : Finset FileVar :=
    {.indexFilename, .lookup, .it, .itThreads, .tthreads, .threadIds} ∪
      (Finset.Ico k n).image .tthread
  have hloop : ownersAfter (owners 0)
      ((List.range n).flatMap fun i => [.use .it, .use .tthreads, .free (.tthread i)]) =
        some (owners n) := by
    refine ownersAfter_flatMap_range owners fun k hk => ?_
    have hnext : (owners k).erase (.tthread k) = owners (k + 1) := by grind
    rw [ownersAfter_use (by simp [owners]), ownersAfter_use (by simp [owners]),
      ownersAfter_free (by simp [owners, hk]), hnext]
    rfl
  have hfirst : ({.indexFilename, .lookup} ∪ windowOwners n).erase .chunks = owners 0 := by
    simp only [owners, windowOwners, Finset.range_eq_Ico]
    grind
  have hlast : owners n = {.indexFilename, .lookup, .it, .itThreads, .tthreads, .threadIds} := by
    simp [owners]
  rw [windowFreeOps, List.cons_append, ownersAfter_free (by simp [windowOwners]),
    hfirst, ownersAfter_append_of hloop, hlast]
  decide

/-! ## The end of a window -/

section

variable {count : ℕ} {h : Holdings}

/-- **Loop rule** for the parts of a call. -/
theorem Takes.flatMap_range {body : ℕ → List (MemOp IndexBlock)} (hs : ℕ → Holdings) {n : ℕ}
    (hbody : ∀ k < n, Takes count (hs k) (body k) (hs (k + 1))) :
    Takes count (hs 0) ((List.range n).flatMap body) (hs n) :=
  ownersAfter_flatMap_range (fun k => (hs k).owners count) hbody

theorem takes_resultUses (hchunks : .chunks ∈ h.file) (hret : ∀ t < count, .ret ∈ h.thread t) :
    Takes count h (resultOps count (.use .ret)) h := by
  refine Takes.flatMap_range (fun _ => h) fun k hk => ?_
  exact Takes.append (.fileUses [.chunks] (by simpa using hchunks))
    (.threadUses [.ret] hk (by simpa using hret k hk))

theorem takes_resultFrees (hchunks : .chunks ∈ h.file) (hret : ∀ t < count, h.thread t = {.ret})
    (hfresh : ∀ t, count ≤ t → h.thread t = ∅) :
    Takes count h (resultOps count (.free .ret)) { h with thread := fun _ => ∅ } := by
  let hs (k : ℕ) : Holdings := { h with thread := fun t => if t < k then ∅ else h.thread t }
  have hloop : Takes count (hs 0) (resultOps count (.free .ret)) (hs count) := by
    refine Takes.flatMap_range hs fun k hk => ?_
    have hops : ownersAfter ((hs k).thread k) [.free .ret] = some ∅ := by
      simp [hs, hret k hk, ownersAfter, ownersStep]
    have hnext : { hs k with thread := Function.update (hs k).thread k ∅ } = hs (k + 1) := by
      simp only [hs, Holdings.mk.injEq, true_and]
      funext t
      by_cases htk : t = k
      · subst htk
        simp
      · have hiff : t < k + 1 ↔ t < k := by omega
        rw [Function.update_of_ne htk]
        simp only [hiff]
    rw [← hnext]
    exact Takes.append (.fileUses [.chunks] (by simpa using hchunks)) (.onThread hk hops)
  have hfirst : hs 0 = h := by simp [hs]
  have hlast : hs count = { h with thread := fun _ => ∅ } := by
    simp only [hs, Holdings.mk.injEq, true_and]
    funext t
    split
    · rfl
    · next hlt => exact hfresh t (Nat.le_of_not_lt hlt)
  rwa [hfirst, hlast] at hloop

end

/-- The lookup file is opened for the first window. -/
theorem ownersAfter_openOps (lookup : Option FLookupFile) (n : ℕ) :
    ownersAfter (insert .finalChunk (keptOwners lookup ∪ windowOwners n))
        ((if lookup.isNone then [.malloc .lookup, .use .indexFilename] else []) ++
          [.use .finalChunk, .use .lookup]) =
      some (insert .finalChunk ({.indexFilename, .lookup} ∪ windowOwners n)) := by
  have huses : ∀ x ∈ [FileVar.indexFilename, .finalChunk, .lookup],
      x ∈ insert FileVar.finalChunk ({.indexFilename, .lookup} ∪ windowOwners n) := by
    intro x hx
    fin_cases hx <;> simp
  cases lookup with
  | none =>
      have hnew : FileVar.lookup ∉ insert .finalChunk (keptOwners none ∪ windowOwners n) := by
        simp [keptOwners, windowOwners]
      have hall : insert FileVar.lookup
          (insert .finalChunk (keptOwners none ∪ windowOwners n)) =
            insert .finalChunk ({.indexFilename, .lookup} ∪ windowOwners n) := by
        grind [keptOwners]
      simp only [Option.isNone_none, if_true, List.cons_append, List.nil_append]
      rw [ownersAfter_malloc hnew, hall]
      exact ownersAfter_uses huses
  | some lookup =>
      simp only [Option.isNone_some, Bool.false_eq_true, if_false, List.nil_append]
      exact ownersAfter_uses fun x hx => huses x (List.mem_cons_of_mem _ hx)

theorem ownersAfter_closeOps (n : ℕ) :
    ownersAfter (insert .finalChunk ({.indexFilename, .lookup} ∪ windowOwners n))
        [.use .lookup, .free .finalChunk] =
      some ({.indexFilename, .lookup} ∪ windowOwners n) := by
  rw [ownersAfter_use (by simp), ownersAfter_free (by simp),
    Finset.erase_insert (by simp [windowOwners])]
  rfl

/-- What is left when a window is done whose list had the given nodes. -/
def Holdings.handed (h : Holdings) (nodes : List Ptr) : Holdings where
  nodes := h.nodes \ nodes.toFinset
  file := {.indexFilename, .lookup}
  thread _ := ∅

/-- **The end of a window** uses and frees what is there: the results, the nodes of the list, and
the blocks of the window. -/
theorem takes_finishOps {s : FileRun} {h : Holdings} {base : ℕ} {heap : Heap} {finalChunk : FChunk}
    (hfile : h.file = keptOwners s.lookup ∪ windowOwners s.threads.length)
    (hret : ∀ t < s.threads.length, h.thread t = {.ret})
    (hfresh : ∀ t, s.threads.length ≤ t → h.thread t = ∅)
    (hlive : ∀ p, base ≤ p → p < s.heap.length → p ∈ h.nodes)
    (huses : ∀ p ∈ reverseReduceUses s.heap s.chunks.reduceOption, base ≤ p ∧ p < s.heap.length)
    (hreduce : fChunkArrayReverseReduce s.heap 0 s.chunks.reduceOption = some (heap, finalChunk))
    (hcells : ∀ p ∈ heap.cellsOf finalChunk.first, base ≤ p ∧ p < s.heap.length)
    (hnodup : (heap.cellsOf finalChunk.first).Nodup) :
    Takes s.threads.length h s.finishOps (h.handed (heap.cellsOf finalChunk.first)) := by
  let n := s.threads.length
  let final : Finset FileVar := insert .finalChunk (keptOwners s.lookup ∪ windowOwners n)
  let opened : Finset FileVar := insert .finalChunk ({.indexFilename, .lookup} ∪ windowOwners n)
  have hmalloc : Takes n h (onFile [.malloc .finalChunk]) { h with file := final } := by
    refine .onFile ?_
    have hnew : FileVar.finalChunk ∉ keptOwners s.lookup ∪ windowOwners n := by
      rcases keptOwners_eq s.lookup with heq | heq <;> simp [heq, windowOwners]
    rw [hfile, ownersAfter_malloc hnew]
    rfl
  have hresults : Takes n { h with file := final } (resultOps n (.use .ret))
      { h with file := final } :=
    takes_resultUses (by simp [final, windowOwners]) fun t ht => by simp [hret t ht]
  have hnodes : Takes n { h with file := final }
      (onNodes ((reverseReduceUses s.heap s.chunks.reduceOption).map fun p => .use (.node p)))
      { h with file := final } :=
    .nodeUses fun p hp => hlive p (huses p hp).1 (huses p hp).2
  have hfinal : Takes n { h with file := final } (onFile [.use .finalChunk])
      { h with file := final } :=
    .fileUses [.finalChunk] (by simp [final])
  have hopen : Takes n { h with file := final }
      (onFile ((if s.lookup.isNone then [.malloc .lookup, .use .indexFilename] else []) ++
        [.use .finalChunk, .use .lookup])) { h with file := opened } :=
    .onFile (ownersAfter_openOps s.lookup n)
  have hfreed : Takes n { h with file := opened }
      (onNodes (nodeFreeOps (heap.cellsOf finalChunk.first)))
      { h with
        nodes := h.nodes \ (heap.cellsOf finalChunk.first).toFinset
        file := opened } :=
    .onNodes (ownersAfter_nodeFreeOps hnodup fun p hp => hlive p (hcells p hp).1 (hcells p hp).2)
  have hclose : Takes n
      { h with
        nodes := h.nodes \ (heap.cellsOf finalChunk.first).toFinset
        file := opened }
      (onFile [.use .lookup, .free .finalChunk])
      { h with
        nodes := h.nodes \ (heap.cellsOf finalChunk.first).toFinset
        file := {.indexFilename, .lookup} ∪ windowOwners n } :=
    .onFile (ownersAfter_closeOps n)
  have hfrees := @takes_resultFrees n
    { h with
      nodes := h.nodes \ (heap.cellsOf finalChunk.first).toFinset
      file := {.indexFilename, .lookup} ∪ windowOwners n } (by simp [windowOwners]) hret hfresh
  have hwindow : Takes n
      { nodes := h.nodes \ (heap.cellsOf finalChunk.first).toFinset
        file := {.indexFilename, .lookup} ∪ windowOwners n
        thread := fun _ => ∅ }
      (onFile (windowFreeOps n))
      (h.handed (heap.cellsOf finalChunk.first)) := .onFile (ownersAfter_windowFreeOps n)
  have hlookup := (hopen.append hfreed).append hclose
  simp only [FileRun.finishOps, hreduce]
  exact ((hmalloc.append hresults).append hnodes).append
    (((hfinal.append hlookup).append hfrees).append hwindow)

end Flashlight.TextIndexer
