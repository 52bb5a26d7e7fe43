/-
# Indexing without threads

Whatever the threads of a call do in whatever order, the index that it returns depends only on
the bytes that the coroutines read. A window contributes what is seen of the lists of its
threads when they are joined, and a thread contributes the list of its chunks, or none if the
reduction of its chunks has lost the beginning.

So a call in which no read is short returns the index of a sequential program, which goes
through the windows one after the other and has no threads, no heap and no channel.
-/

import Flashlight.Math.Splicing
import Flashlight.TextIndexer.LineCounts
import Flashlight.TextIndexer.ShortReads

namespace Flashlight

open Flashlight.Math
open scoped List

/-! ## Reduction, with what it loses -/

/-- The chunk knows the end of the list of the piece, and its first node if that is
reachable. -/
def FChunk.Shows (chunk : FChunk) (heap : Heap) (piece : Piece FBytesNode) : Prop :=
  ∃ cells, chunk.EndsCells heap cells ∧ cells.map Prod.snd = piece.items ∧
    (cells ≠ [] → (piece.reachable = true ↔ chunk.first ≠ none))

/-- The list that is joined so far and the list that the result begins with. -/
structure ReduceState.Spliced (s : ReduceState)
    (seen : List (Ptr × FBytesNode) × List (Ptr × FBytesNode)) : Prop where
  chain : s.heap.Chain s.current seen.1 none
  first_eq : s.first = none ∧ seen.2 = [] ∨ s.first = s.current ∧ seen.2 = seen.1

/-- The piece of a list on the heap. -/
def FChunk.piece (chunk : FChunk) (cells : List (Ptr × FBytesNode)) : Piece (Ptr × FBytesNode) :=
  ⟨cells, chunk.first.isSome⟩

section

variable {heap : Heap} {chunk : FChunk} {cells : List (Ptr × FBytesNode)}

/-- The first node leads through what is seen of the list. -/
theorem FChunk.EndsCells.chain_visible (h : chunk.EndsCells heap cells) :
    heap.Chain chunk.first (chunk.piece cells).visible none := by
  obtain ⟨start, hchain, hfirst⟩ := h.chain
  cases hstart : chunk.first with
  | none => simp [FChunk.piece, Piece.visible, hstart]
  | some p =>
      rcases hfirst with rfl | hnone
      · simpa [FChunk.piece, Piece.visible, hstart] using hstart ▸ hchain
      · simp [hstart] at hnone

/-- One iteration of the loop is one step of joining. -/
theorem reduceStep_spliced {s : ReduceState}
    {seen : List (Ptr × FBytesNode) × List (Ptr × FBytesNode)} (hs : s.Spliced seen)
    (hchunk : chunk.EndsCells s.heap cells)
    (hdisjoint : ∀ p ∈ cells.map Prod.fst, p ∉ seen.1.map Prod.fst) :
    ∃ s', reduceStep chunk s = some s' ∧ s'.Spliced (spliceStep seen (chunk.piece cells)) ∧
      ∀ p, p ∉ cells.map Prod.fst → s'.heap[p]? = s.heap[p]? := by
  rcases List.eq_nil_or_concat cells with rfl | ⟨front, ⟨p, node⟩, rfl⟩
  · exact ⟨s, reduceStep_of_empty hchunk.empty_eq, hs, fun _ _ => rfl⟩
  · rw [List.concat_eq_append] at *
    have hempty : chunk.empty = false := by
      rw [hchunk.empty_eq]
      simp
    have hlast : chunk.last = some p := by
      rw [hchunk.last_eq]
      simp
    have hitems : (chunk.piece (front ++ [(p, node)])).items.isEmpty = false := by
      simp [FChunk.piece]
    have hnil := hs.chain.eq_nil_iff
    cases hcurrent : s.current with
    | none =>
        have hjoined : seen.1 = [] := hnil.mpr hcurrent
        have hfirst : s.first = none ∧ seen.2 = [] := by
          rcases hs.first_eq with hnone | ⟨hsome, heq⟩
          · exact hnone
          · exact ⟨hsome.trans hcurrent, heq.trans hjoined⟩
        refine ⟨_, reduceStep_of_none hempty hcurrent, ?_, fun _ _ => rfl⟩
        simp only [spliceStep, hitems, hjoined, List.isEmpty_nil, if_true, Bool.false_eq_true,
          if_false]
        exact ⟨hchunk.chain_visible, Or.inl hfirst⟩
    | some head =>
        have hjoined : seen.1.isEmpty = false := by
          rw [Bool.eq_false_iff, ne_eq, List.isEmpty_iff, hnil, hcurrent]
          simp
        refine ⟨_, reduceStep_of_some hempty hcurrent hlast, ?_, fun q hq => ?_⟩
        · simp only [spliceStep, hitems, hjoined, Bool.false_eq_true, if_false]
          obtain ⟨start, hchain, hstart⟩ := hchunk.chain
          cases hfirst : chunk.first with
          | none =>
              simp only [FChunk.piece, hfirst, Option.isSome_none, Bool.false_eq_true, if_false]
              exact ⟨rfl, Or.inl ⟨rfl, rfl⟩⟩
          | some first =>
              obtain rfl : start = some first := by
                rcases hstart with heq | hnone
                · rw [← heq, hfirst]
                · simp [hfirst] at hnone
              have hspliced := hchain.splice hs.chain (hdisjoint p (by simp))
              simp only [FChunk.piece, hfirst, Option.isSome_some, if_true]
              exact ⟨hspliced, Or.inr ⟨rfl, rfl⟩⟩
        · have hne : p ≠ q := by
            rintro rfl
            simp at hq
          exact ListHeap.getElem?_setNext_of_ne _ hne

/-- The loop joins the lists of all chunks. -/
theorem reduceLoop_spliced {chunks : List FChunk} {lists : List (List (Ptr × FBytesNode))}
    {s : ReduceState} {seen : List (Ptr × FBytesNode) × List (Ptr × FBytesNode)}
    {all : List (Ptr × FBytesNode)} (hs : s.Spliced seen) (hall : seen.1 <+ all ∧ seen.2 <+ all)
    (hchunks : List.Forall₂ (fun chunk cells => chunk.EndsCells s.heap cells) chunks lists)
    (hdisjoint : lists.Pairwise fun xs ys => ∀ p ∈ ys.map Prod.fst, p ∉ xs.map Prod.fst)
    (hseen : ∀ xs ∈ lists, ∀ p ∈ xs.map Prod.fst, p ∉ all.map Prod.fst) :
    ∃ s', reduceLoop chunks s = some s' ∧
      s'.Spliced ((List.zipWith FChunk.piece chunks lists).foldl spliceStep seen) := by
  induction lists generalizing chunks s seen all with
  | nil =>
      obtain rfl := List.forall₂_nil_right_iff.mp hchunks
      exact ⟨s, rfl, hs⟩
  | cons cells lists ih =>
      obtain ⟨chunk, chunks, hchunk, hrest, rfl⟩ := List.forall₂_cons_right_iff.mp hchunks
      obtain ⟨hcells, hlater⟩ := List.pairwise_cons.mp hdisjoint
      obtain ⟨s₁, hstep, hs₁, hframe⟩ := reduceStep_spliced hs hchunk fun p hp hmem =>
        hseen cells List.mem_cons_self p hp ((hall.1.map Prod.fst).subset hmem)
      have hrest₁ : List.Forall₂ (fun chunk cells => chunk.EndsCells s₁.heap cells)
          chunks lists := by
        refine List.forall₂_iff_zip.mpr ⟨hrest.length_eq, fun {_ ys} hmem => ?_⟩
        refine (List.forall₂_zip hrest hmem).congr fun p hp => hframe p ?_
        exact hcells ys (List.of_mem_zip hmem).2 p hp
      obtain ⟨s', hloop, hs'⟩ := ih hs₁ (sublist_spliceStep (chunk.piece cells) hall) hrest₁
          hlater (by
        intro xs hxs p hp hmem
        rw [List.map_append, List.mem_append] at hmem
        rcases hmem with hmem | hmem
        · exact hcells xs hxs p hp hmem
        · exact hseen xs (List.mem_cons_of_mem _ hxs) p hp hmem)
      exact ⟨s', by rw [reduceLoop, hstep, Option.bind_some, hloop], hs'⟩

end

/-- **Reduction shows what joining the pieces shows**, whatever was lost before. -/
theorem reduce_splice {heap : Heap} {chunks : List FChunk} {pieces : List (Piece FBytesNode)}
    (idx : UInt64)
    (hchunks : List.Forall₂ (fun chunk piece => chunk.Shows heap piece) chunks pieces)
    (hapart : (pieces.map Piece.items).Pairwise fun xs ys => ∀ x ∈ xs, ∀ y ∈ ys, x ≠ y) :
    ∃ heap' result, fChunkArrayReverseReduce heap idx chunks = some (heap', result) ∧
      heap'.toList result.first = some (splice pieces) := by
  obtain ⟨lists, hlists, hpieces, hnodes⟩ : ∃ lists : List (List (Ptr × FBytesNode)),
      List.Forall₂ (fun chunk cells => chunk.EndsCells heap cells) chunks lists ∧
        List.Forall₂ Piece.Alike
          ((List.zipWith FChunk.piece chunks lists).map (Piece.map Prod.snd)) pieces ∧
        lists.map (List.map Prod.snd) = pieces.map Piece.items := by
    clear hapart
    induction hchunks with
    | nil => exact ⟨[], .nil, .nil, rfl⟩
    | @cons chunk piece _ _ hchunk _ ih =>
        obtain ⟨cells, hcells, hitems, hreach⟩ := hchunk
        obtain ⟨lists, hlists, hrest, hnodes⟩ := ih
        refine ⟨cells :: lists, .cons hcells hlists, .cons ⟨hitems, fun hne => ?_⟩ hrest,
          by rw [List.map_cons, List.map_cons, hitems, hnodes]⟩
        have hcells : cells ≠ [] := fun hnil => hne (by simp [FChunk.piece, Piece.map, hnil])
        rw [Bool.eq_iff_iff, hreach hcells]
        simp [FChunk.piece, Piece.map, Option.isSome_iff_ne_none]
  have hdisjoint := disjoint_of_apart hlists (hnodes ▸ hapart)
  rw [← splice_congr hpieces, splice_map]
  by_cases hone : chunks.length = 1
  · obtain ⟨chunk, rfl⟩ := List.length_eq_one_iff.mp hone
    obtain ⟨cells, rest, hchunk, hrest, rfl⟩ := List.forall₂_cons_left_iff.mp hlists
    obtain rfl := List.forall₂_nil_left_iff.mp hrest
    exact ⟨heap, { chunk with current := idx }, rfl, hchunk.chain_visible.toList_eq⟩
  · have hinit : (ReduceState.init heap).Spliced ([], []) := ⟨rfl, Or.inl ⟨rfl, rfl⟩⟩
    obtain ⟨s', hloop, hs'⟩ := reduceLoop_spliced hinit
      ⟨List.nil_sublist [], List.nil_sublist []⟩ hlists hdisjoint (by simp)
    have hlength : (List.zipWith FChunk.piece chunks lists).length ≠ 1 := by
      rw [List.length_zipWith, hlists.length_eq, Nat.min_self, ← hlists.length_eq]
      exact hone
    refine ⟨s'.heap, ⟨idx, s'.first, s'.last, s'.empty, 0⟩, ?_, ?_⟩
    · rw [fChunkArrayReverseReduce_of_length_ne_one _ _ hone, hloop]
      rfl
    · rw [splice_of_length_ne_one hlength]
      rcases hs'.first_eq with ⟨hnone, hnil⟩ | ⟨hsome, heq⟩
      · have hchain : s'.heap.Chain none [] none := rfl
        rw [hnone, hnil, hchain.toList_eq]
      · rw [hsome, heq, hs'.chain.toList_eq]

/-- A list that is not published has lost its first node. -/
theorem reduce_lost {heap heap' : Heap} {chunks : List FChunk} {nodes : List (List FBytesNode)}
    {result : FChunk} {idx : UInt64}
    (hchunks : List.Forall₂ (fun chunk nodes => chunk.Holds heap nodes) chunks nodes)
    (hapart : nodes.Pairwise fun xs ys => ∀ x ∈ xs, ∀ y ∈ ys, x ≠ y)
    (hreduce : fChunkArrayReverseReduce heap idx chunks = some (heap', result))
    (hlost : ¬ (chunks.length = 1 ∨ nonempties nodes ≠ 1)) : result.first = none := by
  obtain ⟨lists, hlists, rfl⟩ := exists_lists hchunks
  have hends := hlists.imp fun _ _ hcells => hcells.endsCells
  obtain ⟨heap'', result', hreduce', -, hresult, hholds, -⟩ :=
    fChunkArrayReverseReduce_spec idx hlists (disjoint_of_apart hends hapart)
  obtain ⟨rfl, rfl⟩ := Prod.mk.inj (Option.some.inj (hreduce.symm.trans hreduce'))
  rw [nonempties_map, ← hholds] at hlost
  obtain ⟨start, hchain, rfl | hnone⟩ := hresult.chain
  · exact absurd ⟨hchain, hresult.last_eq, hresult.empty_eq⟩ hlost
  · exact hnone

end Flashlight

namespace Flashlight.TextIndexer

open Flashlight.Math Flashlight.Indexer
open scoped List

/-! ## Threads -/

/-- The result of the thread has a first node only if the reduction published it. -/
def Worker.Tells (bytes : List UInt8) (thread : ℕ) (w : Worker) : Prop :=
  ∀ ret, w.pc = .exited (some ret) →
    Published (w.examined.map (entryNodes bytes thread)) ∨ ret.first = none

/-- What the main thread can learn from a thread. -/
def threadPiece (bytes : List UInt8) (thread : TextThread) : Piece FBytesNode :=
  ⟨threadNodes bytes thread,
    decide (Published (thread.2.examined.map (entryNodes bytes thread.1.thread)))⟩

section

variable {bytes : List UInt8} {config : FTextThread} {heap heap' : Heap} {w w' : Worker}
  {a : WorkerAction}

theorem Worker.tells_start (bytes : List UInt8) (thread : ℕ) : Worker.start.Tells bytes thread := by
  intro ret hpc
  cases hpc

/-- Only the reduction ends a thread with a result. -/
theorem WorkerMove.of_exited_some (hmove : WorkerMove bytes config heap w a heap' w')
    {ret : FChunk} (hpc : w'.pc = .exited (some ret)) :
    w.pc = .reduce ∧ w' = (w.reduced heap config.thread).2 := by
  cases hmove with
  | planned _ _ => cases hpc
  | unplanned _ _ hended => rcases hended with rfl | rfl <;> cases hpc
  | fault _ => cases hpc
  | @batch i _ =>
      simp only at hpc
      split at hpc <;> cases hpc
  | launchDone _ _ => cases hpc
  | @scan i c chunk env _ outcome _ _ _ => cases outcome <;> cases hpc
  | @batchDone i c _ _ =>
      simp only [Worker.finished] at hpc
      split at hpc <;> cases hpc
  | @recv i c k chunk message _ _ _ =>
      unfold Worker.received at hpc
      split at hpc <;> cases hpc
  | reduce hreduce => exact ⟨hreduce, rfl⟩

theorem Worker.Inv.tells (h : w.Inv bytes config heap)
    (hmove : WorkerMove bytes config heap w a heap' w') : w'.Tells bytes config.thread := by
  intro ret hpc
  obtain ⟨hreduce, rfl⟩ := hmove.of_exited_some hpc
  obtain ⟨ic, -, hw⟩ := h.exists_working hreduce (by simp) (by simp) (by simp)
  have hwritten : w.written.length = ic.chunks.length := by
    have hposition := hw.position
    simpa only [Worker.Position, hreduce] using hposition
  obtain ⟨hall, hlists⟩ := hw.forall₂_holds (by simp [hreduce]) hwritten
  have hlength := hlists.length_eq
  rw [or_iff_not_imp_left]
  intro hlost
  -- the result of the thread is the result of the reduction
  rw [Worker.reduced, if_pos hall] at hpc hlost
  cases hreduced : fChunkArrayReverseReduce heap (.ofNat config.thread)
      w.chunkArray.reduceOption with
  | none => simp [hreduced] at hpc
  | some result =>
      obtain ⟨heap₁, result⟩ := result
      simp only [hreduced] at hpc hlost
      obtain rfl := Option.some.inj (WorkerPc.exited.inj hpc)
      rw [Published, ← hlength] at hlost
      have hnone : result.first = none := reduce_lost hlists hw.pairwise_apart hreduced hlost
      exact hnone

/-- The result of a thread shows its piece. -/
theorem Done.shows {thread : TextThread} {ret : FChunk} (h : Done bytes heap thread ret)
    (htells : thread.2.Tells bytes thread.1.thread) :
    ret.Shows heap (threadPiece bytes thread) := by
  by_cases hpublished : Published (thread.2.examined.map (entryNodes bytes thread.1.thread))
  · obtain ⟨cells, hcells, hnodes⟩ := h.returns.holds hpublished
    refine ⟨cells, hcells.endsCells, hnodes, fun hne => ?_⟩
    have hfirst : ret.first ≠ none := mt hcells.chain.eq_nil_iff.mpr hne
    simp [threadPiece, hpublished, hfirst]
  · obtain ⟨cells, hcells, hnodes⟩ := h.returns.ends
    refine ⟨cells, hcells, hnodes, fun _ => ?_⟩
    have hnone := (htells ret h.pc_eq).resolve_left hpublished
    simp [threadPiece, hpublished, hnone]

end

/-! ## Windows -/

/-- The entries that a window with these threads adds to the table. -/
def windowEntries (bytes : List UInt8) (threads : List TextThread) : List UInt64 :=
  (splice (threads.map (threadPiece bytes))).map FBytesNode.offset

/-- The entries of the windows that are done; the first window adds the beginning of the
file. -/
def FileRun.entries (bytes : List UInt8) (s : FileRun) : List UInt64 :=
  s.history.flatMap fun entry => windowEntries bytes entry.2 ++ if entry.1 = 0 then [0] else []

/-- The lookup file holds the entries of the windows that are done. -/
structure FileRun.Tabulated (target : TargetFile) (s : FileRun) : Prop where
  tells : ∀ thread ∈ s.threads, thread.2.Tells target.bytes thread.1.thread
  contents_eq : s.lookup.elim [] FLookupFile.contents =
    (s.entries target.bytes).flatMap sizeBytes

section

variable {target : TargetFile} {indexer : FIndexer} {s s' : FileRun} {a : FileAction} {itc : ℕ}

theorem FileRun.tabulated_start (target : TargetFile) : FileRun.start.Tabulated target where
  tells := by simp [FileRun.start]
  contents_eq := rfl

/-- The chunk that is handed over for a window shows what joining its threads shows. -/
theorem FileRun.Inv.finished_splice (h : s.Inv target indexer)
    (htells : ∀ thread ∈ s.threads, thread.2.Tells target.bytes thread.1.thread)
    (hjoining : s.Joining target indexer itc s.threads.length) :
    ∃ heap chunk lookup,
      heap.toList chunk.first = some (splice (s.threads.map (threadPiece target.bytes))) ∧
      fLookupFileFromChunk heap s.lookup chunk s.lookup.isNone (itc == 0) = some lookup ∧
      s.finished itc = { s with
        pc := .window itc
        heap := heap
        threads := []
        lookup := some lookup
        history := s.history ++ [(itc, s.threads)] } := by
  obtain ⟨hall, hdone⟩ := hjoining.forall₂_done
  have hshows : List.Forall₂ (fun ret piece => ret.Shows s.heap piece) s.chunks.reduceOption
      (s.threads.map (threadPiece target.bytes)) := by
    rw [List.forall₂_map_right_iff]
    refine List.forall₂_iff_get.mpr ⟨hdone.length_eq, fun j hj hj' => ?_⟩
    exact ((List.forall₂_iff_get.mp hdone).2 j hj hj').shows (htells _ (List.get_mem _ _))
  have hapart := h.pairwise_apart
  obtain ⟨heap, chunk, hreduce, hlist⟩ := reduce_splice 0 hshows (by
    rw [List.map_map]
    exact hapart)
  obtain ⟨lookup, hlookup⟩ := exists_fLookupFileFromChunk s.lookup
    { chunk with lineCount := s.lineCount } (itc == 0) (by rw [hlist]; rfl)
  refine ⟨heap, { chunk with lineCount := s.lineCount }, lookup, hlist, hlookup, ?_⟩
  simp only [FileRun.finished, hall, if_true, hreduce, hlookup]

/-- Handing a list over appends its offsets, and the closing entry at the end. -/
theorem contents_of_fLookupFileFromChunk {heap : Heap} {lookup : Option FLookupFile}
    {chunk : FChunk} {nodes : List FBytesNode} {lookup' : FLookupFile} {last : Bool}
    (hlist : heap.toList chunk.first = some nodes)
    (hlookup : fLookupFileFromChunk heap lookup chunk lookup.isNone last = some lookup') :
    lookup'.contents = lookup.elim [] FLookupFile.contents ++
      (nodes.map FBytesNode.offset ++ if last then [0] else []).flatMap sizeBytes := by
  cases lookup with
  | none =>
      have hinit : (if (none : Option FLookupFile).isNone then some fLookupFileInit else none) =
          some fLookupFileInit := rfl
      rw [fLookupFileFromChunk_eq last hlist hinit] at hlookup
      rw [← Option.some.inj hlookup]
      rfl
  | some lookup =>
      have hinit : (if (some lookup).isNone then some fLookupFileInit else some lookup) =
          some lookup := rfl
      rw [fLookupFileFromChunk_eq last hlist hinit] at hlookup
      rw [← Option.some.inj hlookup]
      rfl

/-- **A step** keeps the lookup file what the finished windows make of it. -/
theorem FileRun.Tabulated.step (h : s.Tabulated target) (hinv : s.Inv target indexer)
    (hstep : fileStep target indexer a s = some s') : s'.Tabulated target := by
  have hmove := fileMove_of_step hstep
  have htells : ∀ thread ∈ s'.threads, thread.2.Tells target.bytes thread.1.thread := by
    intro thread hthread
    cases threadOrigin_of_step hstep hthread with
    | kept hold => exact h.tells thread hold
    | spawned hstart =>
        rw [hstart]
        exact Worker.tells_start _ _
    | moved _ hthread hstep =>
        exact (hinv.threads _ _ hthread).2.tells (workerMove_of_step hstep)
  refine ⟨htells, ?_⟩
  cases hmove with
  | opened _ _ => exact h.contents_eq
  | unopened _ _ _ => exact h.contents_eq
  | windowsDone _ => exact h.contents_eq
  | spawned _ _ => exact h.contents_eq
  | unplanned _ _ _ => exact h.contents_eq
  | watched _ _ _ => exact h.contents_eq
  | allJoined _ _ => exact h.contents_eq
  | @joined itc i thread result _ _ _ =>
      cases result with
      | none => exact h.contents_eq
      | some ret =>
          rw [FileRun.joined]
          split <;> exact h.contents_eq
  | @finished itc hpc =>
      have hstage := hinv.stage
      simp only [FileRun.Stage, hpc] at hstage
      obtain ⟨heap, chunk, lookup, hlist, hlookup, heq⟩ :=
        hinv.finished_splice h.tells hstage.1
      rw [heq, FileRun.entries, List.flatMap_append, List.flatMap_append, Option.elim_some,
        contents_of_fLookupFileFromChunk hlist hlookup, h.contents_eq, FileRun.entries]
      simp [windowEntries]
  | closed _ => exact h.contents_eq
  | fault _ => exact h.contents_eq
  | worker _ _ => exact h.contents_eq

/-- Every run leaves a lookup file of the finished windows behind. -/
theorem tabulated_of_reaches
    (hreach : Reaches (fileStep target indexer) (fun _ _ => True) .start s) :
    s.Inv target indexer ∧ s.Tabulated target := by
  refine @Reaches.invariant _ _ _ _ (fun s => s.Inv target indexer ∧ s.Tabulated target) _ _ hreach
    ⟨FileRun.inv_start _ _, FileRun.tabulated_start _⟩ ?_
  rintro s a s' ⟨hinv, h⟩ - hstep
  exact ⟨hinv.step (fileMove_of_step hstep), h.step hinv hstep⟩

/-- The lookup file of a returned index, in every run. -/
theorem FileRun.Tabulated.contents_of_returned {index : FIndex} (h : s.Tabulated target)
    (hinv : s.Inv target indexer) (hpc : s.pc = .returned (some index)) :
    index.flookup.contents = (s.entries target.bytes).flatMap sizeBytes := by
  obtain ⟨-, -, -, hlookup⟩ := hinv.returned hpc
  have hcontents := h.contents_eq
  rwa [hlookup] at hcontents

/-- The beginning of the file is the last entry. -/
theorem FileRun.Past.entries_eq (h : s.Past target indexer 0) (bytes : List UInt8) :
    s.entries bytes = (s.history.flatMap fun entry => windowEntries bytes entry.2) ++ [0] := by
  obtain ⟨count, hcount, -⟩ := h.windows
  have hwindows := h.history_eq hcount
  obtain ⟨left, rfl⟩ := Nat.exists_eq_add_of_lt (threadItCount_pos hcount)
  rw [Nat.zero_add, List.range_succ_eq_map, List.reverse_cons] at hwindows
  obtain ⟨later, first, hhistory, hlater, hfirst⟩ := List.map_eq_append_iff.mp hwindows
  obtain ⟨⟨itc, threads⟩, rfl, rfl⟩ : ∃ entry, first = [entry] ∧ entry.1 = 0 := by
    obtain ⟨entry, rfl⟩ := List.length_eq_one_iff.mp (by
      rw [← List.length_map (f := Prod.fst), hfirst, List.length_singleton])
    exact ⟨entry, rfl, by simpa using hfirst⟩
  have hne : ∀ entry ∈ later, entry.1 ≠ 0 := by
    intro entry hentry hzero
    have hmem := hlater ▸ List.mem_map_of_mem (f := Prod.fst) hentry
    simp [hzero] at hmem
  have hrest : (later.flatMap fun entry => windowEntries bytes entry.2 ++
      if entry.1 = 0 then [0] else []) =
        later.flatMap fun entry => windowEntries bytes entry.2 :=
    List.flatMap_congr fun entry hentry => by simp [hne entry hentry]
  rw [FileRun.entries, hhistory, List.flatMap_append, List.flatMap_append, hrest]
  simp

end

/-! ## What every index is worth -/

section

variable {target : TargetFile} {indexer : FIndexer} {s : FileRun} {index : FIndex}
  {heap : Heap} {thread : TextThread} {ret : FChunk} {itc : ℕ} {threads : List TextThread}

/-- The offsets of the nodes of a thread: the ends of the newlines that it found. -/
theorem Done.map_offset_threadNodes (h : Done target.bytes heap thread ret) :
    (threadNodes target.bytes thread).map (fun node => node.offset.toNat) =
      (thread.2.examined.flatMap (scannedEnds target.bytes)).reverse := by
  obtain ⟨ic, -, hw, -⟩ := h.written_eq
  rw [threadNodes, examinedNodes, List.map_flatten, ← List.map_reverse, List.map_map,
    ← List.flatMap_def, List.reverse_flatMap]
  refine List.flatMap_congr fun entry hentry => ?_
  obtain ⟨-, hfrom, hle⟩ := hw.planned entry (List.mem_reverse.mp hentry)
  have hlength := length_chunkBuffer target.bytes entry.1
  have hsize := target.size_lt
  refine map_offset_scanNodes ?_
  rw [scannedBytes, List.length_take]
  omega

/-- The entries of a window are some of the newline ends that its threads found. -/
theorem WindowDone.windowEntries_subperm (h : WindowDone target indexer itc threads) :
    (windowEntries target.bytes threads).map UInt64.toNat <+~
      (threads.flatMap fun thread => thread.2.examined).flatMap (scannedEnds target.bytes) := by
  have hsublist := (splice_sublist (threads.map (threadPiece target.bytes))).map
    (fun node => node.offset.toNat)
  have hnodes : ((threads.map (threadPiece target.bytes)).map Piece.items).reverse.flatten.map
      (fun node => node.offset.toNat) =
        ((threads.flatMap fun thread => thread.2.examined).flatMap
          (scannedEnds target.bytes)).reverse := by
    rw [List.map_map, List.map_flatten, ← List.map_reverse, List.map_map, ← List.flatMap_def,
      List.flatMap_assoc, List.reverse_flatMap]
    refine List.flatMap_congr fun thread hthread => ?_
    obtain ⟨heap, ret, hdone⟩ := h.done thread (List.mem_reverse.mp hthread)
    exact hdone.map_offset_threadNodes
  rw [hnodes] at hsublist
  rw [windowEntries, List.map_map]
  exact hsublist.subperm.trans (List.reverse_perm _).subperm

theorem mem_scannedEnds {bytes : List UInt8} {entry : FIndexerChunk × ℕ} {e : ℕ}
    (he : e ∈ scannedEnds bytes entry) : e ∈ newlineEnds bytes := by
  have hchunk : e ∈ chunkEnds bytes entry.1 := by
    rw [chunkEnds, ← List.take_append_drop entry.2 (chunkBuffer bytes entry.1), sepEnds_append]
    exact List.mem_append_left _ he
  exact (mem_chunkEnds.mp hchunk).1

/-- **Every entry is a line start.** Whatever failed in a call and however short its reads were:
the table of an index that it returns ends with the beginning of the file, and its other entries
are ends of newlines that a coroutine found, each taken as often as it was found. -/
theorem entries_are_line_starts
    (hreach : Reaches (fileStep target indexer) (fun _ _ => True) .start s)
    (hpc : s.pc = .returned (some index)) :
    ∃ entries : List UInt64, index.flookup.contents = (entries ++ [0]).flatMap sizeBytes ∧
      (entries.map UInt64.toNat <+~ s.examined.flatMap (scannedEnds target.bytes)) ∧
      ∀ e ∈ entries, e.toNat ∈ newlineEnds target.bytes := by
  obtain ⟨hinv, h⟩ := tabulated_of_reaches hreach
  obtain ⟨-, hpast, -, -⟩ := hinv.returned hpc
  have hsub : (s.history.flatMap fun entry => windowEntries target.bytes entry.2).map
      UInt64.toNat <+~ s.examined.flatMap (scannedEnds target.bytes) := by
    rw [FileRun.examined, List.flatMap_assoc, List.map_flatMap]
    have hdone := hpast.done
    generalize s.history = history at hdone
    induction history with
    | nil => simp
    | cons entry history ih =>
        obtain ⟨hwindow, hrest⟩ := List.forall_mem_cons.mp hdone
        rw [List.flatMap_cons, List.flatMap_cons]
        exact hwindow.windowEntries_subperm.append (ih hrest)
  refine ⟨_, by rw [h.contents_of_returned hinv hpc, hpast.entries_eq], hsub, fun e he => ?_⟩
  obtain ⟨entry, -, hmem⟩ := List.mem_flatMap.mp (hsub.subset (List.mem_map_of_mem he))
  exact mem_scannedEnds hmem

end

/-- A table of which the reads found everything that there is. -/
theorem entries_are_line_starts_line : ∃ s : FileRun, ∃ entries : List UInt64,
    s.pc = .returned (some ⟨lineFile, ⟨sizeBytes 2 ++ sizeBytes 0, 2⟩⟩) ∧
      sizeBytes 2 ++ sizeBytes 0 = (entries ++ [0]).flatMap sizeBytes ∧
      ∀ e ∈ entries, e.toNat ∈ newlineEnds lineFile.bytes := by
  have hsummary : (runTrace (fileStep lineFile lineIndexer) (lineActions (some 2)) .start).map
      (fun run => run.2.summary) =
      some (some ⟨sizeBytes 2 ++ sizeBytes 0, 2⟩, [(⟨0, 0, 2⟩, 2)]) := by decide +kernel
  obtain ⟨trace, s, hrun, hpc, -⟩ := exists_run_of_summary hsummary
  obtain ⟨entries, hcontents, -, hmem⟩ := entries_are_line_starts hrun.reaches hpc
  exact ⟨s, entries, hpc, hcontents, hmem⟩

/-! ## The sequential program -/

/-- What is seen of a thread that reads all its chunks. -/
def configPiece (bytes : List UInt8) (config : FTextThread) : Piece ℕ :=
  ⟨(config.chunks.flatMap (chunkEnds bytes)).reverse,
    decide (Published (config.chunks.map (chunkEnds bytes)))⟩

/-- The newlines in the chunks of a window. -/
def windowFound (target : TargetFile) (indexer : FIndexer) (itc : ℕ) : List ℕ :=
  (windowConfigs target indexer itc).flatMap fun config =>
    config.chunks.flatMap (chunkEnds target.bytes)

/-- The offsets that a window adds to the table, and the beginning of the file. -/
def windowTable (target : TargetFile) (indexer : FIndexer) (itc : ℕ) : List ℕ :=
  splice ((windowConfigs target indexer itc).map (configPiece target.bytes)) ++
    if itc = 0 then [0] else []

/-- A window is indexed. -/
def indexWindow (target : TargetFile) (indexer : FIndexer) (lookup : FLookupFile) (itc : ℕ) :
    FLookupFile where
  contents := lookup.contents ++
    (windowTable target indexer itc).flatMap fun e => sizeBytes (.ofNat e)
  len := lookup.len + .ofNat ((windowFound target indexer itc).length + if itc = 0 then 1 else 0)

/-- The windows of the file are indexed, the last one first. -/
def indexSequentially (target : TargetFile) (indexer : FIndexer) : Except Fault FIndex :=
  (threadItCount (.ofNat target.bytes.length) indexer.maxBytesPerIteration).map fun count =>
    ⟨target, (List.range count).reverse.foldl (indexWindow target indexer) fLookupFileInit⟩

theorem contents_foldl_indexWindow (target : TargetFile) (indexer : FIndexer) (windows : List ℕ)
    (lookup : FLookupFile) : (windows.foldl (indexWindow target indexer) lookup).contents =
      lookup.contents ++ (windows.flatMap (windowTable target indexer)).flatMap
        fun e => sizeBytes (.ofNat e) := by
  induction windows generalizing lookup with
  | nil => simp
  | cons itc windows ih =>
      rw [List.foldl_cons, ih, indexWindow, List.flatMap_cons, List.flatMap_append,
        List.append_assoc]

theorem len_foldl_indexWindow (target : TargetFile) (indexer : FIndexer) (windows : List ℕ)
    (lookup : FLookupFile) : (windows.foldl (indexWindow target indexer) lookup).len =
      lookup.len + .ofNat ((windows.flatMap (windowFound target indexer)).length +
        windows.count 0) := by
  induction windows generalizing lookup with
  | nil => simp
  | cons itc windows ih =>
      rw [List.foldl_cons, ih, indexWindow, List.flatMap_cons, List.length_append,
        List.count_cons, UInt32.add_assoc, ← UInt32.ofNat_add]
      congr 2
      simp only [beq_iff_eq]
      omega

section

variable {target : TargetFile} {indexer : FIndexer} {s : FileRun} {index : FIndex}
  {heap : Heap} {thread : TextThread} {ret : FChunk} {itc : ℕ} {threads : List TextThread}

/-- A thread that is done and whose reads were in full has found the newlines of its chunks. -/
theorem Done.scannedEnds_eq {bytes : List UInt8} (h : Done bytes heap thread ret)
    (hscanned : ∀ entry ∈ thread.2.examined, entry.2 = (chunkBuffer bytes entry.1).length) :
    thread.2.examined.map (scannedEnds bytes) = thread.1.chunks.map (chunkEnds bytes) := by
  obtain ⟨ic, hplan, hw, hwritten⟩ := h.written_eq
  rw [hw.examined_eq hwritten hscanned, chunks_eq hplan, List.map_map]
  refine List.map_congr_left fun chunk _ => ?_
  simp only [Function.comp, scannedEnds, scannedBytes, List.take_length, chunkEnds]

/-- Its piece is the one that was planned. -/
theorem Done.piece_eq (h : Done target.bytes heap thread ret)
    (hscanned : ∀ entry ∈ thread.2.examined, entry.2 = (chunkBuffer target.bytes entry.1).length) :
    (threadPiece target.bytes thread).map (fun node => node.offset.toNat) =
      configPiece target.bytes thread.1 := by
  have hends := h.scannedEnds_eq hscanned
  have hpublished : Published (thread.2.examined.map (entryNodes target.bytes thread.1.thread)) ↔
      Published (thread.1.chunks.map (chunkEnds target.bytes)) := by
    rw [← hends]
    refine published_congr fun entry _ => ?_
    rw [entryNodes, scanNodes_eq_nil_iff, scannedEnds, ← List.length_eq_zero_iff, length_sepEnds]
  simp only [threadPiece, Piece.map, configPiece, Piece.mk.injEq, decide_eq_decide]
  refine ⟨?_, hpublished⟩
  rw [h.map_offset_threadNodes, List.flatMap_def, hends, ← List.flatMap_def]

theorem WindowDone.entries_eq (h : WindowDone target indexer itc threads)
    (hscanned : ScannedAll target.bytes threads) :
    windowEntries target.bytes threads =
      (splice ((windowConfigs target indexer itc).map (configPiece target.bytes))).map .ofNat := by
  have hpieces : (threads.map (threadPiece target.bytes)).map
      (Piece.map fun node => node.offset.toNat) =
        (windowConfigs target indexer itc).map (configPiece target.bytes) := by
    rw [windowConfigs_eq h.threadsOf, List.map_map, List.map_map]
    refine List.map_congr_left fun thread hthread => ?_
    obtain ⟨heap, ret, hdone⟩ := h.done thread hthread
    exact hdone.piece_eq (hscanned thread hthread)
  rw [← hpieces, splice_map, List.map_map, windowEntries]
  refine List.map_congr_left fun node _ => ?_
  exact UInt64.ofNat_toNat.symm

theorem WindowDone.found_eq (h : WindowDone target indexer itc threads)
    (hscanned : ScannedAll target.bytes threads) :
    (threads.flatMap fun thread => thread.2.examined).flatMap (scannedEnds target.bytes) =
      windowFound target indexer itc := by
  rw [windowFound, windowConfigs_eq h.threadsOf, List.flatMap_assoc, List.flatMap_map]
  refine List.flatMap_congr fun thread hthread => ?_
  obtain ⟨heap, ret, hdone⟩ := h.done thread hthread
  rw [List.flatMap_def, hdone.scannedEnds_eq (hscanned thread hthread), ← List.flatMap_def]

/-- When the scans of all windows went to the end, the index is the one of the sequential
program. -/
theorem FileRun.Tabulated.indexSequentially_eq (h : s.Tabulated target)
    (hinv : s.Inv target indexer)
    (hscanned : ∀ entry ∈ s.history, ScannedAll target.bytes entry.2)
    (hpc : s.pc = .returned (some index)) : indexSequentially target indexer = .ok index := by
  obtain ⟨-, hpast, htarget, -⟩ := hinv.returned hpc
  obtain ⟨count, hcount, -⟩ := hpast.windows
  have hwindows := hpast.history_eq hcount
  have hcontents : index.flookup.contents = ((List.range count).reverse.flatMap
      (windowTable target indexer)).flatMap fun e => sizeBytes (.ofNat e) := by
    rw [h.contents_of_returned hinv hpc, FileRun.entries, ← hwindows, List.flatMap_map,
      List.flatMap_assoc, List.flatMap_assoc]
    refine List.flatMap_congr fun entry hentry => ?_
    rw [(hpast.done entry hentry).entries_eq (hscanned entry hentry), windowTable]
    split <;> simp [List.flatMap_map]
  have hlen : index.flookup.len = .ofNat (((List.range count).reverse.flatMap
      (windowFound target indexer)).length + 1) := by
    rw [hinv.len_eq hpc, FileRun.examined, ← hwindows, List.flatMap_map, List.flatMap_assoc]
    congr 3
    exact List.flatMap_congr fun entry hentry =>
      (hpast.done entry hentry).found_eq (hscanned entry hentry)
  have hzero : (List.range count).reverse.count 0 = 1 := by
    rw [List.count_reverse]
    exact List.count_eq_one_of_mem List.nodup_range (List.mem_range.mpr (threadItCount_pos hcount))
  obtain ⟨file, lookup⟩ := index
  obtain rfl : file = target := htarget
  obtain ⟨contents, len⟩ := lookup
  rw [indexSequentially, hcount]
  simp only [Except.map, Except.ok.injEq, FIndex.mk.injEq, true_and]
  have hfold := contents_foldl_indexWindow file indexer (List.range count).reverse fLookupFileInit
  have hfold' := len_foldl_indexWindow file indexer (List.range count).reverse fLookupFileInit
  rw [hzero] at hfold'
  generalize (List.range count).reverse.foldl (indexWindow file indexer) fLookupFileInit = lookup
    at hfold hfold' ⊢
  obtain ⟨contents', len'⟩ := lookup
  simp only [fLookupFileInit, List.nil_append, UInt32.zero_add] at hfold hfold'
  rw [FLookupFile.mk.injEq, hfold, hfold']
  exact ⟨hcontents.symm, hlen.symm⟩

/-- **Threads make no difference.** Whatever the order in which the threads of a call take their
steps and whatever else fails: an index that is returned after reads in full is the one of the
sequential program. -/
theorem indexSequentially_of_reaches
    (hreach : Reaches (fileStep target indexer) (fun s a => ¬ s.ReadsShort target a) .start s)
    (hpc : s.pc = .returned (some index)) : indexSequentially target indexer = .ok index := by
  obtain ⟨hinv, h⟩ := tabulated_of_reaches (hreach.mono fun _ _ _ => trivial)
  have hall := @Reaches.invariant _ _ _ _ (fun s => s.Inv target indexer ∧
      ScannedAll target.bytes s.threads ∧ ∀ entry ∈ s.history, ScannedAll target.bytes entry.2)
    _ _ hreach
    ⟨FileRun.inv_start _ _, by simp [ScannedAll, FileRun.start], by simp [FileRun.start]⟩
    fun s a s' hs hshort hstep =>
      ⟨hs.1.step (fileMove_of_step hstep),
        hs.1.scannedAll_of_move (fileMove_of_step hstep) hshort hs.2⟩
  exact h.indexSequentially_eq hinv hall.2.2 hpc

end

theorem FileRun.Smooth.not_readsShort {target : TargetFile} {s : FileRun} {a : FileAction}
    (h : s.Smooth target a) : ¬ s.ReadsShort target a := by
  intro hshort
  cases a with
  | worker t a =>
      obtain ⟨config, w, hthread, hskips⟩ := hshort
      exact (h (config, w) hthread).not_skips hskips
  | _ => exact hshort

/-- The run in which the only newline of the file is lost: so it is in the sequential program. -/
theorem indexSequentially_of_reaches_line :
    indexSequentially lineFile { lineIndexer with bufferSize := 1 } =
      .ok ⟨lineFile, ⟨sizeBytes 0, 2⟩⟩ := by
  have hsummary : (runTrace (fileStep lineFile { lineIndexer with bufferSize := 1 })
      [.proceed, .proceed, .worker 0 .proceed,
        .worker 0 .proceed, .worker 0 (.scan ⟨true, some 1, none, true, true⟩),
        .worker 0 .proceed, .worker 0 (.recv 0), .worker 0 .proceed,
        .worker 0 .proceed, .worker 0 (.scan ⟨true, some 1, none, true, true⟩),
        .worker 0 .proceed, .worker 0 (.recv 0), .worker 0 .proceed,
        .worker 0 .proceed, .proceed, .worker 0 .proceed, .proceed, .proceed,
        .proceed, .proceed, .proceed] .start).map
      (fun run => (run.2.summary,
        run.1.all fun move => decide (move.1.Smooth lineFile move.2))) =
      some ((some ⟨sizeBytes 0, 2⟩, [(⟨0, 0, 1⟩, 1), (⟨1, 1, 1⟩, 1)]), true) := by
    decide +kernel
  obtain ⟨s, hreach, hpc, -⟩ := exists_reaches_of_summary hsummary
  exact indexSequentially_of_reaches (hreach.mono fun _ _ hsmooth => hsmooth.not_readsShort) hpc

end Flashlight.TextIndexer
