/-
# The region of a reduction

A window of the target file is indexed on a region of the heap of its own: its nodes were all
allocated for it. The lists of its chunks lie in that region, and a reduction that joins them
neither reads nor writes a node outside of it.
-/

import Flashlight.Chunk
import Flashlight.Math.HeapRegion

namespace Flashlight

open Flashlight.Math

/-- The nodes that the loop of `f_chunk_array_reverse_reduce` writes to. -/
def reduceUses : List FChunk → ReduceState → List Ptr
  | [], _ => []
  | chunk :: chunks, s =>
      (if chunk.empty then []
        else
          match s.current with
          | none => []
          | some _ => chunk.last.toList) ++
        match reduceStep chunk s with
        | none => []
        | some s => reduceUses chunks s

/-- The nodes that `f_chunk_array_reverse_reduce` writes to. -/
def reverseReduceUses (heap : Heap) : List FChunk → List Ptr
  | [_] => []
  | chunks => reduceUses chunks (.init heap)

/-- The list of a chunk lies in the region from `base` on. -/
structure FChunk.Within (chunk : FChunk) (heap : Heap) (base : ℕ) : Prop where
  first : heap.Within base chunk.first
  last : heap.Within base chunk.last

theorem FChunk.Within.mono {chunk : FChunk} {heap heap' : Heap} {base : ℕ}
    (h : chunk.Within heap base) (hle : heap.length ≤ heap'.length) : chunk.Within heap' base :=
  ⟨h.first.mono hle, h.last.mono hle⟩

/-- The list that the reduction has built lies in the region from `base` on. -/
structure ReduceState.Within (s : ReduceState) (base : ℕ) : Prop where
  closed : s.heap.ClosedFrom base
  current : s.heap.Within base s.current
  first : s.heap.Within base s.first
  last : s.heap.Within base s.last

theorem ReduceState.Within.step {s s' : ReduceState} {chunk : FChunk} {base : ℕ}
    (h : s.Within base) (hchunk : chunk.Within s.heap base)
    (hstep : reduceStep chunk s = some s') :
    s'.Within base ∧ s'.heap.length = s.heap.length := by
  unfold reduceStep at hstep
  split at hstep
  · obtain rfl := Option.some.inj hstep
    exact ⟨h, rfl⟩
  · split at hstep
    · obtain rfl := Option.some.inj hstep
      refine ⟨⟨h.closed, hchunk.first, h.first, ?_⟩, rfl⟩
      simp only
      split
      · exact hchunk.last
      · exact h.last
    · next head hcurrent =>
        split at hstep
        · cases hstep
        · next heap hswap =>
            obtain rfl := Option.some.inj hstep
            obtain ⟨p, -, rfl⟩ := Option.map_eq_some_iff.mp hswap
            have hlength := ListHeap.length_setNext s.heap p s.current
            exact ⟨⟨h.closed.setNext h.current p, hchunk.first.mono hlength.ge,
              hchunk.first.mono hlength.ge, h.last.mono hlength.ge⟩, hlength⟩

/-- The loop writes to the region only. -/
theorem reduceLoop_within {chunks : List FChunk} {s s' : ReduceState} {base : ℕ}
    (h : s.Within base) (hchunks : ∀ chunk ∈ chunks, chunk.Within s.heap base)
    (hloop : reduceLoop chunks s = some s') :
    s'.Within base ∧ s'.heap.length = s.heap.length := by
  induction chunks generalizing s with
  | nil =>
      obtain rfl := Option.some.inj hloop
      exact ⟨h, rfl⟩
  | cons chunk chunks ih =>
      obtain ⟨between, hstep, hrest⟩ := Option.bind_eq_some_iff.mp hloop
      obtain ⟨hbetween, hlength⟩ := h.step (hchunks chunk List.mem_cons_self) hstep
      obtain ⟨hs', hlength'⟩ := ih hbetween
        (fun chunk hmem => (hchunks chunk (List.mem_cons_of_mem _ hmem)).mono hlength.ge) hrest
      exact ⟨hs', hlength'.trans hlength⟩

theorem reduceUses_within {chunks : List FChunk} {s : ReduceState} {base : ℕ}
    (h : s.Within base) (hchunks : ∀ chunk ∈ chunks, chunk.Within s.heap base) :
    ∀ p ∈ reduceUses chunks s, base ≤ p ∧ p < s.heap.length := by
  induction chunks generalizing s with
  | nil => simp [reduceUses]
  | cons chunk chunks ih =>
      have hlast := (hchunks chunk List.mem_cons_self).last
      intro p hp
      rw [reduceUses, List.mem_append] at hp
      rcases hp with hp | hp
      · split at hp
        · cases hp
        · split at hp
          · cases hp
          · exact hlast p (by simpa using hp)
      · split at hp
        · cases hp
        · next s' hstep =>
            obtain ⟨hs', hlength⟩ := h.step (hchunks chunk List.mem_cons_self) hstep
            rw [← hlength]
            exact ih hs' (fun chunk hmem =>
              (hchunks chunk (List.mem_cons_of_mem _ hmem)).mono hlength.ge) p hp

/-- **A reduction** stays in the region of its chunks. -/
theorem fChunkArrayReverseReduce_within {heap heap' : Heap} {idx : UInt64} {chunks : List FChunk}
    {result : FChunk} {base : ℕ} (hclosed : heap.ClosedFrom base)
    (hchunks : ∀ chunk ∈ chunks, chunk.Within heap base)
    (hreduce : fChunkArrayReverseReduce heap idx chunks = some (heap', result)) :
    heap'.ClosedFrom base ∧ heap'.length = heap.length ∧ result.Within heap' base ∧
      ∀ p ∈ reverseReduceUses heap chunks, base ≤ p ∧ p < heap.length := by
  have hinit : (ReduceState.init heap).Within base :=
    ⟨hclosed, ListHeap.within_none _ _, ListHeap.within_none _ _, ListHeap.within_none _ _⟩
  unfold fChunkArrayReverseReduce at hreduce
  split at hreduce
  · next chunk =>
      obtain ⟨rfl, rfl⟩ := Prod.mk.inj (Option.some.inj hreduce)
      have hchunk := hchunks chunk List.mem_cons_self
      exact ⟨hclosed, rfl, ⟨hchunk.first, hchunk.last⟩, by simp [reverseReduceUses]⟩
  · next hone =>
      obtain ⟨s, hloop, heq⟩ := Option.map_eq_some_iff.mp hreduce
      obtain ⟨rfl, rfl⟩ := Prod.mk.inj heq
      obtain ⟨hs, hlength⟩ := reduceLoop_within hinit hchunks hloop
      refine ⟨hs.closed, hlength, ⟨hs.first, hs.last⟩, ?_⟩
      rw [reverseReduceUses]
      · exact reduceUses_within hinit hchunks
      · exact hone

end Flashlight
