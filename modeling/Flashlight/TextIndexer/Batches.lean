/-
# What an indexing thread knows

Whatever goes wrong, and in whatever order the messages arrive: a thread knows its
plan, the messages it received and those that still wait are the scans of chunks of
the plan, no chunk twice, and every slot of the array that was written holds the
scan of its chunk. A thread that comes to its end has received the scans of all
chunks.

All of this is kept by the steps of the thread itself, and by the steps of other
threads as well, because these write to no node of the thread.
-/

import Mathlib.Data.List.ReduceOption
import Flashlight.TextIndexer.Worker

namespace Flashlight.TextIndexer

open Flashlight.Math Flashlight.Indexer
open scoped List

/-- The bytes of a chunk that went through the loop of its coroutine. -/
def scannedBytes (bytes : List UInt8) (entry : FIndexerChunk × ℕ) : List UInt8 :=
  (chunkBuffer bytes entry.1).take entry.2

/-- The nodes that the coroutine allocated for them. -/
def entryNodes (bytes : List UInt8) (thread : ℕ) (entry : FIndexerChunk × ℕ) : List FBytesNode :=
  scanNodes ⟨thread, entry.1.index.toNat⟩ entry.1.fromOffset.toNat (scannedBytes bytes entry)

/-- The nodes of a thread that has examined the given chunks, in the order of the
reduced list: the last chunk comes first. -/
def examinedNodes (bytes : List UInt8) (thread : ℕ) (examined : List (FIndexerChunk × ℕ)) :
    List FBytesNode :=
  (examined.map (entryNodes bytes thread)).reverse.flatten

/-- The number of newlines in the chunks that were examined. -/
def examinedNewlines (bytes : List UInt8) (examined : List (FIndexerChunk × ℕ)) : ℕ :=
  (examined.map fun entry => (scannedBytes bytes entry).countP isNewline).sum

/-- Reduction publishes the first node: there is only one chunk, or not exactly one
with newlines. -/
def Published {α : Type*} (lists : List (List α)) : Prop :=
  lists.length = 1 ∨ nonempties lists ≠ 1

/-- The result of a thread: it holds the nodes of all chunks, unless their first node
was lost. -/
structure Worker.Returns (bytes : List UInt8) (thread : ℕ) (heap : Heap) (w : Worker)
    (ret : FChunk) : Prop where
  current_eq : ret.current = .ofNat thread
  lineCount_eq : ret.lineCount = w.lineCount
  ends : ret.Ends heap (examinedNodes bytes thread w.examined)
  holds : Published (w.examined.map (entryNodes bytes thread)) →
    ret.Holds heap (examinedNodes bytes thread w.examined)

/-- Every chunk examined so far is one of the first `n`. -/
def Worker.ExaminedBelow (w : Worker) (n : ℕ) : Prop :=
  ∀ entry ∈ w.examined, entry.1.index.toNat < n

/-- What the place in the loops says about the number of messages, for a plan of `len`
chunks. -/
def Worker.Position (w : Worker) (len : ℕ) : Prop :=
  match w.pc with
  | .enter => False
  | .batch i => w.concurrency ∣ i ∧ w.written.length = min i len ∧ w.ExaminedBelow (min i len)
  | .launch i c =>
      w.concurrency ∣ i ∧ i < len ∧ c ≤ w.concurrency ∧ i + c ≤ len ∧ w.written.length = i ∧
        w.ExaminedBelow (i + c)
  | .receive i c =>
      w.concurrency ∣ i ∧ i < len ∧ c ≤ w.concurrency ∧ i + c ≤ len ∧
        w.written.length = i + c ∧ w.ExaminedBelow (min (i + w.concurrency) len)
  | .reduce => w.written.length = len
  | .exited (some _) => w.written.length = len
  | .exited none => True
  | .undefined => True

/-- The invariant of a thread with the plan `ic`. -/
structure Worker.Working (bytes : List UInt8) (thread : ℕ) (ic : FIndexerChunks) (heap : Heap)
    (w : Worker) : Prop where
  ic_eq : w.ic = ic.chunks
  concurrency_eq : w.concurrency = ic.concurrency.toInt.toNat
  position : w.Position ic.chunks.length
  slots : w.chunkArray.length = ic.chunks.length
  planned : ∀ entry ∈ w.examined, ic.chunks[entry.1.index.toNat]? = some entry.1 ∧
    entry.1.fromOffset.toNat < 2 ^ 63 ∧ entry.2 ≤ (chunkBuffer bytes entry.1).length
  increasing : w.examined.Pairwise fun x y => x.1.index.toNat < y.1.index.toNat
  arrivals : (w.pending.map (fun message => message.current.toNat) ++ w.written).Perm
    (w.examined.map fun entry => entry.1.index.toNat)
  pending_spec : ∀ message ∈ w.pending, ∃ entry ∈ w.examined,
    IsScan bytes thread heap entry.1 entry.2 message
  slot_spec : (∀ ret, w.pc ≠ .exited (some ret)) → ∀ k ∈ w.written,
    ∃ message, w.chunkArray[k]? = some (some message) ∧ ∃ entry ∈ w.examined,
      entry.1.index.toNat = k ∧ IsScan bytes thread heap entry.1 entry.2 message
  lineCount_eq : w.lineCount + .ofNat (w.pending.map fun message => message.lineCount.toNat).sum =
    .ofNat (examinedNewlines bytes w.examined)
  finished_eq : w.chunksFinished = w.written.length
  progress_eq : ic.chunks = [] → w.progress = 0
  result : ∀ ret, w.pc = .exited (some ret) → w.Returns bytes thread heap ret

namespace Worker.Working

variable {bytes : List UInt8} {thread : ℕ} {ic : FIndexerChunks} {heap heap' : Heap} {w : Worker}

/-- Threads do not disturb each other. -/
theorem agreeOn (h : w.Working bytes thread ic heap)
    (hagree : ListHeap.AgreeOn (fun node => node.owner.thread = thread) heap heap') :
    w.Working bytes thread ic heap' :=
  { h with
    pending_spec := by
      intro message hmem
      obtain ⟨entry, hentry, hscan⟩ := h.pending_spec message hmem
      exact ⟨entry, hentry, hscan.agreeOn hagree fun _ hown => hown⟩
    slot_spec := by
      intro hpc k hk
      obtain ⟨message, hslot, entry, hentry, hindex, hscan⟩ := h.slot_spec hpc k hk
      exact ⟨message, hslot, entry, hentry, hindex, hscan.agreeOn hagree fun _ hown => hown⟩
    result := by
      intro ret hpc
      obtain ⟨hcurrent, hline, hends, hholds⟩ := h.result ret hpc
      have hown : ∀ node ∈ examinedNodes bytes thread w.examined, node.owner.thread = thread := by
        intro node hmem
        obtain ⟨nodes, hnodes, hnode⟩ := List.mem_flatten.mp hmem
        obtain ⟨entry, -, rfl⟩ := List.mem_map.mp (List.mem_reverse.mp hnodes)
        rw [owner_of_mem_scanNodes hnode]
      exact ⟨hcurrent, hline, hends.agreeOn hagree hown,
        fun hpublished => (hholds hpublished).agreeOn hagree hown⟩ }

/-- A step that only moves on and publishes its progress. -/
theorem moved (h : w.Working bytes thread ic heap) {pc : WorkerPc} {progress : ℚ}
    (hlive : ∀ ret, w.pc ≠ .exited (some ret))
    (hposition : Worker.Position { w with pc := pc, progress := progress } ic.chunks.length)
    (hprogress : ic.chunks = [] → progress = 0) (hpc : ∀ ret, pc ≠ .exited (some ret)) :
    Worker.Working bytes thread ic heap { w with pc := pc, progress := progress } :=
  { h with
    position := hposition
    slot_spec := fun _ => h.slot_spec hlive
    progress_eq := hprogress
    result := fun ret heq => absurd heq (hpc ret) }

/-- The thread behind its plan. -/
theorem init (bytes : List UInt8) (thread : ℕ) (ic : FIndexerChunks) (heap : Heap) :
    (Worker.start.planned ic).Working bytes thread ic heap where
  ic_eq := rfl
  concurrency_eq := rfl
  position := ⟨dvd_zero _, by simp [Worker.planned, Worker.start], by
    intro entry hmem
    cases hmem⟩
  slots := by simp [Worker.planned]
  planned := by
    intro entry hmem
    cases hmem
  increasing := List.Pairwise.nil
  arrivals := List.Perm.nil
  pending_spec := by
    intro message hmem
    cases hmem
  slot_spec := by
    intro _ k hmem
    cases hmem
  lineCount_eq := rfl
  finished_eq := rfl
  progress_eq := fun _ => rfl
  result := by
    intro ret hpc
    cases hpc

theorem fault (h : w.Working bytes thread ic heap) (hpc : ¬ w.Ended) :
    Worker.Working bytes thread ic heap { w with pc := .exited none } :=
  h.moved (fun _ heq => hpc (Or.inr ⟨_, heq⟩)) trivial h.progress_eq (by simp)

theorem batch (h : w.Working bytes thread ic heap) {i : ℕ} (hpc : w.pc = .batch i) :
    Worker.Working bytes thread ic heap
      { w with pc := if i < w.ic.length then .launch i 0 else .reduce } := by
  have hposition := h.position
  simp only [Worker.Position, hpc] at hposition
  obtain ⟨hdvd, hwritten, hbelow⟩ := hposition
  refine h.moved (by simp [hpc]) ?_ h.progress_eq (fun ret => by split <;> simp)
  rw [h.ic_eq]
  split
  · next hlt =>
      rw [Nat.min_eq_left hlt.le] at hwritten hbelow
      exact ⟨hdvd, hlt, Nat.zero_le _, hlt.le, hwritten, hbelow⟩
  · next hge =>
      rw [Nat.min_eq_right (by omega)] at hwritten
      exact hwritten

/-- The launch loop and the receive loop cut off at the same chunk. -/
theorem chunkAt_eq_none (h : w.Working bytes thread ic heap) {i c : ℕ}
    (hchunk : w.chunkAt i c = none) (hc : c ≤ w.concurrency) (hlen : i + c ≤ ic.chunks.length) :
    i + c = min (i + w.concurrency) ic.chunks.length := by
  rw [Worker.chunkAt, h.ic_eq] at hchunk
  split at hchunk
  · have hge := List.getElem?_eq_none_iff.mp hchunk
    omega
  · omega

theorem chunkAt_eq_some (h : w.Working bytes thread ic heap) {i c : ℕ} {chunk : FIndexerChunk}
    (hchunk : w.chunkAt i c = some chunk) :
    c < w.concurrency ∧ ic.chunks[i + c]? = some chunk ∧ chunk.index.toNat = i + c ∧
      i + c < ic.chunks.length := by
  rw [Worker.chunkAt, h.ic_eq] at hchunk
  split at hchunk
  · next hc =>
      exact ⟨hc, hchunk, ic.index_eq _ _ hchunk, (List.getElem?_eq_some_iff.mp hchunk).1⟩
  · cases hchunk

theorem launchDone (h : w.Working bytes thread ic heap) {i c : ℕ} (hpc : w.pc = .launch i c)
    (hchunk : w.chunkAt i c = none) :
    Worker.Working bytes thread ic heap { w with pc := .receive i 0 } := by
  have hposition := h.position
  simp only [Worker.Position, hpc] at hposition
  obtain ⟨hdvd, hi, hc, hlen, hwritten, hbelow⟩ := hposition
  rw [h.chunkAt_eq_none hchunk hc hlen] at hbelow
  exact h.moved (by simp [hpc]) ⟨hdvd, hi, Nat.zero_le _, hi.le, hwritten, hbelow⟩ h.progress_eq
    (by simp)

theorem finished (h : w.Working bytes thread ic heap) {i c : ℕ} (hpc : w.pc = .receive i c)
    (hchunk : w.chunkAt i c = none) : (w.finished i).Working bytes thread ic heap := by
  have hposition := h.position
  simp only [Worker.Position, hpc] at hposition
  obtain ⟨hdvd, hi, hc, hlen, hwritten, hbelow⟩ := hposition
  rw [h.chunkAt_eq_none hchunk hc hlen] at hwritten
  refine h.moved (by simp [hpc]) ?_ (fun hnil => ?_) (fun ret => by split <;> simp)
  · split
    · exact ⟨(Nat.dvd_add_right hdvd).mpr (dvd_refl _), hwritten, hbelow⟩
    · trivial
  · rw [hnil] at hi
    simp at hi

/-- A coroutine that sent its chunk. -/
theorem launched (h : w.Working bytes thread ic heap) {i c scanned : ℕ} {chunk : FIndexerChunk}
    {message : FChunk} (hpc : w.pc = .launch i c) (hchunk : w.chunkAt i c = some chunk)
    (hagree : ListHeap.AgreeOn (fun _ => True) heap heap') (hfrom : chunk.fromOffset.toNat < 2 ^ 63)
    (hle : scanned ≤ (chunkBuffer bytes chunk).length)
    (hscan : IsScan bytes thread heap' chunk scanned message) :
    (w.launched i c chunk (.sent message scanned)).Working bytes thread ic heap' := by
  have hposition := h.position
  simp only [Worker.Position, hpc] at hposition
  obtain ⟨hdvd, hi, hc, hlen, hwritten, hbelow⟩ := hposition
  obtain ⟨hlt, hget, hindex, hlt'⟩ := h.chunkAt_eq_some hchunk
  have hold : ∀ entry n message, IsScan bytes thread heap entry n message →
      IsScan bytes thread heap' entry n message :=
    fun _ _ _ hscan => hscan.agreeOn hagree fun _ _ => trivial
  exact {
    ic_eq := h.ic_eq
    concurrency_eq := h.concurrency_eq
    position := by
      refine ⟨hdvd, hi, hlt, hlt', hwritten, fun entry hmem => ?_⟩
      rcases List.mem_append.mp hmem with hmem | hmem
      · have := hbelow entry hmem
        omega
      · rw [List.mem_singleton.mp hmem, hindex]
        omega
    slots := h.slots
    planned := by
      intro entry hmem
      rcases List.mem_append.mp hmem with hmem | hmem
      · exact h.planned entry hmem
      · rw [List.mem_singleton.mp hmem]
        exact ⟨by rw [hindex, hget], hfrom, hle⟩
    increasing := by
      refine List.pairwise_append.mpr ⟨h.increasing, List.pairwise_singleton _ _, ?_⟩
      intro x hx y hy
      rw [List.mem_singleton.mp hy, hindex]
      exact hbelow x hx
    arrivals := by
      simp only [Worker.launched, List.map_append, List.map_cons, List.map_nil]
      rw [hscan.current_eq, List.append_assoc]
      refine (List.Perm.append_left _ List.perm_append_comm).trans ?_
      rw [← List.append_assoc]
      exact h.arrivals.append_right _
    pending_spec := by
      intro message' hmem
      rcases List.mem_append.mp hmem with hmem | hmem
      · obtain ⟨entry, hentry, hscan'⟩ := h.pending_spec message' hmem
        exact ⟨entry, List.mem_append_left _ hentry, hold _ _ _ hscan'⟩
      · rw [List.mem_singleton.mp hmem]
        exact ⟨(chunk, scanned), List.mem_append_right _ (List.mem_singleton.mpr rfl), hscan⟩
    slot_spec := by
      intro _ k hk
      obtain ⟨message', hslot, entry, hentry, hindex', hscan'⟩ := h.slot_spec (by simp [hpc]) k hk
      exact ⟨message', hslot, entry, List.mem_append_left _ hentry, hindex', hold _ _ _ hscan'⟩
    lineCount_eq := by
      have hline := h.lineCount_eq
      simp only [Worker.launched, examinedNewlines, List.map_append, List.map_cons, List.map_nil,
        List.sum_append, List.sum_singleton, UInt32.ofNat_add, UInt32.ofNat_toNat] at hline ⊢
      rw [← UInt32.add_assoc, hline, hscan.lineCount_eq]
      rfl
    finished_eq := h.finished_eq
    progress_eq := h.progress_eq
    result := by
      intro ret heq
      cases heq }

/-- A coroutine that sent nothing. -/
theorem silent (h : w.Working bytes thread ic heap) {i c : ℕ} {chunk : FIndexerChunk}
    (hpc : w.pc = .launch i c) (hchunk : w.chunkAt i c = some chunk) :
    Worker.Working bytes thread ic heap { w with pc := .launch i (c + 1) } := by
  have hposition := h.position
  simp only [Worker.Position, hpc] at hposition
  obtain ⟨hdvd, hi, hc, hlen, hwritten, hbelow⟩ := hposition
  obtain ⟨hlt, -, -, hlt'⟩ := h.chunkAt_eq_some hchunk
  refine h.moved (by simp [hpc]) ⟨hdvd, hi, hlt, hlt', hwritten, fun entry hmem => ?_⟩
    h.progress_eq (by simp)
  have := hbelow entry hmem
  omega

/-- A message goes to the slot of its chunk, which is there. -/
theorem received (h : w.Working bytes thread ic heap) {i c k : ℕ} {chunk : FIndexerChunk}
    {message : FChunk} (hpc : w.pc = .receive i c) (hchunk : w.chunkAt i c = some chunk)
    (hmessage : w.pending[k]? = some message) :
    (w.received i c k message).Working bytes thread ic heap ∧
      (w.received i c k message).pc = .receive i (c + 1) := by
  have hposition := h.position
  simp only [Worker.Position, hpc] at hposition
  obtain ⟨hdvd, hi, hc, hlen, hwritten, hbelow⟩ := hposition
  obtain ⟨hlt, -, -, hlt'⟩ := h.chunkAt_eq_some hchunk
  obtain ⟨hk, hget⟩ := List.getElem?_eq_some_iff.mp hmessage
  have hperm : (message :: w.pending.eraseIdx k).Perm w.pending := by
    rw [← hget]
    exact List.getElem_cons_eraseIdx_perm hk
  obtain ⟨entry, hentry, hscan⟩ := h.pending_spec message (List.mem_of_getElem? hmessage)
  have hslot : message.current.toNat < w.chunkArray.length := by
    rw [h.slots, hscan.current_eq]
    exact (List.getElem?_eq_some_iff.mp (h.planned entry hentry).1).1
  rw [Worker.received, if_pos hslot]
  refine ⟨?_, rfl⟩
  exact {
    ic_eq := h.ic_eq
    concurrency_eq := h.concurrency_eq
    position := by
      refine ⟨hdvd, hi, hlt, hlt', ?_, hbelow⟩
      rw [List.length_append, hwritten, List.length_singleton, Nat.add_assoc]
    slots := by rw [List.length_set, h.slots]
    planned := h.planned
    increasing := h.increasing
    arrivals := by
      refine List.Perm.trans ?_ h.arrivals
      have hmap := hperm.map fun message : FChunk => message.current.toNat
      rw [List.map_cons] at hmap
      calc (w.pending.eraseIdx k).map (fun message => message.current.toNat) ++
            (w.written ++ [message.current.toNat])
        _ = (w.pending.eraseIdx k).map (fun message => message.current.toNat) ++ w.written ++
            [message.current.toNat] := (List.append_assoc _ _ _).symm
        _ ~ message.current.toNat ::
            ((w.pending.eraseIdx k).map (fun message => message.current.toNat) ++ w.written) :=
            List.perm_append_singleton _ _
        _ ~ w.pending.map (fun message => message.current.toNat) ++ w.written :=
            hmap.append_right w.written
    pending_spec := fun message' hmem => h.pending_spec message' (List.mem_of_mem_eraseIdx hmem)
    slot_spec := by
      intro _ k' hk'
      by_cases heq : message.current.toNat = k'
      · refine ⟨message, ?_, entry, hentry, by rw [← heq, hscan.current_eq], hscan⟩
        rw [← heq, List.getElem?_set_self hslot]
      · have hmem : k' ∈ w.written := by
          rcases List.mem_append.mp hk' with hmem | hmem
          · exact hmem
          · exact absurd (List.mem_singleton.mp hmem).symm heq
        obtain ⟨message', hslot', hrest⟩ := h.slot_spec (by simp [hpc]) k' hmem
        exact ⟨message', by rw [List.getElem?_set_ne heq, hslot'], hrest⟩
    lineCount_eq := by
      have hsum := (hperm.map fun message : FChunk => message.lineCount.toNat).sum_eq
      rw [List.map_cons, List.sum_cons] at hsum
      have hline := h.lineCount_eq
      rw [← hsum, UInt32.ofNat_add, UInt32.ofNat_toNat, ← UInt32.add_assoc] at hline
      exact hline
    finished_eq := by
      rw [List.length_append, h.finished_eq, List.length_singleton]
    progress_eq := h.progress_eq
    result := by
      intro ret heq
      cases heq }

/-- A thread that has received as many messages as it has chunks has received the scan
of every chunk. -/
theorem complete (h : w.Working bytes thread ic heap)
    (hwritten : w.written.length = ic.chunks.length) :
    w.pending = [] ∧
      w.examined.map (fun entry => entry.1.index.toNat) = List.range ic.chunks.length ∧
      w.written ~ List.range ic.chunks.length := by
  have hindices : (w.examined.map fun entry => entry.1.index.toNat).Pairwise (· < ·) :=
    List.pairwise_map.mpr h.increasing
  have hsub : (w.examined.map fun entry => entry.1.index.toNat) ⊆ List.range ic.chunks.length := by
    intro k hk
    obtain ⟨entry, hentry, rfl⟩ := List.mem_map.mp hk
    exact List.mem_range.mpr (List.getElem?_eq_some_iff.mp (h.planned entry hentry).1).1
  have hlength := h.arrivals.length_eq
  rw [List.length_append, List.length_map, List.length_map, hwritten] at hlength
  have hnodup : (w.examined.map fun entry => entry.1.index.toNat).Nodup :=
    hindices.imp Nat.ne_of_lt
  have hperm : (w.examined.map fun entry => entry.1.index.toNat) ~ List.range ic.chunks.length := by
    refine (hnodup.subperm hsub).perm_of_length_le ?_
    rw [List.length_range, List.length_map]
    omega
  have hrange := hindices.eq_of_mem_iff List.pairwise_lt_range fun {_} => hperm.mem_iff
  have hpending : w.pending = [] := by
    have hlength' := hperm.length_eq
    rw [List.length_map, List.length_range] at hlength'
    exact List.length_eq_zero_iff.mp (by omega)
  refine ⟨hpending, hrange, ?_⟩
  have harrivals := h.arrivals
  rwa [hpending, List.map_nil, List.nil_append, hrange] at harrivals

/-- The chunk at position `k` was examined as entry `k`. -/
theorem examined_getElem? (h : w.Working bytes thread ic heap)
    (hwritten : w.written.length = ic.chunks.length) {entry : FIndexerChunk × ℕ}
    (hentry : entry ∈ w.examined) : w.examined[entry.1.index.toNat]? = some entry := by
  obtain ⟨k, hk, rfl⟩ := List.getElem_of_mem hentry
  have hrange := congrArg (fun indices => indices[k]?) (h.complete hwritten).2.1
  have hlt : k < ic.chunks.length := by
    have hlength := congrArg List.length (h.complete hwritten).2.1
    simp only [List.length_map, List.length_range] at hlength
    omega
  simp only [List.getElem?_map, List.getElem?_eq_getElem hk, List.getElem?_range hlt,
    Option.map_some, Option.some.injEq] at hrange
  rw [hrange, List.getElem?_eq_getElem hk]

/-- A thread that missed nothing has examined its chunks one after the other. -/
theorem examined_eq (h : w.Working bytes thread ic heap)
    (hwritten : w.written.length = ic.chunks.length)
    (hscanned : ∀ entry ∈ w.examined, entry.2 = (chunkBuffer bytes entry.1).length) :
    w.examined = ic.chunks.map fun chunk => (chunk, (chunkBuffer bytes chunk).length) := by
  apply List.ext_getElem?
  intro k
  rw [List.getElem?_map]
  cases hk : w.examined[k]? with
  | none =>
      have hlength := congrArg List.length (h.complete hwritten).2.1
      rw [List.length_map, List.length_range] at hlength
      have hge := List.getElem?_eq_none_iff.mp hk
      rw [List.getElem?_eq_none (by omega), Option.map_none]
  | some entry =>
      have hmem := List.mem_of_getElem? hk
      have hself := h.examined_getElem? hwritten hmem
      have hindex : entry.1.index.toNat = k := by
        have hindices := congrArg (fun indices => indices[k]?) (h.complete hwritten).2.1
        have hlt : k < ic.chunks.length := by
          have hlength := congrArg List.length (h.complete hwritten).2.1
          rw [List.length_map, List.length_range] at hlength
          have := (List.getElem?_eq_some_iff.mp hk).1
          omega
        simpa [hk, hlt] using hindices
      rw [← hindex, (h.planned entry hmem).1, Option.map_some, ← hscanned entry hmem]

/-- The slots hold the scans of the chunks. -/
theorem slot_complete (h : w.Working bytes thread ic heap)
    (hpc : ∀ ret, w.pc ≠ .exited (some ret)) (hwritten : w.written.length = ic.chunks.length)
    {k : ℕ} {chunk : FIndexerChunk} (hchunk : ic.chunks[k]? = some chunk) :
    ∃ message n, w.chunkArray[k]? = some (some message) ∧ w.examined[k]? = some (chunk, n) ∧
      IsScan bytes thread heap chunk n message := by
  obtain ⟨-, -, hperm⟩ := h.complete hwritten
  have hk : k ∈ w.written := by
    rw [hperm.mem_iff, List.mem_range]
    exact (List.getElem?_eq_some_iff.mp hchunk).1
  obtain ⟨message, hslot, ⟨chunk', n⟩, hentry, rfl, hscan⟩ := h.slot_spec hpc k hk
  obtain ⟨hplanned, -, -⟩ := h.planned _ hentry
  obtain rfl : chunk = chunk' := Option.some.inj (hchunk.symm.trans hplanned)
  exact ⟨message, n, hslot, h.examined_getElem? hwritten hentry, hscan⟩

/-- The array holds the lists of all chunks, in the order of the plan. -/
theorem forall₂_holds (h : w.Working bytes thread ic heap)
    (hpc : ∀ ret, w.pc ≠ .exited (some ret)) (hwritten : w.written.length = ic.chunks.length) :
    w.chunkArray.all Option.isSome = true ∧
      List.Forall₂ (fun message nodes => message.Holds heap nodes) w.chunkArray.reduceOption
        (w.examined.map (entryNodes bytes thread)) := by
  have hlength : w.examined.length = ic.chunks.length := by
    have hlength := congrArg List.length (h.complete hwritten).2.1
    simpa using hlength
  have hslots : List.Forall₂ (fun slot nodes => ∃ message, slot = some message ∧
      message.Holds heap nodes) w.chunkArray (w.examined.map (entryNodes bytes thread)) := by
    refine List.forall₂_iff_get.mpr ⟨by rw [h.slots, List.length_map, hlength], ?_⟩
    intro k hk hk'
    obtain ⟨message, n, hslot, hentry, hscan⟩ := h.slot_complete hpc hwritten
      (List.getElem?_eq_getElem (show k < ic.chunks.length by rw [← h.slots]; exact hk))
    refine ⟨message, ?_, ?_⟩
    · exact (List.getElem?_eq_some_iff.mp hslot).2
    · obtain ⟨hk, hentry⟩ := List.getElem?_eq_some_iff.mp hentry
      simp only [List.get_eq_getElem, List.getElem_map, hentry]
      exact hscan.holds
  generalize w.chunkArray = slots at hslots
  generalize w.examined.map (entryNodes bytes thread) = lists at hslots
  induction hslots with
  | nil => exact ⟨rfl, List.Forall₂.nil⟩
  | cons hslot _ ih =>
      obtain ⟨message, rfl, hholds⟩ := hslot
      rw [List.reduceOption_cons_of_some]
      exact ⟨by simpa using ih.1, List.Forall₂.cons hholds ih.2⟩

/-- The nodes of different chunks are different. -/
theorem pairwise_apart (h : w.Working bytes thread ic heap) :
    (w.examined.map (entryNodes bytes thread)).Pairwise fun xs ys =>
      ∀ x ∈ xs, ∀ y ∈ ys, x ≠ y := by
  refine List.pairwise_map.mpr (h.increasing.imp fun hlt x hx y hy heq => ?_)
  have howner := congrArg (fun node => node.owner.chunk) heq
  simp only [owner_of_mem_scanNodes hx, owner_of_mem_scanNodes hy] at howner
  omega

/-- Reduction succeeds and writes to no other thread's nodes. -/
theorem reduced (h : w.Working bytes thread ic heap) (hpc : w.pc = .reduce) :
    (w.reduced heap thread).2.Working bytes thread ic (w.reduced heap thread).1 ∧
      (∃ ret, (w.reduced heap thread).2 = { w with pc := .exited (some ret) }) ∧
      ListHeap.AgreeOn (fun node => node.owner.thread ≠ thread) heap (w.reduced heap thread).1 := by
  have hwritten : w.written.length = ic.chunks.length := by
    have hposition := h.position
    simpa only [Worker.Position, hpc] using hposition
  obtain ⟨hall, hlists⟩ := h.forall₂_holds (by simp [hpc]) hwritten
  obtain ⟨heap', ret, hreduce, hcurrent, hends, hholds, hframe⟩ :=
    reduce_holds (.ofNat thread) hlists h.pairwise_apart
  have hreduced : w.reduced heap thread =
      (heap', { w with pc := .exited (some { ret with lineCount := w.lineCount }) }) := by
    rw [Worker.reduced, if_pos hall, hreduce]
  have hagree : ListHeap.AgreeOn (fun node => node.owner.thread ≠ thread) heap heap' := by
    refine hframe _ fun nodes hnodes node hnode hother => hother ?_
    obtain ⟨entry, -, rfl⟩ := List.mem_map.mp hnodes
    rw [owner_of_mem_scanNodes hnode]
  rw [hreduced]
  refine ⟨?_, ⟨_, rfl⟩, hagree⟩
  obtain ⟨hpending, -, hperm⟩ := h.complete hwritten
  exact {
    ic_eq := h.ic_eq
    concurrency_eq := h.concurrency_eq
    position := hwritten
    slots := h.slots
    planned := h.planned
    increasing := h.increasing
    arrivals := h.arrivals
    pending_spec := by
      rw [hpending]
      simp
    slot_spec := fun hlive => absurd rfl (hlive _)
    lineCount_eq := h.lineCount_eq
    finished_eq := h.finished_eq
    progress_eq := h.progress_eq
    result := by
      intro ret' heq
      obtain rfl := Option.some.inj (WorkerPc.exited.inj heq)
      refine ⟨hcurrent, rfl, hends.withLineCount _, fun hpublished => ?_⟩
      rw [Published, ← hlists.length_eq] at hpublished
      exact (hholds hpublished).withLineCount _ }

end Worker.Working

/-- The invariant of a thread, with or without a plan. -/
inductive Worker.Inv (bytes : List UInt8) (config : FTextThread) (heap : Heap) (w : Worker) : Prop
  | unplanned {pc : WorkerPc} (hpc : pc = .enter ∨ pc = .exited none ∨ pc = .undefined)
      (hw : w = { Worker.start with pc := pc })
  | working {ic : FIndexerChunks} (hplan : config.plan = .ok ic)
      (h : w.Working bytes config.thread ic heap)

section

variable {bytes : List UInt8} {config : FTextThread} {heap heap' : Heap} {w w' : Worker}
  {a : WorkerAction}

theorem Worker.Inv.agreeOn (h : w.Inv bytes config heap)
    (hagree : ListHeap.AgreeOn (fun node => node.owner.thread = config.thread) heap heap') :
    w.Inv bytes config heap' := by
  cases h with
  | unplanned hpc hw => exact .unplanned hpc hw
  | working hplan h => exact .working hplan (h.agreeOn hagree)

/-- A thread that is past its plan has one. -/
theorem Worker.Inv.exists_working (h : w.Inv bytes config heap) {pc : WorkerPc} (hpc : w.pc = pc)
    (henter : pc ≠ .enter) (hexited : pc ≠ .exited none) (hundefined : pc ≠ .undefined) :
    ∃ ic, config.plan = .ok ic ∧ w.Working bytes config.thread ic heap := by
  subst hpc
  cases h with
  | unplanned hpc hw =>
      subst hw
      rcases hpc with rfl | rfl | rfl
      · exact absurd rfl henter
      · exact absurd rfl hexited
      · exact absurd rfl hundefined
  | working hplan h => exact ⟨_, hplan, h⟩

/-- A thread that has not started knows nothing yet. -/
theorem Worker.Inv.eq_start (h : w.Inv bytes config heap) (hpc : w.pc = .enter) :
    w = Worker.start := by
  cases h with
  | unplanned _ hw =>
      subst hw
      obtain rfl := hpc
      rfl
  | working _ h =>
      have hposition := h.position
      simp only [Worker.Position, hpc] at hposition

/-- Losing the meaning loses nothing else. -/
theorem Worker.Working.undefined {thread : ℕ} {ic : FIndexerChunks}
    (h : w.Working bytes thread ic heap) (hpc : ∀ ret, w.pc ≠ .exited (some ret)) :
    Worker.Working bytes thread ic heap { w with pc := .undefined } :=
  h.moved hpc trivial h.progress_eq (by simp)

/-- **Step lemma.** A step of a thread keeps its invariant and leaves the nodes of the
other threads alone. -/
theorem Worker.Inv.step (h : w.Inv bytes config heap)
    (hmove : WorkerMove bytes config heap w a heap' w') :
    w'.Inv bytes config heap' ∧
      ListHeap.AgreeOn (fun node => node.owner.thread ≠ config.thread) heap heap' := by
  cases hmove with
  | @planned ic hpc hic =>
      obtain rfl := h.eq_start hpc
      exact ⟨.working hic (.init bytes config.thread ic heap), .refl _ _⟩
  | unplanned hpc _ hended =>
      obtain rfl := h.eq_start hpc
      exact ⟨.unplanned (Or.inr hended) rfl, .refl _ _⟩
  | fault hpc =>
      refine ⟨?_, .refl _ _⟩
      cases h with
      | unplanned _ hw => exact .unplanned (Or.inr (Or.inl rfl)) (by rw [hw])
      | working hplan h => exact .working hplan (h.fault hpc)
  | batch hpc =>
      obtain ⟨ic, hplan, hw⟩ := h.exists_working hpc (by simp) (by simp) (by simp)
      exact ⟨.working hplan (hw.batch hpc), .refl _ _⟩
  | launchDone hpc hchunk =>
      obtain ⟨ic, hplan, hw⟩ := h.exists_working hpc (by simp) (by simp) (by simp)
      exact ⟨.working hplan (hw.launchDone hpc hchunk), .refl _ _⟩
  | @scan i c chunk env _ outcome hpc hchunk hscan =>
      obtain ⟨ic, hplan, hw⟩ := h.exists_working hpc (by simp) (by simp) (by simp)
      obtain ⟨hagree, hsent⟩ := fIndexTextBytes_cases hscan
      refine ⟨.working hplan ?_, fun p cell hcell _ => hagree p cell hcell trivial⟩
      cases outcome with
      | sent message n =>
          obtain ⟨hfrom, hle, -, hmessage⟩ := hsent message n rfl
          exact hw.launched hpc hchunk hagree hfrom hle hmessage
      | silent =>
          exact (hw.silent hpc hchunk).agreeOn fun p cell hcell _ => hagree p cell hcell trivial
      | undefined =>
          exact (hw.undefined (by simp [hpc])).agreeOn
            fun p cell hcell _ => hagree p cell hcell trivial
  | batchDone hpc hchunk =>
      obtain ⟨ic, hplan, hw⟩ := h.exists_working hpc (by simp) (by simp) (by simp)
      exact ⟨.working hplan (hw.finished hpc hchunk), .refl _ _⟩
  | recv hpc hchunk hmessage =>
      obtain ⟨ic, hplan, hw⟩ := h.exists_working hpc (by simp) (by simp) (by simp)
      exact ⟨.working hplan (hw.received hpc hchunk hmessage).1, .refl _ _⟩
  | reduce hpc =>
      obtain ⟨ic, hplan, hw⟩ := h.exists_working hpc (by simp) (by simp) (by simp)
      obtain ⟨hreduced, -, hagree⟩ := hw.reduced hpc
      exact ⟨.working hplan hreduced, hagree⟩

/-- A thread never gives up its plan. -/
theorem Worker.Inv.ic_ne_nil (h : w.Inv bytes config heap)
    (hmove : WorkerMove bytes config heap w a heap' w') (hic : w.ic ≠ []) : w'.ic ≠ [] := by
  cases hmove with
  | planned hpc _ =>
      obtain rfl := h.eq_start hpc
      exact absurd rfl hic
  | unplanned _ _ _ => exact hic
  | fault _ => exact hic
  | batch _ => exact hic
  | launchDone _ _ => exact hic
  | @scan i c chunk env _ outcome _ _ _ => cases outcome <;> exact hic
  | batchDone _ _ => exact hic
  | @recv i c k chunk message _ _ _ =>
      rw [Worker.received]
      split <;> exact hic
  | reduce hpc =>
      obtain ⟨ic, -, hw⟩ := h.exists_working hpc (by simp) (by simp) (by simp)
      obtain ⟨-, ⟨ret, heq⟩, -⟩ := hw.reduced hpc
      rw [heq]
      exact hic

/-- A thread that has ended moves no more. -/
theorem WorkerMove.not_exited (hmove : WorkerMove bytes config heap w a heap' w')
    (result : Option FChunk) : w.pc ≠ .exited result := by
  intro hpc
  cases hmove with
  | planned hpc' _ => cases hpc.symm.trans hpc'
  | unplanned hpc' _ _ => cases hpc.symm.trans hpc'
  | fault hpc' => exact hpc' (Or.inr ⟨result, hpc⟩)
  | batch hpc' => cases hpc.symm.trans hpc'
  | launchDone hpc' _ => cases hpc.symm.trans hpc'
  | scan hpc' _ _ => cases hpc.symm.trans hpc'
  | batchDone hpc' _ => cases hpc.symm.trans hpc'
  | recv hpc' _ _ => cases hpc.symm.trans hpc'
  | reduce hpc' => cases hpc.symm.trans hpc'

end

end Flashlight.TextIndexer
