/-
# The lookups of a search

A search thread looks up one batch after another. Whatever the order of the steps and
whatever fails, the lines of a batch are in the index: the clipped size of the last batch
does not wrap, and a lookup whose reads and allocations succeed finds lines. The exits
behind a lookup that fails are there for the environment only.
-/

import Flashlight.Search.Limit
import Flashlight.Search.Run

namespace Flashlight.Search

open Flashlight.Math

/-- The lookup at line `i` asks for lines that the index has. -/
structure FSearcherThread.LookupInRange (config : FSearcherThread) (len : UInt32)
    (i : UInt64) : Prop where
  /-- The first line is in the index. -/
  line_le : i.toNat ≤ len.toNat - 1
  /-- The batch ends in the index. -/
  end_le : i.toNat + (config.batchSize i).toNat ≤ len.toNat
  /-- `count + start - i - 1` stays above zero. -/
  no_wrap : i.toNat + 1 ≤ (config.count + config.start).toNat

/-- The threads were planned, and each batch that is looked up begins in the range of its
thread. -/
structure SearchRun.InRange (index : FIndex) (config : FSearcher) (s : SearchRun) : Prop where
  planned : s.plan = [] ∨ searcherThreads config index.flookup.len = .ok s.plan
  threads : ∀ thread ∈ s.crew.threads,
    (∃ plan, searcherThreads config index.flookup.len = .ok plan ∧ thread.1 ∈ plan) ∧
      ∀ i, thread.2.pc = .lookup i → i < thread.1.count + thread.1.start

section

variable {regex : Pcre2Code} {index : FIndex} {config : FSearcher} {s s' : SearchRun}
  {a : SearchAction}

theorem SearchRun.inRange_start (index : FIndex) (config : FSearcher) :
    SearchRun.start.InRange index config :=
  ⟨Or.inl rfl, by simp [SearchRun.start]⟩

/-- Only the planning step changes the plan. -/
theorem SearchRun.InRange.planned_step (h : s.InRange index config)
    (hmove : SearchMove regex index config s a s') :
    s'.plan = [] ∨ searcherThreads config index.flookup.len = .ok s'.plan := by
  cases hmove with
  | planned _ hplan => exact Or.inr hplan
  | created _ _ => exact h.planned
  | allCreated _ _ => exact h.planned
  | watched _ _ _ => exact h.planned
  | joined _ _ _ => exact h.planned
  | allJoined _ _ => exact h.planned
  | failed _ _ => exact h.planned
  | searcher _ => exact h.planned

/-- **A step of the search** keeps the lookups in range. -/
theorem SearchRun.InRange.step (h : s.InRange index config)
    (hstep : searchStep regex index config a s = some s') : s'.InRange index config := by
  refine ⟨h.planned_step (searchMove_of_step hstep), fun thread hthread => ?_⟩
  cases threadOrigin_of_step hstep hthread with
  | kept hold => exact h.threads thread hold
  | created hplanned hstart =>
      have hok := h.planned.resolve_left (List.ne_nil_of_mem hplanned)
      refine ⟨⟨s.plan, hok, hplanned⟩, fun i hpc => ?_⟩
      rw [hstart] at hpc
      cases hpc
  | moved _ hold hmoved =>
      have hplanned := (h.threads _ (List.mem_of_getElem? hold)).1
      exact ⟨hplanned, fun i hpc => (searcherMove_of_step hmoved).lookup_lt hpc⟩

end

/-- A line of the range is followed by lines of the index. -/
theorem lookupInRange_of_lt {config : FSearcher} {len : UInt32} {plan : List FSearcherThread}
    (hplan : searcherThreads config len = .ok plan) {thread : FSearcherThread}
    (hthread : thread ∈ plan) {i : UInt64} (hi : i < thread.count + thread.start) :
    thread.LookupInRange len i := by
  obtain ⟨hbounded, hrange, -⟩ := of_mem_searcherThreads hplan hthread
  have hle := (hbounded.toNat_batchSize_le hi).1
  have hend := hbounded.toNat_end
  have hlt := hbounded.lt_end_iff.mp hi
  exact ⟨by omega, by omega, by omega⟩

/-- **The lookups of a search are in range**, in every state of every run, and one whose
calls succeed finds lines: the thread goes on with them. -/
theorem lookups_inRange (regex : Pcre2Code) {index : FIndex} {config : FSearcher}
    (hexact : index.Exact) (hlen : index.flookup.len.toNat < 2 ^ 31)
    (hthreads : 1 ≤ config.threads.toInt) :
    (∃ plan, searcherThreads config index.flookup.len = .ok plan) ∧
    ∀ s, Reaches (searchStep regex index config) (fun _ _ => True) .start s →
      ∀ thread ∈ s.crew.threads, ∀ i, thread.2.pc = .lookup i →
        thread.1.LookupInRange index.flookup.len i ∧
        ∀ env : LookupEnv, env.Succeeds → ∃ bytes,
          fIndexLookup env index i (thread.1.batchSize i) = .returns 0 (some bytes) ∧
          ∀ shared, searcherStep regex index thread.1 (.lookup env) shared thread.2 =
            some (shared, { thread.2 with pc := .line ⟨i, i, some (cString bytes)⟩ }) := by
  have hpositive : 1 ≤ index.flookup.len.toNat := by
    rw [hexact.len_eq]
    exact Nat.le_add_left 1 _
  refine ⟨⟨_, searcherThreads_eq_ok hthreads hpositive hlen⟩, ?_⟩
  intro s hreach thread hthread i hpc
  have hs : s.InRange index config :=
    hreach.invariant (SearchRun.inRange_start index config) fun _ _ _ h _ hstep => h.step hstep
  obtain ⟨⟨plan, hplan, hplanned⟩, hlookup⟩ := hs.threads thread hthread
  have hrange := lookupInRange_of_lt hplan hplanned (hlookup i hpc)
  refine ⟨hrange, fun env henv => ?_⟩
  have hline := hrange.line_le
  have hend := hrange.end_le
  rw [hexact.len_eq] at hline
  obtain ⟨bytes, hbytes⟩ := hexact.exists_fIndexLookup henv
    (show i.toNat ≤ newlineCount index.target.bytes by omega)
    (show i.toNat + (thread.1.batchSize i).toNat < 2 ^ 64 by omega)
  refine ⟨bytes, hbytes, fun shared => ?_⟩
  simp only [searcherStep, hpc, hbytes]
  rfl

/-- Searching `pairFile` with one thread up to its first lookup, and the size of the batch. -/
def firstLookup (config : FSearcher) : Option (SearcherPc × UInt64) :=
  (runTrace (searchStep anyLine (pairIndex 97) config)
    [.proceed, .proceed, .searcher 0 .proceed, .searcher 0 .proceed] .start).bind fun run =>
      run.2.crew.threads[0]?.map fun thread => (thread.2.pc, thread.1.batchSize 0)

theorem exists_of_firstLookup {config : FSearcher} {size : UInt64}
    (h : firstLookup config = some (.lookup 0, size)) :
    ∃ s, Reaches (searchStep anyLine (pairIndex 97) config) (fun _ _ => True) .start s ∧
      ∃ thread ∈ s.crew.threads, thread.2.pc = .lookup 0 ∧ thread.1.batchSize 0 = size := by
  obtain ⟨⟨trace, s⟩, hrun, hlookup⟩ := Option.bind_eq_some_iff.mp h
  obtain ⟨thread, hthread, heq⟩ := Option.map_eq_some_iff.mp hlookup
  obtain ⟨hpc, hsize⟩ := Prod.mk.inj heq
  exact ⟨s, (run_of_runTrace hrun).reaches, thread, List.mem_of_getElem? hthread, hpc, hsize⟩

/-- A batch of two lines, and a batch of four lines that is clipped to two, because the index
has only three. -/
theorem lookups_inRange_pair :
    (∃ s, Reaches (searchStep anyLine (pairIndex 97) ⟨1, 2, 2, true⟩) (fun _ _ => True) .start s ∧
      ∃ thread ∈ s.crew.threads, thread.2.pc = .lookup 0 ∧ thread.1.batchSize 0 = 2 ∧
        thread.1.LookupInRange 3 0) ∧
    ∃ s, Reaches (searchStep anyLine (pairIndex 97) ⟨1, 2, 4, true⟩) (fun _ _ => True) .start s ∧
      ∃ thread ∈ s.crew.threads, thread.2.pc = .lookup 0 ∧ thread.1.batchSize 0 = 2 ∧
        thread.1.LookupInRange 3 0 := by
  constructor
  · obtain ⟨s, hreach, thread, hthread, hpc, hsize⟩ := exists_of_firstLookup
      (show firstLookup ⟨1, 2, 2, true⟩ = some (.lookup 0, 2) by decide +kernel)
    exact ⟨s, hreach, thread, hthread, hpc, hsize, ((lookups_inRange anyLine
      ⟨by decide, by decide⟩ (by decide) (by decide)).2 s hreach thread hthread 0 hpc).1⟩
  · obtain ⟨s, hreach, thread, hthread, hpc, hsize⟩ := exists_of_firstLookup
      (show firstLookup ⟨1, 2, 4, true⟩ = some (.lookup 0, 2) by decide +kernel)
    exact ⟨s, hreach, thread, hthread, hpc, hsize, ((lookups_inRange anyLine
      ⟨by decide, by decide⟩ (by decide) (by decide)).2 s hreach thread hthread 0 hpc).1⟩

end Flashlight.Search
