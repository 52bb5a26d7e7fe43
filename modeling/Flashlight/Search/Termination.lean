/-
# Searches come to an end

A search thread has finitely many batches as long as a batch has lines, and a batch has finitely
many lines. With a line buffer of zero lines the thread stays in its first batch: the lookup
returns the empty string again and again, and no result is ever delivered that would meet the
limit.

When no call fails the main thread never waits for something that does not come, and so every
schedule of the search of an exact index returns `0`.
-/

import Flashlight.Math.Schedules
import Flashlight.Search.Independence
import Flashlight.Search.Lookups
import Flashlight.Search.Progress

namespace Flashlight.Search

open Flashlight.Math
open scoped List

/-! ## What is left of a thread -/

/-- Twice the number of lines in the batches that are left, and one if the batch is still to be
looked up. -/
def Searcher.batchesDue (config : FSearcherThread) (w : Searcher) : ℕ :=
  match w.pc with
  | .enter => 2 * config.count.toNat + 1
  | .batch i => 2 * (config.start.toNat + config.count.toNat - i.toNat) + 1
  | .lookup i => 2 * (config.start.toNat + config.count.toNat - i.toNat) + 1
  | .line cursor => 2 * (config.start.toNat + config.count.toNat - cursor.i.toNat)
  | .noMatch cursor => 2 * (config.start.toNat + config.count.toNat - cursor.i.toNat)
  | .deliver cursor _ => 2 * (config.start.toNat + config.count.toNat - cursor.i.toNat)
  | .exited _ => 0
  | .undefined => 0

/-- A bound on the steps that the rest of the lookup takes. -/
def Cursor.due (cursor : Cursor) : ℕ :=
  match cursor.rest with
  | none => 0
  | some str => 2 * str.length + 2

/-- A bound on the number of steps that are left of the batch. -/
def Searcher.linesDue (w : Searcher) : ℕ :=
  match w.pc with
  | .enter => 2
  | .batch _ => 1
  | .lookup _ => 0
  | .line cursor => cursor.due
  | .noMatch cursor => cursor.due + 1
  | .deliver cursor _ => cursor.due + 1
  | .exited _ => 0
  | .undefined => 0

section

variable {regex : Pcre2Code} {index : FIndex} {config : FSearcherThread} {w w' : Searcher}
  {a : SearcherAction} {shared shared' : SearchShared} {str : List UInt8} {cursor : Cursor}

theorem length_afterLine {rest : List UInt8} (hrest : afterLine str = some rest) :
    rest.length < str.length := by
  obtain ⟨position, hposition, rfl⟩ := Option.map_eq_some_iff.mp hrest
  cases str with
  | nil => simp [strstr] at hposition
  | cons byte rest =>
      simp only [List.length_drop, List.length_cons]
      omega

theorem Cursor.due_advance (hrest : cursor.rest = some str) :
    (cursor.advance (afterLine str)).due + 1 < cursor.due := by
  simp only [Cursor.due, Cursor.advance, hrest]
  split
  · omega
  · next rest hafter =>
      have hlt := length_afterLine hafter
      omega

/-- The next batch is nearer to the end of the range. -/
theorem Searcher.batchesDue_nextBatch (w : Searcher) (hbounded : config.Bounded)
    (hbuffer : 0 < config.buffer.toNat) {i : UInt64} (hi : i < config.count + config.start) :
    (w.nextBatch config i).batchesDue config <
      2 * (config.start.toNat + config.count.toNat - i.toNat) := by
  have hnext := hbounded.toNat_next hi
  have hlt := hbounded.lt_end_iff.mp hi
  simp only [Searcher.nextBatch, Searcher.batchesDue, hnext]
  omega

/-- Every step of a search thread brings its end nearer. -/
theorem Searcher.Reported.due_lt (h : w.Reported config) (hbounded : config.Bounded)
    (hbuffer : ∀ cursor, w.pc = .line cursor → 0 < config.buffer.toNat)
    (hmove : SearcherMove regex index config shared w a shared' w') :
    w'.batchesDue config < w.batchesDue config ∨
      w'.batchesDue config ≤ w.batchesDue config ∧ w'.linesDue < w.linesDue := by
  unfold Searcher.Reported at h
  cases hmove with
  | entered hpc =>
      right
      simp [Searcher.batchesDue, Searcher.linesDue, hpc]
  | fault hpc =>
      left
      simp [Searcher.batchesDue, hpc]
  | metLimit hreads _ =>
      have hexit : (w.leave true).batchesDue config = 0 := rfl
      have hexit' : (w.leave true).linesDue = 0 := rfl
      rw [hexit, hexit']
      rcases hreads with ⟨i, hpc, -⟩ | ⟨cursor, hpc⟩ | ⟨cursor, result, hpc⟩
      · left
        simp [Searcher.batchesDue, hpc]
      · right
        simp [Searcher.linesDue, hpc]
      · right
        simp [Searcher.linesDue, hpc]
  | batchesDone hpc _ =>
      left
      simp [Searcher.leave, Searcher.batchesDue, hpc]
  | batch hpc _ _ =>
      right
      simp [Searcher.batchesDue, Searcher.linesDue, hpc]
  | lookup hpc _ =>
      left
      simp [Searcher.batchesDue, hpc]
  | lookupFailed hpc _ hended =>
      left
      rcases hended with rfl | rfl <;> simp [Searcher.leave, Searcher.batchesDue, hpc]
  | @linesDone cursor env hpc hrest =>
      simp only [hpc] at h
      left
      simpa only [Searcher.batchesDue, hpc] using
        w.batchesDue_nextBatch hbounded (hbuffer _ hpc) h.1
  | @cutShort cursor env str w' hpc hrest hcut hended =>
      simp only [hpc] at h
      have hlt := hbounded.lt_end_iff.mp h.1
      left
      rcases hended with rfl | ⟨-, rfl⟩
      · simpa only [Searcher.batchesDue, hpc] using
          w.batchesDue_nextBatch hbounded (hbuffer _ hpc) h.1
      · simp only [Searcher.batchesDue, hpc]
        omega
  | @emptyLine cursor env str token hpc hrest _ _ =>
      have hdue := Cursor.due_advance hrest
      right
      simp only [Searcher.batchesDue, Searcher.linesDue, hpc, Cursor.advance] at hdue ⊢
      omega
  | @matched cursor env str token hpc hrest _ _ =>
      simp only [hpc] at h
      have hlt := hbounded.lt_end_iff.mp h.1
      have hdue := Cursor.due_advance hrest
      obtain ⟨pc, progress, hmatched, heq⟩ := w.matched_eq regex config env token
        (cursor.advance (afterLine str))
      rw [heq]
      cases hmatched with
      | failed _ =>
          left
          simp only [Searcher.batchesDue, hpc]
          omega
      | noMatch _ _ =>
          right
          simp only [Searcher.batchesDue, Searcher.linesDue, hpc, Cursor.advance] at hdue ⊢
          omega
      | noResult _ _ _ =>
          left
          simp only [Searcher.batchesDue, hpc]
          omega
      | deliver _ _ _ _ =>
          right
          simp only [Searcher.batchesDue, Searcher.linesDue, hpc, Cursor.advance] at hdue ⊢
          omega
      | discard _ _ _ _ =>
          right
          simp only [Searcher.batchesDue, Searcher.linesDue, hpc, Cursor.advance] at hdue ⊢
          omega
  | passed hpc _ =>
      right
      simp [Searcher.batchesDue, Searcher.linesDue, hpc]
  | delivered hpc _ =>
      right
      simp [Searcher.batchesDue, Searcher.linesDue, hpc]

end

/-! ## What is left of a search -/

/-- The threads of the search, none if it does not get that far. -/
def FSearcher.plan (index : FIndex) (config : FSearcher) : List FSearcherThread :=
  match searcherThreads config index.flookup.len with
  | .ok plan => plan
  | .error _ => []

/-- What the creation of these threads adds to what is left. -/
def createDue (plan : List FSearcherThread) : ℕ :=
  (plan.map fun thread => 2 * thread.count.toNat + 2).sum

/-- The batches of the threads, created or not. -/
def SearchRun.batchesDue (index : FIndex) (config : FSearcher) (s : SearchRun) : ℕ :=
  (match s.pc with
    | .enter => createDue (config.plan index) + 2
    | .create i => createDue (s.plan.drop i) + 1
    | _ => 0) +
  (s.crew.threads.map fun thread => thread.2.batchesDue thread.1).sum

/-- The lines of the threads' batches, and the threads that are still to be joined. -/
def SearchRun.linesDue (s : SearchRun) : ℕ :=
  (match s.pc with
    | .watch i => 2 * (s.crew.threads.length - i) + 1
    | .join i => 2 * (s.crew.threads.length - i)
    | _ => 0) +
  (s.crew.threads.map fun thread => thread.2.linesDue).sum

/-- A thread that looks at lines has lines in its batches. -/
def SearchRun.Advances (s : SearchRun) : Prop :=
  ∀ thread ∈ s.crew.threads, ∀ cursor, thread.2.pc = .line cursor → 0 < thread.1.buffer.toNat

section

variable {regex : Pcre2Code} {index : FIndex} {config : FSearcher} {s s' : SearchRun}
  {a : SearchAction}

theorem createDue_drop {plan : List FSearcherThread} {i : ℕ} {thread : FSearcherThread}
    (hthread : plan[i]? = some thread) :
    createDue (plan.drop i) = 2 * thread.count.toNat + 2 + createDue (plan.drop (i + 1)) := by
  obtain ⟨hi, rfl⟩ := List.getElem?_eq_some_iff.mp hthread
  rw [List.drop_eq_getElem_cons hi, createDue, List.map_cons, List.sum_cons]
  rfl

/-- A step of the main thread brings the end nearer. -/
theorem SearchRun.main_due_lt (hstep : searchMainStep index config s = some s') :
    s'.batchesDue index config < s.batchesDue index config ∨
      s'.batchesDue index config ≤ s.batchesDue index config ∧ s'.linesDue < s.linesDue := by
  unfold searchMainStep at hstep
  split at hstep
  · next hpc =>
      left
      split at hstep
      · next plan hplan =>
          obtain rfl := Option.some.inj hstep
          simp only [SearchRun.batchesDue, FSearcher.plan, hpc, hplan, List.drop_zero]
          omega
      · obtain rfl := Option.some.inj hstep
        simp only [SearchRun.batchesDue, hpc]
        omega
      · obtain rfl := Option.some.inj hstep
        simp only [SearchRun.batchesDue, hpc]
        omega
  · next i hpc =>
      left
      split at hstep
      · obtain rfl := Option.some.inj hstep
        simp only [SearchRun.batchesDue, hpc]
        omega
      · next thread hthread =>
          obtain rfl := Option.some.inj hstep
          simp only [SearchRun.batchesDue, SearchRun.created, hpc, createDue_drop hthread,
            List.map_append, List.map_cons, List.map_nil, List.sum_append, List.sum_cons,
            List.sum_nil, Searcher.batchesDue, Searcher.start]
          omega
  · next i hpc =>
      right
      split at hstep
      · next hthread =>
          obtain rfl := Option.some.inj hstep
          simp only [SearchRun.batchesDue, SearchRun.linesDue, hpc]
          omega
      · next thread hthread =>
          have hi := (List.getElem?_eq_some_iff.mp hthread).1
          split at hstep
          · obtain rfl := Option.some.inj hstep
            simp only [SearchRun.batchesDue, SearchRun.linesDue, hpc]
            omega
          · cases hstep
  · next i hpc =>
      right
      split at hstep
      · cases hstep
      · next thread hthread =>
          have hi := (List.getElem?_eq_some_iff.mp hthread).1
          split at hstep
          · obtain rfl := Option.some.inj hstep
            simp only [SearchRun.batchesDue, SearchRun.linesDue, hpc]
            omega
          · cases hstep
  · cases hstep
  · cases hstep

/-- Every step of a search brings its end nearer. -/
theorem SearchRun.Reported.due_lt (h : s.Reported) (hadvances : s.Advances)
    (hstep : searchStep regex index config a s = some s') :
    s'.batchesDue index config < s.batchesDue index config ∨
      s'.batchesDue index config ≤ s.batchesDue index config ∧ s'.linesDue < s.linesDue := by
  cases a with
  | proceed => exact SearchRun.main_due_lt hstep
  | fault =>
      left
      simp only [searchStep] at hstep
      split at hstep
      · next hpc =>
          obtain rfl := Option.some.inj hstep
          simp only [SearchRun.batchesDue, hpc]
          omega
      · next i hpc =>
          obtain rfl := Option.some.inj hstep
          simp only [SearchRun.batchesDue, hpc]
          omega
      · cases hstep
  | invalidRegex =>
      left
      simp only [searchStep] at hstep
      split at hstep
      · next hpc =>
          obtain rfl := Option.some.inj hstep
          simp only [SearchRun.batchesDue, hpc]
          omega
      · cases hstep
  | searcher t b =>
      obtain ⟨crew, hcrew, rfl⟩ := Option.map_eq_some_iff.mp hstep
      obtain ⟨thread, w, w', shared, hthread, hmoved, rfl⟩ := exists_of_crewStep hcrew
      have hmem := List.mem_of_getElem? hthread
      obtain ⟨hbounded, -, hreported⟩ := h.created _ hmem
      have hlower := hreported.due_lt hbounded (hadvances _ hmem) (searcherMove_of_step hmoved)
      have hsum := sum_map_set_phases
        (fun thread : SearchThread => thread.2.batchesDue thread.1)
        (fun thread : SearchThread => thread.2.linesDue) hthread (thread, w') hlower
      simp only [SearchRun.batchesDue, SearchRun.linesDue, List.length_set]
      omega

/-- **Batches run out**: no schedule goes on for ever as long as the batches have lines, whatever
the threads do and whatever fails. -/
theorem terminates_of_advances (Inv : SearchRun → Prop) (hstart : Inv .start)
    (hkeep : ∀ s a s', Inv s → searchStep regex index config a s = some s' → Inv s')
    (hinv : ∀ s, Inv s → s.Advances) :
    Terminates (searchStep regex index config) (fun _ _ => True) .start := by
  refine terminates_of_phases (fun s => s.Reported ∧ Inv s)
    (SearchRun.batchesDue index config) SearchRun.linesDue ?_ ⟨SearchRun.reported_start, hstart⟩
  rintro s a s' ⟨hreported, h⟩ - hstep
  exact ⟨⟨hreported.step hstep, hkeep s a s' h hstep⟩, hreported.due_lt (hinv s h) hstep⟩

/-- The threads of a search have the configured buffer. -/
theorem SearchRun.InRange.buffer_eq (h : s.InRange index config) {thread : SearchThread}
    (hthread : thread ∈ s.crew.threads) : thread.1.buffer = config.lineBuffer.toUInt64 := by
  obtain ⟨⟨plan, hplan, hmem⟩, -⟩ := h.threads thread hthread
  exact (of_mem_searcherThreads hplan hmem).2.2.1

theorem terminates_of_lineBuffer (hbuffer : config.lineBuffer ≠ 0) :
    Terminates (searchStep regex index config) (fun _ _ => True) .start := by
  refine terminates_of_advances _ (SearchRun.inRange_start index config)
    (fun s a s' h hstep => h.step hstep) fun s h thread hthread cursor _ => ?_
  rw [h.buffer_eq hthread, UInt32.toNat_toUInt64, Nat.pos_iff_ne_zero]
  exact fun hzero => hbuffer (UInt32.toNat_inj.mp hzero)

end

/-! ## No lines in a batch -/

/-- The thread is before the first line of its first batch. -/
def Searcher.AtStart (config : FSearcherThread) (w : Searcher) : Prop :=
  match w.pc with
  | .enter => True
  | .batch i => i = config.start
  | .lookup i => i = config.start ∧ i < config.count + config.start ∧ 0 < config.resultLimit
  | .exited _ => True
  | .undefined => True
  | _ => False

/-- The thread goes round in its first batch. -/
def Searcher.Spins (config : FSearcherThread) (w : Searcher) : Prop :=
  w.pc = .batch config.start ∨ w.pc = .lookup config.start ∨
    w.pc = .line ⟨config.start, config.start, some []⟩ ∨
    w.pc = .line ⟨config.start, config.start + 1, none⟩

section

variable {regex : Pcre2Code} {index : FIndex} {config : FSearcherThread} {w w' : Searcher}
  {a : SearcherAction} {shared shared' : SearchShared}

theorem eq_returns_of_string {result : LookupResult} {bytes : List UInt8}
    (h : result.string = some bytes) : result = .returns 0 (some bytes) := by
  cases result with
  | returns rc out =>
      unfold LookupResult.string at h
      simp only at h
      split at h
      · next hrc => rw [hrc, h]
      · cases h
  | undefined => cases h

theorem batchSize_of_buffer_zero (hbuffer : config.buffer = 0)
    (hstart : config.start < config.count + config.start) :
    config.batchSize config.start = 0 := by
  rw [FSearcherThread.batchSize, hbuffer, UInt64.add_zero, if_neg]
  exact UInt64.not_lt.mpr (UInt64.le_of_lt hstart)

/-- A thread whose first lookup fails whatever happens has no lines. -/
theorem Searcher.AtStart.step (h : w.AtStart config) (hbuffer : config.buffer = 0)
    (hcount : shared.resultCount = 0)
    (hlookup : config.start < config.count + config.start → 0 < config.resultLimit →
      ∀ env, (fIndexLookup env index config.start 0).string = none)
    (hmove : SearcherMove regex index config shared w a shared' w') :
    w'.AtStart config ∧ shared'.resultCount = 0 := by
  unfold Searcher.AtStart at h
  cases hmove with
  | entered _ => exact ⟨rfl, hcount⟩
  | fault _ => exact ⟨trivial, hcount⟩
  | metLimit _ _ => exact ⟨trivial, hcount⟩
  | batchesDone _ _ => exact ⟨trivial, hcount⟩
  | batch hpc hi hlimit =>
      simp only [hpc] at h
      refine ⟨⟨h, hi, ?_⟩, hcount⟩
      rw [hcount, Int32.not_le] at hlimit
      exact hlimit
  | @lookup i env bytes hpc hstring =>
      simp only [hpc] at h
      obtain ⟨rfl, hi, hlimit⟩ := h
      rw [batchSize_of_buffer_zero hbuffer hi, hlookup hi hlimit env] at hstring
      cases hstring
  | lookupFailed _ _ hended =>
      rcases hended with rfl | rfl <;> exact ⟨trivial, hcount⟩
  | linesDone hpc _ => simp only [hpc] at h
  | cutShort hpc _ _ _ => simp only [hpc] at h
  | emptyLine hpc _ _ _ => simp only [hpc] at h
  | matched hpc _ _ _ => simp only [hpc] at h
  | passed hpc _ => simp only [hpc] at h
  | delivered hpc _ => simp only [hpc] at h

/-- A thread whose first lookup can succeed can go round for ever. -/
theorem Searcher.Spins.exists_step (regex : Pcre2Code) (h : w.Spins config)
    (hbuffer : config.buffer = 0) (hlimit : 0 < config.resultLimit)
    (hstart : config.start < config.count + config.start)
    {env : LookupEnv} {bytes : List UInt8}
    (hlookup : (fIndexLookup env index config.start 0).string = some bytes)
    (hcount : shared.resultCount = 0) :
    ∃ a w', searcherStep regex index config a shared w = some (shared, w') ∧ w'.Spins config := by
  rcases h with hpc | hpc | hpc | hpc
  · refine ⟨.proceed, { w with pc := .lookup config.start }, ?_, Or.inr (Or.inl rfl)⟩
    simp only [searcherStep, hpc, if_pos hstart, hcount, ge_iff_le, Int32.not_le.mpr hlimit,
      if_false]
  · refine ⟨.lookup env, { w with pc := .line ⟨config.start, config.start, some []⟩ }, ?_,
      Or.inr (Or.inr (Or.inl rfl))⟩
    obtain rfl := eq_nil_of_fIndexLookup_zero hlookup
    have hreturns : fIndexLookup env index config.start 0 = .returns 0 (some []) :=
      eq_returns_of_string hlookup
    simp [searcherStep, hpc, batchSize_of_buffer_zero hbuffer hstart, hreturns, Searcher.lookedUp,
      cString]
  · refine ⟨.line ⟨true, false, true⟩, w.cutOff regex config ⟨true, false, true⟩
      ⟨config.start, config.start, some []⟩, by simp only [searcherStep, hpc], ?_⟩
    have hcut : tokenize true (some []) [newline] = .ok (some [], none) := by decide
    simp [Searcher.cutOff, hcut, Searcher.Spins, Cursor.advance]
  · refine ⟨.line ⟨true, false, true⟩, w.cutOff regex config ⟨true, false, true⟩
      ⟨config.start, config.start + 1, none⟩, by simp only [searcherStep, hpc], ?_⟩
    simp [Searcher.cutOff, tokenize, Searcher.nextBatch, Searcher.Spins, hbuffer]

end

/-- No thread gets beyond its first lookup. -/
structure SearchRun.Blocked (index : FIndex) (config : FSearcher) (s : SearchRun) : Prop where
  inRange : s.InRange index config
  count : s.crew.shared.resultCount = 0
  threads : ∀ thread ∈ s.crew.threads, thread.2.AtStart thread.1

/-- A thread goes round, and nothing has been delivered. -/
def SearchRun.Spins (thread : FSearcherThread) (s : SearchRun) : Prop :=
  s.crew.shared.resultCount = 0 ∧
    ∃ (t : ℕ) (w : Searcher), s.crew.threads[t]? = some (thread, w) ∧ w.Spins thread

section

variable {regex : Pcre2Code} {index : FIndex} {config : FSearcher} {s s' : SearchRun}
  {a : SearchAction} {plan : List FSearcherThread} {thread : FSearcherThread}

theorem buffer_eq_zero (hzero : config.lineBuffer = 0)
    (hplan : searcherThreads config index.flookup.len = .ok plan) (hthread : thread ∈ plan) :
    thread.buffer = 0 := by
  rw [(of_mem_searcherThreads hplan hthread).2.2.1, hzero]
  rfl

theorem SearchRun.Blocked.step (h : s.Blocked index config) (hzero : config.lineBuffer = 0)
    (hlookup : 0 < config.resultLimit → ∀ plan,
      searcherThreads config index.flookup.len = .ok plan → ∀ thread ∈ plan,
        thread.start < thread.count + thread.start →
          ∀ env, (fIndexLookup env index thread.start 0).string = none)
    (hstep : searchStep regex index config a s = some s') : s'.Blocked index config := by
  have hrange := h.inRange.step hstep
  cases searchMove_of_step hstep with
  | created _ _ =>
      refine ⟨hrange, h.count, fun thread hmem => ?_⟩
      rcases List.mem_append.mp hmem with hmem | hmem
      · exact h.threads thread hmem
      · rw [List.mem_singleton.mp hmem]
        exact trivial
  | @searcher t b crew hmove =>
      cases hmove with
      | @thread _ _ thread w w' shared hthread hmove =>
          have hmem := List.mem_of_getElem? hthread
          obtain ⟨⟨plan, hplan, hplanned⟩, -⟩ := h.inRange.threads _ hmem
          have hlimit := (of_mem_searcherThreads hplan hplanned).2.2.2.1
          obtain ⟨hstart, hcount⟩ := (h.threads _ hmem).step (buffer_eq_zero hzero hplan hplanned)
            h.count (fun hstart hpos => hlookup (hlimit ▸ hpos) plan hplan _ hplanned hstart) hmove
          refine ⟨hrange, hcount, fun other hset => ?_⟩
          rcases List.mem_or_eq_of_mem_set hset with hset | rfl
          · exact h.threads other hset
          · exact hstart
  | _ => exact ⟨hrange, h.count, h.threads⟩

/-- A search thread of the search takes a step. -/
theorem searchStep_searcher {t : ℕ} {b : SearcherAction} {w w' : Searcher} {shared : SearchShared}
    (hthread : s.crew.threads[t]? = some (thread, w))
    (hstep : searcherStep regex index thread b s.crew.shared w = some (shared, w')) :
    searchStep regex index config (.searcher t b) s =
      some { s with crew := ⟨shared, s.crew.threads.set t (thread, w')⟩ } := by
  have hmoved : stepAt (searchThreadStep regex index) t b s.crew.shared s.crew.threads =
      some (shared, s.crew.threads.set t (thread, w')) :=
    stepAt_eq_some_iff.mpr ⟨(thread, w), (thread, w'), hthread,
      by simp only [searchThreadStep, hstep, Option.map_some], rfl⟩
  simp only [searchStep, crewStep, hmoved, Option.map_some]

theorem SearchRun.Spins.exists_step (regex : Pcre2Code) (config : FSearcher) (h : s.Spins thread)
    (hbuffer : thread.buffer = 0) (hlimit : 0 < thread.resultLimit)
    (hstart : thread.start < thread.count + thread.start)
    {env : LookupEnv} {bytes : List UInt8}
    (hlookup : (fIndexLookup env index thread.start 0).string = some bytes) :
    ∃ a s', searchStep regex index config a s = some s' ∧ s'.Spins thread := by
  obtain ⟨hcount, t, w, hthread, hspins⟩ := h
  obtain ⟨b, w', hmoved, hspins'⟩ :=
    hspins.exists_step regex hbuffer hlimit hstart hlookup hcount
  refine ⟨.searcher t b, _, searchStep_searcher hthread hmoved, hcount, t, w', ?_, hspins'⟩
  exact List.getElem?_set_self (List.getElem?_eq_some_iff.mp hthread).1

/-- All threads can be created. -/
theorem exists_created (regex : Pcre2Code)
    (hplan : searcherThreads config index.flookup.len = .ok plan) (n : ℕ) (hn : n ≤ plan.length) :
    ∃ s, Reaches (searchStep regex index config) (fun _ _ => True) .start s ∧
      s.pc = .create n ∧ s.plan = plan ∧ s.crew = .start (plan.take n) := by
  induction n with
  | zero =>
      refine ⟨{ SearchRun.start with pc := .create 0, plan := plan },
        Reaches.single (a := .proceed) trivial ?_, rfl, rfl, rfl⟩
      simp only [searchStep, searchMainStep, SearchRun.start, hplan]
  | succ n ih =>
      obtain ⟨s, hreach, hpc, hs, hcrew⟩ := ih (Nat.le_of_succ_le hn)
      obtain ⟨thread, hplanned⟩ : ∃ thread, plan[n]? = some thread :=
        ⟨plan[n], List.getElem?_eq_getElem hn⟩
      have hthread : s.plan[n]? = some thread := hs ▸ hplanned
      refine ⟨s.created n thread, hreach.trans (Reaches.single (a := .proceed) trivial ?_), rfl,
        hs, ?_⟩
      · simp only [searchStep, searchMainStep, hpc, hthread]
      · simp only [SearchRun.created, hcrew, Crew.start, List.take_add_one, hplanned,
          Option.toList_some, List.map_append, List.map_cons, List.map_nil]

/-- **Termination.** A search has no infinite schedule exactly if its batches have lines, or its
limit leaves no room for a result, or no thread can look up the beginning of its lines. -/
theorem search_terminates_iff (regex : Pcre2Code) (index : FIndex) (config : FSearcher) :
    (¬ ∃ run : ℕ → SearchRun, run 0 = .start ∧
        ∀ n, ∃ a, searchStep regex index config a (run n) = some (run (n + 1))) ↔
      config.lineBuffer ≠ 0 ∨ config.resultLimit ≤ 0 ∨
        ∀ plan, searcherThreads config index.flookup.len = .ok plan → ∀ thread ∈ plan,
          thread.start < thread.count + thread.start →
            ∀ env, (fIndexLookup env index thread.start 0).string = none := by
  have hiff := terminates_iff_not_exists (searchStep regex index config) (fun _ _ => True)
    .start
  simp only [Via, true_and] at hiff
  rw [← hiff]
  constructor
  · intro hends
    by_contra hnot
    simp only [not_or, not_not, not_forall, Int32.not_le] at hnot
    obtain ⟨hzero, hpos, plan, hplan, thread, hmem, hstart, env, hlookup⟩ := hnot
    obtain ⟨bytes, hbytes⟩ := Option.ne_none_iff_exists'.mp hlookup
    obtain ⟨s, hreach, -, -, hcrew⟩ := exists_created regex hplan plan.length le_rfl
    rw [List.take_length] at hcrew
    obtain ⟨t, hthread⟩ := List.mem_iff_getElem?.mp hmem
    have hbuffer := buffer_eq_zero hzero hplan hmem
    have hlimit : 0 < thread.resultLimit := by
      rw [(of_mem_searcherThreads hplan hmem).2.2.2.1]
      exact hpos
    -- the thread enters its loop
    have hcreated : s.crew.threads[t]? = some (thread, Searcher.start) := by
      simp [hcrew, Crew.start, hthread]
    have hentered : searchStep regex index config (.searcher t .proceed) s = some { s with
        crew := ⟨s.crew.shared, s.crew.threads.set t
          (thread, { Searcher.start with pc := .batch thread.start })⟩ } :=
      searchStep_searcher hcreated rfl
    refine not_terminates_of_loop (SearchRun.Spins thread) ?_ ?_
      (hends.of_reaches (hreach.trans
        (Reaches.single (a := .searcher t .proceed) trivial hentered)))
    · intro s h
      obtain ⟨a, s', hstep, hnext⟩ := h.exists_step regex config hbuffer
        hlimit hstart hbytes
      exact ⟨a, s', trivial, hstep, hnext⟩
    · refine ⟨by rw [hcrew]; rfl, t, { Searcher.start with pc := .batch thread.start }, ?_,
        Or.inl rfl⟩
      exact List.getElem?_set_self (List.getElem?_eq_some_iff.mp hcreated).1
  · intro hcases
    by_cases hzero : config.lineBuffer = 0
    · refine terminates_of_advances (SearchRun.Blocked index config)
        ⟨SearchRun.inRange_start index config, rfl, by simp [SearchRun.start]⟩
        (fun s a s' h hstep => h.step hzero ?_ hstep) fun s h thread hthread cursor hpc => ?_
      · intro hpos plan hplan
        rcases hcases.resolve_left (not_not.mpr hzero) with hlimit | hnone
        · exact absurd hlimit (Int32.not_le.mpr hpos)
        · exact hnone plan hplan
      · have hstart := h.threads thread hthread
        simp only [Searcher.AtStart, hpc] at hstart
    · exact terminates_of_lineBuffer hzero

end

end Flashlight.Search
