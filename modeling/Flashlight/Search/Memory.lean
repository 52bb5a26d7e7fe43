/-
# Memory of a whole search

The main thread allocates the compiled regular expression, the array of its threads, their
identifiers, the number of results and a configuration for each thread. The threads use these
blocks until they end, and the main thread frees them when it has joined all threads. With the
blocks of the threads they make up one memory.

However the threads are scheduled, no block is used or freed after it was freed or given to the
callback. When all threads have ended, what is left is what failed steps have left behind: a search
that returns `0` and loses nothing in its threads leaves nothing.
-/

import Flashlight.Search.Blocks

namespace Flashlight.Search

open Flashlight.Math

/-- The variables of `f_index_search` that point to blocks. -/
inductive MainVar
  /-- `re` -/
  | re
  /-- `searcher_threads` -/
  | searcherThreads
  /-- `thread_ids` -/
  | threadIds
  /-- `result_count` -/
  | resultCount
  /-- `searcher_threads[i]` -/
  | searcherThread (i : ℕ)
  deriving DecidableEq, Repr

/-- The variables of a search: those of the main thread and those of the other threads. -/
abbrev SearchBlock := MainVar ⊕ (_ : ℕ) × SearchVar

/-! ## The blocks of the main thread -/

/-- The blocks that the main thread has while the first `count` threads are created. -/
def mainOwners (count : ℕ) : Finset MainVar :=
  {.re, .searcherThreads, .threadIds, .resultCount} ∪
    (Finset.range count).image .searcherThread

/-- The main thread frees the configurations of `count` threads. -/
def freeThreadOps (count : ℕ) : List (MemOp MainVar) :=
  (List.range count).flatMap fun i => [.use .searcherThreads, .free (.searcherThread i)]

/-- The main thread has joined `count` threads and returns. -/
def returnOps (count : ℕ) : List (MemOp MainVar) :=
  freeThreadOps count ++ [.free .searcherThreads, .free .threadIds, .free .resultCount, .free .re]

/-- The main thread watches the progress of `count` threads. -/
def watchOps (count : ℕ) : List (MemOp MainVar) :=
  (.searcherThreads :: (List.range count).map .searcherThread).map .use

/-- What a step of the main thread does with its blocks. When an allocation fails, or a thread
cannot be created, `blocks` of the blocks could be allocated before. -/
def SearchRun.mainOps (index : FIndex) (config : FSearcher) (blocks : ℕ) (s : SearchRun)
    (a : SearchAction) : List (MemOp MainVar) :=
  match s.pc, a with
  | .enter, .proceed =>
      match searcherThreads config index.flookup.len with
      | .ok _ => [.malloc .re, .malloc .searcherThreads, .malloc .threadIds, .malloc .resultCount,
          .use .resultCount]
      | .error .refused => [.malloc .re]
      | .error .undefined => [.malloc .re, .malloc .searcherThreads, .malloc .threadIds]
  | .enter, .fault => ([MainVar.re, .searcherThreads, .threadIds].take blocks).map .malloc
  | .create i, .proceed =>
      match s.plan[i]? with
      | none => []
      | some _ => [.malloc (.searcherThread i), .use (.searcherThread i), .use .searcherThreads,
          .use .threadIds]
  | .create i, .fault => ([MainVar.searcherThread i].take blocks).map .malloc
  | .watch i, .proceed =>
      match s.crew.threads[i]? with
      | none => returnOps s.crew.threads.length
      | some _ => watchOps s.crew.threads.length
  | .join _, .proceed => [.use .threadIds]
  | _, _ => []

/-- What a step of the main thread leaves behind. -/
def SearchRun.mainLeaks (index : FIndex) (config : FSearcher) (blocks : ℕ) (s : SearchRun)
    (a : SearchAction) : Finset MainVar :=
  match s.pc, a with
  | .enter, .proceed =>
      match searcherThreads config index.flookup.len with
      | .error .refused => {.re}
      | _ => ∅
  | .enter, .fault => ([MainVar.re, .searcherThreads, .threadIds].take blocks).toFinset
  | .create i, .fault => mainOwners i ∪ ([MainVar.searcherThread i].take blocks).toFinset
  | _, _ => ∅

/-! ## The blocks of the search -/

/-- The blocks of the main thread that a step of thread `t` uses. -/
def SearcherPc.uses (t : ℕ) : SearcherPc → List MainVar
  | .enter => [.searcherThread t, .re]
  | .batch _ => [.searcherThread t, .resultCount]
  | .lookup _ => [.searcherThread t]
  | .line _ => [.searcherThread t, .re]
  | .noMatch _ => [.searcherThread t, .resultCount]
  | .deliver _ _ => [.searcherThread t, .resultCount]
  | .exited _ => []
  | .undefined => []

/-- What a step of the search does with the blocks. When thread `t` cannot allocate a result,
`blocks t` of its blocks could be allocated. -/
def SearchRun.memOps (regex : Pcre2Code) (index : FIndex) (config : FSearcher)
    (mainBlocks : ℕ) (blocks : ℕ → ℕ) (s : SearchRun) (a : SearchAction) :
    List (MemOp SearchBlock) :=
  match a with
  | .searcher t b =>
      match s.crew.threads[t]? with
      | none => []
      | some (config, w) =>
          ((w.pc.uses t).map .use).map (MemOp.map Sum.inl) ++
            (searcherOps regex index config (blocks t) b s.crew.shared w).map
              (MemOp.map fun x => Sum.inr ⟨t, x⟩)
  | a => (s.mainOps index config mainBlocks a).map (MemOp.map Sum.inl)

/-- How many blocks a step of the search leaves behind. -/
def SearchRun.leakCount (regex : Pcre2Code) (index : FIndex) (config : FSearcher)
    (mainBlocks : ℕ) (blocks : ℕ → ℕ) (s : SearchRun) (a : SearchAction) : ℕ :=
  match a with
  | .searcher t b =>
      match s.crew.threads[t]? with
      | none => 0
      | some (config, w) => (searcherLeaks regex index config (blocks t) b w).card
  | a => (s.mainLeaks index config mainBlocks a).card

/-- The owners of the blocks that a step of the search leaves behind. -/
def SearchRun.leaks (regex : Pcre2Code) (index : FIndex) (config : FSearcher)
    (mainBlocks : ℕ) (blocks : ℕ → ℕ) (s : SearchRun) (a : SearchAction) : Finset SearchBlock :=
  match a with
  | .searcher t b =>
      match s.crew.threads[t]? with
      | none => ∅
      | some (config, w) =>
          (searcherLeaks regex index config (blocks t) b w).image fun x => .inr ⟨t, x⟩
  | a => (s.mainLeaks index config mainBlocks a).image .inl

/-! ## What every step keeps -/

/-- What the main thread owns, and what of that it has left behind. -/
def SearchRun.MainOwns (s : SearchRun) (main lost : Finset MainVar) : Prop :=
  match s.pc with
  | .enter => main = ∅ ∧ lost = ∅ ∧ s.crew.threads = []
  | .create i => main = mainOwners i ∧ lost = ∅ ∧ s.crew.threads.length = i
  | .watch i => main = mainOwners s.crew.threads.length ∧ lost = ∅ ∧ s.crew.EndedBelow i
  | .join i => main = mainOwners s.crew.threads.length ∧ lost = ∅ ∧ s.crew.EndedBelow i
  | .returned _ => main = lost ∧
      (mainOwners s.crew.threads.length ⊆ main ∨ s.crew.EndedBelow s.crew.threads.length)
  | .undefined => s.crew.threads = []

/-- The owners of the search after the steps taken so far. -/
structure SearchRun.Owns (regex : Pcre2Code) (index : FIndex) (config : FSearcher)
    (mainBlocks : ℕ) (blocks : ℕ → ℕ) (past : List (SearchRun × SearchAction)) (s : SearchRun)
    (main mainLost : Finset MainVar) (owned lost : ℕ → Finset SearchVar) : Prop where
  /-- No operation was refused. -/
  after : ownersAfter ∅ (past.flatMap fun move =>
      move.1.memOps regex index config mainBlocks blocks move.2) =
    some (together main s.crew.threads.length owned)
  main : s.MainOwns main mainLost
  threads : ∀ t (thread : SearchThread), s.crew.threads[t]? = some thread →
    thread.2.pc.Owns (owned t) (lost t)
  fresh : ∀ t, s.crew.threads.length ≤ t → owned t = ∅ ∧ lost t = ∅
  /-- What was left behind is what the steps have left behind. -/
  leaks : mainLost.card + ∑ t ∈ Finset.range s.crew.threads.length, (lost t).card =
    (past.map fun move => move.1.leakCount regex index config mainBlocks blocks move.2).sum
  /-- Whose they were is known, too. -/
  mem_leaks : ∀ x, x ∈ together mainLost s.crew.threads.length lost ↔
    ∃ move ∈ past, x ∈ move.1.leaks regex index config mainBlocks blocks move.2
  /-- Each result took four blocks with it. -/
  given : giveCount (past.flatMap fun move =>
      move.1.memOps regex index config mainBlocks blocks move.2) =
    4 * s.crew.shared.delivered.length

section

variable {regex : Pcre2Code} {index : FIndex} {config : FSearcher} {mainBlocks : ℕ}
  {blocks : ℕ → ℕ} {s s' : SearchRun} {a : SearchAction} {past : List (SearchRun × SearchAction)}
  {main main' mainLost mainLost' : Finset MainVar} {owned lost : ℕ → Finset SearchVar}

theorem SearchRun.owns_start :
    SearchRun.start.Owns regex index config mainBlocks blocks [] ∅ ∅ (fun _ => ∅) fun _ => ∅ where
  after := rfl
  main := ⟨rfl, rfl, rfl⟩
  threads := by simp [SearchRun.start]
  fresh _ _ := ⟨rfl, rfl⟩
  leaks := rfl
  mem_leaks := by simp [together, SearchRun.start]
  given := rfl

theorem mem_mainOwners_of_uses {count t : ℕ} (ht : t < count) {pc : SearcherPc} {x : MainVar}
    (hx : x ∈ pc.uses t) : x ∈ mainOwners count := by
  have hthread : .searcherThread t ∈ mainOwners count := by simp [mainOwners, ht]
  have hre : .re ∈ mainOwners count := by simp [mainOwners]
  have hcount : .resultCount ∈ mainOwners count := by simp [mainOwners]
  cases pc <;> simp only [SearcherPc.uses, List.mem_cons, List.not_mem_nil, or_false] at hx
  case lookup => exact hx ▸ hthread
  all_goals rcases hx with rfl | rfl <;> assumption

/-! ## Steps of the main thread -/

theorem ownersAfter_freeThreadOps (count : ℕ) :
    ownersAfter (mainOwners count) (freeThreadOps count) =
      some {.re, .searcherThreads, .threadIds, .resultCount} := by
  let owners (k : ℕ) : Finset MainVar :=
    {.re, .searcherThreads, .threadIds, .resultCount} ∪ (Finset.Ico k count).image .searcherThread
  have hloop : ownersAfter (owners 0) (freeThreadOps count) = some (owners count) := by
    refine ownersAfter_flatMap_range owners fun k hk => ?_
    have hnext : (owners k).erase (.searcherThread k) = owners (k + 1) := by grind
    rw [ownersAfter_use (by simp [owners]), ownersAfter_free (by simp [owners, hk]), hnext]
    rfl
  have hfirst : mainOwners count = owners 0 := by rw [mainOwners, Finset.range_eq_Ico]
  have hlast : owners count = {.re, .searcherThreads, .threadIds, .resultCount} := by simp [owners]
  rw [hfirst, hloop, hlast]

theorem ownersAfter_createOps (i : ℕ) :
    ownersAfter (mainOwners i) [.malloc (.searcherThread i), .use (.searcherThread i),
      .use .searcherThreads, .use .threadIds] = some (mainOwners (i + 1)) := by
  have hnew : mainOwners (i + 1) = mainOwners i ∪ [MainVar.searcherThread i].toFinset := by
    rw [mainOwners, Finset.range_add_one, Finset.image_insert, Finset.union_insert,
      Finset.insert_eq, Finset.union_comm]
    rfl
  have huses : ∀ x ∈ [MainVar.searcherThread i, .searcherThreads, .threadIds],
      x ∈ mainOwners (i + 1) := by
    simp [mainOwners]
  have hmalloc : ownersAfter (mainOwners i) ([MainVar.searcherThread i].map .malloc) =
      some (mainOwners (i + 1)) := by
    rw [hnew]
    exact ownersAfter_mallocs (List.nodup_singleton _)
      (by simpa [mainOwners] using fun x hx => Nat.ne_of_lt hx)
  exact (ownersAfter_append_of hmalloc _).trans (ownersAfter_uses huses)

theorem ownersAfter_watchOps (count : ℕ) :
    ownersAfter (mainOwners count) (watchOps count) = some (mainOwners count) := by
  refine ownersAfter_uses fun x hx => ?_
  rcases List.mem_cons.mp hx with rfl | hx
  · simp [mainOwners]
  · obtain ⟨i, hi, rfl⟩ := List.mem_map.mp hx
    simp [mainOwners, List.mem_range.mp hi]

theorem giveCount_watchOps (count : ℕ) : giveCount (watchOps count) = 0 := by
  simp [giveCount, watchOps]

theorem ownersAfter_returnOps (count : ℕ) :
    ownersAfter (mainOwners count) (returnOps count) = some ∅ := by
  rw [returnOps, ownersAfter_append_of (ownersAfter_freeThreadOps count)]
  decide

theorem giveCount_returnOps (count : ℕ) : giveCount (returnOps count) = 0 := by
  rw [giveCount, List.countP_eq_zero]
  intro op hop
  rw [returnOps, List.mem_append, freeThreadOps, List.mem_flatMap] at hop
  rcases hop with ⟨i, -, hop⟩ | hop
  · rcases List.mem_pair.mp hop with rfl | rfl <;> simp
  · fin_cases hop <;> simp

/-- What a step of the main thread does to its blocks and to the threads. -/
theorem SearchRun.MainOwns.step (h : s.MainOwns main mainLost)
    (hstep : searchStep regex index config a s = some s') (ha : ∀ t b, a ≠ .searcher t b) :
    mainLost = ∅ ∧ ∃ main',
      ownersAfter main (s.mainOps index config mainBlocks a) = some main' ∧
      giveCount (s.mainOps index config mainBlocks a) = 0 ∧
      s'.MainOwns main' (s.mainLeaks index config mainBlocks a) ∧
      (s'.crew = s.crew ∨
        ∃ thread, s'.crew = ⟨s.crew.shared, s.crew.threads ++ [(thread, .start)]⟩) := by
  unfold SearchRun.MainOwns at h
  cases a with
  | searcher t b => exact absurd rfl (ha t b)
  | invalidRegex =>
      simp only [searchStep] at hstep
      split at hstep
      · next hpc =>
          obtain rfl := Option.some.inj hstep
          simp only [hpc] at h
          obtain ⟨rfl, rfl, hthreads⟩ := h
          simp only [SearchRun.mainOps, SearchRun.mainLeaks, hpc]
          exact ⟨trivial, ∅, rfl, rfl, ⟨rfl, Or.inr (by simp [hthreads, Crew.EndedBelow])⟩,
            Or.inl trivial⟩
      · cases hstep
  | fault =>
      simp only [searchStep] at hstep
      split at hstep
      · next hpc =>
          obtain rfl := Option.some.inj hstep
          simp only [hpc] at h
          obtain ⟨rfl, rfl, hthreads⟩ := h
          simp only [SearchRun.mainOps, SearchRun.mainLeaks, hpc]
          have hops := @ownersAfter_take_mallocs _ _ ∅ [MainVar.re, .searcherThreads, .threadIds]
            (by decide) (by simp) mainBlocks
          rw [Finset.empty_union] at hops
          exact ⟨trivial, _, hops, giveCount_mallocs _,
            ⟨rfl, Or.inr (by simp [hthreads, Crew.EndedBelow])⟩, Or.inl trivial⟩
      · next i hpc =>
          obtain rfl := Option.some.inj hstep
          simp only [hpc] at h
          obtain ⟨rfl, rfl, hlength⟩ := h
          simp only [SearchRun.mainOps, SearchRun.mainLeaks, hpc]
          have hfresh : ∀ x ∈ [MainVar.searcherThread i], x ∉ mainOwners i := by
            intro x hx
            rw [List.mem_singleton.mp hx]
            simp [mainOwners]
          exact ⟨trivial, _, ownersAfter_take_mallocs (List.nodup_singleton _) hfresh _,
            giveCount_mallocs _, ⟨rfl, Or.inl (hlength ▸ Finset.subset_union_left)⟩,
            Or.inl trivial⟩
      · cases hstep
  | proceed =>
      simp only [searchStep, searchMainStep] at hstep
      split at hstep
      · next hpc =>
          simp only [hpc] at h
          obtain ⟨rfl, rfl, hthreads⟩ := h
          simp only [SearchRun.mainOps, SearchRun.mainLeaks, hpc]
          split at hstep
          · next plan hplan =>
              obtain rfl := Option.some.inj hstep
              simp only [hplan]
              exact ⟨trivial, mainOwners 0, by decide, rfl, ⟨rfl, rfl, by simp [hthreads]⟩,
                Or.inl trivial⟩
          · next hplan =>
              obtain rfl := Option.some.inj hstep
              simp only [hplan]
              exact ⟨trivial, {.re}, rfl, rfl,
                ⟨rfl, Or.inr (by simp [hthreads, Crew.EndedBelow])⟩, Or.inl trivial⟩
          · next hplan =>
              obtain rfl := Option.some.inj hstep
              simp only [hplan]
              exact ⟨trivial, _, rfl, rfl, hthreads, Or.inl trivial⟩
      · next i hpc =>
          simp only [hpc] at h
          obtain ⟨rfl, rfl, hlength⟩ := h
          simp only [SearchRun.mainOps, SearchRun.mainLeaks, hpc]
          cases hthread : s.plan[i]? with
          | none =>
              simp only [hthread] at hstep
              obtain rfl := Option.some.inj hstep
              exact ⟨trivial, _, rfl, rfl, ⟨by rw [hlength], rfl, by simp [Crew.EndedBelow]⟩,
                Or.inl rfl⟩
          | some thread =>
              simp only [hthread] at hstep
              obtain rfl := Option.some.inj hstep
              refine ⟨trivial, mainOwners (i + 1), ownersAfter_createOps i, rfl, ⟨rfl, rfl, ?_⟩,
                Or.inr ⟨thread, rfl⟩⟩
              simp [SearchRun.created, hlength]
      · next i hpc =>
          simp only [hpc] at h
          obtain ⟨rfl, rfl, hended⟩ := h
          simp only [SearchRun.mainOps, SearchRun.mainLeaks, hpc]
          cases hthread : s.crew.threads[i]? with
          | none =>
              simp only [hthread] at hstep
              obtain rfl := Option.some.inj hstep
              have hall := List.getElem?_eq_none_iff.mp hthread
              exact ⟨trivial, ∅, ownersAfter_returnOps _, giveCount_returnOps _,
                ⟨rfl, Or.inr fun j hj => hended j (hj.trans_le hall)⟩, Or.inl rfl⟩
          | some thread =>
              simp only [hthread] at hstep
              split at hstep
              · obtain rfl := Option.some.inj hstep
                exact ⟨trivial, _, ownersAfter_watchOps _, giveCount_watchOps _,
                  ⟨rfl, rfl, hended⟩, Or.inl rfl⟩
              · cases hstep
      · next i hpc =>
          simp only [hpc] at h
          obtain ⟨rfl, rfl, hended⟩ := h
          simp only [SearchRun.mainOps, SearchRun.mainLeaks, hpc]
          split at hstep
          · cases hstep
          · next thread hthread =>
              split at hstep
              · next metLimit hexited =>
                  obtain rfl := Option.some.inj hstep
                  exact ⟨trivial, _, by simp [ownersAfter, ownersStep, mainOwners], rfl,
                    ⟨rfl, rfl, hended.succ hthread hexited⟩, Or.inl rfl⟩
              · cases hstep
      · cases hstep
      · cases hstep

/-! ## Steps of the search -/

theorem SearchRun.MainOwns.congr_crew {crew : Crew} (h : s.MainOwns main mainLost)
    (hlength : crew.threads.length = s.crew.threads.length) (hsome : s.crew.threads ≠ [])
    (hended : ∀ count, s.crew.EndedBelow count → crew.EndedBelow count) :
    ({ s with crew := crew } : SearchRun).MainOwns main mainLost := by
  unfold SearchRun.MainOwns at h ⊢
  simp only [hlength]
  split at h
  · exact absurd h.2.2 hsome
  · exact h
  · exact ⟨h.1, h.2.1, hended _ h.2.2⟩
  · exact ⟨h.1, h.2.1, hended _ h.2.2⟩
  · exact ⟨h.1, h.2.imp_right (hended _)⟩
  · exact absurd h hsome

/-- While a thread is running, the blocks that it uses are there. -/
theorem SearchRun.MainOwns.subset (h : s.MainOwns main mainLost) {t : ℕ} {thread : SearchThread}
    (hthread : s.crew.threads[t]? = some thread)
    (hrunning : ∀ metLimit, thread.2.pc ≠ .exited metLimit) :
    mainOwners s.crew.threads.length ⊆ main := by
  have hlt : t < s.crew.threads.length := (List.getElem?_eq_some_iff.mp hthread).1
  have hsome : s.crew.threads ≠ [] := List.ne_nil_of_length_pos (by omega)
  unfold SearchRun.MainOwns at h
  split at h
  · exact absurd h.2.2 hsome
  · rw [h.1, h.2.2]
  · rw [h.1]
  · rw [h.1]
  · rcases h.2 with hsubset | hended
    · exact hsubset
    · obtain ⟨metLimit, hpc⟩ := hended t hlt thread hthread
      exact absurd hpc (hrunning metLimit)
  · exact absurd h hsome

theorem SearchRun.memOps_eq_mainOps (s : SearchRun) (regex : Pcre2Code) (index : FIndex)
    (config : FSearcher) (mainBlocks : ℕ) (blocks : ℕ → ℕ) (ha : ∀ t b, a ≠ .searcher t b) :
    s.memOps regex index config mainBlocks blocks a =
      (s.mainOps index config mainBlocks a).map (MemOp.map Sum.inl) := by
  cases a with
  | searcher t b => exact absurd rfl (ha t b)
  | proceed => rfl
  | fault => rfl
  | invalidRegex => rfl

theorem SearchRun.leakCount_eq_mainLeaks (s : SearchRun) (regex : Pcre2Code) (index : FIndex)
    (config : FSearcher) (mainBlocks : ℕ) (blocks : ℕ → ℕ) (ha : ∀ t b, a ≠ .searcher t b) :
    s.leakCount regex index config mainBlocks blocks a =
      (s.mainLeaks index config mainBlocks a).card := by
  cases a with
  | searcher t b => exact absurd rfl (ha t b)
  | proceed => rfl
  | fault => rfl
  | invalidRegex => rfl

theorem SearchRun.leaks_eq_mainLeaks (s : SearchRun) (regex : Pcre2Code) (index : FIndex)
    (config : FSearcher) (mainBlocks : ℕ) (blocks : ℕ → ℕ) (ha : ∀ t b, a ≠ .searcher t b) :
    s.leaks regex index config mainBlocks blocks a =
      (s.mainLeaks index config mainBlocks a).image .inl := by
  cases a with
  | searcher t b => exact absurd rfl (ha t b)
  | proceed => rfl
  | fault => rfl
  | invalidRegex => rfl

/-- A step of the main thread keeps the account of the owners. -/
theorem SearchRun.Owns.mainStep
    (h : s.Owns regex index config mainBlocks blocks past main mainLost owned lost)
    (hstep : searchStep regex index config a s = some s') (ha : ∀ t b, a ≠ .searcher t b) :
    ∃ main' mainLost', s'.Owns regex index config mainBlocks blocks
      (past ++ [(s, a)]) main' mainLost' owned lost := by
  obtain ⟨hnone, main', hops, hgive, hmain, hcrew⟩ := h.main.step hstep ha
  have hmemOps := s.memOps_eq_mainOps regex index config mainBlocks blocks ha
  have hleakCount := s.leakCount_eq_mainLeaks regex index config mainBlocks blocks ha
  have hcount : s'.crew.threads.length = s.crew.threads.length ∨
      s'.crew.threads.length = s.crew.threads.length + 1 := by
    rcases hcrew with hcrew | ⟨thread, hcrew⟩ <;> simp [hcrew]
  have hnew := h.fresh s.crew.threads.length le_rfl
  have htogether : ∀ (main : Finset MainVar) (thread : ℕ → Finset SearchVar),
      thread s.crew.threads.length = ∅ → together main s'.crew.threads.length thread =
        together main s.crew.threads.length thread := by
    intro main thread hnone
    rcases hcount with hcount | hcount
    · rw [hcount]
    · rw [hcount, together_succ _ hnone]
  refine ⟨main', _, ⟨?_, hmain, fun t thread hthread => ?_, fun t ht => ?_, ?_, fun x => ?_, ?_⟩⟩
  · rw [List.flatMap_append, ownersAfter_append_of h.after, List.flatMap_singleton, hmemOps,
      htogether _ _ hnew.1]
    exact ownersAfter_together_main hops
  · rcases hcrew with hcrew | ⟨new, hcrew⟩
    · rw [hcrew] at hthread
      exact h.threads t thread hthread
    · rw [hcrew, List.getElem?_append] at hthread
      split at hthread
      · exact h.threads t thread hthread
      · next hlt =>
          have heq : t - s.crew.threads.length = 0 := by
            have hlt' := (List.getElem?_eq_some_iff.mp hthread).1
            simpa using hlt'
          rw [heq] at hthread
          obtain rfl := Option.some.inj hthread
          obtain ⟨howned, hlost⟩ := h.fresh t (Nat.le_of_not_lt hlt)
          exact fun _ => ⟨by rw [howned, hlost]; rfl, fun _ => hlost⟩
  · exact h.fresh t (by omega)
  · have hsum : ∑ t ∈ Finset.range s'.crew.threads.length, (lost t).card =
        ∑ t ∈ Finset.range s.crew.threads.length, (lost t).card := by
      rcases hcount with hcount | hcount
      · rw [hcount]
      · rw [hcount, Finset.sum_range_succ, hnew.2, Finset.card_empty, Nat.add_zero]
    have hleaks := h.leaks
    rw [hnone, Finset.card_empty] at hleaks
    rw [List.map_append, List.sum_append, List.map_singleton, List.sum_singleton, hleakCount,
      hsum, ← hleaks]
    omega
  · have hleaks := s.leaks_eq_mainLeaks regex index config mainBlocks blocks ha
    have hpast := h.mem_leaks x
    rw [hnone] at hpast
    rw [htogether _ _ hnew.2, mem_together_iff, hpast, ← hleaks]
    simp [or_and_right, exists_or]
  · have hdelivered : s'.crew.shared = s.crew.shared := by
      rcases hcrew with hcrew | ⟨thread, hcrew⟩ <;> rw [hcrew]
    rw [List.flatMap_append, giveCount_append, List.flatMap_singleton, hmemOps, giveCount_map,
      hgive, h.given, hdelivered, Nat.add_zero]

/-- **A step of the search** keeps the account of the owners. -/
theorem SearchRun.Owns.step
    (h : s.Owns regex index config mainBlocks blocks past main mainLost owned lost)
    (hstep : searchStep regex index config a s = some s') :
    ∃ main' mainLost' owned' lost', s'.Owns regex index config mainBlocks blocks
      (past ++ [(s, a)]) main' mainLost' owned' lost' := by
  by_cases ha : ∀ t b, a ≠ .searcher t b
  · obtain ⟨main', mainLost', h'⟩ := h.mainStep hstep ha
    exact ⟨main', mainLost', owned, lost, h'⟩
  · push Not at ha
    obtain ⟨t, b, rfl⟩ := ha
    obtain ⟨crew, hcrew, rfl⟩ := Option.map_eq_some_iff.mp hstep
    have hframe := (crewMove_of_step hcrew).frame
    obtain ⟨config', w, w', shared, hthread, hsearcher, rfl⟩ := exists_of_crewStep hcrew
    have hlt : t < s.crew.threads.length := (List.getElem?_eq_some_iff.mp hthread).1
    have hrunning := (searcherMove_of_step hsearcher).not_exited
    obtain ⟨howned, hlost⟩ := h.threads t _ hthread (ne_undefined_of_searcherStep hsearcher)
    have hnone := hlost hrunning
    rw [hnone, Finset.union_empty] at howned
    obtain ⟨n, ⟨owners, hops, hgive, howns⟩, hdelivered⟩ :=
      @takesOwners_searcherStep regex index config' (blocks t) _ _ _ _ _ hsearcher
    rw [← howned] at hops
    have huses : ownersAfter main ((w.pc.uses t).map .use) = some main :=
      ownersAfter_uses fun x hx => h.main.subset hthread hrunning (mem_mainOwners_of_uses hlt hx)
    have hmemOps : s.memOps regex index config mainBlocks blocks (.searcher t b) =
        ((w.pc.uses t).map .use).map (MemOp.map Sum.inl) ++
          (searcherOps regex index config' (blocks t) b s.crew.shared w).map
            (MemOp.map fun x => Sum.inr ⟨t, x⟩) := by
      simp only [SearchRun.memOps, hthread]
    have hlength : (s.crew.threads.set t (config', w')).length = s.crew.threads.length :=
      List.length_set
    refine ⟨main, mainLost, Function.update owned t owners, Function.update lost t
      (searcherLeaks regex index config' (blocks t) b w), ⟨?_, ?_, ?_,
      fun u hu => ?_, ?_, fun x => ?_, ?_⟩⟩
    · rw [List.flatMap_append, ownersAfter_append_of h.after, List.flatMap_singleton, hmemOps,
        ownersAfter_append_of (ownersAfter_together_main huses), hlength]
      exact ownersAfter_together_thread hlt hops
    · exact h.main.congr_crew hlength (List.ne_nil_of_length_pos (by omega)) hframe.2
    · refine forall_getElem?_set ?_ fun u thread hne hthread' => ?_
      · rw [Function.update_self, Function.update_self]
        exact howns
      · rw [Function.update_of_ne hne, Function.update_of_ne hne]
        exact h.threads u thread hthread'
    · have hne : u ≠ t := by
        rintro rfl
        rw [hlength] at hu
        omega
      rw [Function.update_of_ne hne, Function.update_of_ne hne]
      exact h.fresh u (hlength ▸ hu)
    · have hcard : (fun u => (Function.update lost t
          (searcherLeaks regex index config' (blocks t) b w) u).card) =
          Function.update (fun u => (lost u).card) t
            (searcherLeaks regex index config' (blocks t) b w).card := by
        funext u
        exact Function.apply_update (fun _ => Finset.card) lost t _ u
      have hbefore := Finset.sum_update_of_mem (Finset.mem_range.mpr hlt)
        (fun u => (lost u).card) (lost t).card
      rw [Function.update_eq_self t fun u => (lost u).card, hnone, Finset.card_empty] at hbefore
      have hleakCount : s.leakCount regex index config mainBlocks blocks (.searcher t b) =
          (searcherLeaks regex index config' (blocks t) b w).card := by
        simp only [SearchRun.leakCount, hthread]
      have hleaks := h.leaks
      rw [List.map_append, List.sum_append, List.map_singleton, List.sum_singleton, hleakCount,
        hlength, hcard, Finset.sum_update_of_mem (Finset.mem_range.mpr hlt), ← hleaks, hbefore]
      omega
    · have hleaks : s.leaks regex index config mainBlocks blocks (.searcher t b) =
          (searcherLeaks regex index config' (blocks t) b w).image fun x => .inr ⟨t, x⟩ := by
        simp only [SearchRun.leaks, hthread]
      rw [hlength, mem_together_update hlt hnone, h.mem_leaks, ← hleaks]
      simp [or_and_right, exists_or]
    · rw [List.flatMap_append, giveCount_append, List.flatMap_singleton, hmemOps,
        giveCount_append, giveCount_map, giveCount_map, giveCount_uses, hgive, h.given,
        Nat.zero_add, hdelivered]

/-- The account of the owners over a whole run. -/
theorem exists_owns {trace : List (SearchRun × SearchAction)}
    (hrun : Run (searchStep regex index config) .start trace s) (mainBlocks : ℕ)
    (blocks : ℕ → ℕ) :
    ∃ main mainLost owned lost,
      s.Owns regex index config mainBlocks blocks trace main mainLost owned lost := by
  have hkeep : ∀ past (s : SearchRun) a s',
      (∃ main mainLost owned lost,
        s.Owns regex index config mainBlocks blocks past main mainLost owned lost) →
      True → searchStep regex index config a s = some s' →
      ∃ main mainLost owned lost,
        s'.Owns regex index config mainBlocks blocks (past ++ [(s, a)]) main mainLost owned lost :=
    fun _ _ _ _ ⟨_, _, _, _, h⟩ _ hstep => h.step hstep
  have hok : ∀ move ∈ trace, (fun _ : SearchRun × SearchAction => True) move :=
    fun _ _ => trivial
  exact hrun.history hok ⟨_, _, _, _, SearchRun.owns_start⟩ hkeep

/-- **Memory of a search.** In every run no block is used or freed when it is not there, and no
block is given to the callback twice: a result is four blocks. When the search has returned and all
threads have ended, the blocks that are left are those that the steps have left behind. -/
theorem search_memory {trace : List (SearchRun × SearchAction)}
    (hrun : Run (searchStep regex index config) .start trace s) (mainBlocks : ℕ)
    (blocks : ℕ → ℕ) :
    ∃ m, (Mem.empty SearchBlock).run (trace.flatMap fun move =>
        move.1.memOps regex index config mainBlocks blocks move.2) = some m ∧
      m.given.Nodup ∧ (∀ b ∈ m.given, b ∉ m.live) ∧
      m.given.length = 4 * s.crew.shared.delivered.length ∧
      ∀ rc, s.pc = .returned rc →
        (∀ thread ∈ s.crew.threads, ∃ metLimit, thread.2.pc = .exited metLimit) →
        m.live.card = (trace.map fun move =>
          move.1.leakCount regex index config mainBlocks blocks move.2).sum ∧
        ∃ left, m.Owned left ∧ ∀ x, x ∈ left ↔
          ∃ move ∈ trace, x ∈ move.1.leaks regex index config mainBlocks blocks move.2 := by
  obtain ⟨main, mainLost, owned, lost, h⟩ := exists_owns hrun mainBlocks blocks
  obtain ⟨m, hm, howned, hgiven⟩ := (Mem.Owned.empty SearchBlock).run h.after
  refine ⟨m, hm, howned.given.1, howned.given.2, ?_, fun rc hpc hexited => ?_⟩
  · rw [hgiven, h.given]
    exact Nat.zero_add _
  · have hmain := h.main
    simp only [SearchRun.MainOwns, hpc] at hmain
    have hthreads : ∀ t < s.crew.threads.length, owned t = lost t := by
      intro t ht
      have hthread := List.getElem?_eq_getElem ht
      obtain ⟨metLimit, hended⟩ := hexited _ (List.getElem_mem ht)
      have howns := (h.threads t _ hthread (by simp [hended])).1
      rw [howns, hended, SearcherPc.owners, Finset.empty_union]
    have hleft := together_congr mainLost hthreads
    rw [hmain.1, hleft] at howned
    exact ⟨by rw [howned.card_live, card_together, h.leaks], _, howned, h.mem_leaks⟩

/-- Searching `lineFile` with one thread: the result is given away and nothing is left. -/
theorem search_memory_line : ∃ trace s m,
    Run (searchStep anyLine lineIndex oneBatch) .start trace s ∧ s.pc = .returned 0 ∧
    (Mem.empty SearchBlock).run (trace.flatMap fun move =>
      move.1.memOps anyLine lineIndex oneBatch 0 (fun _ => 0) move.2) = some m ∧
    m.given.length = 4 ∧ m.live.card = 0 := by
  have hsummary : (runTrace (searchStep anyLine lineIndex oneBatch)
      (searchUpTo (generousEnv 16) ++ [.searcher 0 (.line ⟨true, false, true⟩),
        .searcher 0 .proceed, .searcher 0 (.line ⟨true, false, true⟩),
        .searcher 0 (.line ⟨true, false, true⟩), .searcher 0 .proceed, .proceed, .proceed,
        .proceed]) .start).map (fun run => (run.2.pc, run.2.crew.shared.delivered.length,
          run.2.crew.threads.map fun thread => thread.2.pc,
          (run.1.map fun move =>
            move.1.leakCount anyLine lineIndex oneBatch 0 (fun _ => 0) move.2).sum)) =
      some (.returned 0, 1, [.exited false], 0) := by decide +kernel
  obtain ⟨⟨trace, s⟩, hrun, hpair⟩ := Option.map_eq_some_iff.mp hsummary
  obtain ⟨hreturn, hpair⟩ := Prod.mk.inj hpair
  obtain ⟨hdelivered, hpair⟩ := Prod.mk.inj hpair
  obtain ⟨hthreads, hleaks⟩ := Prod.mk.inj hpair
  have hrun := run_of_runTrace hrun
  obtain ⟨m, hm, -, -, hgiven, hlive⟩ := search_memory hrun 0 fun _ => 0
  refine ⟨trace, s, m, hrun, hreturn, hm, by rw [hgiven, hdelivered], ?_⟩
  rw [(hlive 0 hreturn fun thread hmem => ⟨false, ?_⟩).1, hleaks]
  have hmem' := List.mem_map_of_mem (f := fun thread => thread.2.pc) hmem
  rw [hthreads] at hmem'
  exact List.mem_singleton.mp hmem'

end

end Flashlight.Search
