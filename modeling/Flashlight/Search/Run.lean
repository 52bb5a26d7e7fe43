/-
# Searching an index

`f_index_search` compiles the regular expression, divides the lines among its threads,
creates them one after the other, and then watches the progress of each thread until it
is close enough to `1` before it joins it. It returns `0` when all threads are joined.

One action of the machine below is a step of the main thread or of a search thread that
was created; nothing is assumed about their order. As in the indexer, every look at the
progress of a thread is taken to be fresh and atomic.
-/

import Flashlight.Search.Crew

namespace Flashlight.Search

open Flashlight.Math

/-- Where the main thread is. -/
inductive SearchPc
  /-- Before the threads are planned. -/
  | enter
  /-- Creating thread `i`. -/
  | create (i : ℕ)
  /-- Watching the progress of thread `i`. -/
  | watch (i : ℕ)
  /-- Joining thread `i`. -/
  | join (i : ℕ)
  /-- The function has returned this code. -/
  | returned (rc : Int32)
  /-- The main thread has done something that has no meaning. -/
  | undefined
  deriving DecidableEq, Repr

/-- Who moves, and how. -/
inductive SearchAction
  /-- The main thread moves on. -/
  | proceed
  /-- A call of the main thread fails. -/
  | fault
  /-- The regular expression does not compile. -/
  | invalidRegex
  /-- Search thread `t` takes a step. -/
  | searcher (t : ℕ) (a : SearcherAction)
  deriving DecidableEq, Repr

/-- The state of `f_index_search`. -/
structure SearchRun where
  /-- Where the main thread is. -/
  pc : SearchPc
  /-- The threads to create. -/
  plan : List FSearcherThread
  /-- The threads that were created. -/
  crew : Crew

/-- Before the call. -/
def SearchRun.start : SearchRun where
  pc := .enter
  plan := []
  crew := ⟨.start, []⟩

/-- The progress from which on the main thread joins a thread: the literal `0.999`. -/
def joinableProgress : ℚ :=
  roundTo 53 (999 / 1000)

/-- Another thread is created. -/
def SearchRun.created (s : SearchRun) (i : ℕ) (thread : FSearcherThread) : SearchRun :=
  { s with
    pc := .create (i + 1)
    crew := ⟨s.crew.shared, s.crew.threads ++ [(thread, .start)]⟩ }

/-- One step of the main thread, when no call fails. It spins while the progress it
watches is too small and waits while the thread it joins is running. -/
def searchMainStep (index : FIndex) (config : FSearcher) (s : SearchRun) : Option SearchRun :=
  match s.pc with
  | .enter =>
      match searcherThreads config index.flookup.len with
      | .ok plan => some { s with pc := .create 0, plan := plan }
      | .error .refused => some { s with pc := .returned (-1) }
      | .error .undefined => some { s with pc := .undefined }
  | .create i =>
      match s.plan[i]? with
      | none => some { s with pc := .watch 0 }
      | some thread => some (s.created i thread)
  | .watch i =>
      match s.crew.threads[i]? with
      | none => some { s with pc := .returned 0 }
      | some thread =>
          if joinableProgress ≤ thread.2.progress then some { s with pc := .join i } else none
  | .join i =>
      match s.crew.threads[i]? with
      | none => none
      | some thread =>
          match thread.2.pc with
          | .exited _ => some { s with pc := .watch (i + 1) }
          | _ => none
  | .returned _ => none
  | .undefined => none

/-- One step of `f_index_search` and its threads. The first failures and a thread that
cannot be created end the call; the threads that were created before run on. The signal that
the source sends them when `pthread_create` fails is left out. -/
def searchStep (regex : Pcre2Code) (index : FIndex) (config : FSearcher) (a : SearchAction)
    (s : SearchRun) : Option SearchRun :=
  match a with
  | .proceed => searchMainStep index config s
  | .fault =>
      match s.pc with
      | .enter => some { s with pc := .returned (-1) }
      | .create _ => some { s with pc := .returned (-1) }
      | _ => none
  | .invalidRegex =>
      match s.pc with
      | .enter => some { s with pc := .returned (-2) }
      | _ => none
  | .searcher t a => (crewStep regex index (t, a) s.crew).map fun crew => { s with crew := crew }

/-! ## What a step can do -/

/-- The steps of the search, one constructor for each. -/
inductive SearchMove (regex : Pcre2Code) (index : FIndex) (config : FSearcher) (s : SearchRun) :
    SearchAction → SearchRun → Prop
  | planned {plan : List FSearcherThread} (hpc : s.pc = .enter)
      (hplan : searcherThreads config index.flookup.len = .ok plan) :
      SearchMove regex index config s .proceed { s with pc := .create 0, plan := plan }
  | created {i : ℕ} {thread : FSearcherThread} (hpc : s.pc = .create i)
      (hthread : s.plan[i]? = some thread) :
      SearchMove regex index config s .proceed (s.created i thread)
  | allCreated {i : ℕ} (hpc : s.pc = .create i) (hthread : s.plan[i]? = none) :
      SearchMove regex index config s .proceed { s with pc := .watch 0 }
  | watched {i : ℕ} {thread : SearchThread} (hpc : s.pc = .watch i)
      (hthread : s.crew.threads[i]? = some thread)
      (hprogress : joinableProgress ≤ thread.2.progress) :
      SearchMove regex index config s .proceed { s with pc := .join i }
  | joined {i : ℕ} {thread : SearchThread} {metLimit : Bool} (hpc : s.pc = .join i)
      (hthread : s.crew.threads[i]? = some thread) (hexited : thread.2.pc = .exited metLimit) :
      SearchMove regex index config s .proceed { s with pc := .watch (i + 1) }
  | allJoined {i : ℕ} (hpc : s.pc = .watch i) (hthread : s.crew.threads[i]? = none) :
      SearchMove regex index config s .proceed { s with pc := .returned 0 }
  | failed {a : SearchAction} {pc : SearchPc} (ha : ∀ t b, a ≠ .searcher t b)
      (hended : pc = .returned (-1) ∨ pc = .returned (-2) ∨ pc = .undefined) :
      SearchMove regex index config s a { s with pc := pc }
  | searcher {t : ℕ} {a : SearcherAction} {crew : Crew}
      (hmove : CrewMove regex index s.crew (t, a) crew) :
      SearchMove regex index config s (.searcher t a) { s with crew := crew }

section

variable {regex : Pcre2Code} {index : FIndex} {config : FSearcher} {s s' : SearchRun}
  {a : SearchAction}

theorem searchMove_of_mainStep (hstep : searchMainStep index config s = some s') :
    SearchMove regex index config s .proceed s' := by
  unfold searchMainStep at hstep
  split at hstep
  · next hpc =>
      split at hstep
      · next plan hplan =>
          obtain rfl := Option.some.inj hstep
          exact .planned hpc hplan
      · obtain rfl := Option.some.inj hstep
        exact .failed (by simp) (Or.inl rfl)
      · obtain rfl := Option.some.inj hstep
        exact .failed (by simp) (Or.inr (Or.inr rfl))
  · next i hpc =>
      split at hstep
      · next hthread =>
          obtain rfl := Option.some.inj hstep
          exact .allCreated hpc hthread
      · next thread hthread =>
          obtain rfl := Option.some.inj hstep
          exact .created hpc hthread
  · next i hpc =>
      split at hstep
      · next hthread =>
          obtain rfl := Option.some.inj hstep
          exact .allJoined hpc hthread
      · next thread hthread =>
          split at hstep
          · next hprogress =>
              obtain rfl := Option.some.inj hstep
              exact .watched hpc hthread hprogress
          · cases hstep
  · next i hpc =>
      split at hstep
      · cases hstep
      · next thread hthread =>
          split at hstep
          · next metLimit hexited =>
              obtain rfl := Option.some.inj hstep
              exact .joined hpc hthread hexited
          · cases hstep
  · cases hstep
  · cases hstep

/-- Every step is one of these. -/
theorem searchMove_of_step (hstep : searchStep regex index config a s = some s') :
    SearchMove regex index config s a s' := by
  cases a with
  | proceed => exact searchMove_of_mainStep hstep
  | fault =>
      simp only [searchStep] at hstep
      split at hstep
      · obtain rfl := Option.some.inj hstep
        exact .failed (by simp) (Or.inl rfl)
      · obtain rfl := Option.some.inj hstep
        exact .failed (by simp) (Or.inl rfl)
      · cases hstep
  | invalidRegex =>
      simp only [searchStep] at hstep
      split at hstep
      · obtain rfl := Option.some.inj hstep
        exact .failed (by simp) (Or.inr (Or.inl rfl))
      · cases hstep
  | searcher t a =>
      obtain ⟨crew, hcrew, rfl⟩ := Option.map_eq_some_iff.mp hstep
      exact .searcher (crewMove_of_step hcrew)

/-- Where a thread of the next state comes from. -/
inductive ThreadOrigin (regex : Pcre2Code) (index : FIndex) (s : SearchRun) (a : SearchAction)
    (thread : SearchThread) : Prop
  | kept (hold : thread ∈ s.crew.threads)
  | created (hplanned : thread.1 ∈ s.plan) (hstart : thread.2 = .start)
  | moved {t : ℕ} {b : SearcherAction} {w : Searcher} {shared : SearchShared}
      (ha : a = .searcher t b) (hthread : s.crew.threads[t]? = some (thread.1, w))
      (hstep : searcherStep regex index thread.1 b s.crew.shared w = some (shared, thread.2))

/-- A thread is an old one, a new one, or the one that took the step. -/
theorem threadOrigin_of_step (hstep : searchStep regex index config a s = some s')
    {thread : SearchThread} (hmem : thread ∈ s'.crew.threads) :
    ThreadOrigin regex index s a thread := by
  cases searchMove_of_step hstep with
  | planned _ _ => exact .kept hmem
  | created _ hplan =>
      rcases List.mem_append.mp hmem with hold | hnew
      · exact .kept hold
      · obtain rfl := List.mem_singleton.mp hnew
        exact .created (List.mem_of_getElem? hplan) rfl
  | allCreated _ _ => exact .kept hmem
  | watched _ _ _ => exact .kept hmem
  | joined _ _ _ => exact .kept hmem
  | allJoined _ _ => exact .kept hmem
  | failed _ _ => exact .kept hmem
  | searcher _ =>
      obtain ⟨crew, hcrew, heq⟩ := Option.map_eq_some_iff.mp hstep
      obtain ⟨config', w, w', shared, hthread, hsearcher, rfl⟩ := exists_of_crewStep hcrew
      rw [← heq] at hmem
      rcases List.mem_or_eq_of_mem_set hmem with hold | rfl
      · exact .kept hold
      · exact .moved rfl hthread hsearcher

end

/-! ## The state of the search -/

/-- The first `count` threads have ended. -/
def Crew.EndedBelow (crew : Crew) (count : ℕ) : Prop :=
  ∀ j < count, ∀ thread ∈ crew.threads[j]?, ∃ metLimit, thread.2.pc = .exited metLimit

/-- Where the main thread is, and what that means for the threads. -/
def SearchRun.Stage (index : FIndex) (config : FSearcher) (s : SearchRun) : Prop :=
  match s.pc with
  | .enter => s.plan = []
  | .create i => searcherThreads config index.flookup.len = .ok s.plan ∧
      s.crew.threads.length = i
  | .watch i => searcherThreads config index.flookup.len = .ok s.plan ∧
      s.crew.threads.map Prod.fst = s.plan ∧ s.crew.EndedBelow i
  | .join i => searcherThreads config index.flookup.len = .ok s.plan ∧
      s.crew.threads.map Prod.fst = s.plan ∧ s.crew.EndedBelow i
  | .returned rc => rc = 0 → searcherThreads config index.flookup.len = .ok s.plan ∧
      s.crew.threads.map Prod.fst = s.plan ∧ s.crew.EndedBelow s.crew.threads.length
  | .undefined => True

/-- What every step keeps. -/
structure SearchRun.Inv (regex : Pcre2Code) (index : FIndex) (config : FSearcher)
    (s : SearchRun) : Prop where
  crew : s.crew.Inv regex index config.resultLimit
  planned : s.plan = [] ∨ searcherThreads config index.flookup.len = .ok s.plan
  created : s.crew.threads.map Prod.fst <+: s.plan
  stage : s.Stage index config

section

variable {regex : Pcre2Code} {index : FIndex} {config : FSearcher} {s s' : SearchRun}
  {a : SearchAction}

/-- A step of a thread changes no configuration and no thread that has ended. -/
theorem CrewMove.frame {crew crew' : Crew} {b : ℕ × SearcherAction}
    (hmove : CrewMove regex index crew b crew') :
    crew'.threads.map Prod.fst = crew.threads.map Prod.fst ∧
      ∀ count, crew.EndedBelow count → crew'.EndedBelow count := by
  cases hmove with
  | @thread t a config w w' shared hthread hmove =>
      refine ⟨map_fst_set hthread, fun count hended j hj thread hthread' => ?_⟩
      rw [Option.mem_def, List.getElem?_set] at hthread'
      split at hthread'
      · next heq =>
          subst heq
          obtain ⟨metLimit, hpc⟩ := hended t hj _ hthread
          exact absurd hpc (hmove.not_exited metLimit)
      · exact hended j hj thread hthread'

/-- The thread that was watched has ended. -/
theorem Crew.EndedBelow.succ {crew : Crew} {count : ℕ} (h : crew.EndedBelow count)
    {thread : SearchThread} {metLimit : Bool} (hthread : crew.threads[count]? = some thread)
    (hpc : thread.2.pc = .exited metLimit) : crew.EndedBelow (count + 1) := by
  intro j hj other hother
  rcases Nat.lt_succ_iff_lt_or_eq.mp hj with hlt | rfl
  · exact h j hlt other hother
  · obtain rfl : thread = other := Option.some.inj (hthread.symm.trans hother)
    exact ⟨metLimit, hpc⟩

theorem SearchRun.inv_start (regex : Pcre2Code) (index : FIndex) (config : FSearcher) :
    SearchRun.start.Inv regex index config :=
  ⟨Crew.inv_nil _ _ _, Or.inl rfl, List.nil_prefix, rfl⟩

/-- When the search returns `0`, the planned threads have been created and have ended. -/
theorem SearchRun.Inv.of_returned (h : s.Inv regex index config) (hreturn : s.pc = .returned 0) :
    searcherThreads config index.flookup.len = .ok s.plan ∧
      s.crew.threads.map Prod.fst = s.plan ∧
      ∀ thread ∈ s.crew.threads, ∃ metLimit, thread.2.pc = .exited metLimit := by
  have hstage := h.stage
  simp only [SearchRun.Stage, hreturn] at hstage
  obtain ⟨hplan, hthreads, hended⟩ := hstage trivial
  refine ⟨hplan, hthreads, fun thread hthread => ?_⟩
  obtain ⟨i, hi, rfl⟩ := List.mem_iff_getElem.mp hthread
  exact hended i hi _ (List.getElem?_eq_getElem hi)

/-- **A step of the search** keeps the invariant. -/
theorem SearchRun.Inv.step (h : s.Inv regex index config)
    (hmove : SearchMove regex index config s a s')
    (hhonest : ∀ t b, a = .searcher t b → b.Honest index) : s'.Inv regex index config := by
  have hstage := h.stage
  cases hmove with
  | planned hpc hplan =>
      simp only [SearchRun.Stage, hpc] at hstage
      have hnil : s.crew.threads = [] := by
        have hstarts := h.created
        rw [hstage] at hstarts
        simpa using hstarts
      refine ⟨h.crew, Or.inr hplan, ?_, hplan, by simp [hnil]⟩
      rw [hnil]
      exact List.nil_prefix
  | @created i thread hpc hthread =>
      simp only [SearchRun.Stage, hpc] at hstage
      obtain ⟨hplan, hlength⟩ := hstage
      obtain ⟨hbounded, -, -, hlimit, -⟩ :=
        of_mem_searcherThreads hplan (List.mem_of_getElem? hthread)
      refine ⟨h.crew.spawn hbounded hlimit, Or.inr hplan, ?_, hplan, ?_⟩
      · have htake := List.prefix_iff_eq_take.mp h.created
        rw [List.length_map, hlength] at htake
        rw [SearchRun.created, List.map_append, htake, List.map_singleton]
        have hnext : s.plan.take (i + 1) = s.plan.take i ++ [thread] := by
          rw [List.take_add_one, hthread]
          rfl
        exact hnext ▸ List.take_prefix _ _
      · simp [SearchRun.created, hlength]
  | @allCreated i hpc hthread =>
      simp only [SearchRun.Stage, hpc] at hstage
      obtain ⟨hplan, hlength⟩ := hstage
      have hall : s.crew.threads.map Prod.fst = s.plan := by
        apply h.created.eq_of_length_le
        rw [List.length_map, hlength]
        exact List.getElem?_eq_none_iff.mp hthread
      exact ⟨h.crew, Or.inr hplan, h.created, hplan, hall, fun j hj => by omega⟩
  | watched hpc _ _ =>
      simp only [SearchRun.Stage, hpc] at hstage
      exact ⟨h.crew, h.planned, h.created, hstage⟩
  | joined hpc hthread hexited =>
      simp only [SearchRun.Stage, hpc] at hstage
      obtain ⟨hplan, hall, hended⟩ := hstage
      exact ⟨h.crew, h.planned, h.created, hplan, hall, hended.succ hthread hexited⟩
  | allJoined hpc hthread =>
      simp only [SearchRun.Stage, hpc] at hstage
      obtain ⟨hplan, hall, hended⟩ := hstage
      refine ⟨h.crew, h.planned, h.created, fun _ => ⟨hplan, hall, fun j hj => ?_⟩⟩
      exact hended j (lt_of_lt_of_le hj (List.getElem?_eq_none_iff.mp hthread))
  | failed _ hended =>
      refine ⟨h.crew, h.planned, h.created, ?_⟩
      rcases hended with rfl | rfl | rfl
      · exact fun hzero => absurd hzero (by decide)
      · exact fun hzero => absurd hzero (by decide)
      · trivial
  | @searcher t b crew hmove =>
      obtain ⟨hconfigs, hended⟩ := hmove.frame
      have hlength : crew.threads.length = s.crew.threads.length := by
        simpa using congrArg List.length hconfigs
      refine ⟨h.crew.step hmove (hhonest t b rfl), h.planned, ?_, ?_⟩
      · rw [hconfigs]
        exact h.created
      · unfold SearchRun.Stage at hstage ⊢
        simp only
        split at hstage
        · exact hstage
        · exact ⟨hstage.1, hlength.trans hstage.2⟩
        · exact ⟨hstage.1, hconfigs.trans hstage.2.1, hended _ hstage.2.2⟩
        · exact ⟨hstage.1, hconfigs.trans hstage.2.1, hended _ hstage.2.2⟩
        · intro hzero
          obtain ⟨hplan, hall, hbelow⟩ := hstage hzero
          exact ⟨hplan, hconfigs.trans hall, hlength ▸ hended _ hbelow⟩
        · trivial

end

end Flashlight.Search
