/-
# Searching without threads

The threads of a search pass their results to one callback. When no call of a thread fails the
callback gets a shuffle: each thread delivers the results of its own lines from the first one on,
in their order, and together they deliver as many as there are or as many as the limit allows.
-/

import Flashlight.Math.Shuffling
import Flashlight.Search.Termination

namespace Flashlight.Search

open Flashlight.Math
open scoped List

/-- The results of the threads of a search, one thread after the other. -/
def searchSequentially (regex : Pcre2Code) (index : FIndex) (config : FSearcher) :
    List NumberedLine :=
  (config.plan index).flatMap fun thread => accepted regex (thread.tokens index)

/-! ## Threads in order -/

/-- What the thread has found is the beginning of what there is to find. -/
structure Searcher.Ordered (regex : Pcre2Code) (index : FIndex) (config : FSearcherThread)
    (w : Searcher) : Prop where
  exact : w.Exact regex index config
  found : w.found <+: accepted regex (config.tokens index)

section

variable {regex : Pcre2Code} {index : FIndex} {config : FSearcherThread} {w w' : Searcher}
  {a : SearcherAction} {shared shared' : SearchShared}

theorem Searcher.ordered_start (regex : Pcre2Code) (index : FIndex) (config : FSearcherThread) :
    Searcher.start.Ordered regex index config :=
  ⟨Searcher.exact_start _ _ _, List.nil_prefix⟩

/-- A thread that runs into undefined behaviour delivers nothing with that step. -/
theorem SearcherMove.sent_of_undefined
    (hmove : SearcherMove regex index config shared w a shared' w') (hpc : w'.pc = .undefined) :
    w'.sent = w.sent := by
  cases hmove with
  | lookupFailed _ _ hended => rcases hended with rfl | rfl <;> rfl
  | cutShort _ _ _ hended => rcases hended with rfl | ⟨-, rfl⟩ <;> rfl
  | @matched cursor env str token _ _ _ _ =>
      obtain ⟨pc, progress, -, heq⟩ := w.matched_eq regex config env token
        (cursor.advance (afterLine str))
      rw [heq]
  | delivered _ _ => cases hpc
  | _ => rfl

theorem Searcher.found_of_ended (hpc : w.pc = .exited true ∨ w.pc = .undefined) :
    w.found = w.sent.map FSearchResult.line := by
  rcases hpc with hpc | hpc <;> simp [Searcher.found, Searcher.pending, hpc]

theorem Searcher.Ordered.step (h : w.Ordered regex index config)
    (hcallback : config.onResult = true) (hbounded : config.Bounded)
    (hbuffer : 0 < config.buffer.toNat) (hw : w.Inv regex index config) (hhonest : a.Honest index)
    (hbreaks : ¬ w.Breaks regex index config a)
    (hstep : searcherStep regex index config a shared w = some (shared', w')) :
    w'.Ordered regex index config := by
  have hexact := h.exact.step hcallback hbounded hbuffer hw hhonest hbreaks hstep
  have hmove := searcherMove_of_step hstep
  have hsent : w.sent.map FSearchResult.line <+: w.found := List.prefix_append _ _
  refine ⟨hexact, ?_⟩
  rcases hexact.complete with hpc | hpc | ⟨htokens, haccepted⟩
  · obtain ⟨-, -, -, rfl⟩ := hmove.of_exited_true hpc
    rw [Searcher.found_of_ended (Or.inl hpc)]
    exact hsent.trans h.found
  · rw [Searcher.found_of_ended (Or.inr hpc), hmove.sent_of_undefined hpc]
    exact hsent.trans h.found
  · rw [← haccepted, htokens, accepted, accepted, List.filter_append]
    exact List.prefix_append _ _

end

/-! ## The search -/

/-- The state of a search in which no call of a thread has failed. -/
structure SearchRun.Ordered (regex : Pcre2Code) (index : FIndex) (config : FSearcher)
    (s : SearchRun) : Prop where
  inv : s.Inv regex index config
  threads : ∀ thread ∈ s.crew.threads, thread.2.Ordered regex index thread.1
  shuffle : Shuffle (s.crew.threads.map fun thread => thread.2.sent) s.crew.shared.delivered

section

variable {regex : Pcre2Code} {index : FIndex} {config : FSearcher} {s s' : SearchRun}
  {a : SearchAction}

/-- The callback gets a shuffle of what the threads send. -/
theorem shuffle_of_step
    (h : Shuffle (s.crew.threads.map fun thread => thread.2.sent) s.crew.shared.delivered)
    (hmove : SearchMove regex index config s a s') :
    Shuffle (s'.crew.threads.map fun thread => thread.2.sent) s'.crew.shared.delivered := by
  cases hmove with
  | created _ _ => simpa [SearchRun.created, Searcher.start] using h.start
  | @searcher t b crew hcrew =>
      cases hcrew with
      | @thread _ _ thread w w' shared hthread hmove =>
          have hsent : (s.crew.threads.map fun thread => thread.2.sent)[t]? = some w.sent := by
            rw [List.getElem?_map, hthread, Option.map_some]
          rcases hmove.shared_cases with ⟨rfl, hkept⟩ | ⟨result, -, rfl, hnext⟩
          · have hsame : (s.crew.threads.map fun thread => thread.2.sent).set t w.sent =
                s.crew.threads.map fun thread => thread.2.sent := by
              obtain ⟨ht, heq⟩ := List.getElem?_eq_some_iff.mp hsent
              rw [← heq, List.set_getElem_self]
            simp only [List.map_set, hkept, hsame]
            exact h
          · simp only [List.map_set, hnext]
            exact h.next hsent result
  | _ => exact h

theorem SearchRun.ordered_start (regex : Pcre2Code) (index : FIndex) (config : FSearcher) :
    SearchRun.start.Ordered regex index config :=
  ⟨SearchRun.inv_start _ _ _, by simp [SearchRun.start], .nil⟩

theorem SearchRun.Ordered.step (h : s.Ordered regex index config)
    (hcallback : config.onResult = true) (hbuffer : 1 ≤ config.lineBuffer.toNat)
    (hunbroken : s.Unbroken regex index a) (hstep : searchStep regex index config a s = some s') :
    s'.Ordered regex index config := by
  have hmove := searchMove_of_step hstep
  have hhonest : ∀ t b, a = .searcher t b → b.Honest index := by
    rintro t b rfl
    exact hunbroken.1
  refine ⟨h.inv.step hmove hhonest, fun thread hthread => ?_, shuffle_of_step h.shuffle hmove⟩
  cases threadOrigin_of_step hstep hthread with
  | kept hold => exact h.threads thread hold
  | created _ hstart =>
      rw [hstart]
      exact Searcher.ordered_start _ _ _
  | @moved t b w shared ha hold hmoved =>
      subst ha
      have hmem := List.mem_of_getElem? hold
      obtain ⟨hplan, hconfig⟩ := h.inv.mem_plan hmem
      obtain ⟨hbounded, -, hlines, -, hresult⟩ := of_mem_searcherThreads hplan hconfig
      refine (h.threads _ hmem).step (hresult.trans hcallback) hbounded ?_
        (h.inv.crew.threads _ hmem).2.2 hunbroken.1 (hunbroken.2 _ hold) hmoved
      rw [hlines, UInt32.toNat_toUInt64]
      exact hbuffer

theorem ordered_of_reaches (hcallback : config.onResult = true)
    (hbuffer : 1 ≤ config.lineBuffer.toNat)
    (hreach : Reaches (searchStep regex index config) (SearchRun.Unbroken regex index) .start s) :
    s.Ordered regex index config :=
  hreach.invariant (SearchRun.ordered_start _ _ _)
    fun _ _ _ h hunbroken hstep => h.step hcallback hbuffer hunbroken hstep

/-- When a search returns, its threads have delivered everything or met the limit. -/
theorem SearchRun.Ordered.length_delivered (h : s.Ordered regex index config)
    (hreturn : s.pc = .returned 0) :
    s.crew.threads.map Prod.fst = config.plan index ∧
      s.crew.shared.delivered.length =
        min config.resultLimit.toInt.toNat (searchSequentially regex index config).length := by
  obtain ⟨hplan, hthreads, hexited⟩ := h.inv.of_returned hreturn
  have hconfigs : s.crew.threads.map Prod.fst = config.plan index := by
    rw [hthreads, FSearcher.plan, hplan]
  refine ⟨hconfigs, ?_⟩
  have hdelivered : s.crew.shared.delivered.length =
      (s.crew.threads.map fun thread => thread.2.sent.length).sum := by
    rw [h.shuffle.perm.length_eq, List.length_flatten, List.map_map]
    rfl
  have htotal : (searchSequentially regex index config).length = (s.crew.threads.map
      fun thread => (accepted regex (thread.1.tokens index)).length).sum := by
    rw [searchSequentially, ← hconfigs, List.length_flatMap, List.map_map]
    rfl
  have hle : ∀ thread ∈ s.crew.threads,
      thread.2.sent.length ≤ (accepted regex (thread.1.tokens index)).length := by
    intro thread hthread
    obtain ⟨metLimit, hpc⟩ := hexited thread hthread
    have hsent := ((h.threads thread hthread).exact.sent hpc).1.length_le
    rwa [List.length_map] at hsent
  have hbounded := h.inv.crew.bounded
  rw [h.inv.crew.count] at hbounded
  by_cases hmet : ∃ thread ∈ s.crew.threads, thread.2.pc = .exited true
  · obtain ⟨thread, hthread, hpc⟩ := hmet
    have hlimit := h.inv.crew.met thread hthread hpc
    rw [Int32.le_iff_toInt_le, h.inv.crew.count] at hlimit
    have hsum := List.sum_le_sum hle
    rw [← hdelivered, ← htotal] at hsum
    omega
  · have hall : ∀ thread ∈ s.crew.threads,
        thread.2.sent.length = (accepted regex (thread.1.tokens index)).length := by
      intro thread hthread
      obtain ⟨metLimit, hpc⟩ := hexited thread hthread
      have hfalse : metLimit = false := by
        by_contra hne
        exact hmet ⟨thread, hthread, by simpa [hne] using hpc⟩
      rw [← ((h.threads thread hthread).exact.sent hpc).2 hfalse, List.length_map]
    rw [hdelivered, htotal, List.map_congr_left hall]
    rw [hdelivered, List.map_congr_left hall, ← htotal] at hbounded
    omega

/-- **Searches shuffle.** In every search in which no call of a thread fails, the callback gets a
shuffle of what the threads send; each thread sends the results of its lines from the first one
on; and when the search returns they have sent as many as there are, up to the limit. -/
theorem delivered_shuffles (hcallback : config.onResult = true)
    (hbuffer : 1 ≤ config.lineBuffer.toNat)
    (hreach : Reaches (searchStep regex index config) (SearchRun.Unbroken regex index) .start s) :
    Shuffle (s.crew.threads.map fun thread => thread.2.sent.map FSearchResult.line)
        (s.crew.shared.delivered.map FSearchResult.line) ∧
      (∀ thread ∈ s.crew.threads,
        thread.2.sent.map FSearchResult.line <+: accepted regex (thread.1.tokens index)) ∧
      (s.pc = .returned 0 → s.crew.threads.map Prod.fst = config.plan index ∧
        s.crew.shared.delivered.length =
          min config.resultLimit.toInt.toNat (searchSequentially regex index config).length) := by
  have h := ordered_of_reaches hcallback hbuffer hreach
  refine ⟨?_, fun thread hthread => ?_, h.length_delivered⟩
  · have hmap := h.shuffle.map FSearchResult.line
    rwa [List.map_map] at hmap
  · exact (List.prefix_append _ _).trans (h.threads thread hthread).found

end

/-- Two threads search the lines `a` and `b`, and the second one delivers first. -/
theorem delivered_shuffles_pair : ∃ s : SearchRun, s.pc = .returned 0 ∧
    s.crew.shared.delivered.map FSearchResult.line = [(2, [98]), (1, [97])] ∧
    Shuffle [[(1, [97])], [(2, [98])]] (s.crew.shared.delivered.map FSearchResult.line) ∧
    searchSequentially anyLine (pairIndex 97) twoSearchers = [(1, [97]), (2, [98])] ∧
    s.crew.shared.delivered.length = 2 := by
  have hsummary : (runTrace (searchStep anyLine (pairIndex 97) twoSearchers) takingTurns
      .start).map (fun run => (
        run.2.crew.threads.map fun thread => thread.2.sent.map FSearchResult.line,
        run.2.crew.shared.delivered.map FSearchResult.line,
        decide (run.2.pc = .returned 0) && run.1.all fun move =>
          decide (move.1.Unbroken anyLine (pairIndex 97) move.2))) =
      some ([[(1, [97])], [(2, [98])]], [(2, [98]), (1, [97])], true) := by
    decide +kernel
  obtain ⟨⟨trace, s⟩, hrun, hpair⟩ := Option.map_eq_some_iff.mp hsummary
  obtain ⟨hsent, hpair⟩ := Prod.mk.inj hpair
  obtain ⟨hdelivered, hended⟩ := Prod.mk.inj hpair
  obtain ⟨hreturn, hunbroken⟩ := Bool.and_eq_true_iff.mp hended
  have hreturn : s.pc = .returned 0 := of_decide_eq_true hreturn
  have hreach := (run_of_runTrace hrun).reaches_of_forall fun move hmove =>
    of_decide_eq_true (List.all_eq_true.mp hunbroken move hmove)
  obtain ⟨hshuffle, -, hreturned⟩ := delivered_shuffles rfl (by decide) hreach
  exact ⟨s, hreturn, hdelivered, hsent ▸ hshuffle, by decide +kernel,
    (hreturned hreturn).2.trans (by decide +kernel)⟩

/-! ## Every smooth schedule returns -/

/-- Nothing goes wrong in a step. -/
def SearchRun.Smooth (regex : Pcre2Code) (index : FIndex) (s : SearchRun) : SearchAction → Prop
  | .proceed => True
  | .fault => False
  | .invalidRegex => False
  | .searcher t b => s.Unbroken regex index (.searcher t b)

/-- The state of a thread in which no call has failed: nothing undefined has happened, and the
thread reports its end. -/
structure Searcher.Healthy (w : Searcher) : Prop where
  defined : w.pc ≠ .undefined
  reports : ∀ metLimit, w.pc = .exited metLimit → w.progress = 1

section

variable {regex : Pcre2Code} {index : FIndex} {config : FSearcherThread} {w w' : Searcher}
  {a : SearcherAction} {shared shared' : SearchShared}

theorem SearchRun.Smooth.unbroken {s : SearchRun} {a : SearchAction} (h : s.Smooth regex index a) :
    s.Unbroken regex index a := by
  cases a with
  | searcher t b => exact h
  | _ => trivial

theorem Searcher.healthy_start : Searcher.start.Healthy :=
  ⟨by simp [Searcher.start], by simp [Searcher.start]⟩

/-- A line of the index begins in the file. -/
theorem le_newlineCount (hexact : index.Exact) {i : ℕ}
    (hi : i ≤ index.flookup.len.toNat - 1) : i ≤ newlineCount index.target.bytes := by
  rw [hexact.len_eq] at hi
  exact hi

/-- A line that fits can be cut off. -/
theorem Searcher.cutOff_healthy {env : LineEnv} {cursor : Cursor} (hpc : w.pc = .line cursor)
    (hfits : ∀ line ∈ unread cursor.rest, FitsInt line)
    (hbreaks : ¬ w.Breaks regex index config (.line env)) :
    (w.cutOff regex config env cursor).Healthy := by
  simp only [Searcher.Breaks, SearcherPc.Breaks, hpc, not_or, Bool.not_eq_false] at hbreaks
  obtain ⟨halloc, hfails⟩ := hbreaks
  rw [halloc] at hfails
  rw [Searcher.cutOff, halloc]
  cases hrest : cursor.rest with
  | none =>
      simp only [tokenize]
      exact ⟨by simp [Searcher.nextBatch], by simp [Searcher.nextBatch]⟩
  | some str =>
      have hfirst : FitsInt (nextLine str) := by
        refine hfits _ ?_
        rw [hrest, unread_some]
        exact List.mem_cons_self
      rw [hrest, tokenize_newline true hfirst, if_pos rfl] at hfails
      rw [tokenize_newline true hfirst, if_pos rfl]
      simp only
      split
      · exact ⟨by simp, by simp⟩
      · next hline =>
          obtain ⟨pc, progress, hmatched, heq⟩ := w.matched_eq regex config env (nextLine str)
            (cursor.advance (afterLine str))
          rw [heq]
          have hlineFails : ¬ LineFails regex env (nextLine str) := fun h => hfails ⟨hline, h⟩
          cases hmatched with
          | failed hmatch => exact absurd (Or.inl hmatch) hlineFails
          | noResult _ haccepts hresult => exact absurd (Or.inr ⟨haccepts, hresult⟩) hlineFails
          | _ => exact ⟨by simp, by simp⟩

/-- A smooth step leaves a thread healthy whose lines fit. -/
theorem Searcher.Faithful.step_healthy (h : w.Faithful index config)
    (hbreaks : ¬ w.Breaks regex index config a)
    (hstep : searcherStep regex index config a shared w = some (shared', w')) : w'.Healthy := by
  by_cases hline : ∃ cursor, w.pc = .line cursor
  · obtain ⟨cursor, hpc⟩ := hline
    obtain ⟨env, rfl, rfl⟩ := exists_cutOff_of_step hpc hstep
    have hfits := h.fits cursor (by simp only [Searcher.position, hpc])
    exact Searcher.cutOff_healthy hpc hfits hbreaks
  · cases searcherMove_of_step hstep with
    | entered _ => exact ⟨by simp, by simp⟩
    | fault hpc => exact absurd (by simp only [Searcher.Breaks, SearcherPc.Breaks, hpc]) hbreaks
    | metLimit _ _ => exact ⟨by simp [Searcher.leave], by simp [Searcher.leave]⟩
    | batchesDone _ _ => exact ⟨by simp [Searcher.leave], by simp [Searcher.leave]⟩
    | batch _ _ _ => exact ⟨by simp, by simp⟩
    | lookup _ _ => exact ⟨by simp, by simp⟩
    | lookupFailed hpc hstring _ =>
        exact absurd (by simpa only [Searcher.Breaks, SearcherPc.Breaks, hpc] using hstring) hbreaks
    | linesDone hpc _ => exact absurd ⟨_, hpc⟩ hline
    | cutShort hpc _ _ _ => exact absurd ⟨_, hpc⟩ hline
    | emptyLine hpc _ _ _ => exact absurd ⟨_, hpc⟩ hline
    | matched hpc _ _ _ => exact absurd ⟨_, hpc⟩ hline
    | passed _ _ => exact ⟨by simp, by simp⟩
    | delivered _ _ => exact ⟨by simp, by simp⟩

/-- **No deadlock**: a healthy thread that has not ended can take a smooth step. -/
theorem Searcher.Healthy.exists_step (h : w.Healthy) (hexact : index.Exact)
    (hregex : ∀ line, -1 ≤ (regex line).rc)
    (hrange : ∀ i, w.pc = .lookup i → config.LookupInRange index.flookup.len i)
    (hrunning : ∀ metLimit, w.pc ≠ .exited metLimit) (shared : SearchShared) :
    ∃ a, a.Honest index ∧ ¬ w.Breaks regex index config a ∧
      (searcherStep regex index config a shared w).isSome := by
  cases hpc : w.pc with
  | enter => exact ⟨.proceed, trivial, by simp [Searcher.Breaks, SearcherPc.Breaks, hpc],
      by simp [searcherStep, hpc]⟩
  | batch i =>
      refine ⟨.proceed, trivial, by simp [Searcher.Breaks, SearcherPc.Breaks, hpc], ?_⟩
      simp only [searcherStep, hpc]
      split
      · split <;> rfl
      · rfl
  | lookup i =>
      obtain ⟨hline, hend, -⟩ := hrange i hpc
      have hlines := hexact.readLookup_eq (le_newlineCount hexact hline)
        (lt_of_le_of_lt hend (index.flookup.len.toNat_lt.trans (by norm_num)))
      have hreliable : (generousEnv _).Reliable index := reliable_generousEnv
        (Nat.le_add_right index.flookup.contents.length index.target.bytes.length)
        (Nat.le_add_left _ _)
      refine ⟨.lookup (generousEnv (index.flookup.contents.length + index.target.bytes.length)),
        ⟨Or.inr hreliable.startRead, Or.inr hreliable.endRead, Or.inr hreliable.dataRead⟩, ?_,
        by simp only [searcherStep, hpc, Option.isSome_some]⟩
      rw [readLookup] at hlines
      simp [Searcher.Breaks, SearcherPc.Breaks, hpc, hlines]
  | line cursor =>
      refine ⟨.line ⟨true, false, true⟩, trivial, ?_, by simp [searcherStep, hpc]⟩
      simp only [Searcher.Breaks, SearcherPc.Breaks, hpc, Bool.true_eq_false, false_or]
      unfold TokenFails
      split
      · next token _ _ =>
          rintro ⟨-, hmatch | ⟨-, hresult⟩⟩
          · obtain hmatch | ⟨hneg, hne⟩ := hmatch
            · cases hmatch
            · have hle := hregex token
              rw [Int32.le_iff_toInt_le] at hle
              rw [Int32.lt_iff_toInt_lt] at hneg
              refine hne (Int32.toInt_inj.mp ?_)
              have hone : (-1 : Int32).toInt = -1 := by decide
              have hnomatch : pcre2ErrorNomatch.toInt = -1 := by decide
              rw [Int32.toInt_zero] at hneg
              omega
          · cases hresult
      · exact id
  | noMatch cursor =>
      refine ⟨.proceed, trivial, by simp [Searcher.Breaks, SearcherPc.Breaks, hpc], ?_⟩
      simp only [searcherStep, hpc]
      split <;> rfl
  | deliver cursor result =>
      refine ⟨.proceed, trivial, by simp [Searcher.Breaks, SearcherPc.Breaks, hpc], ?_⟩
      simp only [searcherStep, hpc]
      split <;> rfl
  | exited metLimit => exact absurd hpc (hrunning metLimit)
  | undefined => exact absurd hpc h.defined

end

/-- The state of a search in which nothing has gone wrong and which has not given up. -/
structure SearchRun.Healthy (regex : Pcre2Code) (index : FIndex) (config : FSearcher)
    (s : SearchRun) : Prop where
  ordered : s.Ordered regex index config
  faithful : s.Faithful regex index config
  inRange : s.InRange index config
  defined : s.pc ≠ .undefined
  returns : ∀ rc, s.pc = .returned rc → rc = 0
  joins : ∀ i, s.pc = .join i → i < s.crew.threads.length
  threads : ∀ thread ∈ s.crew.threads, thread.2.Healthy

section

variable {regex : Pcre2Code} {index : FIndex} {config : FSearcher} {s s' : SearchRun}
  {a : SearchAction} {plan : List FSearcherThread}

theorem SearchRun.healthy_start (regex : Pcre2Code) (index : FIndex) (config : FSearcher) :
    SearchRun.start.Healthy regex index config :=
  ⟨SearchRun.ordered_start _ _ _, SearchRun.faithful_start _ _ _, SearchRun.inRange_start _ _,
    by simp [SearchRun.start], by simp [SearchRun.start], by simp [SearchRun.start],
    by simp [SearchRun.start]⟩

/-- The lookups of a search are in range. -/
theorem SearchRun.InRange.lookupInRange (h : s.InRange index config) {thread : SearchThread}
    (hthread : thread ∈ s.crew.threads) {i : UInt64} (hpc : thread.2.pc = .lookup i) :
    thread.1.LookupInRange index.flookup.len i := by
  obtain ⟨⟨plan, hplan, hmem⟩, hlookup⟩ := h.threads thread hthread
  exact lookupInRange_of_lt hplan hmem (hlookup i hpc)

/-- The main thread neither fails nor runs into undefined behaviour in a smooth step. -/
theorem SearchRun.pc_of_smooth_step (hplan : searcherThreads config index.flookup.len = .ok plan)
    (hdefined : s.pc ≠ .undefined) (hreturns : ∀ rc, s.pc = .returned rc → rc = 0)
    (hsmooth : s.Smooth regex index a) (hstep : searchStep regex index config a s = some s') :
    s'.pc ≠ .undefined ∧ ∀ rc, s'.pc = .returned rc → rc = 0 := by
  cases a with
  | fault => exact absurd hsmooth id
  | invalidRegex => exact absurd hsmooth id
  | searcher t b =>
      obtain ⟨crew, -, rfl⟩ := Option.map_eq_some_iff.mp hstep
      exact ⟨hdefined, hreturns⟩
  | proceed =>
      simp only [searchStep, searchMainStep, hplan] at hstep
      split at hstep
      · obtain rfl := Option.some.inj hstep
        simp
      · split at hstep <;> obtain rfl := Option.some.inj hstep <;> simp [SearchRun.created]
      · split at hstep
        · obtain rfl := Option.some.inj hstep
          exact ⟨by simp, fun rc hrc => (SearchPc.returned.inj hrc).symm⟩
        · split at hstep
          · obtain rfl := Option.some.inj hstep
            simp
          · cases hstep
      · split at hstep
        · cases hstep
        · split at hstep
          · obtain rfl := Option.some.inj hstep
            simp
          · cases hstep
      · cases hstep
      · cases hstep

/-- The main thread joins threads that it has created. -/
theorem SearchMove.joins (hmove : SearchMove regex index config s a s')
    (h : ∀ i, s.pc = .join i → i < s.crew.threads.length) :
    ∀ i, s'.pc = .join i → i < s'.crew.threads.length := by
  intro j hpc'
  cases hmove with
  | watched _ hthread _ =>
      obtain rfl := SearchPc.join.inj hpc'
      exact (List.getElem?_eq_some_iff.mp hthread).1
  | failed _ hended => rcases hended with rfl | rfl | rfl <;> cases hpc'
  | searcher hmove =>
      have hlength := congrArg List.length hmove.frame.1
      rw [List.length_map, List.length_map] at hlength
      exact hlength ▸ h j hpc'
  | _ => cases hpc'

theorem SearchRun.Healthy.step (h : s.Healthy regex index config)
    (hcallback : config.onResult = true) (hbuffer : 1 ≤ config.lineBuffer.toNat)
    (hplan : searcherThreads config index.flookup.len = .ok plan) (hexact : index.Exact)
    (hfit : BatchesFit index config) (hsmooth : s.Smooth regex index a)
    (hstep : searchStep regex index config a s = some s') : s'.Healthy regex index config := by
  obtain ⟨hdefined, hreturns⟩ :=
    SearchRun.pc_of_smooth_step hplan h.defined h.returns hsmooth hstep
  have hunbroken := hsmooth.unbroken
  have hhonest : ∀ t b, a = .searcher t b → b.Honest index := by
    rintro t b rfl
    exact hunbroken.1
  refine ⟨h.ordered.step hcallback hbuffer hunbroken hstep,
    h.faithful.step hexact hbuffer hfit hstep hhonest, h.inRange.step hstep, hdefined, hreturns,
    (searchMove_of_step hstep).joins h.joins, fun thread hthread => ?_⟩
  cases threadOrigin_of_step hstep hthread with
  | kept hold => exact h.threads thread hold
  | created _ hstart =>
      rw [hstart]
      exact Searcher.healthy_start
  | @moved t b w shared ha hold hmoved =>
      subst ha
      exact (h.faithful.threads _ (List.mem_of_getElem? hold)).step_healthy
        (hunbroken.2 _ hold) hmoved

/-- A thread that has not ended can take a smooth step, and if it has ended it has reported it. -/
theorem SearchRun.Healthy.thread_step (h : s.Healthy regex index config) (hexact : index.Exact)
    (hregex : ∀ line, -1 ≤ (regex line).rc) {t : ℕ} {thread : SearchThread}
    (hthread : s.crew.threads[t]? = some thread) :
    (∃ a s', s.Smooth regex index a ∧ searchStep regex index config a s = some s') ∨
      joinableProgress ≤ thread.2.progress ∧ ∃ metLimit, thread.2.pc = .exited metLimit := by
  obtain ⟨thread, w⟩ := thread
  have hmem := List.mem_of_getElem? hthread
  have hw : w.Healthy := h.threads _ hmem
  by_cases hexited : ∃ metLimit, w.pc = .exited metLimit
  · right
    obtain ⟨metLimit, hpc⟩ := hexited
    refine ⟨?_, metLimit, hpc⟩
    simp only [hw.reports metLimit hpc]
    exact joinableProgress_le_one
  · left
    have hrange : ∀ i, w.pc = .lookup i → thread.LookupInRange index.flookup.len i :=
      fun i hpc => h.inRange.lookupInRange hmem hpc
    obtain ⟨b, hhonest, hbreaks, hsome⟩ := hw.exists_step hexact hregex hrange
      (fun metLimit hpc => hexited ⟨metLimit, hpc⟩) s.crew.shared
    obtain ⟨⟨shared, w'⟩, hmoved⟩ := Option.isSome_iff_exists.mp hsome
    refine ⟨.searcher t b, _, ⟨hhonest, ?_⟩, searchStep_searcher hthread hmoved⟩
    intro other hother
    obtain rfl := Option.some.inj (hthread.symm.trans hother)
    exact hbreaks

/-- **No deadlock**: a healthy search that has not returned can take a smooth step. -/
theorem SearchRun.Healthy.exists_step (h : s.Healthy regex index config)
    (hplan : searcherThreads config index.flookup.len = .ok plan) (hexact : index.Exact)
    (hregex : ∀ line, -1 ≤ (regex line).rc) (hrunning : s.pc ≠ .returned 0) :
    ∃ a s', s.Smooth regex index a ∧ searchStep regex index config a s = some s' := by
  have hproceed : (searchMainStep index config s).isSome →
      ∃ a s', s.Smooth regex index a ∧ searchStep regex index config a s = some s' := by
    intro hsome
    obtain ⟨s', hstep⟩ := Option.isSome_iff_exists.mp hsome
    exact ⟨.proceed, s', trivial, hstep⟩
  cases hpc : s.pc with
  | enter => exact hproceed (by simp only [searchMainStep, hpc, hplan, Option.isSome_some])
  | create i =>
      refine hproceed ?_
      simp only [searchMainStep, hpc]
      split <;> rfl
  | watch i =>
      cases hthread : s.crew.threads[i]? with
      | none => exact hproceed (by simp only [searchMainStep, hpc, hthread, Option.isSome_some])
      | some thread =>
          rcases h.thread_step hexact hregex hthread with hstep | ⟨hprogress, -⟩
          · exact hstep
          · exact hproceed (by
              simp only [searchMainStep, hpc, hthread, if_pos hprogress, Option.isSome_some])
  | join i =>
      have hthread := List.getElem?_eq_getElem (h.joins i hpc)
      rcases h.thread_step hexact hregex hthread with hstep | ⟨-, metLimit, hexited⟩
      · exact hstep
      · exact hproceed (by
          simp only [searchMainStep, hpc, hthread, hexited, Option.isSome_some])
  | returned rc =>
      obtain rfl := h.returns rc hpc
      exact absurd hpc hrunning
  | undefined => exact absurd hpc h.defined

/-- Smooth schedules of a search end. -/
theorem terminates_of_buffer (regex : Pcre2Code) (index : FIndex)
    (hbuffer : 1 ≤ config.lineBuffer.toNat) :
    Terminates (searchStep regex index config) (SearchRun.Smooth regex index) .start := by
  refine (terminates_of_lineBuffer ?_).mono fun _ _ _ => trivial
  rintro hzero
  rw [hzero] at hbuffer
  exact absurd hbuffer (by decide)

/-- Where a smooth search of an exact index is stuck it has returned `0`. -/
theorem returned_of_stuck (hexact : index.Exact) (hthreads : 1 ≤ config.threads.toInt)
    (hbuffer : 1 ≤ config.lineBuffer.toNat) (hcallback : config.onResult = true)
    (hlen : index.flookup.len.toNat < 2 ^ 31) (hfit : BatchesFit index config)
    (hregex : ∀ line, -1 ≤ (regex line).rc)
    (hreach : Reaches (searchStep regex index config) (SearchRun.Smooth regex index) .start s)
    (hstuck : Stuck (searchStep regex index config) (SearchRun.Smooth regex index) s) :
    s.Ordered regex index config ∧ s.pc = .returned 0 := by
  have hlines := hexact.len_eq
  have hplan := searcherThreads_eq_ok hthreads (show 1 ≤ index.flookup.len.toNat by omega) hlen
  have h : s.Healthy regex index config :=
    hreach.invariant (SearchRun.healthy_start _ _ _)
      fun _ _ _ h hsmooth hstep => h.step hcallback hbuffer hplan hexact hfit hsmooth hstep
  refine ⟨h.ordered, ?_⟩
  by_contra hrunning
  obtain ⟨a, s', hsmooth, hstep⟩ := h.exists_step hplan hexact hregex hrunning
  exact hstuck a s' hsmooth hstep

/-- **Total correctness.** When nothing goes wrong, every schedule of the search of an exact index
whose batches fit ends, and it ends with `0` after as many results as there are, up to the limit. -/
theorem search_delivers (hexact : index.Exact) (hthreads : 1 ≤ config.threads.toInt)
    (hbuffer : 1 ≤ config.lineBuffer.toNat) (hcallback : config.onResult = true)
    (hlen : index.flookup.len.toNat < 2 ^ 31) (hfit : BatchesFit index config)
    (hregex : ∀ line, -1 ≤ (regex line).rc) :
    Terminates (searchStep regex index config) (SearchRun.Smooth regex index) .start ∧
      ∀ s, Reaches (searchStep regex index config) (SearchRun.Smooth regex index) .start s →
        Stuck (searchStep regex index config) (SearchRun.Smooth regex index) s →
          s.pc = .returned 0 ∧ s.crew.shared.delivered.length =
            min config.resultLimit.toInt.toNat (searchSequentially regex index config).length := by
  refine ⟨terminates_of_buffer regex index hbuffer, fun s hreach hstuck => ?_⟩
  obtain ⟨hordered, hreturn⟩ :=
    returned_of_stuck hexact hthreads hbuffer hcallback hlen hfit hregex hreach hstuck
  exact ⟨hreturn, (hordered.length_delivered hreturn).2⟩

end

/-- Every smooth search of `pairFile` with two threads delivers both lines. -/
theorem search_delivers_pair :
    Terminates (searchStep anyLine (pairIndex 97) twoSearchers)
        (SearchRun.Smooth anyLine (pairIndex 97)) .start ∧
      ∀ s, Reaches (searchStep anyLine (pairIndex 97) twoSearchers)
          (SearchRun.Smooth anyLine (pairIndex 97)) .start s →
        Stuck (searchStep anyLine (pairIndex 97) twoSearchers)
            (SearchRun.Smooth anyLine (pairIndex 97)) s →
          s.pc = .returned 0 ∧ s.crew.shared.delivered.length = 2 := by
  have hexact : (pairIndex 97).Exact := ⟨by decide, by decide⟩
  have hfit : BatchesFit (pairIndex 97) twoSearchers :=
    batchesFit_of_length_lt hexact (by decide) (by decide)
  have hregex : ∀ line, -1 ≤ (anyLine line).rc := fun _ => show (-1 : Int32) ≤ 1 by decide
  obtain ⟨hends, hreturns⟩ :=
    search_delivers hexact (by decide) (by decide) rfl (by decide) hfit hregex
  refine ⟨hends, fun s hreach hstuck => ?_⟩
  obtain ⟨hreturn, hdelivered⟩ := hreturns s hreach hstuck
  exact ⟨hreturn, hdelivered.trans (by decide +kernel)⟩

end Flashlight.Search
