/-
# Lines that hide other lines

Two files that differ in one line only should be searched alike in all other lines. They
are, except behind that line in its batch: if the line hides what follows in one of the
files and not in the other, a later line of the batch that matches is delivered for one
file only.
-/

import Flashlight.Search.Shown

namespace Flashlight.Search

open Flashlight.Math
open scoped List

/-! ## Searches without failures -/

/-- No call of a search thread fails in the step, and no read is short. -/
def SearchRun.Unbroken (regex : Pcre2Code) (index : FIndex) (s : SearchRun) : SearchAction → Prop
  | .searcher t b => b.Honest index ∧
      ∀ thread ∈ s.crew.threads[t]?, ¬ thread.2.Breaks regex index thread.1 b
  | _ => True

instance (regex : Pcre2Code) (index : FIndex) (s : SearchRun) (a : SearchAction) :
    Decidable (s.Unbroken regex index a) :=
  match a with
  | .searcher t b => inferInstanceAs (Decidable (b.Honest index ∧
      ∀ thread ∈ s.crew.threads[t]?, ¬ thread.2.Breaks regex index thread.1 b))
  | .proceed => .isTrue trivial
  | .fault => .isTrue trivial
  | .invalidRegex => .isTrue trivial

/-- What the threads of the search have found is exact. -/
structure SearchRun.Exact (regex : Pcre2Code) (index : FIndex) (config : FSearcher)
    (s : SearchRun) : Prop where
  inv : s.Inv regex index config
  threads : ∀ thread ∈ s.crew.threads, thread.2.Exact regex index thread.1

/-- Line `k` was passed to the callback. -/
def SearchRun.Delivers (s : SearchRun) (k : ℕ) : Prop :=
  ∃ result ∈ s.crew.shared.delivered, result.lineNumber.toNat = k + 1

/-- Line `k` is shown by one of the threads, and matches. -/
def FoundBy (regex : Pcre2Code) (plan : List FSearcherThread) (bytes : List UInt8) (k : ℕ) : Prop :=
  (∃ thread ∈ plan, k ∈ thread.shown bytes) ∧ Accepts regex (tokenAt bytes k)

section

variable {regex : Pcre2Code} {index : FIndex} {config : FSearcher} {s s' : SearchRun}
  {a : SearchAction} {plan : List FSearcherThread}

theorem SearchRun.Exact.step (h : s.Exact regex index config) (hcallback : config.onResult = true)
    (hexact : index.Exact) (hbuffer : 1 ≤ config.lineBuffer.toNat)
    (hunbroken : s.Unbroken regex index a) (hstep : searchStep regex index config a s = some s') :
    s'.Exact regex index config := by
  have hhonest : ∀ t b, a = .searcher t b → b.Honest index := by
    rintro t b rfl
    exact hunbroken.1
  refine ⟨h.inv.step (searchMove_of_step hstep) hhonest, fun thread hthread => ?_⟩
  cases threadOrigin_of_step hstep hthread with
  | kept hold => exact h.threads thread hold
  | created _ hstart =>
      rw [hstart]
      exact Searcher.exact_start _ _ _
  | @moved t b w shared ha hold hmoved =>
      subst ha
      have hmem := List.mem_of_getElem? hold
      obtain ⟨hplan, hconfig⟩ := h.inv.mem_plan hmem
      have hinside := inside_of_mem_plan hexact hbuffer hplan hconfig
      obtain ⟨-, -, -, -, hresult⟩ := of_mem_searcherThreads hplan hconfig
      exact (h.threads _ hmem).step (hresult.trans hcallback) hinside.bounded hinside.buffer
        (h.inv.crew.threads _ hmem).2.2 hunbroken.1 (hunbroken.2 _ hold) hmoved

theorem exact_of_reaches (hcallback : config.onResult = true) (hexact : index.Exact)
    (hbuffer : 1 ≤ config.lineBuffer.toNat)
    (hreach : Reaches (searchStep regex index config) (SearchRun.Unbroken regex index) .start s) :
    s.Exact regex index config := by
  have hstart : SearchRun.start.Exact regex index config :=
    ⟨SearchRun.inv_start _ _ _, by simp [SearchRun.start]⟩
  exact hreach.invariant hstart
    fun _ _ _ h hunbroken hstep => h.step hcallback hexact hbuffer hunbroken hstep

/-- The threads together show every line at most once. -/
theorem sum_length_shown_le (hexact : index.Exact) (hbuffer : 1 ≤ config.lineBuffer.toNat)
    (hplan : searcherThreads config index.flookup.len = .ok plan) :
    (plan.map fun thread => (thread.shown index.target.bytes).length).sum ≤
      newlineCount index.target.bytes := by
  have hinside : ∀ thread ∈ plan, thread.Inside index :=
    fun thread hthread => inside_of_mem_plan hexact hbuffer hplan hthread
  have hpairwise : (plan.flatMap fun thread => thread.shown index.target.bytes).Pairwise
      (· < ·) := by
    refine List.pairwise_flatMap.mpr
      ⟨fun thread hthread => (hinside thread hthread).pairwise_shown _, ?_⟩
    refine (pairwise_searcherThreads hplan).imp_of_mem fun {x y} hx hy hxy i hi k hk => ?_
    have hi := (hinside x hx).of_mem_shown hi
    have hk := (hinside y hy).of_mem_shown hk
    omega
  have hsubset : (plan.flatMap fun thread => thread.shown index.target.bytes) ⊆
      List.range (newlineCount index.target.bytes) := by
    intro k hk
    obtain ⟨thread, hthread, hk⟩ := List.mem_flatMap.mp hk
    exact List.mem_range.mpr ((hinside thread hthread).of_mem_shown hk).2.2
  have hle := (hpairwise.nodup.subperm hsubset).length_le
  rwa [List.length_flatMap, List.length_range] at hle

/-- A thread finds no more than it shows. -/
theorem SearchRun.Exact.length_accepted_le (h : s.Exact regex index config)
    (hexact : index.Exact) (hbuffer : 1 ≤ config.lineBuffer.toNat) {thread : SearchThread}
    (hthread : thread ∈ s.crew.threads) :
    (accepted regex (thread.1.tokens index)).length ≤
      (thread.1.shown index.target.bytes).length := by
  obtain ⟨hplan, hconfig⟩ := h.inv.mem_plan hthread
  rw [(inside_of_mem_plan hexact hbuffer hplan hconfig).tokens_eq hexact]
  exact (List.length_filter_le _ _).trans (List.length_map _).le

/-- When a search without failures returns, and the limit leaves room for all lines, every
thread has delivered all that it has found. -/
theorem SearchRun.Exact.sent_eq (h : s.Exact regex index config) (hexact : index.Exact)
    (hbuffer : 1 ≤ config.lineBuffer.toNat)
    (hlimit : (newlineCount index.target.bytes : ℤ) ≤ config.resultLimit.toInt)
    (hreturn : s.pc = .returned 0) {thread : SearchThread} (hthread : thread ∈ s.crew.threads) :
    thread.2.sent.map FSearchResult.line = accepted regex (thread.1.tokens index) := by
  obtain ⟨hplan, hthreads, hexited⟩ := h.inv.of_returned hreturn
  have hsublist : ∀ other ∈ s.crew.threads,
      (other.2.sent.map FSearchResult.line).Sublist (accepted regex (other.1.tokens index)) := by
    intro other hother
    obtain ⟨metLimit, hpc⟩ := hexited other hother
    exact ((h.threads other hother).sent hpc).1
  by_contra hne
  obtain ⟨metLimit, hpc⟩ := hexited thread hthread
  have hmet : metLimit = true := by
    by_contra hfalse
    exact hne (((h.threads thread hthread).sent hpc).2 (by simpa using hfalse))
  -- it has stopped on the limit, before all that there is to find was delivered
  have hreached := h.inv.crew.met thread hthread (hmet ▸ hpc)
  rw [Int32.le_iff_toInt_le, h.inv.crew.count] at hreached
  have hless : (s.crew.threads.map fun other => other.2.sent.length).sum <
      (s.crew.threads.map fun other => (other.1.shown index.target.bytes).length).sum := by
    refine List.sum_lt_sum _ _ (fun other hother => ?_) ⟨thread, hthread, ?_⟩
    · have hle := (hsublist other hother).length_le
      rw [List.length_map] at hle
      exact hle.trans (h.length_accepted_le hexact hbuffer hother)
    · have hlt : (thread.2.sent.map FSearchResult.line).length <
          (accepted regex (thread.1.tokens index)).length :=
        lt_of_le_of_ne (hsublist thread hthread).length_le
          fun heq => hne ((hsublist thread hthread).eq_of_length heq)
      rw [List.length_map] at hlt
      exact lt_of_lt_of_le hlt (h.length_accepted_le hexact hbuffer hthread)
  have hshown := sum_length_shown_le hexact hbuffer hplan
  have hmaps : (s.plan.map fun config => (config.shown index.target.bytes).length).sum =
      (s.crew.threads.map fun other => (other.1.shown index.target.bytes).length).sum := by
    rw [← hthreads, List.map_map]
    rfl
  have hdelivered := h.inv.crew.delivered.length_eq
  rw [List.length_flatMap] at hdelivered
  omega

/-- **What is delivered** are the lines that are shown and match. -/
theorem SearchRun.Exact.delivers_iff (h : s.Exact regex index config) (hexact : index.Exact)
    (hbuffer : 1 ≤ config.lineBuffer.toNat)
    (hlimit : (newlineCount index.target.bytes : ℤ) ≤ config.resultLimit.toInt)
    (hreturn : s.pc = .returned 0) (k : ℕ) :
    s.Delivers k ↔ FoundBy regex s.plan index.target.bytes k := by
  obtain ⟨hplan, hthreads, -⟩ := h.inv.of_returned hreturn
  have hlen := index.flookup.len.toNat_lt
  rw [hexact.len_eq] at hlen
  have hsent : ∀ thread ∈ s.crew.threads, thread.2.sent.map FSearchResult.line =
      accepted regex ((thread.1.shown index.target.bytes).map (shownLine index.target.bytes)) := by
    intro thread hthread
    obtain ⟨-, hconfig⟩ := h.inv.mem_plan hthread
    rw [h.sent_eq hexact hbuffer hlimit hreturn hthread,
      (inside_of_mem_plan hexact hbuffer hplan hconfig).tokens_eq hexact]
  have hnumber : ∀ m < newlineCount index.target.bytes,
      (shownLine index.target.bytes m).1.toNat = m + 1 :=
    fun m hm => UInt64.toNat_ofNat_of_lt' (by simp only [UInt64.size]; omega)
  constructor
  · rintro ⟨result, hresult, hk⟩
    obtain ⟨thread, hthread, hmem⟩ := List.mem_flatMap.mp (h.inv.crew.delivered.subset hresult)
    obtain ⟨-, hconfig⟩ := h.inv.mem_plan hthread
    have hline := List.mem_map_of_mem (f := FSearchResult.line) hmem
    rw [hsent thread hthread] at hline
    obtain ⟨hline, haccepts⟩ := List.mem_filter.mp hline
    obtain ⟨m, hm, heq⟩ := List.mem_map.mp hline
    have hlt := ((inside_of_mem_plan hexact hbuffer hplan hconfig).of_mem_shown hm).2.2
    obtain rfl : m = k := by
      have hfirst := hnumber m hlt
      rw [heq] at hfirst
      have hsame : result.line.1.toNat = k + 1 := hk
      omega
    rw [← heq] at haccepts
    exact ⟨⟨thread.1, hconfig, hm⟩, of_decide_eq_true haccepts⟩
  · rintro ⟨⟨config', hconfig, hk⟩, haccepts⟩
    rw [← hthreads] at hconfig
    obtain ⟨thread, hthread, rfl⟩ := List.mem_map.mp hconfig
    have hmem : shownLine index.target.bytes k ∈ thread.2.sent.map FSearchResult.line := by
      rw [hsent thread hthread]
      exact List.mem_filter.mpr ⟨List.mem_map_of_mem hk, decide_eq_true haccepts⟩
    obtain ⟨result, hresult, hline⟩ := List.mem_map.mp hmem
    obtain ⟨-, hconfig⟩ := h.inv.mem_plan hthread
    have hlt := ((inside_of_mem_plan hexact hbuffer hplan hconfig).of_mem_shown hk).2.2
    refine ⟨result, h.inv.crew.delivered.symm.subset
      (List.mem_flatMap.mpr ⟨thread, hthread, hresult⟩), ?_⟩
    rw [← hnumber k hlt, ← hline]
    rfl

/-! ## Two files -/

/-- The files have as many lines, and they are the same except perhaps line `j`. -/
structure DifferIn (bytes₁ bytes₂ : List UInt8) (j : ℕ) : Prop where
  count_eq : newlineCount bytes₁ = newlineCount bytes₂
  line_eq : ∀ k < newlineCount bytes₁, k ≠ j → line isNewline bytes₁ k = line isNewline bytes₂ k

/-- In the batch of line `j`, the two versions of the line hide what follows or do not hide
it in the same way, or there is nothing to find behind the line. -/
def HidesAlike (regex : Pcre2Code) (plan : List FSearcherThread) (bytes₁ bytes₂ : List UInt8)
    (j : ℕ) : Prop :=
  ∀ thread ∈ plan, ∀ batch ∈ thread.batches thread.start, batch.1.toNat ≤ j →
    j < batch.1.toNat + batch.2.toNat → j < newlineCount bytes₁ →
    (Hides (line isNewline bytes₁ j) ↔ Hides (line isNewline bytes₂ j)) ∨
      ∀ k, j < k → k < batch.1.toNat + batch.2.toNat → k < newlineCount bytes₁ →
        (∀ m, batch.1.toNat ≤ m → m < k → m ≠ j → ¬ Hides (line isNewline bytes₁ m)) →
        tokenAt bytes₁ k = [] ∨ ¬ Accepts regex (tokenAt bytes₁ k)

variable {bytes bytes₁ bytes₂ : List UInt8} {j k : ℕ} {thread : FSearcherThread}
  {batch : UInt64 × UInt64}

theorem foundBy_iff : FoundBy regex plan bytes k ↔ ∃ thread ∈ plan,
    ∃ batch ∈ thread.batches thread.start, (batch.1.toNat ≤ k ∧
      k < batch.1.toNat + batch.2.toNat ∧ k < newlineCount bytes) ∧
      (∀ m, batch.1.toNat ≤ m → m < k → ¬ Hides (line isNewline bytes m)) ∧
      tokenAt bytes k ≠ [] ∧ Accepts regex (tokenAt bytes k) := by
  constructor
  · rintro ⟨⟨thread, hthread, hk⟩, haccepts⟩
    obtain ⟨batch, hbatch, hk⟩ := List.mem_flatMap.mp hk
    obtain ⟨hrange, hclear, htoken⟩ := mem_batchShown.mp hk
    exact ⟨thread, hthread, batch, hbatch, hrange, hclear, htoken, haccepts⟩
  · rintro ⟨thread, hthread, batch, hbatch, hrange, hclear, htoken, haccepts⟩
    exact ⟨⟨thread, hthread, List.mem_flatMap.mpr
      ⟨batch, hbatch, mem_batchShown.mpr ⟨hrange, hclear, htoken⟩⟩⟩, haccepts⟩

/-- A line that is found in a batch is not hidden there. -/
theorem FoundBy.clear (h : FoundBy regex plan bytes k)
    (hinside : ∀ thread ∈ plan, thread.Bounded ∧ 0 < thread.buffer.toNat)
    (hapart : plan.Pairwise fun x y => x.start.toNat + x.count.toNat ≤ y.start.toNat)
    (hthread : thread ∈ plan) (hbatch : batch ∈ thread.batches thread.start)
    (hlow : batch.1.toNat ≤ k) (hhigh : k < batch.1.toNat + batch.2.toNat) :
    ∀ m, batch.1.toNat ≤ m → m < k → ¬ Hides (line isNewline bytes m) := by
  obtain ⟨other, hother, batch', hbatch', ⟨hlow', hhigh', -⟩, hclear, -, -⟩ := foundBy_iff.mp h
  obtain ⟨hbounded, hbuffer⟩ := hinside thread hthread
  obtain ⟨hbounded', hbuffer'⟩ := hinside other hother
  have hrange := hbounded.of_mem_batches hbuffer hbatch
  have hrange' := hbounded'.of_mem_batches hbuffer' hbatch'
  -- ranges do not overlap, nor do batches
  obtain rfl : thread = other := by
    refine eq_of_pairwise_apart (P := fun x : FSearcherThread => x.Contains k)
      (hapart.imp fun hle => ?_) hthread hother ⟨by omega, by omega⟩ ⟨by omega, by omega⟩
    rintro ⟨⟨-, hx⟩, hy, -⟩
    omega
  obtain rfl : batch = batch' := by
    refine eq_of_pairwise_apart (P := fun x : UInt64 × UInt64 => x.1.toNat ≤ k ∧
      k < x.1.toNat + x.2.toNat) ((hbounded.pairwise_batches hbuffer _).imp fun hle => ?_)
      hbatch hbatch' ⟨hlow, hhigh⟩ ⟨hlow', hhigh'⟩
    rintro ⟨⟨-, hx⟩, hy, -⟩
    omega
  exact hclear

theorem DifferIn.symm (h : DifferIn bytes₁ bytes₂ j) : DifferIn bytes₂ bytes₁ j :=
  ⟨h.count_eq.symm, fun k hk hne => (h.line_eq k (h.count_eq ▸ hk) hne).symm⟩

theorem DifferIn.tokenAt_eq (h : DifferIn bytes₁ bytes₂ j) (hk : k < newlineCount bytes₁)
    (hne : k ≠ j) : tokenAt bytes₁ k = tokenAt bytes₂ k := by
  rw [tokenAt, tokenAt, h.line_eq k hk hne]

/-- The condition does not depend on the order of the files. -/
theorem HidesAlike.symm (hdiffer : DifferIn bytes₁ bytes₂ j)
    (h : HidesAlike regex plan bytes₁ bytes₂ j) : HidesAlike regex plan bytes₂ bytes₁ j := by
  intro thread hthread batch hbatch hlow hhigh hcount
  rw [← hdiffer.count_eq] at hcount
  refine (h thread hthread batch hbatch hlow hhigh hcount).imp Iff.symm fun hnone => ?_
  intro k hjk hk hkcount hclear
  rw [← hdiffer.count_eq] at hkcount
  rw [← hdiffer.tokenAt_eq hkcount (by omega)]
  refine hnone k hjk hk hkcount fun m hm hmk hne => ?_
  rw [hdiffer.line_eq m (by omega) hne]
  exact hclear m hm hmk hne

/-- If the line hides alike, what is found in one file is found in the other. -/
theorem FoundBy.of_hidesAlike (hdiffer : DifferIn bytes₁ bytes₂ j)
    (halike : HidesAlike regex plan bytes₁ bytes₂ j) (hne : k ≠ j)
    (h : FoundBy regex plan bytes₁ k) : FoundBy regex plan bytes₂ k := by
  obtain ⟨thread, hthread, batch, hbatch, ⟨hlow, hhigh, hcount⟩, hclear, htoken, haccepts⟩ :=
    foundBy_iff.mp h
  have hsame := hdiffer.tokenAt_eq hcount hne
  refine foundBy_iff.mpr ⟨thread, hthread, batch, hbatch, ⟨hlow, hhigh, hdiffer.count_eq ▸ hcount⟩,
    fun m hm hmk => ?_, hsame ▸ htoken, hsame ▸ haccepts⟩
  by_cases hmj : m = j
  · subst hmj
    rcases halike thread hthread batch hbatch hm (by omega) (by omega) with hiff | hnone
    · exact fun hhides => hclear m hm hmk (hiff.mpr hhides)
    · rcases hnone k hmk hhigh hcount fun m' hm' hmk' _ => hclear m' hm' hmk' with hempty | hno
      · exact absurd hempty htoken
      · exact absurd haccepts hno
  · rw [← hdiffer.line_eq m (by omega) hmj]
    exact hclear m hm hmk

/-- A line that hides in one file only hides a line that is found in the other. -/
theorem exists_not_foundBy (hdiffer : DifferIn bytes₁ bytes₂ j)
    (hinside : ∀ thread ∈ plan, thread.Bounded ∧ 0 < thread.buffer.toNat)
    (hapart : plan.Pairwise fun x y => x.start.toNat + x.count.toNat ≤ y.start.toNat)
    (hthread : thread ∈ plan) (hbatch : batch ∈ thread.batches thread.start)
    (hlow : batch.1.toNat ≤ j) (hhides : Hides (line isNewline bytes₁ j))
    (hclear : ¬ Hides (line isNewline bytes₂ j)) (hjk : j < k)
    (hhigh : k < batch.1.toNat + batch.2.toNat) (hcount : k < newlineCount bytes₁)
    (hothers : ∀ m, batch.1.toNat ≤ m → m < k → m ≠ j → ¬ Hides (line isNewline bytes₁ m))
    (htoken : tokenAt bytes₁ k ≠ []) (haccepts : Accepts regex (tokenAt bytes₁ k)) :
    ¬ FoundBy regex plan bytes₁ k ∧ FoundBy regex plan bytes₂ k := by
  have hsame := hdiffer.tokenAt_eq hcount (show k ≠ j by omega)
  refine ⟨fun h => ?_, foundBy_iff.mpr ⟨thread, hthread, batch, hbatch,
    ⟨by omega, hhigh, hdiffer.count_eq ▸ hcount⟩, fun m hm hmk => ?_, hsame ▸ htoken,
    hsame ▸ haccepts⟩⟩
  · exact h.clear hinside hapart hthread hbatch (by omega) hhigh j hlow hjk hhides
  · by_cases hmj : m = j
    · exact hmj ▸ hclear
    · rw [← hdiffer.line_eq m (by omega) hmj]
      exact hothers m hm hmk hmj

/-- The same other lines are found exactly if the line hides alike. -/
theorem foundBy_alike_iff (hdiffer : DifferIn bytes₁ bytes₂ j)
    (hinside : ∀ thread ∈ plan, thread.Bounded ∧ 0 < thread.buffer.toNat)
    (hapart : plan.Pairwise fun x y => x.start.toNat + x.count.toNat ≤ y.start.toNat) :
    (∀ k, k ≠ j → (FoundBy regex plan bytes₁ k ↔ FoundBy regex plan bytes₂ k)) ↔
      HidesAlike regex plan bytes₁ bytes₂ j := by
  constructor
  · intro hsame thread hthread batch hbatch hlow hhigh hcount
    refine or_iff_not_imp_left.mpr fun hdiff k hjk hk hkcount hothers => ?_
    by_contra hfinds
    obtain ⟨htoken, haccepts⟩ := not_or.mp hfinds
    have haccepts := not_not.mp haccepts
    by_cases hhides : Hides (line isNewline bytes₁ j)
    · have hclear : ¬ Hides (line isNewline bytes₂ j) :=
        fun h => hdiff (iff_of_true hhides h)
      obtain ⟨hno, hyes⟩ := exists_not_foundBy hdiffer hinside hapart hthread hbatch hlow hhides
        hclear hjk hk hkcount hothers htoken haccepts
      exact hno ((hsame k (by omega)).mpr hyes)
    · have hhides' : Hides (line isNewline bytes₂ j) := by
        by_contra h
        exact hdiff (iff_of_false hhides h)
      have htokens := hdiffer.tokenAt_eq hkcount (show k ≠ j by omega)
      obtain ⟨hno, hyes⟩ := exists_not_foundBy hdiffer.symm hinside hapart hthread hbatch hlow
        hhides' hhides hjk hk (hdiffer.count_eq ▸ hkcount)
        (fun m hm hmk hmj => by
          rw [← hdiffer.line_eq m (by omega) hmj]
          exact hothers m hm hmk hmj)
        (htokens ▸ htoken) (htokens ▸ haccepts)
      exact hno ((hsame k (by omega)).mp hyes)
  · intro halike k hne
    exact ⟨FoundBy.of_hidesAlike hdiffer halike hne,
      FoundBy.of_hidesAlike hdiffer.symm (halike.symm hdiffer) hne⟩

end

/-- **Lines and their neighbours.** Two searches without failures, over two files that
differ in line `j` only, deliver the same other lines exactly if the two versions of the line
hide alike what follows in the batch. -/
theorem delivers_alike_iff (regex : Pcre2Code) {index₁ index₂ : FIndex} (config : FSearcher)
    {j : ℕ} (hexact₁ : index₁.Exact) (hexact₂ : index₂.Exact)
    (hdiffer : DifferIn index₁.target.bytes index₂.target.bytes j)
    (hbuffer : 1 ≤ config.lineBuffer.toNat) (hcallback : config.onResult = true)
    (hlimit : (newlineCount index₁.target.bytes : ℤ) ≤ config.resultLimit.toInt)
    {s₁ s₂ : SearchRun}
    (hreach₁ : Reaches (searchStep regex index₁ config) (SearchRun.Unbroken regex index₁) .start s₁)
    (hreach₂ : Reaches (searchStep regex index₂ config) (SearchRun.Unbroken regex index₂) .start s₂)
    (hreturn₁ : s₁.pc = .returned 0) (hreturn₂ : s₂.pc = .returned 0) :
    (∀ k, k ≠ j → (s₁.Delivers k ↔ s₂.Delivers k)) ↔
      ∀ plan, searcherThreads config index₁.flookup.len = .ok plan →
        HidesAlike regex plan index₁.target.bytes index₂.target.bytes j := by
  have h₁ := exact_of_reaches hcallback hexact₁ hbuffer hreach₁
  have h₂ := exact_of_reaches hcallback hexact₂ hbuffer hreach₂
  obtain ⟨hplan₁, -, -⟩ := h₁.inv.of_returned hreturn₁
  obtain ⟨hplan₂, -, -⟩ := h₂.inv.of_returned hreturn₂
  have hlen : index₁.flookup.len = index₂.flookup.len := by
    apply UInt32.toNat_inj.mp
    rw [hexact₁.len_eq, hexact₂.len_eq, hdiffer.count_eq]
  have hplans : s₂.plan = s₁.plan := by
    rw [← hlen, hplan₁] at hplan₂
    exact (Except.ok.inj hplan₂).symm
  have hinside : ∀ thread ∈ s₁.plan, thread.Bounded ∧ 0 < thread.buffer.toNat := by
    intro thread hthread
    have hinside := inside_of_mem_plan hexact₁ hbuffer hplan₁ hthread
    exact ⟨hinside.bounded, hinside.buffer⟩
  have halike : (∀ k, k ≠ j → (FoundBy regex s₁.plan index₁.target.bytes k ↔
      FoundBy regex s₁.plan index₂.target.bytes k)) ↔
      HidesAlike regex s₁.plan index₁.target.bytes index₂.target.bytes j :=
    foundBy_alike_iff hdiffer hinside (pairwise_searcherThreads hplan₁)
  have hdelivers₁ := h₁.delivers_iff hexact₁ hbuffer hlimit hreturn₁
  have hdelivers₂ := h₂.delivers_iff hexact₂ hbuffer (hdiffer.count_eq ▸ hlimit) hreturn₂
  simp only [hdelivers₁, hdelivers₂, hplans]
  rw [halike]
  constructor
  · intro h plan hplan
    obtain rfl := Except.ok.inj (hplan₁.symm.trans hplan)
    exact h
  · intro h
    exact h s₁.plan hplan₁

theorem differIn_pairFile {first second : UInt8} (hfirst : newlineCount (pairFile first).bytes = 2)
    (hsecond : newlineCount (pairFile second).bytes = 2)
    (hline : line isNewline (pairFile first).bytes 1 = line isNewline (pairFile second).bytes 1) :
    DifferIn (pairFile first).bytes (pairFile second).bytes 0 := by
  refine ⟨hfirst.trans hsecond.symm, fun k hk hne => ?_⟩
  obtain rfl : k = 1 := by omega
  exact hline

/-- A search with one thread and one batch, with room for two results. -/
def pairSearch : FSearcher := ⟨1, 2, 3, true⟩

/-- How a search with these steps for the lines ends: where the main thread is, which lines
were delivered, and whether nothing failed. -/
def pairOutcome (first : UInt8) (lines : List SearcherAction) :
    Option (SearchPc × List UInt64 × Bool) :=
  let steps := [.proceed, .proceed, .lookup (generousEnv 64)] ++ lines ++ [.proceed]
  (runTrace (searchStep anyLine (pairIndex first) pairSearch) ([.proceed, .proceed] ++
    steps.map (.searcher 0 ·) ++ [.proceed, .proceed, .proceed, .proceed]) .start).map fun run =>
      (run.2.pc, run.2.crew.shared.delivered.map FSearchResult.lineNumber,
        run.1.all fun move => decide (move.1.Unbroken anyLine (pairIndex first) move.2))

/-- The steps for two lines that match, and for the empty token behind them. -/
def twoLines : List SearcherAction :=
  [.line ⟨true, false, true⟩, .proceed, .line ⟨true, false, true⟩, .proceed,
    .line ⟨true, false, true⟩, .line ⟨true, false, true⟩]

theorem exists_of_pairOutcome {first : UInt8} {lines : List SearcherAction} {numbers : List UInt64}
    (h : pairOutcome first lines = some (.returned 0, numbers, true)) :
    ∃ s, Reaches (searchStep anyLine (pairIndex first) pairSearch)
      (SearchRun.Unbroken anyLine (pairIndex first)) .start s ∧ s.pc = .returned 0 ∧
      s.crew.shared.delivered.map FSearchResult.lineNumber = numbers := by
  obtain ⟨⟨trace, s⟩, hrun, hpair⟩ := Option.map_eq_some_iff.mp h
  obtain ⟨hreturn, hpair⟩ := Prod.mk.inj hpair
  obtain ⟨hnumbers, hunbroken⟩ := Prod.mk.inj hpair
  exact ⟨s, (run_of_runTrace hrun).reaches_of_forall fun move hmove =>
    of_decide_eq_true (List.all_eq_true.mp hunbroken move hmove), hreturn, hnumbers⟩

/-- The files with the lines `a` and `b`, and `c` and `b`: the second line is delivered for
both. -/
theorem delivers_alike_iff_pair : ∃ s₁ s₂ : SearchRun,
    s₁.crew.shared.delivered.map FSearchResult.lineNumber = [1, 2] ∧
    s₂.crew.shared.delivered.map FSearchResult.lineNumber = [1, 2] ∧
    ∀ k, k ≠ 0 → (s₁.Delivers k ↔ s₂.Delivers k) := by
  obtain ⟨s₁, hreach₁, hreturn₁, hnumbers₁⟩ := exists_of_pairOutcome
    (show pairOutcome 97 twoLines = some (.returned 0, [1, 2], true) by decide +kernel)
  obtain ⟨s₂, hreach₂, hreturn₂, hnumbers₂⟩ := exists_of_pairOutcome
    (show pairOutcome 99 twoLines = some (.returned 0, [1, 2], true) by decide +kernel)
  have hdiffer : DifferIn (pairIndex 97).target.bytes (pairIndex 99).target.bytes 0 :=
    differIn_pairFile (by decide) (by decide) (by decide)
  refine ⟨s₁, s₂, hnumbers₁, hnumbers₂, (delivers_alike_iff anyLine pairSearch
    ⟨by decide, by decide⟩ ⟨by decide, by decide⟩ hdiffer (by decide) rfl (by decide)
    hreach₁ hreach₂ hreturn₁ hreturn₂).mpr ?_⟩
  intro plan hplan thread hthread batch hbatch hlow hhigh hcount
  exact Or.inl (iff_of_false (by decide +kernel) (by decide +kernel))

/-- A zero byte in the first line hides the second one, which is delivered for the other
file. -/
theorem delivers_differ_behind_zero : ∃ s₁ s₂ : SearchRun,
    Reaches (searchStep anyLine (pairIndex 97) pairSearch)
      (SearchRun.Unbroken anyLine (pairIndex 97)) .start s₁ ∧
    Reaches (searchStep anyLine (pairIndex 0) pairSearch)
      (SearchRun.Unbroken anyLine (pairIndex 0)) .start s₂ ∧
    (pairIndex 97).Exact ∧ (pairIndex 0).Exact ∧
    DifferIn (pairIndex 97).target.bytes (pairIndex 0).target.bytes 0 ∧
    s₁.pc = .returned 0 ∧ s₂.pc = .returned 0 ∧ s₁.Delivers 1 ∧ ¬ s₂.Delivers 1 := by
  obtain ⟨s₁, hreach₁, hreturn₁, hnumbers₁⟩ := exists_of_pairOutcome
    (show pairOutcome 97 twoLines = some (.returned 0, [1, 2], true) by decide +kernel)
  obtain ⟨s₂, hreach₂, hreturn₂, hnumbers₂⟩ := exists_of_pairOutcome
    (show pairOutcome 0 [.line ⟨true, false, true⟩, .line ⟨true, false, true⟩] =
      some (.returned 0, [], true) by decide +kernel)
  have hdiffer : DifferIn (pairIndex 97).target.bytes (pairIndex 0).target.bytes 0 :=
    differIn_pairFile (by decide) (by decide) (by decide)
  refine ⟨s₁, s₂, hreach₁, hreach₂, ⟨by decide, by decide⟩, ⟨by decide, by decide⟩, hdiffer,
    hreturn₁, hreturn₂, ?_, ?_⟩
  · obtain ⟨result, hresult, hnumber⟩ := List.mem_map.mp
      (show (2 : UInt64) ∈ s₁.crew.shared.delivered.map FSearchResult.lineNumber by
        rw [hnumbers₁]
        simp)
    exact ⟨result, hresult, by rw [hnumber]; rfl⟩
  · rintro ⟨result, hresult, -⟩
    rw [List.map_eq_nil_iff.mp hnumbers₂] at hresult
    cases hresult

end Flashlight.Search
