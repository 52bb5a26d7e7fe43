/-
# The progress of a search thread

The main thread of a search spins until the progress of a thread is close enough to `1`
and only then joins it. A thread publishes at the end of each batch how far that batch
was from the start of its range, and `1` where it ends on purpose.

Two of its failing exits forget to publish anything: the one without match data, where
the progress is still `0`, and the one without memory for a result, where it is that of
the batch before.
-/

import Flashlight.Search.Run

namespace Flashlight.Search

open Flashlight.Math

/-- What a thread has published when it comes to the batch at `i`. -/
def FSearcherThread.progressAt (config : FSearcherThread) (i : UInt64) : ℚ :=
  if i = config.start then 0
  else roundTo 53 (toDouble (i - config.buffer - config.start).toNat / toDouble config.count.toNat)

/-- The thread works on the batch at `i`: its first one, or one that follows another. -/
structure Searcher.InBatch (config : FSearcherThread) (w : Searcher) (i : UInt64) : Prop where
  start_le : i = config.start ∨ config.start.toNat + config.buffer.toNat ≤ i.toNat
  progress_eq : w.progress = config.progressAt i

/-- The published progress is that of the batch before. -/
def Searcher.Reported (config : FSearcherThread) (w : Searcher) : Prop :=
  match w.pc with
  | .enter => w.progress = 0
  | .batch i => w.InBatch config i
  | .lookup i => i < config.count + config.start ∧ w.InBatch config i
  | .line cursor => cursor.i < config.count + config.start ∧ w.InBatch config cursor.i
  | .noMatch cursor => cursor.i < config.count + config.start ∧ w.InBatch config cursor.i
  | .deliver cursor _ => cursor.i < config.count + config.start ∧ w.InBatch config cursor.i
  | .exited _ => True
  | .undefined => True

/-- The regular expression reports an error for the next line. -/
def Cursor.Errs (regex : Pcre2Code) (env : LineEnv) (cursor : Cursor) : Prop :=
  ∃ token rest, tokenize env.tokenAlloc cursor.rest [newline] = .ok (some token, rest) ∧
    MatchFails regex env token

/-- The batch before the one at `i` began at 99.9 percent of the range or behind it. -/
def FSearcherThread.NearEnd (config : FSearcherThread) (i : UInt64) : Prop :=
  i ≠ config.start ∧
    999 * config.count.toNat ≤ 1000 * (i - config.buffer - config.start).toNat

instance (config : FSearcherThread) (i : UInt64) : Decidable (config.NearEnd i) :=
  inferInstanceAs (Decidable (_ ∧ _))

/-- If the thread ends with this step, the main thread will notice. -/
def Searcher.Releases (regex : Pcre2Code) (config : FSearcherThread) (w : Searcher)
    (a : SearcherAction) : Prop :=
  match w.pc, a with
  | .enter, .fault => False
  | .line cursor, .line env =>
      env.resultAlloc = true ∨ cursor.Errs regex env ∨ config.NearEnd cursor.i
  | _, _ => True

/-! ## The published quotients -/

/-- The quotient of two small numbers is never rounded across `0.999`. -/
theorem joinableProgress_le_iff {a c : ℕ} (hle : a ≤ c) (hpos : 0 < c) (hc : c < 2 ^ 32) :
    joinableProgress ≤ roundTo 53 (a / c) ↔ 999 * c ≤ 1000 * a := by
  have hcQ : (0 : ℚ) < c := by exact_mod_cast hpos
  have hcQ' : (c : ℚ) < 2 ^ 32 := by exact_mod_cast hc
  have hquotient : (a : ℚ) / c ≤ 1 := (div_le_one hcQ).mpr (by exact_mod_cast hle)
  -- two different quotients are at least this far apart
  have hgap : ∀ {x y : ℚ}, x ≤ 1 → y ≤ 1 → 1 / (1000 * c) ≤ y - x → x + (x + y) / 2 ^ 53 < y := by
    intro x y hx hy hdist
    have hsmall : (2 : ℚ) / 2 ^ 53 < 1 / (1000 * c) := by
      rw [div_lt_div_iff₀ (by norm_num) (by positivity)]
      linarith
    have hsum : (x + y) / 2 ^ 53 ≤ 2 / 2 ^ 53 := by gcongr; linarith
    linarith
  constructor
  · intro hjoin
    by_contra hlt
    refine absurd hjoin (not_le.mpr ?_)
    rcases Nat.eq_zero_or_pos a with rfl | ha
    · rw [Nat.cast_zero, zero_div, roundTo_zero]
      exact roundTo_pos (by norm_num) (by norm_num)
    · have hdist : 1 / (1000 * c) ≤ (999 / 1000 : ℚ) - a / c := by
        have hnat : (1000 * a + 1 : ℚ) ≤ 999 * c := by exact_mod_cast (by omega)
        rw [div_sub_div _ _ (by norm_num) hcQ.ne', div_le_div_iff_of_pos_right (by positivity)]
        linarith
      exact roundTo_lt_roundTo (by positivity) (by norm_num)
        (hgap hquotient (by norm_num) hdist)
  · intro hnear
    rcases hnear.eq_or_lt with heq | hlt
    · have hsame : (a : ℚ) / c = 999 / 1000 := by
        rw [div_eq_div_iff hcQ.ne' (by norm_num)]
        exact_mod_cast (by omega : a * 1000 = 999 * c)
      rw [joinableProgress, hsame]
    · have hdist : 1 / (1000 * c) ≤ (a / c : ℚ) - 999 / 1000 := by
        have hnat : (999 * c + 1 : ℚ) ≤ 1000 * a := by exact_mod_cast hlt
        rw [div_sub_div _ _ hcQ.ne' (by norm_num), mul_comm (c : ℚ) 1000,
          div_le_div_iff_of_pos_right (by positivity)]
        linarith
      have ha : 0 < a := by omega
      exact (roundTo_lt_roundTo (by norm_num) (by positivity)
        (hgap (by norm_num) hquotient hdist)).le

/-- `1` is close enough. -/
theorem joinableProgress_le_one : joinableProgress ≤ 1 := by
  have hone : roundTo 53 ((1 : ℕ) : ℚ) = (1 : ℕ) := roundTo_natCast (by norm_num)
  have h := (joinableProgress_le_iff (le_refl 1) (by norm_num) (by norm_num)).mpr (by norm_num)
  rw [Nat.cast_one, div_one, ← Nat.cast_one, hone] at h
  exact_mod_cast h

theorem not_joinableProgress_le_zero : ¬ joinableProgress ≤ 0 :=
  not_le.mpr (roundTo_pos (by norm_num) (by norm_num))

section

variable {regex : Pcre2Code} {index : FIndex} {config : FSearcherThread}
  {shared shared' : SearchShared} {w w' : Searcher} {a : SearcherAction} {i : UInt64}

/-- What a thread in a batch has published is close enough to `1` exactly behind 99.9
percent of the range. -/
theorem Searcher.InBatch.joinable_iff (h : w.InBatch config i) (hbounded : config.Bounded)
    (hcount : config.count.toNat < 2 ^ 32) (hi : i < config.count + config.start) :
    joinableProgress ≤ w.progress ↔ config.NearEnd i := by
  rw [h.progress_eq, FSearcherThread.progressAt, FSearcherThread.NearEnd]
  split
  · next hstart => exact iff_of_false not_joinableProgress_le_zero fun hnear => hnear.1 hstart
  · next hstart =>
      have hlow := h.start_le.resolve_left hstart
      rw [hbounded.lt_end_iff] at hi
      have hsub : (i - config.buffer - config.start).toNat =
          i.toNat - config.buffer.toNat - config.start.toNat := by
        have hbuffer : (i - config.buffer).toNat = i.toNat - config.buffer.toNat :=
          UInt64.toNat_sub_of_le _ _ (UInt64.le_iff_toNat_le.mpr (by omega))
        rw [UInt64.toNat_sub_of_le _ _ (UInt64.le_iff_toNat_le.mpr (by omega)), hbuffer]
      rw [toDouble_eq (by omega), toDouble_eq (by omega),
        joinableProgress_le_iff (by omega) (by omega) hcount]
      exact (and_iff_right hstart).symm

/-- At the end of a batch the thread publishes where the batch began. -/
theorem Searcher.InBatch.nextBatch (h : w.InBatch config i) (hbounded : config.Bounded)
    (hi : i < config.count + config.start) :
    (w.nextBatch config i).InBatch config (i + config.buffer) := by
  have hnext := hbounded.toNat_next hi
  have hlow : config.start.toNat ≤ i.toNat := by
    rcases h.start_le with rfl | hle
    · exact le_rfl
    · omega
  refine ⟨Or.inr (by omega), ?_⟩
  rw [FSearcherThread.progressAt]
  split
  · next hstart =>
      -- the batch was empty, at the start of the range
      have hfirst : i = config.start := by
        apply UInt64.toNat_inj.mp
        rw [← hstart] at hlow ⊢
        omega
      simp [Searcher.nextBatch, hfirst, toDouble]
  · simp [Searcher.nextBatch]

/-- **A step keeps the report.** -/
theorem Searcher.Reported.step (h : w.Reported config) (hbounded : config.Bounded)
    (hmove : SearcherMove regex index config shared w a shared' w') : w'.Reported config := by
  cases hmove with
  | entered hpc =>
      simp only [Searcher.Reported, hpc] at h
      exact ⟨Or.inl rfl, by rw [FSearcherThread.progressAt, if_pos rfl]; exact h⟩
  | fault _ => exact trivial
  | metLimit _ _ => exact trivial
  | batchesDone _ _ => exact trivial
  | batch hpc hi _ =>
      simp only [Searcher.Reported, hpc] at h
      exact ⟨hi, h.start_le, h.progress_eq⟩
  | lookup hpc _ =>
      simp only [Searcher.Reported, hpc] at h
      exact ⟨h.1, h.2.start_le, h.2.progress_eq⟩
  | lookupFailed _ _ hended => rcases hended with rfl | rfl <;> exact trivial
  | linesDone hpc _ =>
      simp only [Searcher.Reported, hpc] at h
      exact h.2.nextBatch hbounded h.1
  | cutShort hpc _ _ hended =>
      simp only [Searcher.Reported, hpc] at h
      rcases hended with rfl | ⟨-, rfl⟩
      · exact h.2.nextBatch hbounded h.1
      · exact trivial
  | emptyLine hpc _ _ _ =>
      simp only [Searcher.Reported, hpc] at h
      exact ⟨h.1, h.2.start_le, h.2.progress_eq⟩
  | @matched cursor env str token hpc _ _ _ =>
      simp only [Searcher.Reported, hpc] at h
      have hstay : ∀ {v : Searcher}, v.progress = w.progress → v.InBatch config cursor.i :=
        fun heq => ⟨h.2.start_le, heq.trans h.2.progress_eq⟩
      rw [Searcher.matched]
      simp only
      split
      · exact trivial
      · split
        · exact ⟨h.1, hstay rfl⟩
        · split
          · exact trivial
          · split
            · exact ⟨h.1, hstay rfl⟩
            · exact ⟨h.1, hstay rfl⟩
  | passed hpc _ =>
      simp only [Searcher.Reported, hpc] at h
      exact ⟨h.1, h.2.start_le, h.2.progress_eq⟩
  | delivered hpc _ =>
      simp only [Searcher.Reported, hpc] at h
      exact ⟨h.1, h.2.start_le, h.2.progress_eq⟩

/-- A thread that ends with a line has either met an error of the regular expression, or
has no memory for the result and keeps its progress. -/
theorem Searcher.of_matched_exited {env : LineEnv} {line : List UInt8} {cursor : Cursor}
    {metLimit : Bool} (hexit : (w.matched regex config env line cursor).pc = .exited metLimit) :
    MatchFails regex env line ∧ (w.matched regex config env line cursor).progress = 1 ∨
      ¬ MatchFails regex env line ∧ env.resultAlloc = false ∧
        (w.matched regex config env line cursor).progress = w.progress := by
  rw [Searcher.matched] at hexit ⊢
  simp only at hexit ⊢
  by_cases hfails : MatchFails regex env line
  · rw [if_pos hfails]
    exact Or.inl ⟨hfails, rfl⟩
  · rw [if_neg hfails] at hexit ⊢
    split at hexit
    · cases hexit
    · next hrc =>
        rw [if_neg hrc]
        split at hexit
        · next halloc =>
            rw [if_pos halloc]
            exact Or.inr ⟨hfails, halloc, rfl⟩
        · split at hexit <;> cases hexit

theorem Searcher.of_cutOff_exited {env : LineEnv} {cursor : Cursor} {metLimit : Bool}
    (hexit : (w.cutOff regex config env cursor).pc = .exited metLimit) :
    cursor.Errs regex env ∧ (w.cutOff regex config env cursor).progress = 1 ∨
      ¬ cursor.Errs regex env ∧ env.resultAlloc = false ∧
        (w.cutOff regex config env cursor).progress = w.progress := by
  rw [Searcher.cutOff] at hexit ⊢
  split at hexit
  · cases hexit
  · cases hexit
  · next token rest htokenize =>
      have herrs : cursor.Errs regex env ↔ MatchFails regex env token := by
        constructor
        · rintro ⟨other, rest', hother, hfails⟩
          rw [htokenize] at hother
          obtain ⟨heq, -⟩ := Prod.mk.inj (Except.ok.inj hother)
          exact Option.some.inj heq ▸ hfails
        · intro hfails
          exact ⟨token, rest, htokenize, hfails⟩
      split at hexit
      · cases hexit
      · next hline =>
          simp only [if_neg hline, herrs]
          exact Searcher.of_matched_exited hexit

/-- All other exits publish `1`. -/
theorem SearcherMove.progress_of_exited
    (hmove : SearcherMove regex index config shared w a shared' w') {metLimit : Bool}
    (hexit : w'.pc = .exited metLimit) (henter : w.pc ≠ .enter)
    (hline : ∀ cursor, w.pc ≠ .line cursor) : w'.progress = 1 := by
  cases hmove with
  | fault hpc => exact absurd hpc henter
  | metLimit _ _ => rfl
  | batchesDone _ _ => rfl
  | lookupFailed _ _ hended =>
      rcases hended with rfl | rfl
      · rfl
      · cases hexit
  | entered hpc => exact absurd hpc henter
  | batch _ _ _ => cases hexit
  | lookup _ _ => cases hexit
  | linesDone hpc _ => exact absurd hpc (hline _)
  | cutShort hpc _ _ _ => exact absurd hpc (hline _)
  | emptyLine hpc _ _ _ => exact absurd hpc (hline _)
  | matched hpc _ _ _ => exact absurd hpc (hline _)
  | passed _ _ => cases hexit
  | delivered _ _ => cases hexit

/-- **A thread that ends** releases the main thread exactly if the step meets the
condition. -/
theorem Searcher.Reported.released_iff (h : w.Reported config) (hbounded : config.Bounded)
    (hcount : config.count.toNat < 2 ^ 32)
    (hstep : searcherStep regex index config a shared w = some (shared', w')) {metLimit : Bool}
    (hexit : w'.pc = .exited metLimit) :
    joinableProgress ≤ w'.progress ↔ w.Releases regex config a := by
  by_cases henter : w.pc = .enter
  · simp only [searcherStep, henter] at hstep
    simp only [Searcher.Reported, henter] at h
    cases a with
    | proceed =>
        obtain ⟨-, rfl⟩ := Prod.mk.inj (Option.some.inj hstep)
        cases hexit
    | fault =>
        obtain ⟨-, rfl⟩ := Prod.mk.inj (Option.some.inj hstep)
        simp only [Searcher.Releases, henter, h]
        exact iff_of_false not_joinableProgress_le_zero id
    | lookup env => cases hstep
    | line env => cases hstep
  by_cases hline : ∃ cursor, w.pc = .line cursor
  · obtain ⟨cursor, hpc⟩ := hline
    simp only [Searcher.Reported, hpc] at h
    obtain ⟨env, rfl, rfl⟩ := exists_cutOff_of_step hpc hstep
    simp only [Searcher.Releases, hpc]
    rcases Searcher.of_cutOff_exited hexit with ⟨herrs, hone⟩ | ⟨herrs, halloc, hsame⟩
    · rw [hone]
      exact iff_of_true joinableProgress_le_one (Or.inr (Or.inl herrs))
    · rw [hsame, h.2.joinable_iff hbounded hcount h.1]
      simp [halloc, herrs]
  · rw [(searcherMove_of_step hstep).progress_of_exited hexit henter (not_exists.mp hline)]
    refine iff_of_true joinableProgress_le_one ?_
    unfold Searcher.Releases
    split
    · next hpc => exact absurd hpc henter
    · next hpc => exact absurd ⟨_, hpc⟩ hline
    · trivial

end

/-! ## All threads of a search -/

/-- The threads of a search stay inside the index, and those that were created have
published their progress. -/
structure SearchRun.Reported (s : SearchRun) : Prop where
  planned : ∀ thread ∈ s.plan, thread.Bounded ∧ thread.count.toNat < 2 ^ 32
  created : ∀ thread ∈ s.crew.threads, thread.1.Bounded ∧ thread.1.count.toNat < 2 ^ 32 ∧
    thread.2.Reported thread.1

section

variable {regex : Pcre2Code} {index : FIndex} {config : FSearcher} {s s' : SearchRun}
  {a : SearchAction}

theorem SearchRun.reported_start : SearchRun.start.Reported :=
  ⟨by simp [SearchRun.start], by simp [SearchRun.start]⟩

/-- A step of the search keeps the reports of its threads. -/
theorem SearchRun.Reported.step (h : s.Reported)
    (hstep : searchStep regex index config a s = some s') : s'.Reported := by
  constructor
  case planned =>
    cases searchMove_of_step hstep with
    | planned _ hplan =>
        intro thread hthread
        obtain ⟨hbounded, hend, -⟩ := of_mem_searcherThreads hplan hthread
        have hlen := index.flookup.len.toNat_lt
        exact ⟨hbounded, by omega⟩
    | created _ _ => exact h.planned
    | allCreated _ _ => exact h.planned
    | watched _ _ _ => exact h.planned
    | joined _ _ _ => exact h.planned
    | allJoined _ _ => exact h.planned
    | failed _ _ => exact h.planned
    | searcher _ => exact h.planned
  case created =>
    intro thread hthread
    cases threadOrigin_of_step hstep hthread with
    | kept hold => exact h.created thread hold
    | created hplanned hstart =>
        obtain ⟨hbounded, hcount⟩ := h.planned _ hplanned
        rw [hstart]
        exact ⟨hbounded, hcount, rfl⟩
    | moved _ hold hmoved =>
        obtain ⟨hbounded, hcount, hw⟩ := h.created _ (List.mem_of_getElem? hold)
        exact ⟨hbounded, hcount, hw.step hbounded (searcherMove_of_step hmoved)⟩

theorem reported_of_reaches (hreach : Reaches (searchStep regex index config) (fun _ _ => True)
    .start s) : s.Reported :=
  hreach.invariant SearchRun.reported_start
    fun _ _ _ h _ hstep => h.step hstep

/-- If a thread ends with this step, the main thread will notice. -/
def SearchRun.Releases (regex : Pcre2Code) (s : SearchRun) (a : SearchAction) : Prop :=
  ∀ t b, a = .searcher t b → ∀ thread ∈ s.crew.threads[t]?, thread.2.Releases regex thread.1 b

/-- The main thread can join every thread that has ended. -/
def SearchRun.Joinable (s : SearchRun) : Prop :=
  ∀ (thread : SearchThread) (metLimit : Bool), thread ∈ s.crew.threads →
    thread.2.pc = .exited metLimit → joinableProgress ≤ thread.2.progress

/-- A step of the search that meets the condition leaves no thread behind. -/
theorem SearchRun.Joinable.step (h : s.Joinable) (hreported : s.Reported)
    (hreleases : s.Releases regex a) (hstep : searchStep regex index config a s = some s') :
    s'.Joinable := by
  intro thread metLimit hthread hexit
  cases threadOrigin_of_step hstep hthread with
  | kept hold => exact h thread metLimit hold hexit
  | created _ hstart =>
      rw [hstart] at hexit
      cases hexit
  | moved ha hold hmoved =>
      obtain ⟨hbounded, hcount, hw⟩ := hreported.created _ (List.mem_of_getElem? hold)
      exact (hw.released_iff hbounded hcount hmoved hexit).mpr (hreleases _ _ ha _ hold)

/-- While every step meets the condition, no thread is left behind. -/
theorem joinable_of_reaches (hreach : Reaches (searchStep regex index config)
    (SearchRun.Releases regex) .start s) : s.Joinable := by
  have hstart : SearchRun.start.Reported ∧ SearchRun.start.Joinable :=
    ⟨SearchRun.reported_start, by simp [SearchRun.Joinable, SearchRun.start]⟩
  have hkeep : ∀ (s : SearchRun) a s', s.Reported ∧ s.Joinable → s.Releases regex a →
      searchStep regex index config a s = some s' → s'.Reported ∧ s'.Joinable := by
    rintro s a s' ⟨hreported, hjoinable⟩ hreleases hstep
    exact ⟨hreported.step hstep, hjoinable.step hreported hreleases hstep⟩
  exact (hreach.invariant hstart hkeep).2

end

end Flashlight.Search
