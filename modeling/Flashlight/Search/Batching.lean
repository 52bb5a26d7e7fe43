/-
# Which lines a search thread looks up

A thread that is neither stopped by the limit nor disturbed by a failure looks up its
planned batches, one after the other, whatever lines it finds in them. The batch that
would reach beyond the range is shortened by one line too many: the last line of the
range is in no batch, unless the batches fill the range exactly. Nothing is lost only
where that line has no newline.
-/

import Flashlight.Search.Sound
import Flashlight.Search.Tokens

namespace Flashlight.Search

open Flashlight.Math

/-! ## The planned batches -/

/-- Line `k` is in the batch: a first line and a number of lines. -/
def InBatch (batch : UInt64 × UInt64) (k : ℕ) : Prop :=
  batch.1.toNat ≤ k ∧ k < batch.1.toNat + batch.2.toNat

section

variable {config : FSearcherThread}

/-- The batches have every line of the range behind their first one, except the last line
where the buffer does not divide what is left. -/
theorem FSearcherThread.Bounded.exists_inBatch_iff (hbounded : config.Bounded)
    (hbuffer : 0 < config.buffer.toNat) (i : UInt64) (k : ℕ) :
    (∃ batch ∈ config.batches i, InBatch batch k) ↔
      i.toNat ≤ k ∧ k < config.start.toNat + config.count.toNat ∧
        (config.buffer.toNat ∣ config.start.toNat + config.count.toNat - i.toNat ∨
          k + 1 < config.start.toNat + config.count.toNat) := by
  induction i using hbounded.batches_induction hbuffer with
  | hdone i hi =>
      rw [hbounded.lt_end_iff] at hi
      rw [FSearcherThread.batches_eq_nil hi]
      simp only [List.not_mem_nil, false_and, exists_false, false_iff]
      omega
  | hnext i hi ih =>
      have hnext := hbounded.toNat_next hi
      have hend := hbounded.toNat_end
      have hi' := hbounded.lt_end_iff.mp hi
      rw [hbounded.batches_eq_cons hi hbuffer]
      simp only [List.mem_cons, exists_eq_or_imp]
      rw [ih, hnext, InBatch, FSearcherThread.batchSize]
      split
      · next hgt =>
          -- the batch that is shortened is the last one
          rw [gt_iff_lt, UInt64.lt_iff_toNat_lt, hnext, hend] at hgt
          have hsub : (config.count + config.start - i).toNat =
              config.start.toNat + config.count.toNat - i.toNat := by
            rw [UInt64.toNat_sub_of_le _ _ (UInt64.le_iff_toNat_le.mpr (by omega)), hend]
          have hsize : (config.count + config.start - i - 1).toNat =
              config.start.toNat + config.count.toNat - i.toNat - 1 := by
            rw [UInt64.toNat_sub_of_le _ _ (UInt64.le_iff_toNat_le.mpr
              (by rw [hsub, UInt64.toNat_one]; omega)), hsub, UInt64.toNat_one]
          have hdvd : ¬ config.buffer.toNat ∣
              config.start.toNat + config.count.toNat - i.toNat := by
            intro hdvd
            have hle := Nat.le_of_dvd (by omega) hdvd
            omega
          rw [hsize]
          simp only [hdvd, false_or]
          omega
      · next hle =>
          rw [gt_iff_lt, UInt64.lt_iff_toNat_lt, hnext, hend] at hle
          have hdvd : config.buffer.toNat ∣
                config.start.toNat + config.count.toNat - (i.toNat + config.buffer.toNat) ↔
              config.buffer.toNat ∣ config.start.toNat + config.count.toNat - i.toNat := by
            rw [← Nat.sub_sub]
            exact Nat.dvd_sub_iff_left (by omega) (dvd_refl _)
          -- the batch that fills the range
          have hfull : config.start.toNat + config.count.toNat = i.toNat + config.buffer.toNat →
              config.buffer.toNat ∣ config.start.toNat + config.count.toNat - i.toNat :=
            fun heq => ⟨1, by omega⟩
          rw [hdvd]
          simp only
          omega

end

/-! ## The batches of a run -/

/-- A search thread on its own: with each action comes what the other threads have made of
the shared state. -/
def searcherSystem (regex : Pcre2Code) (index : FIndex) (config : FSearcherThread)
    (a : SearcherAction × SearchShared) (w : Searcher) : Option Searcher :=
  (searcherStep regex index config a.1 a.2 w).map Prod.snd

/-- Nothing fails in the step, and the limit is not met. -/
def Searcher.Quiet (regex : Pcre2Code) (index : FIndex) (config : FSearcherThread) (w : Searcher)
    (a : SearcherAction × SearchShared) : Prop :=
  ¬ w.Breaks regex index config a.1 ∧ a.2.resultCount < config.resultLimit

instance (regex : Pcre2Code) (index : FIndex) (config : FSearcherThread) (w : Searcher)
    (a : SearcherAction × SearchShared) : Decidable (w.Quiet regex index config a) :=
  inferInstanceAs (Decidable (_ ∧ _))

/-- The first line and the number of lines that the step passes to `f_index_lookup`. -/
def Searcher.passes (config : FSearcherThread) (w : Searcher) (a : SearcherAction) :
    List (UInt64 × UInt64) :=
  match w.pc, a with
  | .lookup i, .lookup _ => [(i, config.batchSize i)]
  | _, _ => []

/-- What the steps of a run pass to `f_index_lookup`. -/
def passedBatches (config : FSearcherThread)
    (trace : List (Searcher × SearcherAction × SearchShared)) : List (UInt64 × UInt64) :=
  trace.flatMap fun move => move.1.passes config move.2.1

section

variable {regex : Pcre2Code} {index : FIndex} {config : FSearcherThread} {w w' : Searcher}
  {a : SearcherAction} {shared shared' : SearchShared}

/-- With a line the thread stays in its batch, or goes on with the next one. -/
theorem CutMove.batchesLeft_eq {env : LineEnv} {cursor : Cursor}
    (hmove : CutMove regex config env cursor w w') (hpc : w.pc = .line cursor) :
    w'.pc = .undefined ∨ w.batchesLeft config = w'.batchesLeft config := by
  cases hmove with
  | done _ => exact Or.inr (by simp only [Searcher.batchesLeft, Searcher.nextBatch, hpc])
  | undefined => exact Or.inl rfl
  | empty _ _ => exact Or.inr (by simp only [Searcher.batchesLeft, Cursor.advance, hpc])
  | @token str token _ _ _ hfails =>
      refine Or.inr ?_
      obtain ⟨pc, progress, hmatched, heq⟩ :=
        w.matched_eq regex config env token (cursor.advance (afterLine str))
      rw [heq]
      cases hmatched with
      | failed h => exact absurd (Or.inl h) hfails
      | noResult _ haccepts halloc => exact absurd (Or.inr ⟨haccepts, halloc⟩) hfails
      | noMatch _ _ => simp only [Searcher.batchesLeft, Cursor.advance, hpc]
      | deliver _ _ _ _ => simp only [Searcher.batchesLeft, Cursor.advance, hpc]
      | discard _ _ _ _ => simp only [Searcher.batchesLeft, Cursor.advance, hpc]

/-- A quiet step looks up the next batch, or none. -/
theorem Searcher.Quiet.batchesLeft_eq (hquiet : w.Quiet regex index config (a, shared))
    (hbounded : config.Bounded) (hbuffer : 0 < config.buffer.toNat)
    (hrange : ∀ i, w.pc = .lookup i → i < config.count + config.start)
    (hstep : searcherStep regex index config a shared w = some (shared', w')) :
    w'.pc = .undefined ∨
      w.batchesLeft config = w.passes config a ++ w'.batchesLeft config := by
  obtain ⟨hbreaks, hlimit⟩ := hquiet
  have hbelow : ¬ config.resultLimit ≤ shared.resultCount := Int32.not_le.mpr hlimit
  by_cases hline : ∃ cursor, w.pc = .line cursor
  · obtain ⟨cursor, hpc⟩ := hline
    obtain ⟨env, rfl, rfl⟩ := exists_cutOff_of_step hpc hstep
    simp only [Searcher.passes, hpc, List.nil_append]
    exact (cutMove_of_cutOff hpc hbreaks).batchesLeft_eq hpc
  · refine Or.inr ?_
    cases searcherMove_of_step hstep with
    | entered hpc => simp [Searcher.batchesLeft, Searcher.passes, hpc]
    | fault hpc => exact absurd (by simp [Searcher.Breaks, SearcherPc.Breaks, hpc]) hbreaks
    | metLimit _ hmet => exact absurd hmet hbelow
    | batchesDone hpc hi =>
        rw [hbounded.lt_end_iff] at hi
        simp [Searcher.batchesLeft, Searcher.passes, Searcher.leave, hpc,
          FSearcherThread.batches_eq_nil hi]
    | batch hpc _ _ => simp [Searcher.batchesLeft, Searcher.passes, hpc]
    | @lookup i env bytes hpc _ =>
        simp only [Searcher.batchesLeft, Searcher.passes, hpc]
        exact hbounded.batches_eq_cons (hrange i hpc) hbuffer
    | lookupFailed hpc hlookup _ =>
        exact absurd (by simpa [Searcher.Breaks, SearcherPc.Breaks, hpc]) hbreaks
    | linesDone hpc _ => exact absurd ⟨_, hpc⟩ hline
    | cutShort hpc _ _ _ => exact absurd ⟨_, hpc⟩ hline
    | emptyLine hpc _ _ _ => exact absurd ⟨_, hpc⟩ hline
    | matched hpc _ _ _ => exact absurd ⟨_, hpc⟩ hline
    | passed hpc _ => simp [Searcher.batchesLeft, Searcher.passes, hpc]
    | delivered hpc _ => simp [Searcher.batchesLeft, Searcher.passes, hpc]

/-- What a quiet run has passed on and what it has left are the planned batches. -/
theorem passedBatches_append_batchesLeft (hbounded : config.Bounded)
    (hbuffer : 0 < config.buffer.toNat)
    {trace : List (Searcher × SearcherAction × SearchShared)}
    (hrun : Run (searcherSystem regex index config) w trace w')
    (hrange : ∀ i, w.pc = .lookup i → i < config.count + config.start)
    (hquiet : ∀ move ∈ trace, move.1.Quiet regex index config move.2) :
    w'.pc = .undefined ∨
      passedBatches config trace ++ w'.batchesLeft config = w.batchesLeft config := by
  induction hrun with
  | nil w => exact Or.inr rfl
  | @cons w v w' a trace hstep hafter ih =>
      obtain ⟨⟨shared', v'⟩, hinner, rfl⟩ := Option.map_eq_some_iff.mp hstep
      have hmove := searcherMove_of_step hinner
      have hhead := hquiet _ List.mem_cons_self
      rcases hhead.batchesLeft_eq hbounded hbuffer hrange hinner with hpc | hhere
      · -- nothing follows
        cases hafter with
        | nil => exact Or.inl hpc
        | cons hnext _ => simp [searcherSystem, searcherStep, hpc] at hnext
      · refine (ih (fun i hpc => hmove.lookup_lt hpc)
          (fun move hmem => hquiet move (List.mem_cons_of_mem _ hmem))).imp id fun hrest => ?_
        rw [hhere, ← hrest, passedBatches, List.flatMap_cons, List.append_assoc]
        rfl

/-- **Batching visits the range** of a thread exactly if the buffer divides the number of
lines, or the range ends with the index, where the last line has no newline. -/
theorem batching_covers_iff (hindex : config.start.toNat + config.count.toNat ≤
      index.flookup.len.toNat) (hbuffer : 1 ≤ config.buffer.toNat)
    (hbuffer' : config.buffer.toNat < 2 ^ 32)
    {trace : List (Searcher × SearcherAction × SearchShared)}
    (hrun : Run (searcherSystem regex index config) .start trace w)
    (hquiet : ∀ move ∈ trace, move.1.Quiet regex index config move.2)
    (hended : ∃ metLimit, w.pc = .exited metLimit) :
    (∀ k, config.Contains k → k + 1 < index.flookup.len.toNat →
      ∃! j : ℕ, ∃ batch, (passedBatches config trace)[j]? = some batch ∧ InBatch batch k) ↔
    config.buffer.toNat ∣ config.count.toNat ∨
      config.start.toNat + config.count.toNat = index.flookup.len.toNat := by
  have hlen := index.flookup.len.toNat_lt
  have hbounded : config.Bounded := ⟨by omega, hbuffer'⟩
  obtain ⟨metLimit, hpc⟩ := hended
  have hpassed := (passedBatches_append_batchesLeft hbounded hbuffer hrun
    (by simp [Searcher.start]) hquiet).resolve_left (by simp [hpc])
  have hnil : w.batchesLeft config = [] := by simp only [Searcher.batchesLeft, hpc]
  have hall : passedBatches config trace = config.batches config.start := by
    rwa [hnil, List.append_nil] at hpassed
  have hunique : ∀ k, (∃! j : ℕ, ∃ batch, (passedBatches config trace)[j]? = some batch ∧
      InBatch batch k) ↔ config.Contains k ∧ (config.buffer.toNat ∣ config.count.toNat ∨
        k + 1 < config.start.toNat + config.count.toNat) := by
    intro k
    have hapart := hbounded.pairwise_batches hbuffer config.start
    rw [hall, existsUnique_getElem?_iff, hbounded.exists_inBatch_iff hbuffer,
      Nat.add_sub_cancel_left, FSearcherThread.Contains, and_assoc]
    refine hapart.imp fun hle => ?_
    rintro ⟨⟨-, hx⟩, hy, -⟩
    omega
  simp only [hunique]
  constructor
  · intro hcovers
    by_contra hneither
    rw [not_or] at hneither
    obtain ⟨hdvd, hend⟩ := hneither
    have hcount : config.count.toNat ≠ 0 := by
      intro hzero
      rw [hzero] at hdvd
      exact hdvd (dvd_zero _)
    -- the last line of the range
    have hlast := (hcovers (config.start.toNat + config.count.toNat - 1)
      ⟨by omega, by omega⟩ (by omega)).2
    rcases hlast with hlast | hlast
    · exact hdvd hlast
    · omega
  · intro hgood k hk hline
    refine ⟨hk, hgood.imp id fun hend => ?_⟩
    omega

end

/-- What happens to a thread that looks up its only batch, in which there are `lines` lines to
cut off, while nobody has found a result. -/
def batchSteps (lines : ℕ) : List (SearcherAction × SearchShared) :=
  let actions : List SearcherAction := [.proceed, .proceed, .lookup (generousEnv 16)] ++
    List.replicate lines (.line ⟨true, false, true⟩) ++ [.proceed]
  actions.map fun a => (a, .start)

/-- The thread whose range is the whole index looks its line up. -/
theorem batching_covers_iff_line : ∃ trace w,
    Run (searcherSystem anyLine lineIndex ⟨0, 2, 2, 1, false⟩) .start trace w ∧
    ∀ k, FSearcherThread.Contains ⟨0, 2, 2, 1, false⟩ k → k + 1 < 2 →
      ∃! j : ℕ, ∃ batch, (passedBatches ⟨0, 2, 2, 1, false⟩ trace)[j]? = some batch ∧
        InBatch batch k := by
  have hsummary : (runTrace (searcherSystem anyLine lineIndex ⟨0, 2, 2, 1, false⟩)
      (batchSteps 3) .start).map (fun run => (run.2.pc, run.1.all fun move =>
        decide (move.1.Quiet anyLine lineIndex ⟨0, 2, 2, 1, false⟩ move.2))) =
      some (.exited false, true) := by decide +kernel
  obtain ⟨⟨trace, w⟩, hrun, hpair⟩ := Option.map_eq_some_iff.mp hsummary
  obtain ⟨hpc, hquiet⟩ := Prod.mk.inj hpair
  have hrun := run_of_runTrace hrun
  exact ⟨trace, w, hrun, (batching_covers_iff (by decide) (by decide) (by decide) hrun
    (fun move hmove => of_decide_eq_true (List.all_eq_true.mp hquiet move hmove))
    ⟨false, hpc⟩).mpr (Or.inl (by decide))⟩

/-- The thread that has only the line of `lineFile` to search, with a larger buffer, asks for no
line at all. -/
theorem batching_misses_line : ∃ trace w,
    Run (searcherSystem anyLine lineIndex ⟨0, 1, 2, 1, false⟩) .start trace w ∧
    (∀ move ∈ trace, move.1.Quiet anyLine lineIndex ⟨0, 1, 2, 1, false⟩ move.2) ∧
    w.pc = .exited false ∧ FSearcherThread.Contains ⟨0, 1, 2, 1, false⟩ 0 ∧
    0 + 1 < lineIndex.flookup.len.toNat ∧
    ¬ ∃ batch ∈ passedBatches ⟨0, 1, 2, 1, false⟩ trace, InBatch batch 0 := by
  have hsummary : (runTrace (searcherSystem anyLine lineIndex ⟨0, 1, 2, 1, false⟩)
      (batchSteps 2) .start).map (fun run => (run.2.pc, (run.1.all fun move =>
        decide (move.1.Quiet anyLine lineIndex ⟨0, 1, 2, 1, false⟩ move.2)),
        passedBatches ⟨0, 1, 2, 1, false⟩ run.1)) =
      some (.exited false, true, [(0, 0)]) := by decide +kernel
  obtain ⟨⟨trace, w⟩, hrun, hpair⟩ := Option.map_eq_some_iff.mp hsummary
  obtain ⟨hpc, hpair⟩ := Prod.mk.inj hpair
  obtain ⟨hquiet, hpassed⟩ := Prod.mk.inj hpair
  refine ⟨trace, w, run_of_runTrace hrun, fun move hmove =>
    of_decide_eq_true (List.all_eq_true.mp hquiet move hmove), hpc, ⟨by decide, by decide⟩,
    by decide, ?_⟩
  rintro ⟨batch, hmem, hin⟩
  rw [show passedBatches ⟨0, 1, 2, 1, false⟩ trace = [(0, 0)] from hpassed,
    List.mem_singleton] at hmem
  subst hmem
  exact absurd hin.2 (by decide)

end Flashlight.Search
