/-
# What a search thread has still to do

The lines of a thread are the nonempty lines of its batches, in order. At every point
of its run the thread has handed some of them to the regular expression and has others
left. A step without a failure moves at most one line from the second list to the
first; a failing step may drop lines that are left, and a line that is too long may be
handed over cut.

A failure that drops nothing is harmless. `Searcher.GivesUp` says which failures are
not.
-/

import Flashlight.Search.Thread

namespace Flashlight.Search

open Flashlight.Math

/-! ## The lines of a thread -/

/-- The lines to match among consecutive lines, with their numbers. `lineNumber` is the
number of the line before. -/
def numbered : UInt64 → List (List UInt8) → List NumberedLine
  | _, [] => []
  | lineNumber, line :: rest =>
      if line = [] then numbered (lineNumber + 1) rest
      else (lineNumber + 1, line) :: numbered (lineNumber + 1) rest

/-- The lines to match in the batch at line `i`. A batch that cannot be looked up counts
as one line that is never handed over. -/
def batchLines (index : FIndex) (config : FSearcherThread) (i : UInt64) :
    List (Option NumberedLine) :=
  match readLookup index i (config.batchSize i) with
  | none => [none]
  | some bytes => (numbered i (unread (some (cString bytes)))).map some

/-- The lines to match in the batches from line `i` on. -/
def linesFrom (index : FIndex) (config : FSearcherThread) (i : UInt64) :
    List (Option NumberedLine) :=
  (config.batches i).flatMap fun batch => batchLines index config batch.1

/-- The lines to match from the cursor on. -/
def Cursor.left (index : FIndex) (config : FSearcherThread) (cursor : Cursor) :
    List (Option NumberedLine) :=
  (numbered cursor.lineNumber (unread cursor.rest)).map some ++
    linesFrom index config (cursor.i + config.buffer)

/-- The lines that the thread has still to hand over. -/
def Searcher.left (index : FIndex) (config : FSearcherThread) (w : Searcher) :
    List (Option NumberedLine) :=
  match w.pc with
  | .enter => linesFrom index config config.start
  | .batch i => linesFrom index config i
  | .lookup i => linesFrom index config i
  | .line cursor => cursor.left index config
  | .noMatch cursor => cursor.left index config
  | .deliver cursor _ => cursor.left index config
  | .exited _ => []
  | .undefined => []

/-! ## Giving up -/

/-- Something goes wrong with a line after it was handed over. -/
def LineFails (regex : Pcre2Code) (env : LineEnv) (line : List UInt8) : Prop :=
  MatchFails regex env line ∨ Accepts regex line ∧ env.resultAlloc = false

instance (regex : Pcre2Code) (env : LineEnv) (line : List UInt8) :
    Decidable (LineFails regex env line) :=
  inferInstanceAs (Decidable (_ ∨ _))

/-- The step fails while there are lines left that the thread will not hand over because
of it. -/
def Searcher.GivesUp (regex : Pcre2Code) (index : FIndex) (config : FSearcherThread)
    (w : Searcher) (a : SearcherAction) : Prop :=
  match w.pc, a with
  | .enter, .fault => w.left index config ≠ []
  | .lookup i, .lookup env =>
      (fIndexLookup env index i (config.batchSize i)).string = none ∧ w.left index config ≠ []
  | .line cursor, .line env =>
      match cursor.rest with
      | none => False
      | some str =>
          if CutFails env str then numbered cursor.lineNumber (unread cursor.rest) ≠ []
          else nextLine str ≠ [] ∧ LineFails regex env (nextLine str) ∧
            (cursor.advance (afterLine str)).left index config ≠ []
  | _, _ => False

/-- The step looks nothing up with short reads. Unlike a chunk of the indexer, the batch that
is read need not fit one transfer: a platform that delivers at most `maxTransfer` bytes at a
time has no such step for a longer batch, and what holds for every such step holds there. -/
def SearcherAction.Honest (index : FIndex) : SearcherAction → Prop
  | .lookup env => env.Honest index
  | _ => True

instance (index : FIndex) (a : SearcherAction) : Decidable (a.Honest index) :=
  match a with
  | .lookup env => inferInstanceAs (Decidable (env.Honest index))
  | .proceed => .isTrue trivial
  | .fault => .isTrue trivial
  | .line _ => .isTrue trivial

/-- What a step does to the lines. -/
inductive LinesStep (regex : Pcre2Code) (index : FIndex) (config : FSearcherThread)
    (w : Searcher) (a : SearcherAction) (w' : Searcher) : Prop
  | stopped (hpc : w'.pc = .exited true) (hhanded : w'.handed = w.handed)
  | same (hkept : ¬ w.GivesUp regex index config a) (hhanded : w'.handed = w.handed)
      (hleft : w'.left index config = w.left index config)
  | handed {line : NumberedLine} (hkept : ¬ w.GivesUp regex index config a)
      (hhanded : w'.handed = w.handed ++ [line])
      (hleft : w.left index config = some line :: w'.left index config)
  | dropped (hgives : w.GivesUp regex index config a) (hhanded : w'.handed = w.handed)
      (hleft : w'.left index config <:+ w.left index config)
      (hne : w'.left index config ≠ w.left index config)
  | failed {line : NumberedLine} {rest : List (Option NumberedLine)}
      (hgives : w.GivesUp regex index config a) (hhanded : w'.handed = w.handed ++ [line])
      (hleft : w.left index config = some line :: rest) (hrest : rest ≠ [])
      (hleft' : w'.left index config = [])
  | cut {line part : NumberedLine} {rest : List (Option NumberedLine)} {cursor : Cursor}
      {str : List UInt8} (hgives : w.GivesUp regex index config a)
      (hpc : w.pc = .line cursor) (hstr : cursor.rest = some str)
      (hlong : ¬ FitsInt (nextLine str)) (hpart : part ≠ line)
      (hhanded : w'.handed = w.handed ++ [part]) (hleft : w.left index config = some line :: rest)
      (hleft' : w'.left index config = rest ∨ w'.left index config = [])

section

variable {regex : Pcre2Code} {index : FIndex} {config : FSearcherThread}
  {shared shared' : SearchShared} {w w' : Searcher} {a : SearcherAction} {cursor : Cursor}
  {str : List UInt8}

theorem linesFrom_eq_append (hbounded : config.Bounded) (hbuffer : 0 < config.buffer.toNat)
    {i : UInt64} (hi : i < config.count + config.start) :
    linesFrom index config i =
      batchLines index config i ++ linesFrom index config (i + config.buffer) := by
  rw [linesFrom, hbounded.batches_eq_cons hi hbuffer, List.flatMap_cons]
  rfl

theorem linesFrom_eq_nil (hbounded : config.Bounded) {i : UInt64}
    (hi : ¬ i < config.count + config.start) : linesFrom index config i = [] := by
  rw [hbounded.lt_end_iff] at hi
  rw [linesFrom, FSearcherThread.batches_eq_nil hi, List.flatMap_nil]

/-- Without lines in a batch there is nothing to plan. -/
theorem linesFrom_of_buffer_zero (hbuffer : config.buffer.toNat = 0) (i : UInt64) :
    linesFrom index config i = [] := by
  rw [linesFrom, FSearcherThread.batches, hbuffer, Nat.ceilDiv_eq_add_pred_div, Nat.div_zero]
  rfl

/-- The lookup of a batch finds its lines. -/
theorem left_lookedUp (hbounded : config.Bounded) {i : UInt64}
    (hi : i < config.count + config.start) {bytes : List UInt8}
    (hlookup : readLookup index i (config.batchSize i) = some bytes) :
    Cursor.left index config ⟨i, i, some (cString bytes)⟩ = linesFrom index config i := by
  rcases Nat.eq_zero_or_pos config.buffer.toNat with hzero | hbuffer
  · have hsize : config.batchSize i = 0 := by
      apply UInt64.toNat_inj.mp
      have hle := (hbounded.toNat_batchSize_le hi).2
      rw [UInt64.toNat_zero]
      omega
    rw [hsize] at hlookup
    rw [Cursor.left, linesFrom_of_buffer_zero hzero, linesFrom_of_buffer_zero hzero,
      eq_nil_of_readLookup_zero hlookup]
    rfl
  · rw [linesFrom_eq_append hbounded hbuffer hi, batchLines, hlookup]
    rfl

/-- The next line is not a line to match. -/
theorem Cursor.left_of_empty (hrest : cursor.rest = some str) (hline : nextLine str = []) :
    (cursor.advance (afterLine str)).left index config = cursor.left index config := by
  rw [Cursor.left, Cursor.left, hrest, unread_some, numbered, if_pos hline]
  rfl

/-- The next line is the first one that is left. -/
theorem Cursor.left_eq_cons (index : FIndex) (config : FSearcherThread)
    (hrest : cursor.rest = some str) (hline : nextLine str ≠ []) :
    cursor.left index config = some (cursor.lineNumber + 1, nextLine str) ::
      (cursor.advance (afterLine str)).left index config := by
  rw [Cursor.left, Cursor.left, hrest, unread_some, numbered, if_neg hline]
  rfl

theorem nextLine_ne_nil_of_long (hlong : ¬ FitsInt (nextLine str)) : nextLine str ≠ [] := by
  intro hnil
  rw [hnil] at hlong
  exact hlong (by decide)

/-- A failure that ends the thread drops all that is left. -/
theorem linesStep_of_ended (hhanded : w'.handed = w.handed) (hleft : w'.left index config = [])
    (hgives : w.GivesUp regex index config a ↔ w.left index config ≠ []) :
    LinesStep regex index config w a w' := by
  by_cases hnil : w.left index config = []
  · exact .same (fun h => hgives.mp h hnil) hhanded (hleft.trans hnil.symm)
  · refine .dropped (hgives.mpr hnil) hhanded ?_ ?_
    · rw [hleft]
      exact List.nil_suffix
    · rw [hleft]
      exact fun heq => hnil heq.symm

/-- The loop over the lines of a batch ends early. -/
theorem linesStep_of_cutShort {env : LineEnv} (hpc : w.pc = .line cursor)
    (hrest : cursor.rest = some str) (hcut : CutFails env str)
    (hended : w' = w.nextBatch config cursor.i ∨
      ¬ FitsInt (nextLine str) ∧ w' = { w with pc := .undefined }) :
    LinesStep regex index config w (.line env) w' := by
  have hgives : w.GivesUp regex index config (.line env) ↔
      numbered cursor.lineNumber (unread cursor.rest) ≠ [] := by
    simp only [Searcher.GivesUp, hpc, hrest, if_pos hcut]
  have hleft : w.left index config = cursor.left index config := by
    simp only [Searcher.left, hpc]
  rcases hended with rfl | ⟨hlong, rfl⟩
  · by_cases hnil : numbered cursor.lineNumber (unread cursor.rest) = []
    · refine .same (fun h => hgives.mp h hnil) rfl ?_
      rw [hleft, Cursor.left, hnil]
      rfl
    · refine .dropped (hgives.mpr hnil) rfl ?_ ?_
      · rw [hleft]
        exact List.suffix_append _ _
      · rw [hleft, Cursor.left]
        intro heq
        have hlength := congrArg List.length heq
        rw [List.length_append, List.length_map] at hlength
        have hpos := List.length_pos_iff.mpr hnil
        simp only [Searcher.left, Searcher.nextBatch] at hlength
        omega
  · have hcons := cursor.left_eq_cons index config hrest (nextLine_ne_nil_of_long hlong)
    refine .dropped (hgives.mpr ?_) rfl ?_ ?_
    · rw [hrest, unread_some, numbered, if_neg (nextLine_ne_nil_of_long hlong)]
      exact List.cons_ne_nil _ _
    · exact List.nil_suffix
    · rw [hleft, hcons]
      exact (List.cons_ne_nil _ _).symm

/-- A line is handed over. -/
theorem linesStep_of_matched {env : LineEnv} {token : List UInt8} (hpc : w.pc = .line cursor)
    (hrest : cursor.rest = some str) (htoken : CutsOff env str token) (hline : token ≠ []) :
    LinesStep regex index config w (.line env)
      (w.matched regex config env token (cursor.advance (afterLine str))) := by
  obtain ⟨pc, progress, hmatched, heq⟩ :=
    w.matched_eq regex config env token (cursor.advance (afterLine str))
  rw [heq]
  have hleft : w.left index config = cursor.left index config := by
    simp only [Searcher.left, hpc]
  rcases htoken with ⟨hcut, rfl⟩ | ⟨hlong, hfits⟩
  · have hcons := cursor.left_eq_cons index config hrest hline
    have hgives : w.GivesUp regex index config (.line env) ↔
        LineFails regex env (nextLine str) ∧
          (cursor.advance (afterLine str)).left index config ≠ [] := by
      simp only [Searcher.GivesUp, hpc, hrest, if_neg hcut, ne_eq, hline, not_false_eq_true,
        true_and]
    have hends : LineFails regex env (nextLine str) → pc = .exited false →
        LinesStep regex index config w (.line env) { w with
          pc := pc
          progress := progress
          handed := w.handed ++
            [((cursor.advance (afterLine str)).lineNumber, nextLine str)] } := by
      rintro hfails rfl
      by_cases hnil : (cursor.advance (afterLine str)).left index config = []
      · exact .handed (fun h => (hgives.mp h).2 hnil) rfl (hleft.trans (by rw [hcons, hnil]; rfl))
      · exact .failed (hgives.mpr ⟨hfails, hnil⟩) rfl (hleft.trans hcons) hnil rfl
    have hgoes : ¬ LineFails regex env (nextLine str) →
        (pc = .noMatch (cursor.advance (afterLine str)) ∨
          (∃ result, pc = .deliver (cursor.advance (afterLine str)) result) ∨
          pc = .line (cursor.advance (afterLine str))) →
        LinesStep regex index config w (.line env) { w with
          pc := pc
          progress := progress
          handed := w.handed ++
            [((cursor.advance (afterLine str)).lineNumber, nextLine str)] } := by
      intro hfails hnext
      refine .handed (fun h => hfails (hgives.mp h).1) rfl (hleft.trans (hcons.trans ?_))
      rcases hnext with rfl | ⟨result, rfl⟩ | rfl <;> rfl
    cases hmatched with
    | failed hfails => exact hends (Or.inl hfails) rfl
    | noResult hfails haccepts halloc => exact hends (Or.inr ⟨haccepts, halloc⟩) rfl
    | noMatch hfails haccepts =>
        exact hgoes (fun h => h.elim hfails fun h => haccepts h.1) (Or.inl rfl)
    | deliver hfails haccepts halloc hcallback =>
        exact hgoes (fun h => h.elim hfails fun h => by simp [halloc] at h)
          (Or.inr (Or.inl ⟨_, rfl⟩))
    | discard hfails haccepts halloc hcallback =>
        exact hgoes (fun h => h.elim hfails fun h => by simp [halloc] at h) (Or.inr (Or.inr rfl))
  · have hne := nextLine_ne_nil_of_long hlong
    have hcons := cursor.left_eq_cons index config hrest hne
    have hgives : w.GivesUp regex index config (.line env) := by
      have hcut : CutFails env str := Or.inr hlong
      simp only [Searcher.GivesUp, hpc, hrest, if_pos hcut, unread_some, numbered, if_neg hne]
      exact List.cons_ne_nil _ _
    have hpart : ((cursor.advance (afterLine str)).lineNumber, token) ≠
        (cursor.lineNumber + 1, nextLine str) := by
      intro heq
      rw [(Prod.mk.inj heq).2] at hfits
      exact hlong hfits
    refine .cut hgives hpc hrest hlong hpart rfl (hleft.trans hcons) ?_
    cases hmatched with
    | failed _ => exact Or.inr rfl
    | noResult _ _ _ => exact Or.inr rfl
    | noMatch _ _ => exact Or.inl rfl
    | deliver _ _ _ _ => exact Or.inl rfl
    | discard _ _ _ _ => exact Or.inl rfl

/-- **What a step does to the lines.** -/
theorem SearcherMove.linesStep (hmove : SearcherMove regex index config shared w a shared' w')
    (hbounded : config.Bounded) (hhonest : a.Honest index)
    (hrange : ∀ i, w.pc = .lookup i → i < config.count + config.start) :
    LinesStep regex index config w a w' := by
  cases hmove with
  | entered hpc => exact .same (by simp [Searcher.GivesUp, hpc]) rfl (by simp [Searcher.left, hpc])
  | fault hpc => exact linesStep_of_ended rfl rfl (by simp only [Searcher.GivesUp, hpc])
  | metLimit _ _ => exact .stopped rfl rfl
  | batchesDone hpc hi =>
      refine .same (by simp [Searcher.GivesUp, hpc]) rfl ?_
      simp only [Searcher.left, Searcher.leave, hpc, linesFrom_eq_nil hbounded hi]
  | batch hpc _ _ =>
      exact .same (by simp [Searcher.GivesUp, hpc]) rfl (by simp only [Searcher.left, hpc])
  | @lookup i env bytes hpc hlookup =>
      refine .same (by simp [Searcher.GivesUp, hpc, hlookup]) rfl ?_
      simp only [Searcher.left, hpc]
      exact left_lookedUp hbounded (hrange i hpc) (readLookup_of_honest hhonest hlookup)
  | lookupFailed hpc hlookup hended =>
      refine linesStep_of_ended ?_ ?_ (by simp only [Searcher.GivesUp, hpc, hlookup, true_and])
      · rcases hended with rfl | rfl <;> rfl
      · rcases hended with rfl | rfl <;> rfl
  | linesDone hpc hrest =>
      refine .same (by simp [Searcher.GivesUp, hpc, hrest]) rfl ?_
      simp only [Searcher.left, Searcher.nextBatch, hpc, Cursor.left, hrest, unread, numbered,
        List.map_nil, List.nil_append]
  | cutShort hpc hrest hcut hended => exact linesStep_of_cutShort hpc hrest hcut hended
  | @emptyLine cursor env str token hpc hrest htoken hline =>
      subst hline
      rcases htoken with ⟨hcut, hnil⟩ | ⟨hlong, -⟩
      · refine .same ?_ rfl ?_
        · simp [Searcher.GivesUp, hpc, hrest, hcut, ← hnil]
        · simp only [Searcher.left, hpc]
          exact Cursor.left_of_empty hrest hnil.symm
      · have hne := nextLine_ne_nil_of_long hlong
        have hcut : CutFails env str := Or.inr hlong
        have hcons := cursor.left_eq_cons index config hrest hne
        have hleft : w.left index config = cursor.left index config := by
          simp only [Searcher.left, hpc]
        refine .dropped ?_ rfl ?_ ?_
        · simp only [Searcher.GivesUp, hpc, hrest, if_pos hcut, unread_some, numbered, if_neg hne]
          exact List.cons_ne_nil _ _
        · rw [hleft, hcons]
          exact List.suffix_cons _ _
        · rw [hleft, hcons]
          exact List.ne_cons_self
  | matched hpc hrest htoken hline => exact linesStep_of_matched hpc hrest htoken hline
  | passed hpc _ =>
      exact .same (by simp [Searcher.GivesUp, hpc]) rfl (by simp only [Searcher.left, hpc])
  | delivered hpc _ =>
      exact .same (by simp [Searcher.GivesUp, hpc]) rfl (by simp only [Searcher.left, hpc])

end

end Flashlight.Search
