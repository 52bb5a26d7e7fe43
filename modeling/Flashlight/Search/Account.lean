/-
# The account of a search thread

What a thread has handed over and what it has left add up to its lines as long as it
does not give up; what it has delivered, and what it is about to deliver, are lines that
it has handed over and that match, each at most once.
-/

import Flashlight.Search.Lines

namespace Flashlight.Search

open Flashlight.Math

/-- All lines of a thread. -/
abbrev FSearcherThread.lines (index : FIndex) (config : FSearcherThread) :
    List (Option NumberedLine) :=
  linesFrom index config config.start

/-- Those lines that match. -/
def accepted (regex : Pcre2Code) (lines : List NumberedLine) : List NumberedLine :=
  lines.filter fun line => Accepts regex line.2

/-- The line whose result the thread is about to deliver. -/
def Searcher.pending (w : Searcher) : List NumberedLine :=
  match w.pc with
  | .deliver _ result => [result.line]
  | _ => []

/-- The results that the thread has delivered or is about to deliver. -/
def Searcher.found (w : Searcher) : List NumberedLine :=
  w.sent.map FSearchResult.line ++ w.pending

/-- What holds at every point of the run of a search thread. -/
structure Searcher.Inv (regex : Pcre2Code) (index : FIndex) (config : FSearcherThread)
    (w : Searcher) : Prop where
  /-- A batch that is looked up begins in the range of the thread. -/
  range : ∀ i, w.pc = .lookup i → i < config.count + config.start
  /-- The lines that are left are the last ones. -/
  left : w.left index config <:+ config.lines index
  /-- No line is accounted for twice. -/
  total : w.handed.length + (w.left index config).length ≤ (config.lines index).length
  /-- What is delivered was handed over and matches. -/
  sent : w.found.Sublist (accepted regex w.handed)

/-- Every line was handed over or is left. -/
def Searcher.Kept (index : FIndex) (config : FSearcherThread) (w : Searcher) : Prop :=
  config.lines index = w.handed.map some ++ w.left index config

section

variable {regex : Pcre2Code} {index : FIndex} {config : FSearcherThread}
  {shared shared' : SearchShared} {w w' : Searcher} {a : SearcherAction}

theorem Searcher.left_of_exited {metLimit : Bool} (hpc : w.pc = .exited metLimit) :
    w.left index config = [] := by
  simp only [Searcher.left, hpc]

theorem LinesStep.suffix (h : LinesStep regex index config w a w') :
    w'.left index config <:+ w.left index config := by
  cases h with
  | stopped hpc _ =>
      rw [Searcher.left_of_exited hpc]
      exact List.nil_suffix
  | same _ _ hleft => rw [hleft]
  | handed _ _ hleft =>
      rw [hleft]
      exact List.suffix_cons _ _
  | dropped _ _ hleft _ => exact hleft
  | failed _ _ _ _ hleft' =>
      rw [hleft']
      exact List.nil_suffix
  | cut _ _ _ _ _ _ hleft hleft' =>
      rcases hleft' with hleft' | hleft'
      · rw [hleft', hleft]
        exact List.suffix_cons _ _
      · rw [hleft']
        exact List.nil_suffix

theorem LinesStep.total_le (h : LinesStep regex index config w a w') :
    w'.handed.length + (w'.left index config).length ≤
      w.handed.length + (w.left index config).length := by
  have hle := h.suffix.length_le
  cases h with
  | stopped _ hhanded =>
      rw [hhanded]
      omega
  | same _ hhanded _ =>
      rw [hhanded]
      omega
  | handed _ hhanded hleft =>
      simp only [hhanded, hleft, List.length_append, List.length_cons, List.length_nil]
      omega
  | dropped _ hhanded _ _ =>
      rw [hhanded]
      omega
  | failed _ hhanded hleft _ hleft' =>
      simp only [hhanded, hleft, hleft', List.length_append, List.length_cons, List.length_nil]
      omega
  | cut _ _ _ _ _ hhanded hleft hleft' =>
      simp only [hhanded, hleft, List.length_append, List.length_cons, List.length_nil]
      rcases hleft' with hleft' | hleft'
      · rw [hleft']
        omega
      · rw [hleft', List.length_nil]
        omega

/-- While no line is too long, lines are handed over as they are and in their order. -/
theorem LinesStep.sublist (h : LinesStep regex index config w a w')
    (hfits : ∀ cursor str, w.pc = .line cursor → cursor.rest = some str →
      FitsInt (nextLine str)) :
    (w'.handed.map some ++ w'.left index config).Sublist
      (w.handed.map some ++ w.left index config) := by
  cases h with
  | stopped hpc hhanded =>
      rw [hhanded, Searcher.left_of_exited hpc, List.append_nil]
      exact List.sublist_append_left _ _
  | same _ hhanded hleft => rw [hhanded, hleft]
  | handed _ hhanded hleft => rw [hhanded, hleft, List.map_append, List.append_assoc]; rfl
  | dropped _ hhanded hleft _ =>
      rw [hhanded]
      exact (List.Sublist.refl _).append hleft.sublist
  | failed _ hhanded hleft _ hleft' =>
      rw [hhanded, hleft, hleft', List.map_append, List.append_nil]
      exact (List.Sublist.refl _).append (List.singleton_sublist.mpr List.mem_cons_self)
  | cut _ hpc hstr hlong _ _ _ _ => exact absurd (hfits _ _ hpc hstr) hlong

/-- A step that does not give up keeps the account, unless the limit is met. -/
theorem LinesStep.kept (h : LinesStep regex index config w a w')
    (hkept : ¬ w.GivesUp regex index config a) (hw : w.Kept index config) :
    w'.pc = .exited true ∨ w'.Kept index config := by
  cases h with
  | stopped hpc _ => exact Or.inl hpc
  | same _ hhanded hleft => exact Or.inr (by rw [Searcher.Kept, hhanded, hleft, ← hw])
  | handed _ hhanded hleft =>
      refine Or.inr ?_
      rw [Searcher.Kept, hhanded, hw, hleft, List.map_append, List.append_assoc]
      rfl
  | dropped hgives _ _ _ => exact absurd hgives hkept
  | failed hgives _ _ _ _ => exact absurd hgives hkept
  | cut hgives _ _ _ _ _ _ _ => exact absurd hgives hkept

/-- If the account is right after a step, it was right before, and the step did not give
up. -/
theorem LinesStep.kept_of_kept (h : LinesStep regex index config w a w')
    (hw : w.Inv regex index config) (hlimit : w'.pc ≠ .exited true)
    (hkept : w'.Kept index config) :
    w.Kept index config ∧ ¬ w.GivesUp regex index config a := by
  have hlength := congrArg List.length hkept
  rw [List.length_append, List.length_map] at hlength
  have htotal := hw.total
  cases h with
  | stopped hpc _ => exact absurd hpc hlimit
  | same hno hhanded hleft => exact ⟨by rw [Searcher.Kept, hkept, hhanded, hleft], hno⟩
  | handed hno hhanded hleft =>
      refine ⟨?_, hno⟩
      rw [Searcher.Kept, hkept, hhanded, hleft, List.map_append, List.append_assoc]
      rfl
  | dropped _ hhanded hleft hne =>
      rw [hhanded] at hlength
      exact absurd (hleft.eq_of_length_le (by omega)) hne
  | failed _ hhanded hleft hrest hleft' =>
      rw [hhanded, hleft', List.length_append, List.length_singleton, List.length_nil] at hlength
      rw [hleft, List.length_cons] at htotal
      have hpos := List.length_pos_iff.mpr hrest
      omega
  | @cut line part rest cursor str _ _ _ _ hpart hhanded hleft hleft' =>
      -- the part stands in the place of the line
      obtain ⟨front, hfront⟩ := hw.left
      rw [hleft] at hfront htotal
      rw [hhanded, List.length_append, List.length_singleton] at hlength
      rw [List.length_cons] at htotal
      have hrest : w'.left index config = rest := by
        rcases hleft' with hleft' | hleft'
        · exact hleft'
        · rw [hleft', List.length_nil] at hlength
          rw [hleft', List.length_eq_zero_iff.mp (show rest.length = 0 by omega)]
      have heq : front ++ some line :: rest = w.handed.map some ++ some part :: rest := by
        rw [hfront, hkept, hhanded, hrest, List.map_append, List.append_assoc]
        rfl
      have hsame := (List.append_inj' heq rfl).2
      exact absurd (Option.some.inj (List.cons.inj hsame).1).symm hpart

end

/-! ## Results -/

/-- A call fails in the step. -/
def Searcher.Fails (regex : Pcre2Code) (index : FIndex) (config : FSearcherThread)
    (w : Searcher) (a : SearcherAction) : Prop :=
  match w.pc, a with
  | .enter, .fault => True
  | .lookup i, .lookup env => (fIndexLookup env index i (config.batchSize i)).string = none
  | .line cursor, .line env =>
      match cursor.rest with
      | none => False
      | some str => CutFails env str ∨ nextLine str ≠ [] ∧ LineFails regex env (nextLine str)
  | _, _ => False

instance (regex : Pcre2Code) (index : FIndex) (config : FSearcherThread) (w : Searcher)
    (a : SearcherAction) : Decidable (w.Fails regex index config a) := by
  unfold Searcher.Fails
  split
  · exact .isTrue trivial
  · infer_instance
  · split <;> infer_instance
  · exact .isFalse id

/-- What a step does to the results. -/
inductive ResultsStep (regex : Pcre2Code) (index : FIndex) (config : FSearcherThread)
    (w : Searcher) (a : SearcherAction) (w' : Searcher) : Prop
  | stopped (hpc : w'.pc = .exited true) (hhanded : w'.handed = w.handed)
      (hfound : w'.found.Sublist w.found)
  | same (haccepted : accepted regex w'.handed = accepted regex w.handed)
      (hfound : w'.found = w.found)
  | found {line : NumberedLine}
      (haccepted : accepted regex w'.handed = accepted regex w.handed ++ [line])
      (hfound : w'.found = w.found ++ [line])
  | lost {line : NumberedLine} (hlost : w.Fails regex index config a ∨ config.onResult = false)
      (haccepted : accepted regex w'.handed = accepted regex w.handed ++ [line])
      (hfound : w'.found = w.found)

section

variable {regex : Pcre2Code} {index : FIndex} {config : FSearcherThread}
  {shared shared' : SearchShared} {w w' : Searcher} {a : SearcherAction}

theorem accepted_append_of_accepts {lines : List NumberedLine} {line : NumberedLine}
    (h : Accepts regex line.2) :
    accepted regex (lines ++ [line]) = accepted regex lines ++ [line] := by
  rw [accepted, List.filter_append, accepted, List.filter_singleton]
  simp [h]

theorem accepted_append_of_not_accepts {lines : List NumberedLine} {line : NumberedLine}
    (h : ¬ Accepts regex line.2) : accepted regex (lines ++ [line]) = accepted regex lines := by
  rw [accepted, List.filter_append, accepted, List.filter_singleton]
  simp [h]

theorem Searcher.found_of_not_deliver (hpc : ∀ cursor result, w.pc ≠ .deliver cursor result) :
    w.found = w.sent.map FSearchResult.line := by
  rw [Searcher.found, Searcher.pending]
  split
  · next cursor result hdeliver => exact absurd hdeliver (hpc cursor result)
  · exact List.append_nil _

theorem resultsStep_of_matched {cursor : Cursor} {env : LineEnv} {str token : List UInt8}
    (hpc : w.pc = .line cursor) (hrest : cursor.rest = some str) (htoken : CutsOff env str token)
    (hline : token ≠ []) :
    ResultsStep regex index config w (.line env)
      (w.matched regex config env token (cursor.advance (afterLine str))) := by
  obtain ⟨pc, progress, hmatched, heq⟩ :=
    w.matched_eq regex config env token (cursor.advance (afterLine str))
  rw [heq]
  have hfound : w.found = w.sent.map FSearchResult.line :=
    Searcher.found_of_not_deliver (by simp [hpc])
  have hfails : LineFails regex env token → w.Fails regex index config (.line env) := by
    intro hfails
    simp only [Searcher.Fails, hpc, hrest]
    rcases htoken with ⟨-, rfl⟩ | ⟨hlong, -⟩
    · exact Or.inr ⟨hline, hfails⟩
    · exact Or.inl (Or.inr hlong)
  cases hmatched with
  | failed h =>
      by_cases haccepts : Accepts regex token
      · exact .lost (Or.inl (hfails (Or.inl h))) (accepted_append_of_accepts haccepts)
          ((Searcher.found_of_not_deliver (by simp)).trans hfound.symm)
      · exact .same (accepted_append_of_not_accepts haccepts)
          ((Searcher.found_of_not_deliver (by simp)).trans hfound.symm)
  | noResult _ haccepts halloc =>
      exact .lost (Or.inl (hfails (Or.inr ⟨haccepts, halloc⟩)))
        (accepted_append_of_accepts haccepts)
        ((Searcher.found_of_not_deliver (by simp)).trans hfound.symm)
  | noMatch _ haccepts =>
      exact .same (accepted_append_of_not_accepts haccepts)
        ((Searcher.found_of_not_deliver (by simp)).trans hfound.symm)
  | deliver _ haccepts _ _ =>
      exact .found (accepted_append_of_accepts haccepts) (by rw [hfound]; rfl)
  | discard _ haccepts _ hcallback =>
      exact .lost (Or.inr hcallback) (accepted_append_of_accepts haccepts)
        ((Searcher.found_of_not_deliver (by simp)).trans hfound.symm)

/-- **What a step does to the results.** -/
theorem SearcherMove.resultsStep (hmove : SearcherMove regex index config shared w a shared' w') :
    ResultsStep regex index config w a w' := by
  have hquiet : ∀ {v : Searcher}, (∀ cursor result, w.pc ≠ .deliver cursor result) →
      (∀ cursor result, v.pc ≠ .deliver cursor result) → v.sent = w.sent →
      v.handed = w.handed → ResultsStep regex index config w a v := by
    intro v hw hv hsent hhanded
    refine .same (by rw [hhanded]) ?_
    rw [Searcher.found_of_not_deliver hv, Searcher.found_of_not_deliver hw, hsent]
  cases hmove with
  | entered hpc => exact hquiet (by simp [hpc]) (by simp) rfl rfl
  | fault hpc => exact hquiet (by simp [hpc]) (by simp) rfl rfl
  | metLimit _ _ =>
      refine .stopped rfl rfl ?_
      rw [Searcher.found_of_not_deliver (by simp [Searcher.leave])]
      exact List.sublist_append_left _ _
  | batchesDone hpc _ => exact hquiet (by simp [hpc]) (by simp [Searcher.leave]) rfl rfl
  | batch hpc _ _ => exact hquiet (by simp [hpc]) (by simp) rfl rfl
  | lookup hpc _ => exact hquiet (by simp [hpc]) (by simp) rfl rfl
  | lookupFailed hpc _ hended =>
      rcases hended with rfl | rfl
      · exact hquiet (by simp [hpc]) (by simp [Searcher.leave]) rfl rfl
      · exact hquiet (by simp [hpc]) (by simp) rfl rfl
  | linesDone hpc _ => exact hquiet (by simp [hpc]) (by simp [Searcher.nextBatch]) rfl rfl
  | cutShort hpc _ _ hended =>
      rcases hended with rfl | ⟨-, rfl⟩
      · exact hquiet (by simp [hpc]) (by simp [Searcher.nextBatch]) rfl rfl
      · exact hquiet (by simp [hpc]) (by simp) rfl rfl
  | emptyLine hpc _ _ _ => exact hquiet (by simp [hpc]) (by simp) rfl rfl
  | matched hpc hrest htoken hline => exact resultsStep_of_matched hpc hrest htoken hline
  | passed hpc _ => exact hquiet (by simp [hpc]) (by simp) rfl rfl
  | @delivered cursor result hpc _ =>
      refine .same rfl ?_
      rw [Searcher.found_of_not_deliver (by simp), Searcher.found, Searcher.pending, hpc,
        List.map_append]
      rfl

/-- Only a line of the range is looked up. -/
theorem SearcherMove.lookup_lt (hmove : SearcherMove regex index config shared w a shared' w')
    {i : UInt64} (hpc : w'.pc = .lookup i) : i < config.count + config.start := by
  cases hmove with
  | batch _ hi _ =>
      obtain rfl := SearcherPc.lookup.inj hpc
      exact hi
  | lookupFailed _ _ hended => rcases hended with rfl | rfl <;> cases hpc
  | cutShort _ _ _ hended => rcases hended with rfl | ⟨-, rfl⟩ <;> cases hpc
  | @matched cursor env str token _ _ _ _ =>
      obtain ⟨pc, progress, hmatched, heq⟩ :=
        w.matched_eq regex config env token (cursor.advance (afterLine str))
      rw [heq] at hpc
      obtain rfl : pc = .lookup i := hpc
      cases hmatched
  | entered _ => cases hpc
  | fault _ => cases hpc
  | metLimit _ _ => cases hpc
  | batchesDone _ _ => cases hpc
  | lookup _ _ => cases hpc
  | linesDone _ _ => cases hpc
  | emptyLine _ _ _ _ => cases hpc
  | passed _ _ => cases hpc
  | delivered _ _ => cases hpc

/-- A thread starts with nothing handed over and nothing found. -/
theorem Searcher.inv_start (regex : Pcre2Code) (index : FIndex) (config : FSearcherThread) :
    Searcher.start.Inv regex index config where
  range := by simp [Searcher.start]
  left := List.suffix_refl _
  total := by simp [Searcher.start, Searcher.left]
  sent := List.nil_sublist _

/-- **A step of a thread** keeps what holds at every point. -/
theorem Searcher.Inv.step (h : w.Inv regex index config)
    (hmove : SearcherMove regex index config shared w a shared' w') (hbounded : config.Bounded)
    (hhonest : a.Honest index) : w'.Inv regex index config := by
  have hlines := hmove.linesStep hbounded hhonest h.range
  refine ⟨fun i hpc => hmove.lookup_lt hpc, hlines.suffix.trans h.left,
    hlines.total_le.trans h.total, ?_⟩
  cases hmove.resultsStep with
  | stopped _ hhanded hfound =>
      rw [hhanded]
      exact hfound.trans h.sent
  | same haccepted hfound =>
      rw [haccepted]
      exact hfound ▸ h.sent
  | found haccepted hfound =>
      rw [haccepted]
      exact hfound ▸ h.sent.append (List.Sublist.refl _)
  | lost _ haccepted hfound =>
      rw [haccepted]
      exact (hfound ▸ h.sent).trans (List.sublist_append_left _ _)

/-- Giving up is failing. -/
theorem Searcher.GivesUp.fails (h : w.GivesUp regex index config a) :
    w.Fails regex index config a := by
  unfold Searcher.GivesUp at h
  split at h
  · next hpc => simp only [Searcher.Fails, hpc]
  · next hpc => simpa only [Searcher.Fails, hpc] using h.1
  · next hpc =>
      split at h
      · exact h.elim
      · next hrest =>
          simp only [Searcher.Fails, hpc, hrest]
          split at h
          · next hcut => exact Or.inl hcut
          · exact Or.inr ⟨h.1, h.2.1⟩
  · cases h

/-- Without failures and with a callback no line that matches is passed over, unless the
limit is met. -/
theorem ResultsStep.complete (h : ResultsStep regex index config w a w')
    (hfails : ¬ w.Fails regex index config a) (hcallback : config.onResult = true)
    (hw : accepted regex w.handed = w.found) :
    w'.pc = .exited true ∨ accepted regex w'.handed = w'.found := by
  cases h with
  | stopped hpc _ _ => exact Or.inl hpc
  | same haccepted hfound => exact Or.inr (haccepted.trans (hw.trans hfound.symm))
  | found haccepted hfound => exact Or.inr (by rw [haccepted, hfound, hw])
  | lost hlost _ _ =>
      rcases hlost with hlost | hlost
      · exact absurd hlost hfails
      · simp [hcallback] at hlost

/-- What a step does to the state that the threads share. -/
theorem SearcherMove.shared_cases (hmove : SearcherMove regex index config shared w a shared' w') :
    shared' = shared ∧ w'.sent = w.sent ∨
      ∃ result, ¬ config.resultLimit ≤ shared.resultCount ∧
        shared' = ⟨shared.resultCount + 1, shared.delivered ++ [result]⟩ ∧
        w'.sent = w.sent ++ [result] := by
  cases hmove with
  | delivered _ hlimit => exact Or.inr ⟨_, hlimit, rfl, rfl⟩
  | lookupFailed _ _ hended => rcases hended with rfl | rfl <;> exact Or.inl ⟨rfl, rfl⟩
  | cutShort _ _ _ hended => rcases hended with rfl | ⟨-, rfl⟩ <;> exact Or.inl ⟨rfl, rfl⟩
  | @matched cursor env str token _ _ _ _ =>
      obtain ⟨pc, progress, -, heq⟩ :=
        w.matched_eq regex config env token (cursor.advance (afterLine str))
      rw [heq]
      exact Or.inl ⟨rfl, rfl⟩
  | entered _ => exact Or.inl ⟨rfl, rfl⟩
  | fault _ => exact Or.inl ⟨rfl, rfl⟩
  | metLimit _ _ => exact Or.inl ⟨rfl, rfl⟩
  | batchesDone _ _ => exact Or.inl ⟨rfl, rfl⟩
  | batch _ _ _ => exact Or.inl ⟨rfl, rfl⟩
  | lookup _ _ => exact Or.inl ⟨rfl, rfl⟩
  | linesDone _ _ => exact Or.inl ⟨rfl, rfl⟩
  | emptyLine _ _ _ _ => exact Or.inl ⟨rfl, rfl⟩
  | passed _ _ => exact Or.inl ⟨rfl, rfl⟩

/-- A thread stops on the limit only when it reads that it is met. -/
theorem SearcherMove.of_exited_true
    (hmove : SearcherMove regex index config shared w a shared' w') (hpc : w'.pc = .exited true) :
    a = .proceed ∧ w.ReadsLimit config ∧ config.resultLimit ≤ shared.resultCount ∧
      w' = w.leave true := by
  cases hmove with
  | metLimit hreads hlimit => exact ⟨rfl, hreads, hlimit, rfl⟩
  | lookupFailed _ _ hended => rcases hended with rfl | rfl <;> cases hpc
  | cutShort _ _ _ hended => rcases hended with rfl | ⟨-, rfl⟩ <;> cases hpc
  | @matched cursor env str token _ _ _ _ =>
      obtain ⟨pc, progress, hmatched, heq⟩ :=
        w.matched_eq regex config env token (cursor.advance (afterLine str))
      rw [heq] at hpc
      obtain rfl : pc = .exited true := hpc
      cases hmatched
  | entered _ => cases hpc
  | fault _ => cases hpc
  | batchesDone _ _ => cases hpc
  | batch _ _ _ => cases hpc
  | lookup _ _ => cases hpc
  | linesDone _ _ => cases hpc
  | emptyLine _ _ _ _ => cases hpc
  | passed _ _ => cases hpc
  | delivered _ _ => cases hpc

/-- A thread that reads that the limit is met stops. -/
theorem SearcherMove.exited_true (hmove : SearcherMove regex index config shared w a shared' w')
    (hreads : w.ReadsLimit config) (hlimit : config.resultLimit ≤ shared.resultCount) :
    w'.pc = .exited true := by
  cases hmove with
  | metLimit _ _ => rfl
  | batchesDone hpc hi => simp [Searcher.ReadsLimit, hpc, hi] at hreads
  | batch _ _ hno => exact absurd hlimit hno
  | passed _ hno => exact absurd hlimit hno
  | delivered _ hno => exact absurd hlimit hno
  | entered hpc => simp [Searcher.ReadsLimit, hpc] at hreads
  | fault hpc => simp [Searcher.ReadsLimit, hpc] at hreads
  | lookup hpc _ => simp [Searcher.ReadsLimit, hpc] at hreads
  | lookupFailed hpc _ _ => simp [Searcher.ReadsLimit, hpc] at hreads
  | linesDone hpc _ => simp [Searcher.ReadsLimit, hpc] at hreads
  | cutShort hpc _ _ _ => simp [Searcher.ReadsLimit, hpc] at hreads
  | emptyLine hpc _ _ _ => simp [Searcher.ReadsLimit, hpc] at hreads
  | matched hpc _ _ _ => simp [Searcher.ReadsLimit, hpc] at hreads

/-- A thread that has ended takes no step. -/
theorem SearcherMove.not_exited (hmove : SearcherMove regex index config shared w a shared' w')
    (metLimit : Bool) : w.pc ≠ .exited metLimit := by
  cases hmove with
  | metLimit hreads _ =>
      rcases hreads with ⟨i, hpc, -⟩ | ⟨cursor, hpc⟩ | ⟨cursor, result, hpc⟩ <;> simp [hpc]
  | entered hpc => simp [hpc]
  | fault hpc => simp [hpc]
  | batchesDone hpc _ => simp [hpc]
  | batch hpc _ _ => simp [hpc]
  | lookup hpc _ => simp [hpc]
  | lookupFailed hpc _ _ => simp [hpc]
  | linesDone hpc _ => simp [hpc]
  | cutShort hpc _ _ _ => simp [hpc]
  | emptyLine hpc _ _ _ => simp [hpc]
  | matched hpc _ _ _ => simp [hpc]
  | passed hpc _ => simp [hpc]
  | delivered hpc _ => simp [hpc]

end

end Flashlight.Search
