/-
# The tokens of a search thread

A batch is cut up as a C string, and the length of a token is an `int`. A line whose
length is not one ends the loop over the lines of its batch as if there were none left,
or is handed over in part; what lies behind a zero byte is not seen at all.

Without failures of the environment a thread hands over exactly the tokens of its
batches, whatever the bytes of the file are.
-/

import Flashlight.Search.Account

namespace Flashlight.Search

open Flashlight.Math

/-! ## Cutting up a batch -/

/-- The token that is cut off for a line, unless its length as an `int` is negative or has
no successor. -/
def cutToken (line : List UInt8) : Option (List UInt8) :=
  let tokenLength : Int32 := .ofNat line.length
  if tokenLength < 0 ∨ tokenLength = Int32.maxValue then none
  else some (line.take tokenLength.toInt.toNat)

/-- The tokens of consecutive lines that are not empty, with their numbers. `lineNumber` is
the number of the line before. -/
def tokensOf : UInt64 → List (List UInt8) → List NumberedLine
  | _, [] => []
  | lineNumber, line :: rest =>
      match cutToken line with
      | none => []
      | some token =>
          if token = [] then tokensOf (lineNumber + 1) rest
          else (lineNumber + 1, token) :: tokensOf (lineNumber + 1) rest

/-- The tokens of the batch at line `i`. -/
def batchTokens (index : FIndex) (config : FSearcherThread) (i : UInt64) : List NumberedLine :=
  match readLookup index i (config.batchSize i) with
  | none => []
  | some bytes => tokensOf i (unread (some (cString bytes)))

/-- The tokens of the batches from line `i` on. -/
def tokensFrom (index : FIndex) (config : FSearcherThread) (i : UInt64) : List NumberedLine :=
  (config.batches i).flatMap fun batch => batchTokens index config batch.1

/-- All tokens of a thread. -/
abbrev FSearcherThread.tokens (index : FIndex) (config : FSearcherThread) : List NumberedLine :=
  tokensFrom index config config.start

/-- The tokens from the cursor on. -/
def Cursor.tokens (index : FIndex) (config : FSearcherThread) (cursor : Cursor) :
    List NumberedLine :=
  tokensOf cursor.lineNumber (unread cursor.rest) ++
    tokensFrom index config (cursor.i + config.buffer)

/-- The tokens that the thread has still to hand over. -/
def Searcher.tokensLeft (index : FIndex) (config : FSearcherThread) (w : Searcher) :
    List NumberedLine :=
  match w.pc with
  | .enter => tokensFrom index config config.start
  | .batch i => tokensFrom index config i
  | .lookup i => tokensFrom index config i
  | .line cursor => cursor.tokens index config
  | .noMatch cursor => cursor.tokens index config
  | .deliver cursor _ => cursor.tokens index config
  | .exited _ => []
  | .undefined => []

/-- A call fails on what was cut off. -/
def TokenFails (regex : Pcre2Code) (env : LineEnv) :
    Except Fault (Option (List UInt8) × Option (List UInt8)) → Prop
  | .ok (some token, _) => token ≠ [] ∧ LineFails regex env token
  | _ => False

instance (regex : Pcre2Code) (env : LineEnv) : DecidablePred (TokenFails regex env)
  | .ok (some token, _) => inferInstanceAs (Decidable (token ≠ [] ∧ LineFails regex env token))
  | .ok (none, _) => .isFalse id
  | .error _ => .isFalse id

/-- A call fails in a step from `pc`. -/
def SearcherPc.Breaks (regex : Pcre2Code) (index : FIndex) (config : FSearcherThread) :
    SearcherPc → SearcherAction → Prop
  | .enter, .fault => True
  | .lookup i, .lookup env => (fIndexLookup env index i (config.batchSize i)).string = none
  | .line cursor, .line env =>
      env.tokenAlloc = false ∨
        TokenFails regex env (tokenize env.tokenAlloc cursor.rest [newline])
  | _, _ => False

/-- A call fails in the step, whatever the bytes of the file are. -/
def Searcher.Breaks (regex : Pcre2Code) (index : FIndex) (config : FSearcherThread)
    (w : Searcher) (a : SearcherAction) : Prop :=
  w.pc.Breaks regex index config a

instance (regex : Pcre2Code) (index : FIndex) (config : FSearcherThread) :
    (pc : SearcherPc) → (a : SearcherAction) → Decidable (pc.Breaks regex index config a)
  | .enter, .fault => .isTrue trivial
  | .lookup i, .lookup env =>
      inferInstanceAs (Decidable ((fIndexLookup env index i (config.batchSize i)).string = none))
  | .line cursor, .line env =>
      inferInstanceAs (Decidable (env.tokenAlloc = false ∨
        TokenFails regex env (tokenize env.tokenAlloc cursor.rest [newline])))
  | .enter, .proceed => .isFalse id
  | .enter, .lookup _ => .isFalse id
  | .enter, .line _ => .isFalse id
  | .batch _, _ => .isFalse id
  | .lookup _, .proceed => .isFalse id
  | .lookup _, .fault => .isFalse id
  | .lookup _, .line _ => .isFalse id
  | .line _, .proceed => .isFalse id
  | .line _, .fault => .isFalse id
  | .line _, .lookup _ => .isFalse id
  | .noMatch _, _ => .isFalse id
  | .deliver _ _, _ => .isFalse id
  | .exited _, _ => .isFalse id
  | .undefined, _ => .isFalse id

instance (regex : Pcre2Code) (index : FIndex) (config : FSearcherThread) (w : Searcher)
    (a : SearcherAction) : Decidable (w.Breaks regex index config a) :=
  inferInstanceAs (Decidable (w.pc.Breaks regex index config a))

/-- What the thread has found, against the tokens of its batches. -/
structure Searcher.Exact (regex : Pcre2Code) (index : FIndex) (config : FSearcherThread)
    (w : Searcher) : Prop where
  found : w.found.Sublist (accepted regex (config.tokens index))
  complete : w.pc = .exited true ∨ w.pc = .undefined ∨
    config.tokens index = w.handed ++ w.tokensLeft index config ∧
      accepted regex w.handed = w.found

section

variable {regex : Pcre2Code} {index : FIndex} {config : FSearcherThread}
  {shared shared' : SearchShared} {w w' : Searcher} {a : SearcherAction} {cursor : Cursor}
  {str token : List UInt8}

theorem toNat_toInt_ofNat_le {n : ℕ} (hneg : ¬ Int32.ofNat n < 0) :
    (Int32.ofNat n).toInt.toNat ≤ n := by
  rw [Int32.lt_iff_toInt_lt, Int32.toInt_zero] at hneg
  have hbits : (Int32.ofNat n).toBitVec.toNat = n % 2 ^ 32 := rfl
  have hcond := BitVec.toInt_eq_toNat_cond (Int32.ofNat n).toBitVec
  rw [Int32.toInt_toBitVec, hbits] at hcond
  have hmod := Nat.mod_le n (2 ^ 32)
  split at hcond <;> omega

theorem take_nextLine {n : ℕ} (hn : n ≤ (nextLine str).length) :
    (nextLine str).take n = str.take n := by
  rw [← take_length_nextLine str, List.take_take, Nat.min_eq_left hn]

/-- Where a token is cut off, `tokenize` cuts it off. -/
theorem tokenize_of_cutToken_eq_some (h : cutToken (nextLine str) = some token) :
    tokenize true (some str) [newline] = .ok (some token, afterLine str) := by
  simp only [cutToken] at h
  split at h
  · cases h
  · next hlength =>
      obtain ⟨hneg, hmax⟩ := not_or.mp hlength
      have htake : str.take (Int32.ofNat (nextLine str).length).toInt.toNat = token := by
        rw [← Option.some.inj h]
        exact (take_nextLine (toNat_toInt_ofNat_le hneg)).symm
      simp only [tokenize, getD_strstr_newline, if_neg hneg, if_neg hmax, htake]
      rfl

/-- Where none is cut off, the loop over the lines ends, or the call has no meaning. -/
theorem tokenize_of_cutToken_eq_none (h : cutToken (nextLine str) = none) :
    tokenize true (some str) [newline] = .ok (none, none) ∨
      tokenize true (some str) [newline] = .error .undefined := by
  simp only [cutToken] at h
  split at h
  · next hlength =>
      simp only [tokenize, getD_strstr_newline]
      by_cases hneg : Int32.ofNat (nextLine str).length < 0
      · exact Or.inl (if_pos hneg)
      · rw [if_neg hneg, if_pos (hlength.resolve_left hneg)]
        exact Or.inr rfl
  · cases h

/-! ## Handing over -/

theorem tokensFrom_eq_append (hbounded : config.Bounded) (hbuffer : 0 < config.buffer.toNat)
    {i : UInt64} (hi : i < config.count + config.start) :
    tokensFrom index config i =
      batchTokens index config i ++ tokensFrom index config (i + config.buffer) := by
  rw [tokensFrom, hbounded.batches_eq_cons hi hbuffer, List.flatMap_cons]
  rfl

theorem tokensFrom_eq_nil (hbounded : config.Bounded) {i : UInt64}
    (hi : ¬ i < config.count + config.start) : tokensFrom index config i = [] := by
  rw [hbounded.lt_end_iff] at hi
  rw [tokensFrom, FSearcherThread.batches_eq_nil hi, List.flatMap_nil]

/-- The tokens of the next line, and those behind it. -/
theorem Cursor.tokens_eq (hrest : cursor.rest = some str)
    (hcut : cutToken (nextLine str) = some token) :
    cursor.tokens index config =
      (if token = [] then [] else [(cursor.lineNumber + 1, token)]) ++
        (cursor.advance (afterLine str)).tokens index config := by
  rw [Cursor.tokens, Cursor.tokens, hrest, unread_some, tokensOf, hcut]
  simp only [Cursor.advance]
  split <;> rfl

/-- Where the loop over the lines ends, the tokens of the batch have been handed over. -/
theorem Cursor.tokens_of_done
    (hdone : cursor.rest = none ∨ ∃ str, cursor.rest = some str ∧ cutToken (nextLine str) = none) :
    cursor.tokens index config = tokensFrom index config (cursor.i + config.buffer) := by
  rcases hdone with hrest | ⟨str, hrest, hcut⟩
  · rw [Cursor.tokens, hrest]
    rfl
  · rw [Cursor.tokens, hrest, unread_some, tokensOf, hcut]
    rfl

/-- What a step does to the tokens and to the results. -/
inductive TokenStep (regex : Pcre2Code) (index : FIndex) (config : FSearcherThread)
    (w w' : Searcher) : Prop
  | stopped (hpc : w'.pc = .exited true ∨ w'.pc = .undefined) (hfound : w'.found.Sublist w.found)
  | same (hhanded : w'.handed = w.handed)
      (hleft : w'.tokensLeft index config = w.tokensLeft index config) (hfound : w'.found = w.found)
  | handed {token : NumberedLine} (hhanded : w'.handed = w.handed ++ [token])
      (hleft : w.tokensLeft index config = token :: w'.tokensLeft index config)
      (hfound : w'.found = w.found ++ accepted regex [token])

/-- A token that is not empty is handed over, and its result, if it matches, is delivered
next. -/
theorem tokenStep_of_matched {env : LineEnv} (hcallback : config.onResult = true)
    (hpc : w.pc = .line cursor) (hrest : cursor.rest = some str)
    (hcut : cutToken (nextLine str) = some token) (hline : token ≠ [])
    (hfails : ¬ LineFails regex env token) :
    TokenStep regex index config w
      (w.matched regex config env token (cursor.advance (afterLine str))) := by
  obtain ⟨pc, progress, hmatched, heq⟩ :=
    w.matched_eq regex config env token (cursor.advance (afterLine str))
  rw [heq]
  have hfound : w.found = w.sent.map FSearchResult.line :=
    Searcher.found_of_not_deliver (by simp [hpc])
  have hleft : w.tokensLeft index config =
      ((cursor.advance (afterLine str)).lineNumber, token) ::
        (cursor.advance (afterLine str)).tokens index config := by
    simp only [Searcher.tokensLeft, hpc]
    rw [Cursor.tokens_eq hrest hcut, if_neg hline]
    rfl
  cases hmatched with
  | failed h => exact absurd (Or.inl h) hfails
  | noResult _ haccepts halloc => exact absurd (Or.inr ⟨haccepts, halloc⟩) hfails
  | discard _ _ _ hno => simp [hcallback] at hno
  | noMatch _ haccepts =>
      refine .handed rfl hleft ?_
      rw [Searcher.found_of_not_deliver (by simp), hfound, accepted, List.filter_singleton]
      simp [haccepts]
  | deliver _ haccepts _ _ =>
      refine .handed rfl hleft ?_
      rw [hfound, accepted, List.filter_singleton]
      simp only [haccepts, decide_true]
      rfl

/-- What becomes of a thread that goes on with the next line, when no call fails. -/
inductive CutMove (regex : Pcre2Code) (config : FSearcherThread) (env : LineEnv) (cursor : Cursor)
    (w : Searcher) : Searcher → Prop
  | done (hdone : cursor.rest = none ∨
        ∃ str, cursor.rest = some str ∧ cutToken (nextLine str) = none) :
      CutMove regex config env cursor w (w.nextBatch config cursor.i)
  | undefined : CutMove regex config env cursor w { w with pc := .undefined }
  | empty {str : List UInt8} (hrest : cursor.rest = some str)
      (hcut : cutToken (nextLine str) = some []) :
      CutMove regex config env cursor w { w with pc := .line (cursor.advance (afterLine str)) }
  | token {str token : List UInt8} (hrest : cursor.rest = some str)
      (hcut : cutToken (nextLine str) = some token) (hline : token ≠ [])
      (hfails : ¬ LineFails regex env token) :
      CutMove regex config env cursor w
        (w.matched regex config env token (cursor.advance (afterLine str)))

theorem cutMove_of_cutOff {env : LineEnv} (hpc : w.pc = .line cursor)
    (hbreaks : ¬ w.Breaks regex index config (.line env)) :
    CutMove regex config env cursor w (w.cutOff regex config env cursor) := by
  simp only [Searcher.Breaks, SearcherPc.Breaks, hpc] at hbreaks
  obtain ⟨halloc, hfails⟩ := not_or.mp hbreaks
  have halloc : env.tokenAlloc = true := by simpa using halloc
  rw [Searcher.cutOff, halloc]
  rw [halloc] at hfails
  cases hrest : cursor.rest with
  | none => exact .done (Or.inl hrest)
  | some str =>
      cases hcut : cutToken (nextLine str) with
      | none =>
          rcases tokenize_of_cutToken_eq_none hcut with htokenize | htokenize
          · rw [htokenize]
            exact .done (Or.inr ⟨str, hrest, hcut⟩)
          · rw [htokenize]
            exact .undefined
      | some token =>
          have htokenize := tokenize_of_cutToken_eq_some hcut
          rw [hrest, htokenize] at hfails
          rw [htokenize]
          simp only
          split
          · next hline => exact .empty hrest (hline ▸ hcut)
          · next hline => exact .token hrest hcut hline fun hline' => hfails ⟨hline, hline'⟩

theorem CutMove.tokenStep {env : LineEnv} (hmove : CutMove regex config env cursor w w')
    (hcallback : config.onResult = true) (hpc : w.pc = .line cursor) :
    TokenStep regex index config w w' := by
  have hfound : w.found = w.sent.map FSearchResult.line :=
    Searcher.found_of_not_deliver (by simp [hpc])
  cases hmove with
  | done hdone =>
      refine .same rfl ?_ ?_
      · simp only [Searcher.tokensLeft, hpc, Searcher.nextBatch, Cursor.tokens_of_done hdone]
      · rw [hfound, Searcher.found_of_not_deliver (by simp [Searcher.nextBatch])]
        rfl
  | undefined =>
      refine .stopped (Or.inr rfl) ?_
      rw [hfound, Searcher.found_of_not_deliver (by simp)]
  | empty hrest hcut =>
      refine .same rfl ?_ ?_
      · simp only [Searcher.tokensLeft, hpc]
        rw [Cursor.tokens_eq hrest hcut, if_pos rfl, List.nil_append]
      · rw [hfound, Searcher.found_of_not_deliver (by simp)]
  | token hrest hcut hline hfails =>
      exact tokenStep_of_matched hcallback hpc hrest hcut hline hfails

/-- **What a step does to the tokens.** -/
theorem tokenStep_of_step (hcallback : config.onResult = true) (hbounded : config.Bounded)
    (hbuffer : 0 < config.buffer.toNat) (hw : w.Inv regex index config) (hhonest : a.Honest index)
    (hbreaks : ¬ w.Breaks regex index config a)
    (hstep : searcherStep regex index config a shared w = some (shared', w')) :
    TokenStep regex index config w w' := by
  have hquiet : ∀ {v : Searcher}, (∀ cursor result, w.pc ≠ .deliver cursor result) →
      (∀ cursor result, v.pc ≠ .deliver cursor result) → v.sent = w.sent →
      v.handed = w.handed → v.tokensLeft index config = w.tokensLeft index config →
      TokenStep regex index config w v := by
    intro v hw hv hsent hhanded hleft
    refine .same hhanded hleft ?_
    rw [Searcher.found_of_not_deliver hv, Searcher.found_of_not_deliver hw, hsent]
  by_cases hline : ∃ cursor, w.pc = .line cursor
  · obtain ⟨cursor, hpc⟩ := hline
    obtain ⟨env, rfl, rfl⟩ := exists_cutOff_of_step hpc hstep
    exact (cutMove_of_cutOff hpc hbreaks).tokenStep hcallback hpc
  · cases searcherMove_of_step hstep with
    | entered hpc =>
        exact hquiet (by simp [hpc]) (by simp) rfl rfl (by simp only [Searcher.tokensLeft, hpc])
    | fault hpc => exact absurd (by simp only [Searcher.Breaks, SearcherPc.Breaks, hpc]) hbreaks
    | metLimit _ _ =>
        refine .stopped (Or.inl rfl) ?_
        rw [Searcher.found_of_not_deliver (by simp [Searcher.leave])]
        exact List.sublist_append_left _ _
    | batchesDone hpc hi =>
        refine hquiet (by simp [hpc]) (by simp [Searcher.leave]) rfl rfl ?_
        simp only [Searcher.tokensLeft, Searcher.leave, hpc, tokensFrom_eq_nil hbounded hi]
    | batch hpc _ _ =>
        exact hquiet (by simp [hpc]) (by simp) rfl rfl (by simp only [Searcher.tokensLeft, hpc])
    | @lookup i env bytes hpc hlookup =>
        refine hquiet (by simp [hpc]) (by simp) rfl rfl ?_
        simp only [Searcher.tokensLeft, hpc]
        rw [tokensFrom_eq_append hbounded hbuffer (hw.range i hpc), batchTokens,
          readLookup_of_honest hhonest hlookup]
        rfl
    | lookupFailed hpc hlookup _ =>
        exact absurd (by simpa only [Searcher.Breaks, SearcherPc.Breaks, hpc] using hlookup) hbreaks
    | linesDone hpc _ => exact absurd ⟨_, hpc⟩ hline
    | cutShort hpc _ _ _ => exact absurd ⟨_, hpc⟩ hline
    | emptyLine hpc _ _ _ => exact absurd ⟨_, hpc⟩ hline
    | matched hpc _ _ _ => exact absurd ⟨_, hpc⟩ hline
    | passed hpc _ =>
        exact hquiet (by simp [hpc]) (by simp) rfl rfl (by simp only [Searcher.tokensLeft, hpc])
    | @delivered cursor result hpc _ =>
        refine .same rfl (by simp only [Searcher.tokensLeft, hpc]) ?_
        rw [Searcher.found_of_not_deliver (by simp), Searcher.found, Searcher.pending, hpc,
          List.map_append]
        rfl

/-- **A step without failures** keeps what a thread has found. -/
theorem Searcher.Exact.step (h : w.Exact regex index config) (hcallback : config.onResult = true)
    (hbounded : config.Bounded) (hbuffer : 0 < config.buffer.toNat)
    (hw : w.Inv regex index config) (hhonest : a.Honest index)
    (hbreaks : ¬ w.Breaks regex index config a)
    (hstep : searcherStep regex index config a shared w = some (shared', w')) :
    w'.Exact regex index config := by
  have hlive : config.tokens index = w.handed ++ w.tokensLeft index config ∧
      accepted regex w.handed = w.found := by
    refine (h.complete.resolve_left ?_).resolve_left ?_
    · exact (searcherMove_of_step hstep).not_exited true
    · intro hpc
      simp [searcherStep, hpc] at hstep
  obtain ⟨htokens, haccepted⟩ := hlive
  cases tokenStep_of_step hcallback hbounded hbuffer hw hhonest hbreaks hstep with
  | stopped hpc hfound =>
      refine ⟨hfound.trans h.found, ?_⟩
      rcases hpc with hpc | hpc
      · exact Or.inl hpc
      · exact Or.inr (Or.inl hpc)
  | same hhanded hleft hfound =>
      exact ⟨hfound ▸ h.found, Or.inr (Or.inr ⟨by rw [hhanded, hleft, htokens],
        by rw [hhanded, hfound, haccepted]⟩)⟩
  | @handed token hhanded hleft hfound =>
      have htokens' : config.tokens index = w'.handed ++ w'.tokensLeft index config := by
        rw [htokens, hleft, hhanded, List.append_assoc]
        rfl
      have haccepted' : accepted regex w'.handed = w'.found := by
        rw [hhanded, hfound, accepted, List.filter_append, ← haccepted]
        rfl
      refine ⟨?_, Or.inr (Or.inr ⟨htokens', haccepted'⟩)⟩
      rw [← haccepted', htokens', accepted, accepted, List.filter_append]
      exact List.sublist_append_left _ _

theorem Searcher.exact_start (regex : Pcre2Code) (index : FIndex) (config : FSearcherThread) :
    Searcher.start.Exact regex index config :=
  ⟨List.nil_sublist _, Or.inr (Or.inr ⟨rfl, rfl⟩)⟩

/-- What a thread that has ended has delivered. -/
theorem Searcher.Exact.sent (h : w.Exact regex index config) {metLimit : Bool}
    (hpc : w.pc = .exited metLimit) :
    (w.sent.map FSearchResult.line).Sublist (accepted regex (config.tokens index)) ∧
      (metLimit = false →
        w.sent.map FSearchResult.line = accepted regex (config.tokens index)) := by
  have hfound : w.found = w.sent.map FSearchResult.line :=
    Searcher.found_of_not_deliver (by simp [hpc])
  refine ⟨hfound ▸ h.found, ?_⟩
  rintro rfl
  obtain ⟨htokens, haccepted⟩ :=
    (h.complete.resolve_left (by simp [hpc])).resolve_left (by simp [hpc])
  have hleft : w.tokensLeft index config = [] := by simp only [Searcher.tokensLeft, hpc]
  rw [htokens, hleft, List.append_nil, haccepted, hfound]

end

end Flashlight.Search
