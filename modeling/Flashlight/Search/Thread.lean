/-
# One search thread

`f_index_search_thread` goes through its range batch by batch: it looks the lines of
the batch up, cuts them off one after the other, matches each line that is not empty
against the regular expression and passes what matches to the callback.

The threads share the number of results. It is read without the lock before each batch
and after each line that does not match; the check before a delivery, the increment and
the callback happen under the lock. One action of the machine below has at most one
access to the shared state, and what happens under the lock is one action.
-/

import Flashlight.Math.Interleaving
import Flashlight.IndexLookup
import Flashlight.Search.Plan
import Flashlight.Search.Tokenize

namespace Flashlight.Search

open Flashlight.Math

/-- What `pcre2_match` reports: its return code, and the pairs of offsets that it stored,
at least as many as the code announces. -/
structure Pcre2Match where
  /-- The return code. -/
  rc : Int32
  /-- The pairs of offsets. -/
  ovector : List (UInt64 × UInt64)
  /-- Every announced pair is stored. -/
  rc_le : rc.toInt ≤ ovector.length

/-- A compiled regular expression, as `pcre2_match` applies it to the bytes of a line. -/
abbrev Pcre2Code := List UInt8 → Pcre2Match

/-- `PCRE2_ERROR_NOMATCH` -/
def pcre2ErrorNomatch : Int32 := -1

/-- The regular expression matches the line. -/
def Accepts (regex : Pcre2Code) (line : List UInt8) : Prop :=
  0 ≤ (regex line).rc

instance (regex : Pcre2Code) (line : List UInt8) : Decidable (Accepts regex line) :=
  inferInstanceAs (Decidable (0 ≤ (regex line).rc))

/-- A search result. -/
structure FSearchResult where
  /-- The line the result was found on. -/
  lineNumber : UInt64
  /-- The full line that matched. -/
  str : List UInt8
  /-- An array of offsets for each match. -/
  matchesSubstringOffset : List UInt64
  /-- An array of match lengths. -/
  matchesSubstringLen : List UInt64
  /-- The number of matches. -/
  matchesLen : UInt32
  deriving DecidableEq, Repr

/-- The result for a line that matches. -/
def searchResult (lineNumber : UInt64) (line : List UInt8) (found : Pcre2Match) :
    FSearchResult where
  lineNumber := lineNumber
  str := line
  matchesSubstringOffset := (found.ovector.take found.rc.toInt.toNat).map Prod.fst
  matchesSubstringLen := (found.ovector.take found.rc.toInt.toNat).map fun pair => pair.2 - pair.1
  matchesLen := found.rc.toUInt32

/-- A line of a batch: the number of the line, counting from `1`, and its bytes. -/
abbrev NumberedLine := UInt64 × List UInt8

/-- The line that a result is about. -/
def FSearchResult.line (result : FSearchResult) : NumberedLine :=
  (result.lineNumber, result.str)

/-- Where a thread is in a batch: the first line of the batch, the number of lines that
were cut off up to here, and what is left of the lookup. -/
structure Cursor where
  /-- The first line of the batch. -/
  i : UInt64
  /-- The number of the line that was cut off last. -/
  lineNumber : UInt64
  /-- The rest of the lookup. -/
  rest : Option (List UInt8)
  deriving DecidableEq, Repr

/-- Where the thread is. -/
inductive SearcherPc
  /-- Before the match data is allocated. -/
  | enter
  /-- At the head of the loop over the batches. -/
  | batch (i : UInt64)
  /-- Looking up the batch at line `i`. -/
  | lookup (i : UInt64)
  /-- At the head of the loop over the lines of a batch. -/
  | line (cursor : Cursor)
  /-- The line does not match. -/
  | noMatch (cursor : Cursor)
  /-- The line matches and its result is to be delivered. -/
  | deliver (cursor : Cursor) (result : FSearchResult)
  /-- The thread has ended, because the result limit was met or for another reason. -/
  | exited (metLimit : Bool)
  /-- The thread has done something that has no meaning. -/
  | undefined
  deriving DecidableEq, Repr

/-- The cursor behind the line that was cut off. -/
def Cursor.advance (cursor : Cursor) (rest : Option (List UInt8)) : Cursor :=
  { cursor with lineNumber := cursor.lineNumber + 1, rest := rest }

/-- What the environment decides about one line. -/
structure LineEnv where
  /-- The token can be allocated. -/
  tokenAlloc : Bool
  /-- `pcre2_match` fails, whatever the line is. -/
  matchError : Bool
  /-- The result can be allocated. -/
  resultAlloc : Bool
  deriving DecidableEq, Repr

/-- What the environment decides about the next step. -/
inductive SearcherAction
  /-- Nothing goes wrong. -/
  | proceed
  /-- The match data cannot be allocated. -/
  | fault
  /-- The lookup runs like this. -/
  | lookup (env : LookupEnv)
  /-- The next line is treated like this. -/
  | line (env : LineEnv)
  deriving DecidableEq, Repr

/-- What the search threads share. -/
structure SearchShared where
  /-- The number of results so far. -/
  resultCount : Int32
  /-- The results that were passed to the callback, in this order. -/
  delivered : List FSearchResult
  deriving DecidableEq, Repr

/-- The state of a search thread. The last two fields only record what happened. -/
structure Searcher where
  /-- Where the thread is. -/
  pc : SearcherPc
  /-- The progress that the main thread watches. -/
  progress : ℚ
  /-- The lines that were handed to the regular expression. -/
  handed : List NumberedLine
  /-- The results that this thread delivered. -/
  sent : List FSearchResult
  deriving DecidableEq, Repr

/-- A thread that was just created. -/
def Searcher.start : Searcher where
  pc := .enter
  progress := 0
  handed := []
  sent := []

/-- The thread sets its progress to `1` and ends. -/
def Searcher.leave (w : Searcher) (metLimit : Bool) : Searcher :=
  { w with pc := .exited metLimit, progress := 1 }

/-- The loop over the lines of the batch at `i` has ended. -/
def Searcher.nextBatch (w : Searcher) (config : FSearcherThread) (i : UInt64) : Searcher :=
  { w with
    pc := .batch (i + config.buffer)
    progress := roundTo 53 (toDouble (i - config.start).toNat / toDouble config.count.toNat) }

/-- `pcre2_match` has reported an error for the line. -/
def MatchFails (regex : Pcre2Code) (env : LineEnv) (line : List UInt8) : Prop :=
  env.matchError = true ∨ (regex line).rc < 0 ∧ (regex line).rc ≠ pcre2ErrorNomatch

instance (regex : Pcre2Code) (env : LineEnv) (line : List UInt8) :
    Decidable (MatchFails regex env line) :=
  inferInstanceAs (Decidable (_ ∨ _))

/-- The line has been handed to the regular expression; the cursor is behind it. -/
def Searcher.matched (w : Searcher) (regex : Pcre2Code) (config : FSearcherThread) (env : LineEnv)
    (line : List UInt8) (cursor : Cursor) : Searcher :=
  let w := { w with handed := w.handed ++ [(cursor.lineNumber, line)] }
  if MatchFails regex env line then w.leave false
  else if (regex line).rc = pcre2ErrorNomatch then { w with pc := .noMatch cursor }
  -- the thread ends without touching its progress
  else if env.resultAlloc = false then { w with pc := .exited false }
  else if config.onResult then
    { w with pc := .deliver cursor (searchResult cursor.lineNumber line (regex line)) }
  else { w with pc := .line cursor }

/-- The next line has been cut off. -/
def Searcher.cutOff (w : Searcher) (regex : Pcre2Code) (config : FSearcherThread) (env : LineEnv)
    (cursor : Cursor) : Searcher :=
  match tokenize env.tokenAlloc cursor.rest [newline] with
  | .error _ => { w with pc := .undefined }
  | .ok (none, _) => w.nextBatch config cursor.i
  | .ok (some line, rest) =>
      if line = [] then { w with pc := .line (cursor.advance rest) }
      else w.matched regex config env line (cursor.advance rest)

/-- The batch at `i` has been looked up. -/
def Searcher.lookedUp (w : Searcher) (i : UInt64) (result : LookupResult) : Searcher :=
  match result with
  | .undefined => { w with pc := .undefined }
  | .returns rc out =>
      if rc ≠ 0 then w.leave false
      else
        match out with
        | none => w.leave false
        | some bytes => { w with pc := .line ⟨i, i, some (cString bytes)⟩ }

/-- One step of `f_index_search_thread`. -/
def searcherStep (regex : Pcre2Code) (index : FIndex) (config : FSearcherThread)
    (a : SearcherAction) (shared : SearchShared) (w : Searcher) :
    Option (SearchShared × Searcher) :=
  match w.pc with
  | .enter =>
      match a with
      | .proceed => some (shared, { w with pc := .batch config.start })
      | .fault => some (shared, { w with pc := .exited false })
      | _ => none
  | .batch i =>
      match a with
      | .proceed =>
          if i < config.count + config.start then
            if shared.resultCount ≥ config.resultLimit then some (shared, w.leave true)
            else some (shared, { w with pc := .lookup i })
          else some (shared, w.leave false)
      | _ => none
  | .lookup i =>
      match a with
      | .lookup env =>
          some (shared, w.lookedUp i (fIndexLookup env index i (config.batchSize i)))
      | _ => none
  | .line cursor =>
      match a with
      | .line env => some (shared, w.cutOff regex config env cursor)
      | _ => none
  | .noMatch cursor =>
      match a with
      | .proceed =>
          if shared.resultCount ≥ config.resultLimit then some (shared, w.leave true)
          else some (shared, { w with pc := .line cursor })
      | _ => none
  | .deliver cursor result =>
      match a with
      | .proceed =>
          if shared.resultCount ≥ config.resultLimit then some (shared, w.leave true)
          else some (⟨shared.resultCount + 1, shared.delivered ++ [result]⟩,
            { w with pc := .line cursor, sent := w.sent ++ [result] })
      | _ => none
  | .exited _ => none
  | .undefined => none

/-! ## What a step can do -/

/-- The next line cannot be cut off as it is: there is no memory, or it is too long. -/
def CutFails (env : LineEnv) (str : List UInt8) : Prop :=
  env.tokenAlloc = false ∨ ¬ FitsInt (nextLine str)

instance (env : LineEnv) (str : List UInt8) : Decidable (CutFails env str) :=
  inferInstanceAs (Decidable (_ ∨ _))

/-- The token that is cut off: the next line, or a part of it where it is too long. -/
def CutsOff (env : LineEnv) (str token : List UInt8) : Prop :=
  ¬ CutFails env str ∧ token = nextLine str ∨ ¬ FitsInt (nextLine str) ∧ FitsInt token

/-- The next step reads the number of results. -/
def Searcher.ReadsLimit (w : Searcher) (config : FSearcherThread) : Prop :=
  (∃ i, w.pc = .batch i ∧ i < config.count + config.start) ∨
    (∃ cursor, w.pc = .noMatch cursor) ∨ ∃ cursor result, w.pc = .deliver cursor result

/-- The steps of a search thread, one constructor for each. -/
inductive SearcherMove (regex : Pcre2Code) (index : FIndex) (config : FSearcherThread)
    (shared : SearchShared) (w : Searcher) : SearcherAction → SearchShared → Searcher → Prop
  | entered (hpc : w.pc = .enter) :
      SearcherMove regex index config shared w .proceed shared
        { w with pc := .batch config.start }
  | fault (hpc : w.pc = .enter) :
      SearcherMove regex index config shared w .fault shared { w with pc := .exited false }
  | metLimit (hreads : w.ReadsLimit config) (hlimit : config.resultLimit ≤ shared.resultCount) :
      SearcherMove regex index config shared w .proceed shared (w.leave true)
  | batchesDone {i : UInt64} (hpc : w.pc = .batch i) (hi : ¬ i < config.count + config.start) :
      SearcherMove regex index config shared w .proceed shared (w.leave false)
  | batch {i : UInt64} (hpc : w.pc = .batch i) (hi : i < config.count + config.start)
      (hlimit : ¬ config.resultLimit ≤ shared.resultCount) :
      SearcherMove regex index config shared w .proceed shared { w with pc := .lookup i }
  | lookup {i : UInt64} {env : LookupEnv} {bytes : List UInt8} (hpc : w.pc = .lookup i)
      (hlookup : (fIndexLookup env index i (config.batchSize i)).string = some bytes) :
      SearcherMove regex index config shared w (.lookup env) shared
        { w with pc := .line ⟨i, i, some (cString bytes)⟩ }
  | lookupFailed {i : UInt64} {env : LookupEnv} {w' : Searcher} (hpc : w.pc = .lookup i)
      (hlookup : (fIndexLookup env index i (config.batchSize i)).string = none)
      (hended : w' = w.leave false ∨ w' = { w with pc := .undefined }) :
      SearcherMove regex index config shared w (.lookup env) shared w'
  | linesDone {cursor : Cursor} {env : LineEnv} (hpc : w.pc = .line cursor)
      (hrest : cursor.rest = none) :
      SearcherMove regex index config shared w (.line env) shared (w.nextBatch config cursor.i)
  | cutShort {cursor : Cursor} {env : LineEnv} {str : List UInt8} {w' : Searcher}
      (hpc : w.pc = .line cursor) (hrest : cursor.rest = some str)
      (hcut : CutFails env str)
      (hended : w' = w.nextBatch config cursor.i ∨
        ¬ FitsInt (nextLine str) ∧ w' = { w with pc := .undefined }) :
      SearcherMove regex index config shared w (.line env) shared w'
  | emptyLine {cursor : Cursor} {env : LineEnv} {str token : List UInt8}
      (hpc : w.pc = .line cursor) (hrest : cursor.rest = some str)
      (htoken : CutsOff env str token) (hline : token = []) :
      SearcherMove regex index config shared w (.line env) shared
        { w with pc := .line (cursor.advance (afterLine str)) }
  | matched {cursor : Cursor} {env : LineEnv} {str token : List UInt8}
      (hpc : w.pc = .line cursor) (hrest : cursor.rest = some str)
      (htoken : CutsOff env str token) (hline : token ≠ []) :
      SearcherMove regex index config shared w (.line env) shared
        (w.matched regex config env token (cursor.advance (afterLine str)))
  | passed {cursor : Cursor} (hpc : w.pc = .noMatch cursor)
      (hlimit : ¬ config.resultLimit ≤ shared.resultCount) :
      SearcherMove regex index config shared w .proceed shared { w with pc := .line cursor }
  | delivered {cursor : Cursor} {result : FSearchResult} (hpc : w.pc = .deliver cursor result)
      (hlimit : ¬ config.resultLimit ≤ shared.resultCount) :
      SearcherMove regex index config shared w .proceed
        ⟨shared.resultCount + 1, shared.delivered ++ [result]⟩
        { w with pc := .line cursor, sent := w.sent ++ [result] }

/-- Where a thread goes with a line that was handed to the regular expression. -/
inductive MatchedPc (regex : Pcre2Code) (config : FSearcherThread) (env : LineEnv)
    (line : List UInt8) (cursor : Cursor) : SearcherPc → Prop
  | failed (hfails : MatchFails regex env line) :
      MatchedPc regex config env line cursor (.exited false)
  | noMatch (hfails : ¬ MatchFails regex env line) (haccepts : ¬ Accepts regex line) :
      MatchedPc regex config env line cursor (.noMatch cursor)
  | noResult (hfails : ¬ MatchFails regex env line) (haccepts : Accepts regex line)
      (halloc : env.resultAlloc = false) :
      MatchedPc regex config env line cursor (.exited false)
  | deliver (hfails : ¬ MatchFails regex env line) (haccepts : Accepts regex line)
      (halloc : env.resultAlloc = true) (hcallback : config.onResult = true) :
      MatchedPc regex config env line cursor
        (.deliver cursor (searchResult cursor.lineNumber line (regex line)))
  | discard (hfails : ¬ MatchFails regex env line) (haccepts : Accepts regex line)
      (halloc : env.resultAlloc = true) (hcallback : config.onResult = false) :
      MatchedPc regex config env line cursor (.line cursor)

section

variable {regex : Pcre2Code} {index : FIndex} {config : FSearcherThread}
  {shared shared' : SearchShared} {w w' : Searcher} {a : SearcherAction}

theorem searcherMove_of_cutOff {cursor : Cursor} {env : LineEnv} (hpc : w.pc = .line cursor) :
    SearcherMove regex index config shared w (.line env) shared
      (w.cutOff regex config env cursor) := by
  cases hrest : cursor.rest with
  | none =>
      simp only [Searcher.cutOff, hrest, tokenize]
      exact .linesDone hpc hrest
  | some str =>
      by_cases hfits : FitsInt (nextLine str)
      · rw [Searcher.cutOff, hrest, tokenize_newline _ hfits]
        cases halloc : env.tokenAlloc with
        | false => exact .cutShort hpc hrest (Or.inl halloc) (Or.inl rfl)
        | true =>
            have htoken : CutsOff env str (nextLine str) :=
              Or.inl ⟨by simp [CutFails, halloc, hfits], rfl⟩
            simp only [if_true]
            split
            · next hline => exact .emptyLine hpc hrest htoken hline
            · next hline => exact .matched hpc hrest htoken hline
      · rw [Searcher.cutOff, hrest]
        split
        · exact .cutShort hpc hrest (Or.inr hfits) (Or.inr ⟨hfits, rfl⟩)
        · exact .cutShort hpc hrest (Or.inr hfits) (Or.inl rfl)
        · next token rest htokenize =>
            obtain ⟨htoken, rfl⟩ := of_tokenize_eq_some htokenize
            split
            · next hline => exact .emptyLine hpc hrest (Or.inr ⟨hfits, htoken⟩) hline
            · next hline => exact .matched hpc hrest (Or.inr ⟨hfits, htoken⟩) hline

theorem searcherMove_of_lookedUp {i : UInt64} {env : LookupEnv} (hpc : w.pc = .lookup i) :
    SearcherMove regex index config shared w (.lookup env) shared
      (w.lookedUp i (fIndexLookup env index i (config.batchSize i))) := by
  cases hlookup : fIndexLookup env index i (config.batchSize i) with
  | undefined => exact .lookupFailed hpc (by rw [hlookup]; rfl) (Or.inr rfl)
  | returns rc out =>
      have hstring : (fIndexLookup env index i (config.batchSize i)).string =
          if rc = 0 then out else none := by
        rw [hlookup]
        rfl
      simp only [Searcher.lookedUp]
      split
      · next hrc => exact .lookupFailed hpc (hstring.trans (if_neg hrc)) (Or.inl rfl)
      · next hrc =>
          rw [if_pos (not_not.mp hrc)] at hstring
          cases out with
          | none => exact .lookupFailed hpc hstring (Or.inl rfl)
          | some bytes => exact .lookup hpc hstring

/-- Every step is one of these. -/
theorem searcherMove_of_step (hstep : searcherStep regex index config a shared w =
    some (shared', w')) : SearcherMove regex index config shared w a shared' w' := by
  unfold searcherStep at hstep
  split at hstep
  · next hpc =>
      split at hstep
      · obtain ⟨rfl, rfl⟩ := Prod.mk.inj (Option.some.inj hstep)
        exact .entered hpc
      · obtain ⟨rfl, rfl⟩ := Prod.mk.inj (Option.some.inj hstep)
        exact .fault hpc
      · cases hstep
  · next i hpc =>
      split at hstep
      · split at hstep
        · next hi =>
            split at hstep
            · next hlimit =>
                obtain ⟨rfl, rfl⟩ := Prod.mk.inj (Option.some.inj hstep)
                exact .metLimit (Or.inl ⟨i, hpc, hi⟩) hlimit
            · next hlimit =>
                obtain ⟨rfl, rfl⟩ := Prod.mk.inj (Option.some.inj hstep)
                exact .batch hpc hi hlimit
        · next hi =>
            obtain ⟨rfl, rfl⟩ := Prod.mk.inj (Option.some.inj hstep)
            exact .batchesDone hpc hi
      · cases hstep
  · next i hpc =>
      split at hstep
      · obtain ⟨rfl, rfl⟩ := Prod.mk.inj (Option.some.inj hstep)
        exact searcherMove_of_lookedUp hpc
      · cases hstep
  · next cursor hpc =>
      split at hstep
      · obtain ⟨rfl, rfl⟩ := Prod.mk.inj (Option.some.inj hstep)
        exact searcherMove_of_cutOff hpc
      · cases hstep
  · next cursor hpc =>
      split at hstep
      · split at hstep
        · next hlimit =>
            obtain ⟨rfl, rfl⟩ := Prod.mk.inj (Option.some.inj hstep)
            exact .metLimit (Or.inr (Or.inl ⟨cursor, hpc⟩)) hlimit
        · next hlimit =>
            obtain ⟨rfl, rfl⟩ := Prod.mk.inj (Option.some.inj hstep)
            exact .passed hpc hlimit
      · cases hstep
  · next cursor result hpc =>
      split at hstep
      · split at hstep
        · next hlimit =>
            obtain ⟨rfl, rfl⟩ := Prod.mk.inj (Option.some.inj hstep)
            exact .metLimit (Or.inr (Or.inr ⟨cursor, result, hpc⟩)) hlimit
        · next hlimit =>
            obtain ⟨rfl, rfl⟩ := Prod.mk.inj (Option.some.inj hstep)
            exact .delivered hpc hlimit
      · cases hstep
  · cases hstep
  · cases hstep

/-- At the head of the loop over the lines the next line is cut off. -/
theorem exists_cutOff_of_step {cursor : Cursor} (hpc : w.pc = .line cursor)
    (hstep : searcherStep regex index config a shared w = some (shared', w')) :
    ∃ env, a = .line env ∧ w' = w.cutOff regex config env cursor := by
  simp only [searcherStep, hpc] at hstep
  cases a with
  | line env =>
      obtain ⟨-, rfl⟩ := Prod.mk.inj (Option.some.inj hstep)
      exact ⟨env, rfl, rfl⟩
  | proceed => cases hstep
  | fault => cases hstep
  | lookup env => cases hstep

/-- What happens to a line that is handed to the regular expression. -/
theorem Searcher.matched_eq (w : Searcher) (regex : Pcre2Code) (config : FSearcherThread)
    (env : LineEnv) (line : List UInt8) (cursor : Cursor) :
    ∃ pc progress, MatchedPc regex config env line cursor pc ∧
      w.matched regex config env line cursor =
        { w with
          pc := pc
          progress := progress
          handed := w.handed ++ [(cursor.lineNumber, line)] } := by
  rw [Searcher.matched]
  simp only
  split
  · next hfails => exact ⟨_, _, .failed hfails, rfl⟩
  · next hfails =>
      split
      · next hrc =>
          refine ⟨_, _, .noMatch hfails ?_, rfl⟩
          rw [Accepts, hrc]
          decide
      · next hrc =>
          have haccepts : Accepts regex line := by
            rw [Accepts, ← Int32.not_lt]
            exact fun hneg => hfails (Or.inr ⟨hneg, hrc⟩)
          split
          · next halloc => exact ⟨_, _, .noResult hfails haccepts halloc, rfl⟩
          · next halloc =>
              have halloc : env.resultAlloc = true := by simpa using halloc
              split
              · next hcallback => exact ⟨_, _, .deliver hfails haccepts halloc hcallback, rfl⟩
              · next hcallback =>
                  exact ⟨_, _, .discard hfails haccepts halloc (by simpa using hcallback), rfl⟩

end

end Flashlight.Search
