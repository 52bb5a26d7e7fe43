/-
# What a search thread allocates

A search thread allocates the match data for its whole life, a lookup for each batch, a token for
each line and four blocks for each result, of which the token is one. `f_index_lookup` allocates
and frees blocks of its own on the way to the string that it returns.

Whatever fails and however the threads are scheduled, no thread uses or frees a block that it no
longer has, and no result is given to the callback twice. A thread leaks in two cases: when a
lookup fails it leaves the match data behind, and when a result cannot be allocated it leaves
behind all that it has.
-/

import Flashlight.Math.Ownership
import Flashlight.Search.Complete

namespace Flashlight.Search

open Flashlight.Math

/-- The variables of `f_index_search_thread` and of `f_index_lookup` that point to blocks. -/
inductive SearchVar
  /-- `match_data` -/
  | matchData
  /-- `lookup` -/
  | lookup
  /-- `line` -/
  | line
  /-- `res` -/
  | res
  /-- `res->matches_substring_offset` -/
  | offsets
  /-- `res->matches_substring_len` -/
  | lengths
  /-- `res->str` -/
  | str
  /-- `start_bytes` of the lookup -/
  | startBytes
  /-- `end_bytes` of the lookup -/
  | endBytes
  /-- `zero_bytes` of the lookup -/
  | zeroBytes
  /-- `buffer` of the lookup -/
  | buffer
  /-- `string` of the lookup -/
  | string
  deriving DecidableEq, Repr

/-! ## The blocks of a lookup -/

/-- What `f_index_lookup` does with its blocks behind the reads of the two entries. -/
def readLinesOps (env : LookupEnv) (index : FIndex) (startBytes endBytes : List UInt8) :
    List (MemOp SearchVar) :=
  let freeEntries : List (MemOp SearchVar) := [.free .startBytes, .free .endBytes]
  [.use .startBytes, .use .endBytes] ++
    if startBytes.length < 8 ∨ endBytes.length < 8 then []
    else
      let startByte : UInt64 := .ofNat (ofBytes startBytes)
      let endByte : UInt64 := .ofNat (ofBytes endBytes)
      if startByte > endByte then freeEntries
      else if env.bufferAlloc = false then freeEntries
      else
        [.malloc .buffer, .use .startBytes, .use .buffer] ++
          match pread index.target.bytes (endByte - startByte) startByte.toInt64 env.dataRead with
          | none => [.free .buffer] ++ freeEntries
          | some _ =>
              if env.stringAlloc then
                [.malloc .string, .use .buffer, .use .string, .free .buffer] ++ freeEntries
              else [.free .buffer] ++ freeEntries

/-- What `f_index_lookup` does with its blocks. The string is left to the caller. -/
def lookupOps (env : LookupEnv) (index : FIndex) (start count : UInt64) :
    List (MemOp SearchVar) :=
  let freeEntries : List (MemOp SearchVar) := [.free .startBytes, .free .endBytes]
  if start > index.flookup.maxLine then []
  else
    match lookupOffsets index.flookup.maxLine start
        (clampedCount index.flookup.maxLine start count) with
    | none => []
    | some (startOffset, endOffset) =>
        [.malloc .startBytes, .malloc .endBytes, .use .startBytes] ++
          match pread index.flookup.contents 8 startOffset env.startRead with
          | none => freeEntries
          | some startBytes =>
              .use .endBytes ::
                match pread index.flookup.contents 8 endOffset env.endRead with
                | none => freeEntries
                | some endBytes =>
                    if env.fine = true then
                      [.malloc .zeroBytes, .use .zeroBytes] ++
                        if pread index.flookup.contents 8 0 env.zeroRead = none then
                          .free .zeroBytes :: freeEntries
                        else
                          [.use .zeroBytes, .free .zeroBytes] ++
                            readLinesOps env index startBytes endBytes
                    else readLinesOps env index startBytes endBytes

/-- What a lookup leaves to a thread that owns the match data. -/
def lookupOwners (result : LookupResult) : Finset SearchVar :=
  match result.string with
  | none => {.matchData}
  | some _ => {.matchData, .string}

/-! ## The blocks of a thread -/

/-- `f_search_result_free` -/
def resultFreeOps : List (MemOp SearchVar) :=
  [.use .res, .free .lengths, .use .res, .free .offsets, .use .res, .free .str, .free .res]

/-- What happens to the blocks when the line has been handed to the regular expression. When the
result cannot be allocated, `blocks` of its blocks could be. -/
def matchedOps (regex : Pcre2Code) (config : FSearcherThread) (blocks : ℕ) (env : LineEnv)
    (line : List UInt8) : List (MemOp SearchVar) :=
  if MatchFails regex env line then [.free .line, .free .lookup, .free .matchData]
  else if (regex line).rc = pcre2ErrorNomatch then [.free .line]
  else if env.resultAlloc = false then
    .use .matchData :: [MemOp.malloc .res, .malloc .offsets].take blocks
  else
    [.use .matchData, .malloc .res, .malloc .offsets, .malloc .lengths, .use .res,
      .move .str .line, .use .matchData, .use .offsets, .use .lengths] ++
        if config.onResult then [] else resultFreeOps

/-- What happens to the blocks when the next line is cut off. -/
def cutOffOps (regex : Pcre2Code) (config : FSearcherThread) (blocks : ℕ) (env : LineEnv)
    (cursor : Cursor) : List (MemOp SearchVar) :=
  (if cursor.rest = none then [] else [.use .lookup]) ++
    match tokenize env.tokenAlloc cursor.rest [newline] with
    | .error _ => []
    | .ok (none, _) => [.free .lookup]
    | .ok (some line, _) =>
        [.malloc .line, .use .lookup, .use .line] ++
          if line = [] then [.free .line]
          else [.use .matchData, .use .line] ++ matchedOps regex config blocks env line

/-- What happens to the blocks when the batch at `i` is looked up. -/
def lookedUpOps (index : FIndex) (config : FSearcherThread) (env : LookupEnv) (i : UInt64) :
    List (MemOp SearchVar) :=
  lookupOps env index i (config.batchSize i) ++
    match (fIndexLookup env index i (config.batchSize i)).string with
    | none => []
    | some _ => [.move .lookup .string]

/-- What a step of `f_index_search_thread` does with the blocks of the thread. -/
def searcherOps (regex : Pcre2Code) (index : FIndex) (config : FSearcherThread) (blocks : ℕ)
    (a : SearcherAction) (shared : SearchShared) (w : Searcher) : List (MemOp SearchVar) :=
  match w.pc, a with
  | .enter, .proceed => [.malloc .matchData]
  | .batch i, .proceed =>
      if i < config.count + config.start then
        if shared.resultCount ≥ config.resultLimit then [.free .matchData] else []
      else [.free .matchData]
  | .lookup i, .lookup env => lookedUpOps index config env i
  | .line cursor, .line env => cutOffOps regex config blocks env cursor
  | .noMatch _, .proceed =>
      if shared.resultCount ≥ config.resultLimit then [.free .lookup, .free .matchData] else []
  | .deliver _ _, .proceed =>
      if shared.resultCount ≥ config.resultLimit then
        resultFreeOps ++ [.free .lookup, .free .matchData]
      else [.give .lengths, .give .offsets, .give .str, .give .res]
  | _, _ => []

/-- What the thread leaves behind when the line has been handed to the regular expression. -/
def matchedLeaks (regex : Pcre2Code) (blocks : ℕ) (env : LineEnv) (line : List UInt8) :
    Finset SearchVar :=
  if MatchFails regex env line then ∅
  else if (regex line).rc = pcre2ErrorNomatch then ∅
  else if env.resultAlloc = false then
    {.matchData, .lookup, .line} ∪ ([SearchVar.res, .offsets].take blocks).toFinset
  else ∅

/-- What the thread leaves behind when the next line is cut off. -/
def cutOffLeaks (regex : Pcre2Code) (blocks : ℕ) (env : LineEnv) (cursor : Cursor) :
    Finset SearchVar :=
  match tokenize env.tokenAlloc cursor.rest [newline] with
  | .ok (some line, _) => if line = [] then ∅ else matchedLeaks regex blocks env line
  | _ => ∅

/-- What the thread leaves behind when the batch at `i` is looked up. -/
def lookedUpLeaks (index : FIndex) (config : FSearcherThread) (env : LookupEnv) (i : UInt64) :
    Finset SearchVar :=
  match (fIndexLookup env index i (config.batchSize i)).string with
  | none => {.matchData}
  | some _ => ∅

/-- What a step of a thread leaves behind. -/
def searcherLeaks (regex : Pcre2Code) (index : FIndex) (config : FSearcherThread) (blocks : ℕ)
    (a : SearcherAction) (w : Searcher) : Finset SearchVar :=
  match w.pc, a with
  | .lookup i, .lookup env => lookedUpLeaks index config env i
  | .line cursor, .line env => cutOffLeaks regex blocks env cursor
  | _, _ => ∅

/-- Which variables own blocks while the thread is running. -/
def SearcherPc.owners : SearcherPc → Finset SearchVar
  | .enter => ∅
  | .batch _ => {.matchData}
  | .lookup _ => {.matchData}
  | .line _ => {.matchData, .lookup}
  | .noMatch _ => {.matchData, .lookup}
  | .deliver _ _ => {.matchData, .lookup, .res, .offsets, .lengths, .str}
  | .exited _ => ∅
  | .undefined => ∅

section

variable {regex : Pcre2Code} {index : FIndex} {config : FSearcherThread} {blocks : ℕ}

/-! ## Lookups -/

theorem ownersAfter_readLinesOps (env : LookupEnv) (index : FIndex)
    (startBytes endBytes : List UInt8) :
    ∃ owners, ownersAfter {.matchData, .startBytes, .endBytes}
        (readLinesOps env index startBytes endBytes) = some owners ∧
      giveCount (readLinesOps env index startBytes endBytes) = 0 ∧
      (readLines env index startBytes endBytes ≠ .undefined →
        owners = lookupOwners (readLines env index startBytes endBytes)) := by
  unfold readLinesOps readLines
  split
  · exact ⟨{.matchData, .startBytes, .endBytes}, by decide, by decide, fun h => absurd rfl h⟩
  · simp only
    split
    · exact ⟨{.matchData}, by decide, by decide, fun _ => rfl⟩
    · split
      · exact ⟨{.matchData}, by decide, by decide, fun _ => rfl⟩
      · cases pread index.target.bytes _ _ env.dataRead with
        | none =>
            simp only
            exact ⟨{.matchData}, by decide, by decide, fun _ => rfl⟩
        | some data =>
            cases env.stringAlloc with
            | true =>
                simp only [if_true]
                exact ⟨{.matchData, .string}, by decide, by decide, fun _ => rfl⟩
            | false =>
                simp only [Bool.false_eq_true, if_false]
                exact ⟨{.matchData}, by decide, by decide, fun _ => rfl⟩

/-- **Lookups leak nothing**: behind a lookup the caller owns what it owned before, and the string
if there is one. -/
theorem ownersAfter_lookupOps (env : LookupEnv) (index : FIndex) (start count : UInt64) :
    ∃ owners, ownersAfter {.matchData} (lookupOps env index start count) = some owners ∧
      giveCount (lookupOps env index start count) = 0 ∧
      (fIndexLookup env index start count ≠ .undefined →
        owners = lookupOwners (fIndexLookup env index start count)) := by
  have hentries : ownersAfter ({.matchData} : Finset SearchVar)
      [.malloc .startBytes, .malloc .endBytes, .use .startBytes] =
        some {.matchData, .startBytes, .endBytes} := by decide
  have hzero : ownersAfter ({.matchData, .startBytes, .endBytes} : Finset SearchVar)
      ([.malloc .zeroBytes, .use .zeroBytes] ++ [.use .zeroBytes, .free .zeroBytes]) =
        some {.matchData, .startBytes, .endBytes} := by decide
  have hendBytes : ∀ ops : List (MemOp SearchVar),
      ownersAfter {.matchData, .startBytes, .endBytes} (.use .endBytes :: ops) =
        ownersAfter {.matchData, .startBytes, .endBytes} ops := fun _ => rfl
  unfold lookupOps fIndexLookup
  split
  · exact ⟨{.matchData}, rfl, rfl, fun _ => rfl⟩
  · cases lookupOffsets index.flookup.maxLine start
        (clampedCount index.flookup.maxLine start count) with
    | none => exact ⟨{.matchData}, rfl, rfl, fun h => absurd rfl h⟩
    | some offsets =>
        simp only [ownersAfter_append_of hentries, giveCount_append]
        cases pread index.flookup.contents 8 offsets.1 env.startRead with
        | none =>
            simp only
            exact ⟨{.matchData}, by decide, by decide, fun _ => rfl⟩
        | some startBytes =>
            cases pread index.flookup.contents 8 offsets.2 env.endRead with
            | none =>
                simp only
                exact ⟨{.matchData}, by decide, by decide, fun _ => rfl⟩
            | some endBytes =>
                obtain ⟨owners, hread, hgive, howners⟩ :=
                  ownersAfter_readLinesOps env index startBytes endBytes
                simp only [hendBytes]
                by_cases hfine : env.fine = true
                · by_cases hnone : pread index.flookup.contents 8 0 env.zeroRead = none
                  · simp only [if_pos hfine, if_pos hnone, if_pos (And.intro hfine hnone)]
                    exact ⟨{.matchData}, by decide, by decide, fun _ => rfl⟩
                  · simp only [if_pos hfine, if_neg hnone, if_neg fun h => hnone (And.right h)]
                    rw [← List.append_assoc, ownersAfter_append_of hzero, hread]
                    exact ⟨owners, rfl, by simpa [giveCount] using hgive, howners⟩
                · simp only [if_neg hfine, if_neg fun h => hfine (And.left h)]
                  exact ⟨owners, hread, by simpa [giveCount] using hgive, howners⟩

/-! ## Steps of a thread -/

/-- A thread at `pc` owns `owned`, where `lost` is what it has left behind. -/
def SearcherPc.Owns (pc : SearcherPc) (owned lost : Finset SearchVar) : Prop :=
  pc ≠ .undefined → owned = pc.owners ∪ lost ∧ ((∀ metLimit, pc ≠ .exited metLimit) → lost = ∅)

/-- What a step does to the owners, when `n` more blocks are given away. -/
def TakesOwners (owners : Finset SearchVar) (ops : List (MemOp SearchVar)) (n : ℕ)
    (leaks : Finset SearchVar) (pc : SearcherPc) : Prop :=
  ∃ owners', ownersAfter owners ops = some owners' ∧ giveCount ops = n ∧ pc.Owns owners' leaks

/-- The thread keeps what it needs and leaves nothing behind. -/
theorem TakesOwners.stays {owners : Finset SearchVar} {ops : List (MemOp SearchVar)} {n : ℕ}
    {pc : SearcherPc} (hops : ownersAfter owners ops = some pc.owners)
    (hcount : giveCount ops = n) :
    TakesOwners owners ops n ∅ pc :=
  ⟨pc.owners, hops, hcount, fun _ => ⟨(Finset.union_empty _).symm, fun _ => rfl⟩⟩

theorem takesOwners_matched (w : Searcher) (env : LineEnv) (line : List UInt8) (cursor : Cursor) :
    TakesOwners {.matchData, .lookup, .line} (matchedOps regex config blocks env line) 0
      (matchedLeaks regex blocks env line) (w.matched regex config env line cursor).pc := by
  unfold matchedOps matchedLeaks Searcher.matched
  simp only
  split
  · exact .stays rfl rfl
  · split
    · exact .stays rfl rfl
    · split
      · have hlost : ∀ {owned lost : Finset SearchVar}, owned = ∅ ∪ lost →
            (SearcherPc.exited false).Owns owned lost :=
          fun heq _ => ⟨heq, fun hrunning => absurd rfl (hrunning false)⟩
        match blocks with
        | 0 => exact ⟨{.matchData, .lookup, .line}, by decide, by decide, hlost (by decide)⟩
        | 1 => exact ⟨{.matchData, .lookup, .line, .res}, by decide, by decide, hlost (by decide)⟩
        | n + 2 =>
            simp only [List.take_succ_cons, List.take_nil]
            exact ⟨{.matchData, .lookup, .line, .res, .offsets}, by decide, by decide,
              hlost (by decide)⟩
      · cases config.onResult with
        | true =>
            refine .stays ?_ rfl
            simp only [if_true, SearcherPc.owners]
            decide
        | false => exact .stays rfl rfl

/-- What has not been freed yet is done after what has been. -/
theorem TakesOwners.after {owners between leaks : Finset SearchVar}
    {ops more : List (MemOp SearchVar)} {n : ℕ} {pc : SearcherPc}
    (h : TakesOwners between more n leaks pc)
    (hops : ownersAfter owners ops = some between) (hcount : giveCount ops = 0) :
    TakesOwners owners (ops ++ more) n leaks pc := by
  obtain ⟨owners', howners, hgive, hpc⟩ := h
  refine ⟨owners', by rw [ownersAfter_append_of hops, howners], ?_, hpc⟩
  rw [giveCount_append, hcount, hgive, Nat.zero_add]

theorem takesOwners_cutOff (w : Searcher) (env : LineEnv) (cursor : Cursor) :
    TakesOwners {.matchData, .lookup} (cutOffOps regex config blocks env cursor) 0
      (cutOffLeaks regex blocks env cursor) (w.cutOff regex config env cursor).pc := by
  have hrest : ownersAfter {.matchData, .lookup}
      (if cursor.rest = none then [] else [MemOp.use SearchVar.lookup]) =
        some {.matchData, .lookup} := by
    split <;> rfl
  unfold cutOffOps cutOffLeaks Searcher.cutOff
  refine TakesOwners.after ?_ hrest (by split <;> rfl)
  rcases tokenize env.tokenAlloc cursor.rest [newline] with _ | ⟨_ | line, rest⟩
  · exact ⟨_, rfl, rfl, fun h => absurd rfl h⟩
  · exact .stays rfl rfl
  · have htoken : ownersAfter ({.matchData, .lookup} : Finset SearchVar)
        [.malloc .line, .use .lookup, .use .line] = some {.matchData, .lookup, .line} := by decide
    simp only
    split
    · refine TakesOwners.after ?_ htoken rfl
      exact .stays rfl rfl
    · refine TakesOwners.after (TakesOwners.after ?_ rfl rfl) htoken rfl
      exact takesOwners_matched w env line _

theorem takesOwners_lookedUp (w : Searcher) (i : UInt64) (env : LookupEnv) :
    TakesOwners {.matchData} (lookedUpOps index config env i) 0
      (lookedUpLeaks index config env i)
      (w.lookedUp i (fIndexLookup env index i (config.batchSize i))).pc := by
  obtain ⟨owners, hlookup, hgive, howners⟩ :=
    ownersAfter_lookupOps env index i (config.batchSize i)
  unfold lookedUpOps lookedUpLeaks
  generalize fIndexLookup env index i (config.batchSize i) = result at howners ⊢
  have hlost : ∀ {pc : SearcherPc}, result.string = none → pc = .exited false ∨ pc = .undefined →
      (pc ≠ .undefined → result ≠ .undefined) →
      TakesOwners {.matchData} (lookupOps env index i (config.batchSize i) ++ []) 0 {.matchData}
        pc := by
    intro pc hstring hpc hresult
    refine ⟨owners, by rw [List.append_nil, hlookup], by rw [List.append_nil, hgive], fun hne => ?_⟩
    rw [howners (hresult hne), lookupOwners, hstring, hpc.resolve_right hne]
    exact ⟨by simp only [SearcherPc.owners]; decide, fun hrunning => absurd rfl (hrunning false)⟩
  cases result with
  | undefined => exact hlost rfl (Or.inr rfl) fun h => absurd rfl h
  | returns rc out =>
      have hdefined : LookupResult.returns rc out ≠ .undefined := by simp
      simp only [Searcher.lookedUp, LookupResult.string] at hlost ⊢
      by_cases hrc : rc = 0
      · simp only [if_pos hrc, if_neg (not_not.mpr hrc)] at hlost ⊢
        cases out with
        | none => exact hlost rfl (Or.inl rfl) fun _ => hdefined
        | some bytes =>
            have howned := howners hdefined
            rw [lookupOwners, LookupResult.string, if_pos hrc] at howned
            rw [howned] at hlookup
            refine ⟨_, (ownersAfter_append_of hlookup _).trans rfl, ?_, fun _ => ?_⟩
            · rw [giveCount_append, hgive]
              rfl
            · exact ⟨by simp only [SearcherPc.owners]; decide, fun _ => rfl⟩
      · simp only [if_neg hrc, if_pos hrc] at hlost ⊢
        exact hlost trivial (Or.inl rfl) fun _ => hdefined

/-- **What a step does to the owners.** -/
theorem takesOwners_searcherStep {shared shared' : SearchShared} {w w' : Searcher}
    {a : SearcherAction} (hstep : searcherStep regex index config a shared w = some (shared', w')) :
    ∃ n, TakesOwners w.pc.owners (searcherOps regex index config blocks a shared w) n
        (searcherLeaks regex index config blocks a w) w'.pc ∧
      4 * shared.delivered.length + n = 4 * shared'.delivered.length := by
  unfold searcherStep at hstep
  unfold searcherOps searcherLeaks
  split at hstep
  · next hpc =>
      split at hstep
      · obtain ⟨rfl, rfl⟩ := Prod.mk.inj (Option.some.inj hstep)
        rw [hpc]
        exact ⟨0, .stays rfl rfl, rfl⟩
      · obtain ⟨rfl, rfl⟩ := Prod.mk.inj (Option.some.inj hstep)
        rw [hpc]
        exact ⟨0, .stays rfl rfl, rfl⟩
      · cases hstep
  · next i hpc =>
      split at hstep
      · rw [hpc]
        split at hstep
        · next hi =>
            split at hstep
            · next hlimit =>
                obtain ⟨rfl, rfl⟩ := Prod.mk.inj (Option.some.inj hstep)
                simp only [if_pos hi, if_pos hlimit]
                exact ⟨0, .stays rfl rfl, rfl⟩
            · next hlimit =>
                obtain ⟨rfl, rfl⟩ := Prod.mk.inj (Option.some.inj hstep)
                simp only [if_pos hi, if_neg hlimit]
                exact ⟨0, .stays rfl rfl, rfl⟩
        · next hi =>
            obtain ⟨rfl, rfl⟩ := Prod.mk.inj (Option.some.inj hstep)
            simp only [if_neg hi]
            exact ⟨0, .stays rfl rfl, rfl⟩
      · cases hstep
  · next i hpc =>
      split at hstep
      · next env =>
          obtain ⟨rfl, rfl⟩ := Prod.mk.inj (Option.some.inj hstep)
          rw [hpc]
          exact ⟨0, takesOwners_lookedUp w i env, rfl⟩
      · cases hstep
  · next cursor hpc =>
      split at hstep
      · next env =>
          obtain ⟨rfl, rfl⟩ := Prod.mk.inj (Option.some.inj hstep)
          rw [hpc]
          exact ⟨0, takesOwners_cutOff w env cursor, rfl⟩
      · cases hstep
  · next cursor hpc =>
      split at hstep
      · rw [hpc]
        split at hstep
        · next hlimit =>
            obtain ⟨rfl, rfl⟩ := Prod.mk.inj (Option.some.inj hstep)
            simp only [if_pos hlimit]
            exact ⟨0, .stays rfl rfl, rfl⟩
        · next hlimit =>
            obtain ⟨rfl, rfl⟩ := Prod.mk.inj (Option.some.inj hstep)
            simp only [if_neg hlimit]
            exact ⟨0, .stays rfl rfl, rfl⟩
      · cases hstep
  · next cursor result hpc =>
      split at hstep
      · rw [hpc]
        split at hstep
        · next hlimit =>
            obtain ⟨rfl, rfl⟩ := Prod.mk.inj (Option.some.inj hstep)
            simp only [if_pos hlimit]
            exact ⟨0, .stays rfl rfl, rfl⟩
        · next hlimit =>
            obtain ⟨rfl, rfl⟩ := Prod.mk.inj (Option.some.inj hstep)
            simp only [if_neg hlimit]
            refine ⟨4, .stays rfl rfl, ?_⟩
            rw [List.length_append, List.length_singleton, Nat.mul_add]
      · cases hstep
  · cases hstep
  · cases hstep

theorem ne_undefined_of_searcherStep {shared shared' : SearchShared} {w w' : Searcher}
    {a : SearcherAction} (hstep : searcherStep regex index config a shared w = some (shared', w')) :
    w.pc ≠ .undefined := by
  intro hpc
  simp [searcherStep, hpc] at hstep

end

end Flashlight.Search
