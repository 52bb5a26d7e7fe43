/-
# The spans of a result

A result tells its receiver where the groups of the expression matched: an offset and a
length for each pair that `pcre2_match` has stored. A group that took no part in the match
has the pair of `PCRE2_UNSET` twice, and the copy turns it into an empty span at the
largest offset there is.
-/

import Flashlight.Search.Shown

namespace Flashlight.Search

open Flashlight.Math

/-- `PCRE2_UNSET`, which is `SIZE_MAX`. -/
def pcre2Unset : UInt64 := 18446744073709551615

/-- The pairs of offsets that the return code announces. -/
def Pcre2Match.pairs (found : Pcre2Match) : List (UInt64 × UInt64) :=
  found.ovector.take found.rc.toInt.toNat

/-- What is documented of `pcre2_match`: a pair lies in the subject, or it is that of a group
that took no part in the match. -/
def Pcre2Code.Documented (regex : Pcre2Code) : Prop :=
  ∀ line, Accepts regex line → ∀ pair ∈ (regex line).pairs,
    pair.1 ≤ pair.2 ∧ pair.2.toNat ≤ line.length ∨ pair = (pcre2Unset, pcre2Unset)

/-- Every group of the expression took part in the match. -/
def GroupsSet (regex : Pcre2Code) (line : List UInt8) : Prop :=
  ∀ pair ∈ (regex line).pairs, pair ≠ (pcre2Unset, pcre2Unset)

instance (regex : Pcre2Code) (line : List UInt8) : Decidable (GroupsSet regex line) :=
  -- the pairs of the list are tried, and not all pairs of their finite type
  List.decidableBAll (fun pair => pair ≠ (pcre2Unset, pcre2Unset)) (regex line).pairs

/-- `strlen` -/
def strlen (str : List UInt8) : ℕ :=
  (cString str).length

/-- Each of the `matches_len` spans ends inside the line, and its end is a `size_t`. -/
def FSearchResult.SpansInside (result : FSearchResult) : Prop :=
  ∀ m < result.matchesLen.toNat, ∃ offset len,
    result.matchesSubstringOffset[m]? = some offset ∧
    result.matchesSubstringLen[m]? = some len ∧
    offset.toNat + len.toNat ≤ strlen result.str

/-! ## Results -/

/-- The spans of a result are those of the pairs. -/
theorem spansInside_searchResult_iff {lineNumber : UInt64} {line : List UInt8}
    {found : Pcre2Match} (hrc : 0 ≤ found.rc) :
    (searchResult lineNumber line found).SpansInside ↔
      ∀ pair ∈ found.pairs, pair.1.toNat + (pair.2 - pair.1).toNat ≤ strlen line := by
  rw [Int32.le_iff_toInt_le, Int32.toInt_zero] at hrc
  have hlength : found.pairs.length = found.rc.toUInt32.toNat := by
    have hle := found.rc_le
    rw [Pcre2Match.pairs, List.length_take, toNat_toUInt32 hrc]
    omega
  simp only [FSearchResult.SpansInside, searchResult, ← hlength, List.getElem?_map]
  constructor
  · intro hspans pair hpair
    obtain ⟨m, hm, rfl⟩ := List.mem_iff_getElem.mp hpair
    obtain ⟨offset, len, hoffset, hlen, hle⟩ := hspans m hm
    rw [← Pcre2Match.pairs, List.getElem?_eq_getElem hm] at hoffset hlen
    obtain rfl := Option.some.inj hoffset
    obtain rfl := Option.some.inj hlen
    exact hle
  · intro hpairs m hm
    refine ⟨_, _, ?_, ?_, hpairs _ (List.getElem_mem hm)⟩
    · rw [← Pcre2Match.pairs, List.getElem?_eq_getElem hm, Option.map_some]
    · rw [← Pcre2Match.pairs, List.getElem?_eq_getElem hm, Option.map_some]

/-- The result was made from a match of its line, which is a token. -/
structure FSearchResult.FromMatch (regex : Pcre2Code) (result : FSearchResult) : Prop where
  nul : 0 ∉ result.str
  fits : FitsInt result.str
  accepts : Accepts regex result.str
  eq_searchResult : result = searchResult result.lineNumber result.str (regex result.str)

/-- The spans of a result are inside its line exactly if no group is unset. -/
theorem FSearchResult.FromMatch.inside_iff {regex : Pcre2Code} {result : FSearchResult}
    (h : result.FromMatch regex) (hpcre : regex.Documented) :
    result.SpansInside ↔ GroupsSet regex result.str := by
  have hlen : strlen result.str = result.str.length := by
    rw [strlen, cString_eq_self h.nul]
  have hfits := h.fits
  rw [FitsInt] at hfits
  rw [h.eq_searchResult, spansInside_searchResult_iff h.accepts, hlen]
  refine forall₂_congr fun pair hpair => ?_
  rcases hpcre _ h.accepts pair hpair with ⟨hle, hinside⟩ | rfl
  · have hsub := UInt64.toNat_sub_of_le _ _ hle
    have hnat := UInt64.le_iff_toNat_le.mp hle
    refine iff_of_true (by omega) ?_
    rintro rfl
    have hunset : pcre2Unset.toNat = 18446744073709551615 := rfl
    simp only at hinside
    omega
  · refine iff_of_false ?_ fun hset => hset rfl
    have hunset : pcre2Unset.toNat = 18446744073709551615 := rfl
    simp only
    omega

/-! ## Runs -/

/-- The thread works on C strings, and its results were made from matches. -/
structure Searcher.Formed (regex : Pcre2Code) (w : Searcher) : Prop where
  rest : ∀ cursor, w.position = some cursor → ∀ str ∈ cursor.rest, 0 ∉ str
  pending : ∀ cursor result, w.pc = .deliver cursor result → result.FromMatch regex
  sent : ∀ result ∈ w.sent, result.FromMatch regex

section

variable {regex : Pcre2Code} {index : FIndex} {config : FSearcherThread}
  {shared shared' : SearchShared} {w w' : Searcher} {a : SearcherAction}

theorem not_mem_cString (bytes : List UInt8) : 0 ∉ cString bytes := by
  intro hmem
  have hne := List.mem_takeWhile_imp hmem
  simp at hne

/-- Behind a C string there is a C string. -/
theorem not_mem_afterLine {str rest : List UInt8} (hnul : 0 ∉ str)
    (hrest : afterLine str = some rest) : 0 ∉ rest := by
  obtain ⟨position, -, rfl⟩ := Option.map_eq_some_iff.mp hrest
  exact fun hmem => hnul (List.mem_of_mem_drop hmem)

/-- Between the batches there is no string to keep. -/
theorem Searcher.formed_of_position (hposition : w.position = none)
    (hsent : ∀ result ∈ w.sent, result.FromMatch regex) : w.Formed regex where
  rest := by simp [hposition]
  pending := by
    intro cursor result hpc
    simp [Searcher.position, hpc] at hposition
  sent := hsent

/-- Between two lines there is no result to keep. -/
theorem Searcher.formed_of_line {cursor : Cursor} (hpc : w.pc = .line cursor)
    (hrest : ∀ str ∈ cursor.rest, 0 ∉ str) (hsent : ∀ result ∈ w.sent, result.FromMatch regex) :
    w.Formed regex where
  rest := by
    intro other hposition
    obtain rfl : cursor = other := by simpa [Searcher.position, hpc] using hposition
    exact hrest
  pending := by simp [hpc]
  sent := hsent

/-- A token that is handed over is the line of its result. -/
theorem Searcher.formed_matched {env : LineEnv} {cursor : Cursor} {token : List UInt8}
    (hrest : ∀ str ∈ cursor.rest, 0 ∉ str) (hnul : 0 ∉ token) (hfits : FitsInt token)
    (hsent : ∀ result ∈ w.sent, result.FromMatch regex) :
    (w.matched regex config env token cursor).Formed regex := by
  obtain ⟨pc, progress, hmatched, heq⟩ := w.matched_eq regex config env token cursor
  rw [heq]
  cases hmatched with
  | failed _ => exact formed_of_position rfl hsent
  | noMatch _ _ =>
      refine ⟨fun other hposition => ?_, by simp, hsent⟩
      obtain rfl := Option.some.inj hposition
      exact hrest
  | noResult _ _ _ => exact formed_of_position rfl hsent
  | deliver _ haccepts _ _ =>
      refine ⟨fun other hposition => ?_, fun other result hpc => ?_, hsent⟩
      · obtain rfl := Option.some.inj hposition
        exact hrest
      · obtain ⟨-, rfl⟩ := SearcherPc.deliver.inj hpc
        exact ⟨hnul, hfits, haccepts, rfl⟩
  | discard _ _ _ _ => exact formed_of_line rfl hrest hsent

/-- Cutting off the next line keeps the rest a C string. -/
theorem Searcher.formed_cutOff {env : LineEnv} {cursor : Cursor}
    (hrest : ∀ str ∈ cursor.rest, 0 ∉ str) (hsent : ∀ result ∈ w.sent, result.FromMatch regex) :
    (w.cutOff regex config env cursor).Formed regex := by
  rw [Searcher.cutOff]
  split
  · exact formed_of_position rfl hsent
  · exact formed_of_position rfl hsent
  · next token rest htokenize =>
      cases hstr : cursor.rest with
      | none =>
          rw [hstr] at htokenize
          cases htokenize
      | some str =>
          rw [hstr] at htokenize
          obtain ⟨hfits, rfl⟩ := of_tokenize_eq_some htokenize
          have hnul := hrest str hstr
          have htoken := (prefix_of_tokenize_eq_some htokenize).subset
          have hafter : ∀ str' ∈ (cursor.advance (afterLine str)).rest, 0 ∉ str' :=
            fun _ hafter => not_mem_afterLine hnul hafter
          split
          · exact formed_of_line rfl hafter hsent
          · exact formed_matched hafter (fun hmem => hnul (htoken hmem)) hfits hsent

theorem Searcher.formed_start (regex : Pcre2Code) : Searcher.start.Formed regex :=
  formed_of_position rfl (by simp [Searcher.start])

/-- **A step of a thread** keeps its strings and its results well formed. -/
theorem Searcher.Formed.step (h : w.Formed regex)
    (hstep : searcherStep regex index config a shared w = some (shared', w')) :
    w'.Formed regex := by
  by_cases hline : ∃ cursor, w.pc = .line cursor
  · obtain ⟨cursor, hpc⟩ := hline
    obtain ⟨env, rfl, rfl⟩ := exists_cutOff_of_step hpc hstep
    exact formed_cutOff (h.rest cursor (by simp [Searcher.position, hpc])) h.sent
  · cases searcherMove_of_step hstep with
    | entered _ => exact formed_of_position rfl h.sent
    | fault _ => exact formed_of_position rfl h.sent
    | metLimit _ _ => exact formed_of_position rfl h.sent
    | batchesDone _ _ => exact formed_of_position rfl h.sent
    | batch _ _ _ => exact formed_of_position rfl h.sent
    | @lookup i env bytes _ _ =>
        refine formed_of_line rfl (fun str hstr => ?_) h.sent
        obtain rfl := Option.some.inj hstr
        exact not_mem_cString bytes
    | lookupFailed _ _ hended =>
        rcases hended with rfl | rfl <;> exact formed_of_position rfl h.sent
    | linesDone hpc _ => exact absurd ⟨_, hpc⟩ hline
    | cutShort hpc _ _ _ => exact absurd ⟨_, hpc⟩ hline
    | emptyLine hpc _ _ _ => exact absurd ⟨_, hpc⟩ hline
    | matched hpc _ _ _ => exact absurd ⟨_, hpc⟩ hline
    | @passed cursor hpc _ =>
        exact formed_of_line rfl (h.rest cursor (by simp [Searcher.position, hpc])) h.sent
    | @delivered cursor result hpc _ =>
        refine formed_of_line rfl (h.rest cursor (by simp [Searcher.position, hpc])) ?_
        intro other hmem
        rcases List.mem_append.mp hmem with hold | hnew
        · exact h.sent other hold
        · obtain rfl := List.mem_singleton.mp hnew
          exact h.pending cursor other hpc

end

/-- All results of a search were made from matches. -/
structure SearchRun.Formed (regex : Pcre2Code) (s : SearchRun) : Prop where
  threads : ∀ thread ∈ s.crew.threads, thread.2.Formed regex
  delivered : ∀ result ∈ s.crew.shared.delivered, result.FromMatch regex

section

variable {regex : Pcre2Code} {index : FIndex} {config : FSearcher} {s s' : SearchRun}
  {a : SearchAction}

theorem SearchRun.formed_start (regex : Pcre2Code) : SearchRun.start.Formed regex :=
  ⟨by simp [SearchRun.start], by simp [SearchRun.start, SearchShared.start]⟩

theorem SearchRun.Formed.threads_step (h : s.Formed regex)
    (hstep : searchStep regex index config a s = some s') :
    ∀ thread ∈ s'.crew.threads, thread.2.Formed regex := by
  intro thread hthread
  cases threadOrigin_of_step hstep hthread with
  | kept hold => exact h.threads thread hold
  | created _ hstart =>
      rw [hstart]
      exact Searcher.formed_start regex
  | moved _ hold hmoved => exact (h.threads _ (List.mem_of_getElem? hold)).step hmoved

/-- **A step of the search** keeps the results well formed. -/
theorem SearchRun.Formed.step (h : s.Formed regex)
    (hstep : searchStep regex index config a s = some s') : s'.Formed regex := by
  refine ⟨h.threads_step hstep, ?_⟩
  cases searchMove_of_step hstep with
  | planned _ _ => exact h.delivered
  | created _ _ => exact h.delivered
  | allCreated _ _ => exact h.delivered
  | watched _ _ _ => exact h.delivered
  | joined _ _ _ => exact h.delivered
  | allJoined _ _ => exact h.delivered
  | failed _ _ => exact h.delivered
  | searcher _ =>
      obtain ⟨crew, hcrew, heq⟩ := Option.map_eq_some_iff.mp hstep
      obtain ⟨config', w, w', shared, hthread, hsearcher, rfl⟩ := exists_of_crewStep hcrew
      have hformed := (h.threads _ (List.mem_of_getElem? hthread)).step hsearcher
      intro result hresult
      rw [← heq] at hresult
      rcases (searcherMove_of_step hsearcher).shared_cases with
        ⟨rfl, -⟩ | ⟨result', -, rfl, hsent⟩
      · exact h.delivered result hresult
      · rcases List.mem_append.mp hresult with hold | hnew
        · exact h.delivered result hold
        · obtain rfl := List.mem_singleton.mp hnew
          exact hformed.sent result (hsent ▸ List.mem_append_right _ List.mem_cons_self)

end

/-- **The spans of a result** that is delivered are inside its line exactly if every group of
the expression took part in the match. -/
theorem spansInside_iff (index : FIndex) (config : FSearcher) {regex : Pcre2Code}
    (hpcre : regex.Documented) {s : SearchRun}
    (hreach : Reaches (searchStep regex index config) (fun _ _ => True) .start s) :
    ∀ result ∈ s.crew.shared.delivered,
      result.SpansInside ↔ GroupsSet regex result.str := by
  have hs : s.Formed regex :=
    hreach.invariant (SearchRun.formed_start regex) fun _ _ _ h _ hstep => h.step hstep
  exact fun result hresult => (hs.delivered result hresult).inside_iff hpcre

/-- The expression `^a$`. -/
def onlyA : Pcre2Code := fun line =>
  if line = [97] then anyLine line else ⟨pcre2ErrorNomatch, [], by decide⟩

/-- The expression `^(?:(b)|(a))$`: in the line `a` only its second group takes part. -/
def bOrA : Pcre2Code := fun line =>
  if line = [97] then ⟨3, [(0, 1), (pcre2Unset, pcre2Unset), (0, 1)], by decide⟩
  else if line = [98] then ⟨2, [(0, 1), (0, 1)], by decide⟩
  else ⟨pcre2ErrorNomatch, [], by decide⟩

theorem documented_onlyA : onlyA.Documented := by
  intro line haccepts pair hpair
  unfold Accepts at haccepts
  unfold onlyA at haccepts hpair
  split at hpair
  · next hline =>
      obtain rfl : pair = (0, 1) := List.mem_singleton.mp hpair
      exact Or.inl ⟨by decide, by rw [hline]; decide⟩
  · cases hpair

theorem documented_bOrA : bOrA.Documented := by
  intro line haccepts pair hpair
  unfold bOrA at hpair
  split at hpair
  · next hline =>
      have hpair : pair ∈ [((0 : UInt64), (1 : UInt64)), (pcre2Unset, pcre2Unset), (0, 1)] := hpair
      rw [hline]
      fin_cases hpair <;> decide
  · split at hpair
    · next hline =>
        have hpair : pair ∈ [((0 : UInt64), (1 : UInt64)), (0, 1)] := hpair
        rw [hline]
        fin_cases hpair <;> decide
    · cases hpair

/-- Searching `lineFile` until its line is delivered. -/
def untilDelivered : List SearchAction :=
  [.proceed, .proceed, .searcher 0 .proceed, .searcher 0 .proceed,
    .searcher 0 (.lookup (generousEnv 16)), .searcher 0 (.line ⟨true, false, true⟩),
    .searcher 0 .proceed]

/-- The one span of `^a$` is inside the line `a`. -/
theorem spansInside_iff_line : ∃ s : SearchRun,
    Reaches (searchStep onlyA lineIndex oneBatch) (fun _ _ => True) .start s ∧
    s.crew.shared.delivered = [⟨1, [97], [0], [1], 1⟩] ∧
    ∀ result ∈ s.crew.shared.delivered, result.SpansInside := by
  have hsummary : (runTrace (searchStep onlyA lineIndex oneBatch) untilDelivered .start).map
      (fun run => run.2.crew.shared.delivered) = some [⟨1, [97], [0], [1], 1⟩] := by
    decide +kernel
  obtain ⟨⟨trace, s⟩, hrun, hdelivered⟩ := Option.map_eq_some_iff.mp hsummary
  have hreach := (run_of_runTrace hrun).reaches
  refine ⟨s, hreach, hdelivered, fun result hresult =>
    (spansInside_iff lineIndex oneBatch documented_onlyA hreach result hresult).mpr ?_⟩
  rw [show s.crew.shared.delivered = _ from hdelivered] at hresult
  obtain rfl := List.mem_singleton.mp hresult
  decide

/-- The span of the group that takes no part ends far behind the line. -/
theorem spansInside_fails_on_unset : bOrA.Documented ∧ ∃ s : SearchRun,
    Reaches (searchStep bOrA lineIndex oneBatch) (fun _ _ => True) .start s ∧
    ∃ result ∈ s.crew.shared.delivered, result.str = [97] ∧
      result.matchesSubstringOffset = [0, pcre2Unset, 0] ∧
      result.matchesSubstringLen = [1, 0, 1] ∧ ¬ result.SpansInside := by
  have hsummary : (runTrace (searchStep bOrA lineIndex oneBatch) untilDelivered .start).map
      (fun run => run.2.crew.shared.delivered) =
      some [⟨1, [97], [0, pcre2Unset, 0], [1, 0, 1], 3⟩] := by
    decide +kernel
  obtain ⟨⟨trace, s⟩, hrun, hdelivered⟩ := Option.map_eq_some_iff.mp hsummary
  refine ⟨documented_bOrA, s, (run_of_runTrace hrun).reaches, _,
    by rw [hdelivered]; exact List.mem_cons_self, rfl, rfl, rfl, fun hinside => ?_⟩
  obtain ⟨offset, len, hoffset, hlen, hle⟩ := hinside 1 (by decide)
  obtain rfl := Option.some.inj hoffset
  obtain rfl := Option.some.inj hlen
  exact absurd hle (by decide)

end Flashlight.Search
