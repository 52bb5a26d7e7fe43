/-
# Splitting a string at a delimiter

A thread calls `tokenize` until it returns null. The pointer moves behind the first
occurrence of the delimiter at each call and becomes null behind the last one, so the
tokens with delimiters between them are the string again, whatever the delimiter is:
nothing in a token overlaps with the delimiter that ended it. The length of a token is an
`int` to which one is added; a string of `2 ^ 31 - 1` bytes that is one token breaks it.
-/

import Flashlight.Search.Tokenize

namespace Flashlight.Search

open Flashlight.Math

/-- `while ((line = tokenize(&iptr, delim)))` with all allocations succeeding: the tokens,
or `none` when more than `fuel` calls are made. -/
def tokenizeAll (delim : List UInt8) :
    ℕ → Option (List UInt8) → Except Fault (Option (List (List UInt8)))
  | 0, _ => .ok none
  | fuel + 1, iptr =>
      match tokenize true iptr delim with
      | .error fault => .error fault
      | .ok (none, _) => .ok (some [])
      | .ok (some token, rest) =>
          (tokenizeAll delim fuel rest).map fun tokens => tokens.map (token :: ·)

/-- The tokens are the string cut at the delimiter: no token has one inside, and with a
delimiter between each two of them they are the string. Cut at newlines they are its lines,
the empty ones included. -/
structure IsSplit (str delim : List UInt8) (tokens : List (List UInt8)) : Prop where
  apart : ∀ token ∈ tokens, ¬ delim <:+: token
  join : delim.intercalate tokens = str
  lines : delim = [newline] →
    tokens.length = str.count newline + 1 ∧ tokens = str.splitOn newline

/-- The calls come to an end, and the tokens are the string cut at the delimiter. -/
def SplitsExactly (str delim : List UInt8) : Prop :=
  ∃ fuel tokens, tokenizeAll delim fuel (some str) = .ok (some tokens) ∧ IsSplit str delim tokens

/-! ## The first occurrence -/

theorem strstr_eq_zero {str delim : List UInt8} (hstarts : delim <+: str) :
    strstr str delim = some 0 := by
  rw [strstr.eq_def, if_pos (List.isPrefixOf_iff_prefix.mpr hstarts)]

theorem strstr_nil {delim : List UInt8} (hstarts : ¬ delim <+: []) : strstr [] delim = none := by
  rw [strstr, if_neg (mt List.isPrefixOf_iff_prefix.mp hstarts)]

theorem strstr_cons {byte : UInt8} {rest delim : List UInt8} (hstarts : ¬ delim <+: byte :: rest) :
    strstr (byte :: rest) delim = (strstr rest delim).map (· + 1) := by
  rw [strstr, if_neg (mt List.isPrefixOf_iff_prefix.mp hstarts)]

/-- Nothing is found exactly if the delimiter does not occur. -/
theorem strstr_eq_none_iff {str delim : List UInt8} :
    strstr str delim = none ↔ ¬ delim <:+: str := by
  induction str with
  | nil =>
      by_cases hstarts : delim <+: []
      · simp [strstr_eq_zero hstarts, hstarts.isInfix]
      · simp only [strstr_nil hstarts, List.infix_nil, true_iff]
        rintro rfl
        exact hstarts List.prefix_rfl
  | cons byte rest ih =>
      by_cases hstarts : delim <+: byte :: rest
      · simp [strstr_eq_zero hstarts, hstarts.isInfix]
      · rw [strstr_cons hstarts, Option.map_eq_none_iff, ih, List.infix_cons_iff,
          or_iff_right hstarts]

/-- What is found is an occurrence, and the delimiter occurs nowhere before it. -/
theorem of_strstr_eq_some {str delim : List UInt8} {position : ℕ}
    (h : strstr str delim = some position) :
    (∃ before after, str = before ++ delim ++ after ∧ before.length = position) ∧
      ∀ i < position, ¬ delim <+: str.drop i := by
  induction str generalizing position with
  | nil =>
      by_cases hstarts : delim <+: []
      · obtain rfl : position = 0 := Option.some.inj (h.symm.trans (strstr_eq_zero hstarts))
        exact ⟨⟨[], [], by simpa using (List.prefix_nil.mp hstarts).symm, rfl⟩, by simp⟩
      · rw [strstr_nil hstarts] at h
        cases h
  | cons byte rest ih =>
      by_cases hstarts : delim <+: byte :: rest
      · obtain rfl : position = 0 := Option.some.inj (h.symm.trans (strstr_eq_zero hstarts))
        obtain ⟨after, hafter⟩ := hstarts
        exact ⟨⟨[], after, by simpa using hafter.symm, rfl⟩, by simp⟩
      · rw [strstr_cons hstarts, Option.map_eq_some_iff] at h
        obtain ⟨position, hfound, rfl⟩ := h
        obtain ⟨⟨before, after, rfl, hbefore⟩, hfirst⟩ := ih hfound
        refine ⟨⟨byte :: before, after, rfl, by simp [hbefore]⟩, fun i hi => ?_⟩
        cases i with
        | zero => exact hstarts
        | succ i => exact hfirst i (by omega)

/-- The bytes before the first occurrence do not contain the delimiter. -/
theorem not_infix_of_strstr_eq_some {before delim after : List UInt8} (hdelim : delim ≠ [])
    (h : strstr (before ++ delim ++ after) delim = some before.length) :
    ¬ delim <:+: before := by
  rintro ⟨front, back, rfl⟩
  have hpos : 0 < delim.length := List.length_pos_of_ne_nil hdelim
  refine (of_strstr_eq_some h).2 front.length (by simp; omega) ?_
  rw [List.append_assoc, List.append_assoc, List.append_assoc, List.drop_left]
  exact List.prefix_append _ _

/-! ## The loop -/

/-- Every token that is still to be cut off is short enough. -/
def Cuttable (str delim : List UInt8) : Prop :=
  str.length < 2 ^ 31 - 1 ∨ (str.length < 2 ^ 31 ∧ delim <:+: str)

/-- The last token is what is left. -/
theorem tokenizeAll_of_none {str delim : List UInt8} (hnone : strstr str delim = none)
    (hshort : str.length < 2 ^ 31 - 1) : tokenizeAll delim 2 (some str) = .ok (some [str]) := by
  have hcut : tokenize true (some str) delim = .ok (some str, none) := by
    rw [tokenize_of_lt true (by simpa [hnone] using hshort), hnone, if_pos rfl]
    simp
  have hend : tokenize true none delim = .ok (none, none) := rfl
  rw [tokenizeAll, hcut]
  simp only [tokenizeAll, hend]
  rfl

/-- A token is cut off and the loop goes on behind the delimiter. -/
theorem tokenizeAll_of_some {before delim after : List UInt8}
    (hfound : strstr (before ++ delim ++ after) delim = some before.length)
    (hshort : before.length < 2 ^ 31 - 1) (fuel : ℕ) :
    tokenizeAll delim (fuel + 1) (some (before ++ delim ++ after)) =
      (tokenizeAll delim fuel (some after)).map fun tokens => tokens.map (before :: ·) := by
  have hcut : tokenize true (some (before ++ delim ++ after)) delim = _ :=
    tokenize_of_lt true (by rwa [hfound])
  have hrest : (before ++ delim ++ after).drop (before.length + delim.length) = after := by
    rw [← List.length_append, List.drop_left]
  have htoken : (before ++ delim ++ after).take before.length = before := by
    rw [List.append_assoc, List.take_left]
  rw [hfound, Option.getD_some, Option.map_some, hrest, htoken, if_pos rfl] at hcut
  rw [tokenizeAll, hcut]

/-- **The loop cuts a string** up, token by token. -/
theorem exists_tokenizeAll {str delim : List UInt8} (hdelim : delim ≠ [])
    (hcuttable : Cuttable str delim) :
    ∃ fuel tokens, tokenizeAll delim fuel (some str) = .ok (some tokens) ∧ tokens ≠ [] ∧
      (∀ token ∈ tokens, ¬ delim <:+: token) ∧ delim.intercalate tokens = str := by
  have hpos : 0 < delim.length := List.length_pos_of_ne_nil hdelim
  induction hn : str.length using Nat.strong_induction_on generalizing str with
  | _ n ih =>
      cases hfound : strstr str delim with
      | none =>
          have habsent := strstr_eq_none_iff.mp hfound
          have hshort := hcuttable.resolve_right fun h => habsent h.2
          exact ⟨2, [str], tokenizeAll_of_none hfound hshort, by simp, by simpa using habsent,
            List.intercalate_singleton⟩
      | some position =>
          obtain ⟨⟨before, after, rfl, rfl⟩, -⟩ := of_strstr_eq_some hfound
          have hle : (before ++ delim ++ after).length < 2 ^ 31 :=
            hcuttable.elim (fun h => by omega) And.left
          rw [List.length_append, List.length_append] at hle hn
          obtain ⟨fuel, tokens, htokens, hne, hapart, hjoin⟩ :=
            ih after.length (by omega) (Or.inl (by omega)) rfl
          refine ⟨fuel + 1, before :: tokens, ?_, by simp, ?_, ?_⟩
          · rw [tokenizeAll_of_some hfound (by omega), htokens]
            rfl
          · intro token htoken
            rcases List.mem_cons.mp htoken with rfl | htoken
            · exact not_infix_of_strstr_eq_some hdelim hfound
            · exact hapart token htoken
          · rw [List.intercalate_cons_of_ne_nil hne, hjoin]

/-- A string that is one token of `2 ^ 31 - 1` bytes cannot be cut off. -/
theorem tokenizeAll_ne_of_long {str delim : List UInt8} (hlength : str.length = 2 ^ 31 - 1)
    (habsent : ¬ delim <:+: str) (fuel : ℕ) (tokens : List (List UInt8)) :
    tokenizeAll delim fuel (some str) ≠ .ok (some tokens) := by
  cases fuel with
  | zero => simp [tokenizeAll]
  | succ fuel =>
      have hundefined : tokenize true (some str) delim = .error .undefined := by
        have hnone := strstr_eq_none_iff.mpr habsent
        have hmax : Int32.ofNat (2 ^ 31 - 1) = Int32.maxValue := by decide
        simp only [tokenize, hnone, Option.getD_none, hlength, hmax]
        rfl
      simp [tokenizeAll, hundefined]

/-! ## Lines -/

/-- Joined with a separator that occurs in none of them, the pieces are one more than the
separators. -/
theorem count_intercalate {x : UInt8} {pieces : List (List UInt8)} (hne : pieces ≠ [])
    (hout : ∀ piece ∈ pieces, x ∉ piece) :
    pieces.length = ([x].intercalate pieces).count x + 1 := by
  induction pieces with
  | nil => exact absurd rfl hne
  | cons piece pieces ih =>
      have hpiece : piece.count x = 0 := List.count_eq_zero.mpr (hout piece (by simp))
      by_cases hnil : pieces = []
      · simp [hnil, List.intercalate_singleton, hpiece]
      · have hrest := ih hnil fun p hp => hout p (List.mem_cons_of_mem _ hp)
        rw [List.intercalate_cons_of_ne_nil hnil, List.count_append, List.count_append, hpiece,
          List.length_cons, hrest, List.count_singleton_self]
        omega

/-- Tokens without newlines that join to a string are its lines. -/
theorem lines_of_intercalate {str : List UInt8} {tokens : List (List UInt8)} (hne : tokens ≠ [])
    (hapart : ∀ token ∈ tokens, ¬ [newline] <:+: token)
    (hjoin : [newline].intercalate tokens = str) :
    tokens.length = str.count newline + 1 ∧ tokens = str.splitOn newline := by
  have hout : ∀ token ∈ tokens, newline ∉ token := fun token htoken hmem =>
    hapart token htoken ((List.singleton_infix_iff _ _).mpr hmem)
  refine ⟨hjoin ▸ count_intercalate hne hout, ?_⟩
  rw [← hjoin, List.splitOn_intercalate newline hout hne]

/-- **Repeated calls split a string** of less than `2 ^ 31` bytes exactly unless it is one
token of the greatest length. -/
theorem splitsExactly_iff {str delim : List UInt8} (hstr : str.length < 2 ^ 31)
    (hdelim : delim ≠ []) :
    SplitsExactly str delim ↔ str.length < 2 ^ 31 - 1 ∨ delim <:+: str := by
  constructor
  · rintro ⟨fuel, tokens, htokens, -⟩
    by_contra hlong
    obtain ⟨hlength, habsent⟩ := not_or.mp hlong
    exact tokenizeAll_ne_of_long (by omega) habsent fuel tokens htokens
  · intro hshort
    obtain ⟨fuel, tokens, htokens, hne, hapart, hjoin⟩ :=
      exists_tokenizeAll hdelim (hshort.imp_right fun h => ⟨hstr, h⟩)
    refine ⟨fuel, tokens, htokens, hapart, hjoin, ?_⟩
    rintro rfl
    exact lines_of_intercalate hne hapart hjoin

/-- An empty line between two others. -/
theorem splitsExactly_three_lines : SplitsExactly [97, newline, newline, 98] [newline] :=
  (splitsExactly_iff (by decide) (by decide)).mpr (Or.inl (by decide))

/-- A line of `2 ^ 31 - 1` bytes is not split off. -/
theorem splitsExactly_fails_on_long :
    ¬ SplitsExactly (List.replicate (2 ^ 31 - 1) 97) [newline] := by
  rintro ⟨fuel, tokens, htokens, -⟩
  refine tokenizeAll_ne_of_long List.length_replicate (fun hmem => ?_) fuel tokens htokens
  exact absurd (List.eq_of_mem_replicate ((List.singleton_infix_iff _ _).mp hmem)) (by decide)

end Flashlight.Search
