/-
# Which lines of a batch are shown

A batch is a run of lines that is read as a C string. So its lines are shown up to the
first one that holds a zero byte, or whose length is not an `int`: that line hides the
lines behind it in its batch, and no others.

The lines that a thread shows come in their order and from its own range, whatever bytes
the file is made of.
-/

import Flashlight.Search.Sound
import Flashlight.Search.Tokens

namespace Flashlight.Search

open Flashlight.Math

/-- The lines behind this one in its batch are not seen. -/
def Hides (line : List UInt8) : Prop :=
  0 ∈ line ∨ cutToken line = none

instance (line : List UInt8) : Decidable (Hides line) :=
  inferInstanceAs (Decidable (_ ∨ _))

/-- What is handed over for line `k` of the file. -/
def tokenAt (bytes : List UInt8) (k : ℕ) : List UInt8 :=
  (cutToken (cString (line isNewline bytes k))).getD []

/-- Line `k`, as a result names it. -/
def shownLine (bytes : List UInt8) (k : ℕ) : NumberedLine :=
  (.ofNat (k + 1), tokenAt bytes k)

/-- The lines that are shown among the `count` lines from line `i` on. -/
def shown (bytes : List UInt8) : ℕ → ℕ → List ℕ
  | _, 0 => []
  | i, count + 1 =>
      i :: if Hides (line isNewline bytes i) then [] else shown bytes (i + 1) count

/-- The lines of a batch that are shown and are not empty. -/
def batchShown (bytes : List UInt8) (batch : UInt64 × UInt64) : List ℕ :=
  (shown bytes batch.1.toNat (min (batch.1.toNat + batch.2.toNat) (newlineCount bytes) -
    batch.1.toNat)).filter fun k => tokenAt bytes k ≠ []

/-- The lines of a thread that are shown and are not empty. -/
def FSearcherThread.shown (bytes : List UInt8) (config : FSearcherThread) : List ℕ :=
  (config.batches config.start).flatMap (batchShown bytes)

theorem mem_shown {bytes : List UInt8} {i count k : ℕ} :
    k ∈ shown bytes i count ↔ i ≤ k ∧ k < i + count ∧
      ∀ m, i ≤ m → m < k → ¬ Hides (line isNewline bytes m) := by
  induction count generalizing i with
  | zero =>
      refine iff_of_false List.not_mem_nil ?_
      rintro ⟨hlow, hhigh, -⟩
      omega
  | succ count ih =>
      rw [shown, List.mem_cons]
      constructor
      · rintro (rfl | hmem)
        · exact ⟨le_rfl, by omega, fun m hlow hhigh => by omega⟩
        · split at hmem
          · cases hmem
          · next hclear =>
              obtain ⟨hlow, hhigh, hbefore⟩ := ih.mp hmem
              refine ⟨by omega, by omega, fun m hm hmk => ?_⟩
              rcases hm.eq_or_lt with rfl | hlt
              · exact hclear
              · exact hbefore m hlt hmk
      · rintro ⟨hlow, hhigh, hbefore⟩
        rcases hlow.eq_or_lt with rfl | hlt
        · exact Or.inl rfl
        · refine Or.inr ?_
          rw [if_neg (hbefore i le_rfl hlt)]
          exact ih.mpr ⟨hlt, by omega, fun m hm hmk => hbefore m (by omega) hmk⟩

theorem pairwise_shown (bytes : List UInt8) (i count : ℕ) :
    (shown bytes i count).Pairwise (· < ·) := by
  induction count generalizing i with
  | zero => exact List.Pairwise.nil
  | succ count ih =>
      rw [shown]
      refine List.pairwise_cons.mpr ⟨fun k hk => ?_, ?_⟩
      · split at hk
        · cases hk
        · exact (mem_shown.mp hk).1
      · split
        · exact List.Pairwise.nil
        · exact ih (i + 1)

/-! ## The bytes of a batch -/

theorem cString_eq_self {bytes : List UInt8} (hnul : 0 ∉ bytes) : cString bytes = bytes := by
  rw [cString, List.takeWhile_eq_self_iff]
  intro byte hbyte
  simpa using fun hzero : byte = 0 => hnul (hzero ▸ hbyte)

/-- A string ends in the line that holds its first zero byte. -/
theorem cString_append_of_mem {front rest : List UInt8} (hnul : 0 ∈ front) :
    cString (front ++ rest) = cString front := by
  rw [cString, cString, List.takeWhile_append, if_neg]
  intro hlength
  have hself := (List.takeWhile_prefix fun byte : UInt8 => byte != 0).eq_of_length hlength
  have hall := List.takeWhile_eq_self_iff.mp hself 0 hnul
  simp at hall

theorem cString_append_of_not_mem {front rest : List UInt8} (hnul : 0 ∉ front) :
    cString (front ++ rest) = front ++ cString rest := by
  have hself : front.takeWhile (· != 0) = front := cString_eq_self hnul
  rw [cString, List.takeWhile_append, if_pos (by rw [hself]), cString]

/-- The lines that are left of a C string, when a newline stands behind its first line. -/
theorem unread_cString_append {line rest : List UInt8} {byte : UInt8}
    (hline : ∀ other ∈ line, isNewline other = false) (hbyte : isNewline byte = true) :
    unread (some (cString (line ++ byte :: rest))) =
      if 0 ∈ line then [cString line] else line :: unread (some (cString rest)) := by
  split
  · next hnul =>
      rw [cString_append_of_mem hnul]
      exact List.splitOnP_eq_singleton fun other hother =>
        hline other (List.takeWhile_subset _ hother)
  · next hnul =>
      have hne : byte ≠ 0 := by
        rintro rfl
        exact absurd hbyte (by decide)
      have hcut : cString (byte :: rest) = byte :: cString rest := by
        rw [cString, List.takeWhile_cons, if_pos (by simpa using hne), cString]
      rw [cString_append_of_not_mem hnul, hcut]
      exact List.splitOnP_append_cons_of_forall_mem hline byte hbyte _

/-- What can be cut off a C string that ends in line `i`. -/
theorem tokensOf_singleton (bytes : List UInt8) (i : UInt64) :
    tokensOf i [cString (line isNewline bytes i.toNat)] =
      ([i.toNat].filter fun k => tokenAt bytes k ≠ []).map (shownLine bytes) := by
  rw [tokensOf]
  cases hcut : cutToken (cString (line isNewline bytes i.toNat)) with
  | none => simp [tokenAt, hcut]
  | some token =>
      by_cases hempty : token = []
      · simp [tokenAt, hcut, hempty, tokensOf]
      · simp [tokenAt, hcut, hempty, tokensOf, shownLine]

/-- **The tokens of a batch** are those of the lines that are shown. -/
theorem tokensOf_lineBytes (bytes : List UInt8) (count : ℕ) {i : UInt64}
    (hcount : i.toNat + count ≤ newlineCount bytes) (hfits : i.toNat + count < 2 ^ 64) :
    tokensOf i (unread (some (cString (lineBytes bytes i.toNat (i.toNat + count))))) =
      ((shown bytes i.toNat count).filter fun k => tokenAt bytes k ≠ []).map
        (shownLine bytes) := by
  induction count generalizing i with
  | zero =>
      rw [Nat.add_zero, lineBytes, slice_self]
      rfl
  | succ count ih =>
      have hnext : (i + 1).toNat = i.toNat + 1 := by
        rw [UInt64.toNat_add, UInt64.toNat_one]
        omega
      have hnumber : i + 1 = .ofNat (i.toNat + 1) := by
        rw [← hnext, UInt64.ofNat_toNat]
      have hrest := ih (i := i + 1) (by omega) (by omega)
      rw [hnext, show i.toNat + 1 + count = i.toNat + (count + 1) by omega] at hrest
      obtain ⟨byte, hbyte, hslice⟩ := slice_lines_eq_cons
        (show i.toNat < i.toNat + (count + 1) by omega)
        (show i.toNat + (count + 1) ≤ bytes.countP isNewline from hcount)
      have hbytes : lineBytes bytes i.toNat (i.toNat + (count + 1)) =
          line isNewline bytes i.toNat ++
            byte :: lineBytes bytes (i.toNat + 1) (i.toNat + (count + 1)) := hslice
      have hline : ∀ other ∈ line isNewline bytes i.toNat, isNewline other = false :=
        fun other hother => by simpa using not_sep_of_mem_line hother
      rw [hbytes, unread_cString_append hline hbyte, shown]
      by_cases hnul : 0 ∈ line isNewline bytes i.toNat
      · -- the string ends in this line
        rw [if_pos hnul, tokensOf_singleton,
          if_pos (show Hides (line isNewline bytes i.toNat) from Or.inl hnul)]
      · have htoken : tokenAt bytes i.toNat =
            (cutToken (line isNewline bytes i.toNat)).getD [] := by
          rw [tokenAt, cString_eq_self hnul]
        rw [if_neg hnul, tokensOf]
        cases hcutToken : cutToken (line isNewline bytes i.toNat) with
        | none =>
            rw [if_pos (show Hides (line isNewline bytes i.toNat) from Or.inr hcutToken)]
            simp [htoken, hcutToken]
        | some token =>
            have hclear : ¬ Hides (line isNewline bytes i.toNat) := by
              simp [Hides, hnul, hcutToken]
            rw [if_neg hclear, List.filter_cons, htoken, hcutToken, hrest]
            simp only [Option.getD_some]
            split
            · next hempty => rw [if_neg (by simpa using hempty)]
            · next hempty =>
                rw [if_pos (by simpa using hempty), List.map_cons, shownLine, htoken, hcutToken,
                  hnumber]
                rfl

/-! ## The threads -/

section

variable {index : FIndex} {config : FSearcherThread} {bytes : List UInt8} {k : ℕ}

theorem mem_batchShown {batch : UInt64 × UInt64} :
    k ∈ batchShown bytes batch ↔ (batch.1.toNat ≤ k ∧ k < batch.1.toNat + batch.2.toNat ∧
      k < newlineCount bytes) ∧ (∀ m, batch.1.toNat ≤ m → m < k →
        ¬ Hides (line isNewline bytes m)) ∧ tokenAt bytes k ≠ [] := by
  rw [batchShown, List.mem_filter, mem_shown, decide_eq_true_iff]
  constructor
  · rintro ⟨⟨hlow, hhigh, hbefore⟩, htoken⟩
    exact ⟨⟨hlow, by omega, by omega⟩, hbefore, htoken⟩
  · rintro ⟨⟨hlow, hhigh, hcount⟩, hbefore, htoken⟩
    exact ⟨⟨hlow, by omega, hbefore⟩, htoken⟩

/-- The tokens of a thread are those of the lines that it shows. -/
theorem FSearcherThread.Inside.tokens_eq (hinside : config.Inside index) (hexact : index.Exact) :
    config.tokens index =
      (config.shown index.target.bytes).map (shownLine index.target.bytes) := by
  rw [FSearcherThread.tokens, tokensFrom, FSearcherThread.shown, List.map_flatMap]
  refine List.flatMap_congr fun batch hbatch => ?_
  obtain ⟨-, hlt, hle⟩ := hinside.bounded.of_mem_batches hinside.buffer hbatch
  have hrange := hinside.range
  have hsmall := hinside.bounded.range_lt
  have hsize := snd_of_mem_batches hbatch
  rw [batchTokens, ← hsize, hexact.readLookup_eq (by omega) (by omega), batchShown]
  have htokens := tokensOf_lineBytes index.target.bytes
    (min (batch.1.toNat + batch.2.toNat) (newlineCount index.target.bytes) - batch.1.toNat)
    (i := batch.1) (by omega) (by omega)
  rwa [Nat.add_sub_cancel' (by omega)] at htokens

/-- The lines that a thread shows come in their order. -/
theorem FSearcherThread.Inside.pairwise_shown (hinside : config.Inside index)
    (bytes : List UInt8) : (config.shown bytes).Pairwise (· < ·) := by
  refine List.pairwise_flatMap.mpr
    ⟨fun batch _ => (Search.pairwise_shown _ _ _).filter _, ?_⟩
  refine (hinside.bounded.pairwise_batches hinside.buffer _).imp ?_
  intro x y hxy j hj k hk
  have hj := (mem_batchShown.mp hj).1
  have hk := (mem_batchShown.mp hk).1
  omega

theorem FSearcherThread.Inside.of_mem_shown (hinside : config.Inside index)
    (hk : k ∈ config.shown bytes) : config.start.toNat ≤ k ∧
      k < config.start.toNat + config.count.toNat ∧ k < newlineCount bytes := by
  obtain ⟨batch, hbatch, hk⟩ := List.mem_flatMap.mp hk
  obtain ⟨⟨hlow, hhigh, hcount⟩, -⟩ := mem_batchShown.mp hk
  have := hinside.bounded.of_mem_batches hinside.buffer hbatch
  exact ⟨by omega, by omega, hcount⟩

end

end Flashlight.Search
