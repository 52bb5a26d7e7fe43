/-
# Splitting a lookup into lines

`tokenize` cuts the next line off a string and moves the caller's pointer behind the
delimiter that ends it, or to null when there is none. Unlike `strtok` it keeps empty
lines.

A string is the list of its bytes without the terminator. The length of a token is an
`int`: a line of `2 ^ 31 - 1` bytes or more is not cut off as it should be.
-/

import Flashlight.Platform

namespace Flashlight.Search

open Flashlight.Math

/-- The string at the front of these bytes, which a zero byte ends. -/
def cString (bytes : List UInt8) : List UInt8 :=
  bytes.takeWhile (· != 0)

/-- `strstr`: where the first occurrence of `delim` begins. -/
def strstr (str delim : List UInt8) : Option ℕ :=
  if delim.isPrefixOf str then some 0
  else
    match str with
    | [] => none
    | _ :: rest => (strstr rest delim).map (· + 1)

/-- `tokenize`: the token, or null, and where the pointer is left. -/
def tokenize (alloc : Bool) (iptr : Option (List UInt8)) (delim : List UInt8) :
    Except Fault (Option (List UInt8) × Option (List UInt8)) :=
  match iptr with
  | none => .ok (none, none)
  | some str =>
      let found := strstr str delim
      let tokenLength : Int32 := .ofNat (found.getD str.length)
      if tokenLength < 0 then .ok (none, none)
      -- `token_length + 1` overflows
      else if tokenLength = Int32.maxValue then .error .undefined
      else if alloc = false then .ok (none, iptr)
      else .ok (some (str.take tokenLength.toInt.toNat),
        found.map fun position => str.drop (position + delim.length))

/-! ## Lines -/

/-- The string up to its first newline. -/
def nextLine (str : List UInt8) : List UInt8 :=
  str.takeWhile fun byte => !isNewline byte

/-- What follows the first newline, if there is one. -/
def afterLine (str : List UInt8) : Option (List UInt8) :=
  (strstr str [newline]).map fun position => str.drop (position + 1)

/-- The lines that have not been cut off yet. -/
def unread : Option (List UInt8) → List (List UInt8)
  | none => []
  | some str => str.splitOnP isNewline

/-- A token of this length can be cut off. -/
def FitsInt (line : List UInt8) : Prop :=
  line.length < 2 ^ 31 - 1

instance (line : List UInt8) : Decidable (FitsInt line) :=
  inferInstanceAs (Decidable (line.length < 2 ^ 31 - 1))

theorem isPrefixOf_newline (byte : UInt8) (rest : List UInt8) :
    [newline].isPrefixOf (byte :: rest) = isNewline byte := by
  simp only [List.isPrefixOf, Bool.and_true, isNewline, Bool.beq_comm]

/-- The first newline stands behind the next line. -/
theorem getD_strstr_newline (str : List UInt8) :
    (strstr str [newline]).getD str.length = (nextLine str).length := by
  induction str with
  | nil => rfl
  | cons byte rest ih =>
      rw [strstr, isPrefixOf_newline]
      cases hbyte : isNewline byte with
      | true => simp [nextLine, hbyte]
      | false =>
          simp only [Bool.false_eq_true, if_false, nextLine, List.takeWhile_cons, hbyte,
            Bool.not_false, if_true, List.length_cons]
          rw [nextLine] at ih
          rw [← ih]
          cases strstr rest [newline] <;> rfl

/-- The next line is all that comes before the first newline. -/
theorem take_length_nextLine (str : List UInt8) : str.take (nextLine str).length = nextLine str :=
  (List.prefix_iff_eq_take.mp (List.takeWhile_prefix _)).symm

/-- The lines of a string are its next line and the lines that follow. -/
theorem unread_some (str : List UInt8) :
    unread (some str) = nextLine str :: unread (afterLine str) := by
  simp only [unread]
  induction str with
  | nil => rfl
  | cons byte rest ih =>
      rw [List.splitOnP_cons_eq_if_modifyHead, nextLine, afterLine, strstr, isPrefixOf_newline]
      cases hbyte : isNewline byte with
      | true => simp [hbyte]
      | false =>
          rw [ih]
          simp only [Bool.false_eq_true, if_false, List.modifyHead_cons, List.takeWhile_cons,
            hbyte, Bool.not_false, if_true, nextLine, afterLine]
          cases strstr rest [newline] <;> rfl

/-- A token that is short enough is cut off. -/
theorem tokenize_of_lt {str delim : List UInt8} (alloc : Bool)
    (hlt : (strstr str delim).getD str.length < 2 ^ 31 - 1) :
    tokenize alloc (some str) delim =
      if alloc then
        .ok (some (str.take ((strstr str delim).getD str.length)),
          (strstr str delim).map fun position => str.drop (position + delim.length))
      else .ok (none, some str) := by
  have hint : (Int32.ofNat ((strstr str delim).getD str.length)).toInt =
      (strstr str delim).getD str.length :=
    Int32.toInt_ofNat_of_lt (by omega)
  have hneg : ¬ Int32.ofNat ((strstr str delim).getD str.length) < 0 := by
    rw [Int32.lt_iff_toInt_lt, hint, Int32.toInt_zero]
    omega
  have hmax : Int32.ofNat ((strstr str delim).getD str.length) ≠ Int32.maxValue := by
    intro heq
    have hvalue := congrArg Int32.toInt heq
    rw [hint, Int32.toInt_maxValue] at hvalue
    omega
  simp only [tokenize, if_neg hneg, if_neg hmax, hint, Int.toNat_natCast]
  cases alloc <;> rfl

/-- A line that fits is cut off. -/
theorem tokenize_newline {str : List UInt8} (alloc : Bool) (hfits : FitsInt (nextLine str)) :
    tokenize alloc (some str) [newline] =
      if alloc then .ok (some (nextLine str), afterLine str) else .ok (none, some str) := by
  rw [tokenize_of_lt alloc (by rwa [getD_strstr_newline]), getD_strstr_newline,
    take_length_nextLine]
  rfl

/-- A token is the beginning of the string. -/
theorem prefix_of_tokenize_eq_some {alloc : Bool} {str delim token : List UInt8}
    {rest : Option (List UInt8)}
    (h : tokenize alloc (some str) delim = .ok (some token, rest)) : token <+: str := by
  unfold tokenize at h
  simp only at h
  split at h
  · cases h
  · split at h
    · cases h
    · split at h
      · cases h
      · obtain ⟨htoken, -⟩ := Prod.mk.inj (Except.ok.inj h)
        obtain rfl := Option.some.inj htoken
        exact List.take_prefix _ _

/-- Whatever is cut off fits, and the pointer moves behind the line. -/
theorem of_tokenize_eq_some {alloc : Bool} {str token : List UInt8} {rest : Option (List UInt8)}
    (h : tokenize alloc (some str) [newline] = .ok (some token, rest)) :
    FitsInt token ∧ rest = afterLine str := by
  unfold tokenize at h
  simp only at h
  split at h
  · cases h
  · split at h
    · cases h
    · next hmax =>
        split at h
        · cases h
        · obtain ⟨htoken, rfl⟩ := Prod.mk.inj (Except.ok.inj h)
          obtain rfl := Option.some.inj htoken
          refine ⟨?_, rfl⟩
          have hbound := Int32.toInt_le (Int32.ofNat ((strstr str [newline]).getD str.length))
          rw [Int32.toInt_maxValue] at hbound
          rw [← Int32.toInt_inj, Int32.toInt_maxValue] at hmax
          rw [FitsInt, List.length_take]
          omega

end Flashlight.Search
