/-
# Fixed-width integers and tables of fixed-width records

Two facts that programs over machine integers use all the time: a conversion
between a signed and an unsigned type of one width keeps every value that both
types have, and an integer written as `w` little-endian bytes is read back.

A table is the concatenation of its encoded records. When every record takes `w`
elements, a read of `w` elements at position `k * w` meets record `k`.
-/

import Mathlib.Data.List.Basic
import Mathlib.Tactic

namespace Flashlight.Math

universe u v

/-! ## Signed and unsigned -/

theorem toNat_toUInt32 {x : Int32} (h : 0 ≤ x.toInt) : x.toUInt32.toNat = x.toInt.toNat := by
  have hbits : x.toUInt32.toNat = x.toBitVec.toNat := rfl
  have hlt := x.toBitVec.isLt
  have hint := BitVec.toInt_eq_toNat_cond x.toBitVec
  rw [Int32.toInt_toBitVec] at hint
  split at hint <;> omega

theorem toNat_toUInt32_of_neg {x : Int32} (h : x.toInt < 0) :
    (x.toUInt32.toNat : ℤ) = x.toInt + 2 ^ 32 := by
  have hbits : x.toUInt32.toNat = x.toBitVec.toNat := rfl
  have hint := BitVec.toInt_eq_toNat_cond x.toBitVec
  rw [Int32.toInt_toBitVec] at hint
  split at hint <;> omega

theorem toNat_toUInt64 {x : Int64} (h : 0 ≤ x.toInt) : x.toUInt64.toNat = x.toInt.toNat := by
  have hbits : x.toUInt64.toNat = x.toBitVec.toNat := rfl
  have hlt := x.toBitVec.isLt
  have hint := BitVec.toInt_eq_toNat_cond x.toBitVec
  rw [Int64.toInt_toBitVec] at hint
  split at hint <;> omega

theorem toInt_toInt32 {x : UInt32} (h : x.toNat < 2 ^ 31) : x.toInt32.toInt = x.toNat := by
  have hbits : x.toInt32.toBitVec.toNat = x.toNat := rfl
  have hint := BitVec.toInt_eq_toNat_cond x.toInt32.toBitVec
  rw [Int32.toInt_toBitVec] at hint
  split at hint <;> omega

theorem toInt_toInt32_of_le {x : UInt32} (h : 2 ^ 31 ≤ x.toNat) :
    x.toInt32.toInt = (x.toNat : ℤ) - 2 ^ 32 := by
  have hbits : x.toInt32.toBitVec.toNat = x.toNat := rfl
  have hint := BitVec.toInt_eq_toNat_cond x.toInt32.toBitVec
  rw [Int32.toInt_toBitVec] at hint
  split at hint <;> omega

theorem toInt_toInt64 {x : UInt64} (h : x.toNat < 2 ^ 63) : x.toInt64.toInt = x.toNat := by
  have hbits : x.toInt64.toBitVec.toNat = x.toNat := rfl
  have hint := BitVec.toInt_eq_toNat_cond x.toInt64.toBitVec
  rw [Int64.toInt_toBitVec] at hint
  split at hint <;> omega

theorem toInt_toInt64_of_le {x : UInt64} (h : 2 ^ 63 ≤ x.toNat) :
    x.toInt64.toInt = (x.toNat : ℤ) - 2 ^ 64 := by
  have hbits : x.toInt64.toBitVec.toNat = x.toNat := rfl
  have hint := BitVec.toInt_eq_toNat_cond x.toInt64.toBitVec
  rw [Int64.toInt_toBitVec] at hint
  split at hint <;> omega

/-- The upper half of the unsigned values is negative as a signed value. -/
theorem toInt_toInt64_neg {x : UInt64} (h : 2 ^ 63 ≤ x.toNat) : x.toInt64.toInt < 0 := by
  have hlt := x.toNat_lt
  rw [toInt_toInt64_of_le h]
  omega

/-! ## Little-endian bytes -/

/-- The `w` lowest bytes of `n`, least significant first. -/
def toBytes : ℕ → ℕ → List UInt8
  | 0, _ => []
  | w + 1, n => .ofNat n :: toBytes w (n / 256)

/-- The number with the given bytes, least significant first. -/
def ofBytes : List UInt8 → ℕ
  | [] => 0
  | byte :: bytes => byte.toNat + 256 * ofBytes bytes

@[simp]
theorem length_toBytes (w n : ℕ) : (toBytes w n).length = w := by
  induction w generalizing n with
  | zero => rfl
  | succ w ih => simp [toBytes, ih]

theorem ofBytes_toBytes {w n : ℕ} (h : n < 256 ^ w) : ofBytes (toBytes w n) = n := by
  induction w generalizing n with
  | zero => simpa [toBytes, ofBytes, eq_comm] using h
  | succ w ih =>
      have hrest : n / 256 < 256 ^ w := by
        rw [Nat.div_lt_iff_lt_mul (by norm_num)]
        rwa [pow_succ] at h
      have hlow : (UInt8.ofNat n).toNat = n % 256 := by simp
      rw [toBytes, ofBytes, ih hrest, hlow]
      omega

/-! ## Tables -/

section Tables

variable {α : Type u} {β : Type v} {encode : β → List α} {w : ℕ}

/-- Reading at the position of record `k` meets its encoding. -/
theorem take_drop_flatMap (hwidth : ∀ r, (encode r).length = w) {records : List β} {k : ℕ} {r : β}
    (hr : records[k]? = some r) : ((records.flatMap encode).drop (k * w)).take w = encode r := by
  induction records generalizing k with
  | nil => simp at hr
  | cons record records ih =>
      cases k with
      | zero =>
          obtain rfl : record = r := by simpa using hr
          simp [hwidth]
      | succ k =>
          have hrest := ih (k := k) (by simpa using hr)
          rw [List.flatMap_cons, List.drop_append, hwidth,
            List.drop_eq_nil_of_le (by rw [hwidth]; nlinarith), List.nil_append,
            show (k + 1) * w - w = k * w by rw [Nat.succ_mul, Nat.add_sub_cancel]]
          exact hrest

theorem length_flatMap_of_width (hwidth : ∀ r, (encode r).length = w) (records : List β) :
    (records.flatMap encode).length = records.length * w := by
  induction records with
  | nil => simp
  | cons record records ih =>
      rw [List.flatMap_cons, List.length_append, hwidth, ih, List.length_cons, Nat.succ_mul,
        Nat.add_comm]

end Tables

end Flashlight.Math
