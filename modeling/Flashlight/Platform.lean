/-
# What the program takes from its platform

The indexer and the searcher are written against a 64-bit C platform: `size_t`
and `unsigned long` are `UInt64`, `off_t` and `long` are `Int64`, `unsigned int`
is `UInt32` and `int` is `Int32`. Arithmetic on the unsigned types wraps. A cast
from `double` whose value does not fit, an overflowing `int` and a division by
zero have no defined result; a computation that meets one of them ends in
`Fault.undefined`.

Positioned reads are the only way the program looks at a file. A read may fail or
deliver any prefix of the bytes that were asked for; which one it does is chosen
by the environment, as a `Delivery`.
-/

import Flashlight.Math.FixedWidth
import Flashlight.Math.RoundNearest
import Flashlight.Math.Separators

namespace Flashlight

open Flashlight.Math

/-- Why a call has no result that its caller can use. -/
inductive Fault
  /-- The call itself reports failure to its caller. -/
  | refused
  /-- The C standard gives the call no meaning. -/
  | undefined
  deriving DecidableEq, Repr

/-! ## Numbers -/

/-- `(double) n`: binary64 has 53 significant bits. -/
def toDouble (n : ℕ) : ℚ :=
  roundTo 53 n

/-- `ceil(a / (double) b)`. A quotient by zero is not a number or infinite and
has no integer value. -/
def ceilQuotient (a b : UInt64) : Except Fault ℕ :=
  if b = 0 then .error .undefined
  else .ok ⌈roundTo 53 (toDouble a.toNat / toDouble b.toNat)⌉₊

/-- `(unsigned int) d` for an integral `double`. -/
def castUnsignedInt (d : ℕ) : Except Fault UInt32 :=
  if d < 2 ^ 32 then .ok (.ofNat d) else .error .undefined

/-- `(int) d` for an integral `double`. -/
def castInt (d : ℕ) : Except Fault Int32 :=
  if d < 2 ^ 31 then .ok (.ofNat d) else .error .undefined

/-- `(unsigned long) d` for an integral `double`. -/
def castUnsignedLong (d : ℕ) : Except Fault UInt64 :=
  if d < 2 ^ 64 then .ok (.ofNat d) else .error .undefined

/-- The conversion of an `int` operand to `size_t`. -/
def intToSize (n : Int32) : UInt64 :=
  n.toInt64.toUInt64

theorem toDouble_eq {n : ℕ} (h : n < 2 ^ 53) : toDouble n = n :=
  roundTo_natCast h

/-- Below `2 ^ 53` the ceiling of the `double` quotient is the exact one. -/
theorem ceilQuotient_eq {a b : UInt64} (ha : a.toNat < 2 ^ 53) (hb : b.toNat < 2 ^ 53)
    (hpos : 0 < b.toNat) : ceilQuotient a b = .ok (a.toNat ⌈/⌉ b.toNat) := by
  have hne : b ≠ 0 := by
    rintro rfl
    simp at hpos
  rw [ceilQuotient, if_neg hne, toDouble_eq ha, toDouble_eq hb, ceil_roundTo_div ha hpos]

/-- Only the quotient of `0` is rounded up to `0`. -/
theorem ceilQuotient_eq_zero_iff {a b : UInt64} {d : ℕ} (h : ceilQuotient a b = .ok d) :
    d = 0 ↔ a = 0 := by
  unfold ceilQuotient at h
  split at h
  · cases h
  · next hb =>
      obtain rfl := Except.ok.inj h
      have hbpos : 0 < toDouble b.toNat := by
        refine roundTo_pos (by norm_num) (Nat.cast_pos.mpr (Nat.pos_of_ne_zero fun hzero => ?_))
        exact hb (UInt64.toNat_inj.mp hzero)
      constructor
      · intro hceil
        by_contra ha
        have hapos : 0 < toDouble a.toNat := by
          refine roundTo_pos (by norm_num) (Nat.cast_pos.mpr (Nat.pos_of_ne_zero fun hzero => ?_))
          exact ha (UInt64.toNat_inj.mp hzero)
        have hpos := roundTo_pos (p := 53) (by norm_num) (div_pos hapos hbpos)
        exact absurd (Nat.ceil_eq_zero.mp hceil) (not_le.mpr hpos)
      · rintro rfl
        simp [toDouble]

theorem castUnsignedInt_eq_ok_iff {d : ℕ} {n : UInt32} :
    castUnsignedInt d = .ok n ↔ d < 2 ^ 32 ∧ n = .ofNat d := by
  unfold castUnsignedInt
  split <;> simp_all [eq_comm]

theorem castUnsignedInt_of_lt {d : ℕ} (h : d < 2 ^ 32) : castUnsignedInt d = .ok (.ofNat d) :=
  if_pos h

theorem castUnsignedInt_of_le {d : ℕ} (h : 2 ^ 32 ≤ d) :
    castUnsignedInt d = .error .undefined :=
  if_neg (by omega)

theorem castUnsignedLong_of_lt {d : ℕ} (h : d < 2 ^ 64) : castUnsignedLong d = .ok (.ofNat d) :=
  if_pos h

theorem toNat_intToSize {n : Int32} (h : 0 ≤ n.toInt) : (intToSize n).toNat = n.toInt.toNat := by
  have hwide := Int32.toInt_toInt64 n
  rw [intToSize, toNat_toUInt64 (by omega), hwide]

/-! ## Files -/

/-- The byte that ends a line. -/
def newline : UInt8 := 10

/-- `(char) byte == '\n'` -/
def isNewline (byte : UInt8) : Bool :=
  byte == newline

/-- A regular file as `ftell` and `pread` see it: its size is a nonnegative
`long`. -/
structure TargetFile where
  /-- The contents. -/
  bytes : List UInt8
  /-- The size fits a `long`. -/
  size_lt : bytes.length < 2 ^ 63

/-- The size as a `size_t`. -/
theorem TargetFile.toNat_length (target : TargetFile) :
    (UInt64.ofNat target.bytes.length).toNat = target.bytes.length := by
  have hsize := target.size_lt
  exact UInt64.toNat_ofNat_of_lt' (by simp only [UInt64.size]; omega)

/-- The file that holds the line `a`; the examples use it. -/
def lineFile : TargetFile where
  bytes := [97, newline]
  size_lt := by decide

/-- The file with the line that is this byte, and the line `b`. -/
def pairFile (first : UInt8) : TargetFile where
  bytes := [first, newline, 98, newline]
  size_lt := by simp

/-- What the platform does on a read: fail with `-1`, or deliver at most `n`
bytes. -/
abbrev Delivery := Option ℕ

/-- `pread(fd, buffer, count, offset)`: the bytes delivered, or `none` for `-1`.
A negative offset is refused. -/
def pread (contents : List UInt8) (count : UInt64) (offset : Int64) (delivery : Delivery) :
    Option (List UInt8) :=
  match delivery with
  | none => none
  | some n =>
      if offset < 0 then none
      else some (((contents.drop offset.toInt.toNat).take count.toNat).take n)

/-- The platform delivers everything that is there. -/
def Delivery.Full (delivery : Delivery) (contents : List UInt8) : Prop :=
  ∃ n, delivery = some n ∧ contents.length ≤ n

/-- One `pread` transfers no more bytes than this, whatever it is asked for: the limit
that Linux documents. -/
def maxTransfer : ℕ := 0x7ffff000

/-- A full read returns the bytes from `offset` on, up to `count` of them. -/
theorem pread_of_full {contents : List UInt8} {count : UInt64} {offset : Int64}
    {delivery : Delivery} (hfull : delivery.Full contents) (hoffset : 0 ≤ offset.toInt) :
    pread contents count offset delivery =
      some ((contents.drop offset.toInt.toNat).take count.toNat) := by
  obtain ⟨n, rfl, hn⟩ := hfull
  have hneg : ¬ offset < 0 := by
    rw [Int64.lt_iff_toInt_lt, Int64.toInt_zero]
    omega
  simp only [pread, if_neg hneg, Option.some.injEq]
  apply List.take_of_length_le
  rw [List.length_take, List.length_drop]
  omega

/-- The offsets just after the newlines of a file, in increasing order. -/
def newlineEnds (bytes : List UInt8) : List ℕ :=
  sepEnds isNewline 0 bytes

end Flashlight
