import ToiLang.Decimal

namespace ToiLang

namespace Double

/-- The integer that a finite number has in front of its point. -/
def truncate (x : Double) : Int := x.withSign (x.numerator / x.denominator)

/-- The comparison `x == y`. -/
def eq (x y : Double) : Bool := !x.isNaN && !y.isNaN && decide (x.order = y.order)

/-- The conversion of an unsigned integer of 64 bits, to the nearest number. -/
def ofUint64 (n : Nat) : Double :=
  if n < 2 ^ 53 then ofNat n
  else UInt64.ofNat ((1022 + n.log2) * 2 ^ 52 + roundHalfEven n (2 ^ (n.log2 - 52)))

def ofInt64 (i : Int) : Double :=
  if i < 0 then ofUint64 i.natAbs + 0x8000000000000000 else ofUint64 i.natAbs

/-- The bits that a significand is shifted by on the way to a `float`. -/
def singleShift (x : Double) : Nat := 29 + (897 - x.binade)

/-- The bits of `(float)x`: rounded to the nearest, which above the largest ones is an infinity. -/
def toSingle (x : Double) : UInt32 :=
  let magnitude :=
    if x.isNaN then 0x7FC00000 + x.fraction / 2 ^ 29 % 2 ^ 22
    else if x.exponent = 2047 then 0x7F800000
    else min 0x7F800000
      ((x.binade - 897) * 2 ^ 23 + roundHalfEven x.significand (2 ^ x.singleShift))
  UInt32.ofNat (magnitude + if x.negative then 2 ^ 31 else 0)

/-- The number that the bits of a `float` are. -/
def ofSingle (f : UInt32) : Double :=
  let exponent := f.toNat / 2 ^ 23 % 2 ^ 8
  let fraction := f.toNat % 2 ^ 23
  let magnitude :=
    if exponent = 255 then
      if fraction = 0 then 0x7FF0000000000000 else 0x7FF8000000000000 + fraction % 2 ^ 22 * 2 ^ 29
    else if exponent = 0 then
      if fraction = 0 then 0
      else (873 + fraction.log2) * 2 ^ 52 + fraction * 2 ^ (52 - fraction.log2)
    else (exponent + 896) * 2 ^ 52 + fraction * 2 ^ 29
  UInt64.ofNat (magnitude + if 2 ^ 31 ≤ f.toNat then 2 ^ 63 else 0)

theorem truncate_ofNat {n : Nat} (h : n ≠ 0) (hn : n < 2 ^ 53) : (ofNat n).truncate = n := by
  obtain ⟨hneg, hexp, hfrac⟩ := ofNat_fields h hn
  have hlog : n.log2 ≤ 52 := by
    have := (Nat.log2_lt h).mpr hn
    omega
  have hbinade : (ofNat n).binade = 1023 + n.log2 := by
    rw [binade, hexp]
    exact Nat.max_eq_left (by omega)
  have hsig : (ofNat n).significand = n * 2 ^ (52 - n.log2) := by
    unfold significand
    rw [if_neg (by omega), hfrac]
  have hnum : (ofNat n).numerator = n * 2 ^ (52 - n.log2) := by
    rw [numerator, hsig, hbinade, show 1023 + n.log2 - 1075 = 0 by omega, Nat.pow_zero, Nat.mul_one]
  have hden : (ofNat n).denominator = 2 ^ (52 - n.log2) := by
    rw [denominator, hbinade, show 1075 - (1023 + n.log2) = 52 - n.log2 by omega]
  rw [truncate, withSign, hneg, hnum, hden, Nat.mul_div_cancel _ (Nat.two_pow_pos _)]
  rfl

theorem ofNat_finite {n : Nat} (h : n ≠ 0) (hn : n < 2 ^ 53) : (ofNat n).IsFinite := by
  obtain ⟨-, hexp, -⟩ := ofNat_fields h hn
  have hlog : n.log2 ≤ 52 := by
    have := (Nat.log2_lt h).mpr hn
    omega
  unfold IsFinite
  omega

end Double

/-- What the conversions of a `double` to an integer type give where C leaves it open: for a number
that is not finite or outside of the range of the type. -/
structure Conversions where
  toInt : Double → Int
  toInt64 : Double → Int
  toUint64 : Double → Nat

/-- `(int)x` -/
def Conversions.int (C : Conversions) (x : Double) : Int :=
  if x.IsFinite ∧ -2 ^ 31 ≤ x.truncate ∧ x.truncate < 2 ^ 31 then x.truncate else C.toInt x

/-- `(int64_t)x` -/
def Conversions.int64 (C : Conversions) (x : Double) : Int :=
  if x.IsFinite ∧ -2 ^ 63 ≤ x.truncate ∧ x.truncate < 2 ^ 63 then x.truncate else C.toInt64 x

/-- `(uint64_t)x` -/
def Conversions.uint64 (C : Conversions) (x : Double) : Nat :=
  if x.IsFinite ∧ 0 ≤ x.truncate ∧ x.truncate < 2 ^ 64 then x.truncate.toNat else C.toUint64 x

theorem Conversions.int_ofNat (C : Conversions) {n : Nat} (h : n ≠ 0) (hn : n < 2 ^ 31) :
    C.int (Double.ofNat n) = n := by
  have hlt : n < 2 ^ 53 := by omega
  have ht := Double.truncate_ofNat h hlt
  unfold Conversions.int
  rw [if_pos ⟨Double.ofNat_finite h hlt, by omega, by omega⟩, ht]

/-- An `int` that overflows wraps. -/
def wrap (n : Int) : Int := n.bmod (2 ^ 32)

theorem wrap_wrap (a : Int) : wrap (wrap a) = wrap a := Int.bmod_bmod

theorem wrap_mul_add (a b c : Int) : wrap (wrap a * b + c) = wrap (a * b + c) := by
  unfold wrap
  rw [Int.add_bmod, Int.bmod_mul_bmod, ← Int.add_bmod]

/-- A number that is not negative is kept just when it is an `int`. -/
theorem wrap_eq_iff {n : Int} (h : 0 ≤ n) : wrap n = n ↔ n < 2 ^ 31 := by
  unfold wrap
  constructor
  · intro he
    have hlt := Int.bmod_lt (x := n) (m := 2 ^ 32) (by decide)
    rw [he] at hlt
    omega
  · intro hn
    exact Int.bmod_eq_of_le (by omega) (by omega)

end ToiLang
