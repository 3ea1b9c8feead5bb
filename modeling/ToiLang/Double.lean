import Mathlib.Data.Nat.Basic
import Mathlib.Tactic.Ring
import ToiLang.Chunk

namespace ToiLang

namespace Double

def negative (x : Double) : Bool := decide (2 ^ 63 ≤ x.toNat)
def exponent (x : Double) : Nat := x.toNat / 2 ^ 52 % 2 ^ 11
def fraction (x : Double) : Nat := x.toNat % 2 ^ 52

/-- The comparison `x == 0`, which both zeros pass. -/
def isZero (x : Double) : Bool := x.toNat % 2 ^ 63 == 0

def isNaN (x : Double) : Bool := decide (0x7FF0000000000000 < x.toNat % 2 ^ 63)

/-- The place of a number in the order of the numbers; the two zeros share theirs. -/
def order (x : Double) : Int :=
  if x.negative then - ((x.toNat % 2 ^ 63 : Nat) : Int) else (x.toNat % 2 ^ 63 : Nat)

/-- The comparison `x < y`, which a NaN never passes. -/
def lt (x y : Double) : Bool := !x.isNaN && !y.isNaN && decide (x.order < y.order)

/-- The magnitude of a number that is an integer of at most 53 bits. -/
def natAbs? (x : Double) : Option Nat :=
  if x.isZero then some 0
  else if 1 ≤ x.exponent ∧ x.exponent ≤ 1075 ∧
      (2 ^ 52 + x.fraction) % 2 ^ (1075 - x.exponent) = 0 then
    some ((2 ^ 52 + x.fraction) / 2 ^ (1075 - x.exponent))
  else none

def withSign (x : Double) (n : Nat) : Int := if x.negative then - (n : Int) else n

/-- The `int` that a number equals, for the test `x == (double)(int)x`. -/
def int? (x : Double) : Option Int := do
  let n ← x.natAbs?
  if -2 ^ 31 ≤ x.withSign n ∧ x.withSign n < 2 ^ 31 then some (x.withSign n) else none

theorem toNat_eq (x : Double) (h : x.negative = false) :
    x.toNat = x.exponent * 2 ^ 52 + x.fraction := by
  have hlt : x.toNat < 2 ^ 63 := by
    unfold negative at h
    have := of_decide_eq_false h
    omega
  have he : x.exponent = x.toNat / 2 ^ 52 := by
    refine Nat.mod_eq_of_lt ?_
    omega
  unfold fraction
  rw [he]
  omega

/-- Only one power of two brings a number into a binade. -/
theorem binade_unique {n a b : Nat} (ha : 2 ^ 52 ≤ n * 2 ^ a) (ha' : n * 2 ^ a < 2 ^ 53)
    (hb : 2 ^ 52 ≤ n * 2 ^ b) (hb' : n * 2 ^ b < 2 ^ 53) : a = b := by
  have hlt {c d : Nat} (hc : 2 ^ 52 ≤ n * 2 ^ c) (hd : n * 2 ^ d < 2 ^ 53) : d ≤ c := by
    by_contra h
    have hsucc : n * 2 ^ (c + 1) ≤ n * 2 ^ d :=
      Nat.mul_le_mul_left n (Nat.pow_le_pow_right (by decide) (by omega))
    have hdouble : n * 2 ^ (c + 1) = 2 * (n * 2 ^ c) := by ring
    omega
  have h₁ := hlt ha hb'
  have h₂ := hlt hb ha'
  omega

/-- The significand of a positive integer, shifted to its binade. -/
theorem int?_significand {z : Double} {i : Int} (hi : 0 < i) (hz : z.int? = some i) :
    z.negative = false ∧ 1 ≤ z.exponent ∧ z.exponent ≤ 1075 ∧
      2 ^ 52 + z.fraction = i.toNat * 2 ^ (1075 - z.exponent) := by
  obtain ⟨n, hn, hz⟩ := Option.bind_eq_some_iff.mp hz
  split at hz
  next hrange =>
    have hin : z.withSign n = i := Option.some.inj hz
    have hneg : z.negative = false := by
      cases hneg : z.negative with
      | false => rfl
      | true =>
        simp only [withSign, hneg, ↓reduceIte] at hin
        omega
    simp only [withSign, hneg, Bool.false_eq_true, ↓reduceIte] at hin
    unfold natAbs? at hn
    split at hn
    next hzero =>
      have := Option.some.inj hn
      omega
    next =>
      split at hn
      next he =>
        obtain ⟨he₁, he₂, hmod⟩ := he
        have hq := Option.some.inj hn
        have hdiv := Nat.div_add_mod (2 ^ 52 + z.fraction) (2 ^ (1075 - z.exponent))
        rw [hmod, hq, Nat.add_zero, Nat.mul_comm] at hdiv
        have hit : i.toNat = n := by omega
        exact ⟨hneg, he₁, he₂, by rw [hit, hdiv]⟩
      next => cases hn
  next => cases hz

/-- A positive integer has one representation. -/
theorem int?_inj {x y : Double} {i : Int} (hi : 0 < i) (hx : x.int? = some i)
    (hy : y.int? = some i) : x = y := by
  obtain ⟨hxn, hx₁, hx₂, hxs⟩ := int?_significand hi hx
  obtain ⟨hyn, hy₁, hy₂, hys⟩ := int?_significand hi hy
  have hxf : x.fraction < 2 ^ 52 := Nat.mod_lt _ (by decide)
  have hyf : y.fraction < 2 ^ 52 := Nat.mod_lt _ (by decide)
  have hexp := binade_unique (n := i.toNat) (a := 1075 - x.exponent) (b := 1075 - y.exponent)
    (by omega) (by omega) (by omega) (by omega)
  have he : x.exponent = y.exponent := by omega
  have hf : x.fraction = y.fraction := by
    rw [he] at hxs
    omega
  apply UInt64.toNat_inj.mp
  rw [toNat_eq x hxn, toNat_eq y hyn, he, hf]

/-- The conversion of an integer of at most 53 bits. -/
def ofNat (n : Nat) : Double :=
  if n = 0 then 0
  else UInt64.ofNat ((1022 + n.log2) * 2 ^ 52 + n * 2 ^ (52 - n.log2))

/-- The significand of an integer, shifted to its binade. -/
theorem ofNat_fields {n : Nat} (h : n ≠ 0) (hn : n < 2 ^ 53) :
    (ofNat n).negative = false ∧ (ofNat n).exponent = 1023 + n.log2 ∧
      2 ^ 52 + (ofNat n).fraction = n * 2 ^ (52 - n.log2) := by
  have hlog : n.log2 ≤ 52 := by
    have := (Nat.log2_lt h).mpr hn
    omega
  have hlow : 2 ^ 52 ≤ n * 2 ^ (52 - n.log2) := by
    have hle := Nat.mul_le_mul_right (2 ^ (52 - n.log2)) (Nat.log2_self_le h)
    rwa [← Nat.pow_add, Nat.add_sub_cancel' hlog] at hle
  have hhigh : n * 2 ^ (52 - n.log2) < 2 ^ 53 := by
    have hlt := Nat.mul_lt_mul_of_pos_right (Nat.lt_log2_self (n := n))
      (Nat.two_pow_pos (52 - n.log2))
    rwa [← Nat.pow_add, show n.log2 + 1 + (52 - n.log2) = 53 by omega] at hlt
  have hval : (ofNat n).toNat = (1022 + n.log2) * 2 ^ 52 + n * 2 ^ (52 - n.log2) := by
    unfold ofNat
    rw [if_neg h, UInt64.toNat_ofNat', Nat.mod_eq_of_lt]
    omega
  refine ⟨?_, ?_, ?_⟩
  · unfold negative
    rw [hval]
    exact decide_eq_false (by omega)
  · unfold exponent
    rw [hval]
    omega
  · unfold fraction
    rw [hval]
    omega

theorem int?_ofNat {n : Nat} (h : n ≠ 0) (hn : n < 2 ^ 31) : (ofNat n).int? = some (n : Int) := by
  obtain ⟨hneg, hexp, hfrac⟩ := ofNat_fields h (by omega)
  have hlog : n.log2 ≤ 30 := by
    have := (Nat.log2_lt h).mpr hn
    omega
  have hzero : (ofNat n).isZero = false := by
    have hval := toNat_eq _ hneg
    unfold isZero
    rw [hval, hexp]
    refine beq_false_of_ne ?_
    have hlt := (ofNat n).toNat_lt
    have hf : (ofNat n).fraction < 2 ^ 52 := Nat.mod_lt _ (by decide)
    omega
  have habs : (ofNat n).natAbs? = some n := by
    unfold natAbs?
    rw [hzero, hexp, hfrac, show 1075 - (1023 + n.log2) = 52 - n.log2 by omega, Nat.mul_mod_left,
      Nat.mul_div_cancel n (Nat.two_pow_pos _)]
    simp only [Bool.false_eq_true, ↓reduceIte]
    rw [if_pos ⟨by omega, by omega, trivial⟩]
  unfold int? withSign
  rw [habs, Option.bind_eq_bind, Option.bind_some, hneg]
  simp only [Bool.false_eq_true, ↓reduceIte]
  rw [if_pos (by omega)]

/-- The integers of an `int` have one double each. -/
theorem eq_ofNat {x : Double} {n : Nat} (h : n ≠ 0) (hn : n < 2 ^ 31)
    (hx : x.int? = some (n : Int)) : x = ofNat n :=
  int?_inj (by omega) hx (int?_ofNat h hn)

end Double

end ToiLang
