import Mathlib.Algebra.Order.Field.Power
import Mathlib.Data.List.DropRight
import Mathlib.Data.Rat.Cast.Order
import Mathlib.Tactic.FieldSimp
import Mathlib.Tactic.Linarith
import Mathlib.Tactic.NormNum
import Mathlib.Tactic.Positivity
import ToiLang.Double

namespace ToiLang

namespace Double

def IsFinite (x : Double) : Prop := x.exponent ≠ 2047

instance (x : Double) : Decidable x.IsFinite := inferInstanceAs (Decidable (_ ≠ _))

/-- The exponent that a subnormal number shares with the smallest normal ones. -/
def binade (x : Double) : Nat := max x.exponent 1

def significand (x : Double) : Nat :=
  if x.exponent = 0 then x.fraction else 2 ^ 52 + x.fraction

def numerator (x : Double) : Nat := x.significand * 2 ^ (x.binade - 1075)
def denominator (x : Double) : Nat := 2 ^ (1075 - x.binade)

/-- The decimal exponent of a magnitude, plus 324. -/
def decimalExponent (x : Double) : Nat :=
  ((List.range 633).find? fun i =>
    decide (x.numerator * 10 ^ 323 < x.denominator * 10 ^ i)).getD 0

/-- The quotient rounded to the nearest integer, a half to an even one. -/
def roundHalfEven (n d : Nat) : Nat :=
  if 2 * (n % d) < d then n / d
  else if d < 2 * (n % d) then n / d + 1
  else n / d + n / d % 2

/-- The 17 significant digits and the decimal exponent that they have after rounding. -/
def decimal17 (x : Double) : Nat × Nat :=
  let i := x.decimalExponent
  let d := roundHalfEven (x.numerator * 10 ^ (340 - i)) (x.denominator * 10 ^ (i - 340))
  if d = 10 ^ 17 then (10 ^ 16, i + 1) else (d, i)

def digits : Nat → Nat → Bytes
  | 0, _ => []
  | k + 1, n => digits k (n / 10) ++ [UInt8.ofNat (48 + n % 10)]

def trimZeros (ds : Bytes) : Bytes := ds.rdropWhile fun c => decide (c = 48)

def withPoint (whole fractional : Bytes) : Bytes :=
  if fractional = [] then whole else whole ++ 46 :: fractional

def exponentText (i : Nat) : Bytes :=
  let n := if i < 324 then 324 - i else i - 324
  101 :: (if i < 324 then 45 else 43) :: if n < 100 then digits 2 n else digits 3 n

/-- `%.17g` of a finite magnitude: the exponent is written when it is below -4 or above 16. -/
def magnitudeText (x : Double) : Bytes :=
  if x.isZero then [48]
  else
    let i := x.decimal17.2
    let ds := digits 17 x.decimal17.1
    if 324 ≤ i ∧ i < 341 then withPoint (ds.take (i - 323)) (trimZeros (ds.drop (i - 323)))
    else if 320 ≤ i ∧ i < 324 then
      withPoint [48] (trimZeros (List.replicate (323 - i) 48 ++ ds))
    else withPoint (ds.take 1) (trimZeros (ds.drop 1)) ++ exponentText i

/-- The text that `%.17g` gives a number. -/
def formatG17 (x : Double) : Bytes :=
  (if x.negative then [45] else []) ++
    if x.isNaN then [110, 97, 110]
    else if x.exponent = 2047 then [105, 110, 102]
    else x.magnitudeText

/-- The magnitude as a multiple of the smallest one. -/
def units (x : Double) : Nat := x.significand * 2 ^ (x.binade - 1)

theorem significand_lt (x : Double) : x.significand < 2 ^ 53 := by
  have hf : x.fraction < 2 ^ 52 := Nat.mod_lt _ (by decide)
  unfold significand
  split <;> omega

theorem le_significand {x : Double} (h : 1 < x.binade) : 2 ^ 52 ≤ x.significand := by
  unfold binade at h
  unfold significand
  rw [if_neg (by omega)]
  omega

/-- Of two numbers in different binades the one in the lower binade has fewer units. -/
theorem units_lt {x y : Double} (h : x.binade < y.binade) :
    2 ^ 53 * x.units ≤ (2 ^ 53 - 1) * y.units := by
  have hx1 : 1 ≤ x.binade := Nat.le_max_right _ _
  have hx := x.significand_lt
  have hy := le_significand (x := y) (by omega)
  obtain ⟨c, hc⟩ : ∃ c, y.binade - 1 = x.binade - 1 + 1 + c := ⟨y.binade - x.binade - 1, by omega⟩
  unfold units
  rw [hc, Nat.pow_add, Nat.pow_add, Nat.pow_one]
  have hpos := Nat.two_pow_pos c
  generalize 2 ^ (x.binade - 1) = p
  have hle : 2 ^ 53 * x.significand ≤ (2 ^ 53 - 1) * (2 * y.significand) := by omega
  calc 2 ^ 53 * (x.significand * p)
      = 2 ^ 53 * x.significand * p := by ring
    _ ≤ (2 ^ 53 - 1) * (2 * y.significand) * p := Nat.mul_le_mul_right p hle
    _ ≤ (2 ^ 53 - 1) * (2 * y.significand) * p * 2 ^ c := Nat.le_mul_of_pos_right _ hpos
    _ = (2 ^ 53 - 1) * (y.significand * (p * 2 * 2 ^ c)) := by ring

/-- Two different numbers of units differ by more than a 2^53rd part. -/
theorem units_gap {x y : Double} (h : x.units < y.units) :
    2 ^ 53 * x.units + y.units ≤ 2 ^ 53 * y.units := by
  rcases Nat.lt_trichotomy x.binade y.binade with hlt | heq | hgt
  · have := units_lt hlt
    omega
  · have hy := y.significand_lt
    unfold units at h ⊢
    rw [heq] at h ⊢
    generalize 2 ^ (y.binade - 1) = p at h ⊢
    have hs : x.significand + 1 ≤ y.significand := by
      by_contra hge
      have := Nat.mul_le_mul_right p (show y.significand ≤ x.significand by omega)
      omega
    calc 2 ^ 53 * (x.significand * p) + y.significand * p
        = (2 ^ 53 * x.significand + y.significand) * p := by ring
      _ ≤ 2 ^ 53 * y.significand * p := Nat.mul_le_mul_right p (by omega)
      _ = 2 ^ 53 * (y.significand * p) := by ring
  · have := units_lt hgt
    omega

/-- A magnitude has one representation. -/
theorem units_inj {x y : Double} (hx : x.negative = false) (hy : y.negative = false)
    (h : x.units = y.units) (h0 : x.units ≠ 0) : x = y := by
  have hb : x.binade = y.binade := by
    rcases Nat.lt_trichotomy x.binade y.binade with hlt | heq | hgt
    · have := units_lt hlt
      omega
    · exact heq
    · have := units_lt hgt
      omega
  have hs : x.significand = y.significand := by
    unfold units at h
    rw [hb] at h
    exact Nat.eq_of_mul_eq_mul_right (Nat.two_pow_pos _) h
  have hxf : x.fraction < 2 ^ 52 := Nat.mod_lt _ (by decide)
  have hyf : y.fraction < 2 ^ 52 := Nat.mod_lt _ (by decide)
  have hef : x.exponent = y.exponent ∧ x.fraction = y.fraction := by
    unfold binade at hb
    unfold significand at hs
    split at hs <;> split at hs <;> omega
  apply UInt64.toNat_inj.mp
  rw [toNat_eq x hx, toNat_eq y hy, hef.1, hef.2]

/-- The number that decimal digits stand for. -/
def natOf (ds : Bytes) : Nat := ds.foldl (fun n c => 10 * n + (c.toNat - 48)) 0

def pointValue (s : Bytes) : ℚ :=
  let fractional := (s.dropWhile fun c => decide (c ≠ 46)).tail
  natOf (s.takeWhile fun c => decide (c ≠ 46)) + natOf fractional / 10 ^ fractional.length

def exponentValue : Bytes → ℤ
  | _ :: c :: ds => if c = 45 then -natOf ds else natOf ds
  | _ => 0

/-- The number that a text stands for. -/
def textValue (s : Bytes) : ℚ :=
  pointValue (s.takeWhile fun c => decide (c ≠ 101)) *
    10 ^ exponentValue (s.dropWhile fun c => decide (c ≠ 101))

def IsDigits (ds : Bytes) : Prop := ∀ c ∈ ds, 48 ≤ c.toNat ∧ c.toNat ≤ 57

theorem foldl_natOf (ds : Bytes) (n : Nat) :
    ds.foldl (fun n c => 10 * n + (c.toNat - 48)) n = n * 10 ^ ds.length + natOf ds := by
  induction ds generalizing n with
  | nil => simp [natOf]
  | cons c ds ih =>
    have hc : natOf (c :: ds) = (c.toNat - 48) * 10 ^ ds.length + natOf ds := by
      rw [natOf, List.foldl_cons, ih, Nat.mul_zero, Nat.zero_add]
    rw [List.foldl_cons, ih, hc, List.length_cons]
    ring

theorem natOf_append (a b : Bytes) : natOf (a ++ b) = natOf a * 10 ^ b.length + natOf b := by
  rw [natOf, List.foldl_append, foldl_natOf]
  rfl

theorem natOf_zeros (n : Nat) : natOf (List.replicate n 48) = 0 := by
  induction n with
  | zero => rfl
  | succ n ih =>
    rw [List.replicate_succ', natOf_append, ih]
    rfl

theorem toNat_digit {d : Nat} (h : d < 10) : (UInt8.ofNat (48 + d)).toNat = 48 + d := by
  rw [UInt8.toNat_ofNat', Nat.mod_eq_of_lt (by omega)]

@[simp] theorem length_digits (k n : Nat) : (digits k n).length = k := by
  induction k generalizing n with
  | zero => rfl
  | succ k ih => simp [digits, ih]

theorem isDigits_digits (k n : Nat) : IsDigits (digits k n) := by
  induction k generalizing n with
  | zero =>
    intro c hc
    cases hc
  | succ k ih =>
    intro c hc
    obtain hc | hc := List.mem_append.mp hc
    · exact ih _ c hc
    · rw [List.mem_singleton.mp hc, toNat_digit (Nat.mod_lt n (by decide))]
      omega

theorem natOf_digits (k n : Nat) : natOf (digits k n) = n % 10 ^ k := by
  induction k generalizing n with
  | zero => simp [digits, natOf, Nat.mod_one]
  | succ k ih =>
    have hlast : natOf [UInt8.ofNat (48 + n % 10)] = n % 10 := by
      simp only [natOf, List.foldl_cons, List.foldl_nil, toNat_digit (Nat.mod_lt n (by decide))]
      omega
    rw [digits, natOf_append, ih, hlast, List.length_singleton, pow_one, pow_succ',
      Nat.mod_mul]
    omega

theorem IsDigits.append {a b : Bytes} (ha : IsDigits a) (hb : IsDigits b) : IsDigits (a ++ b) := by
  intro c hc
  obtain hc | hc := List.mem_append.mp hc
  · exact ha c hc
  · exact hb c hc

theorem IsDigits.of_subset {a b : Bytes} (hb : IsDigits b) (h : a ⊆ b) : IsDigits a :=
  fun c hc => hb c (h hc)

theorem isDigits_zeros (n : Nat) : IsDigits (List.replicate n 48) := by
  intro c hc
  rw [(List.mem_replicate.mp hc).2]
  decide

theorem IsDigits.trimZeros {ds : Bytes} (h : IsDigits ds) : IsDigits (trimZeros ds) :=
  h.of_subset (List.rdropWhile_prefix _ _).subset

/-- Zeros at the end of a fraction do not count. -/
theorem trimZeros_value (ds : Bytes) :
    (natOf (trimZeros ds) : ℚ) / 10 ^ (trimZeros ds).length = natOf ds / 10 ^ ds.length := by
  induction ds using List.reverseRecOn with
  | nil => rfl
  | append_singleton ds c ih =>
    unfold Double.trimZeros at ih ⊢
    by_cases hc : c = 48
    · subst hc
      rw [List.rdropWhile_concat_pos _ _ _ (by simp), ih, natOf_append]
      have hz : natOf [48] = 0 := rfl
      rw [hz, List.length_append, List.length_singleton]
      push_cast
      field_simp
      ring
    · rw [List.rdropWhile_concat_neg _ _ _ (by simpa using hc)]

theorem takeWhile_digits {ds : Bytes} (rest : Bytes) (b : UInt8) (h : IsDigits ds)
    (hb : b.toNat < 48 ∨ 57 < b.toNat) :
    (ds ++ rest).takeWhile (fun c => decide (c ≠ b)) =
        ds ++ rest.takeWhile (fun c => decide (c ≠ b)) ∧
      (ds ++ rest).dropWhile (fun c => decide (c ≠ b)) =
        rest.dropWhile (fun c => decide (c ≠ b)) := by
  have hne : ∀ c ∈ ds, decide (c ≠ b) = true := by
    intro c hc
    have := h c hc
    refine decide_eq_true ?_
    rintro rfl
    omega
  exact ⟨List.takeWhile_append_of_pos hne, List.dropWhile_append_of_pos hne⟩

theorem withPoint_value {whole : Bytes} (hw : IsDigits whole) (fractional : Bytes) :
    pointValue (withPoint whole fractional) =
      natOf whole + natOf fractional / 10 ^ fractional.length := by
  unfold withPoint
  split
  next hnil =>
    obtain ⟨ht, hd⟩ := takeWhile_digits [] 46 hw (by decide)
    rw [List.append_nil] at ht hd
    unfold pointValue
    rw [ht, hd, hnil]
    simp [natOf]
  next =>
    obtain ⟨ht, hd⟩ := takeWhile_digits (46 :: fractional) 46 hw (by decide)
    unfold pointValue
    rw [ht, hd]
    simp

theorem withPoint_ne {whole fractional : Bytes} (hw : IsDigits whole) (hf : IsDigits fractional) :
    ∀ c ∈ withPoint whole fractional, decide (c ≠ 101) = true := by
  have hne {c : UInt8} (h : 48 ≤ c.toNat ∧ c.toNat ≤ 57) : decide (c ≠ 101) = true := by
    refine decide_eq_true ?_
    rintro rfl
    exact absurd h.2 (by decide)
  intro c hc
  unfold withPoint at hc
  split at hc
  next => exact hne (hw c hc)
  next =>
    obtain hc | hc := List.mem_append.mp hc
    · exact hne (hw c hc)
    · obtain rfl | hc := List.mem_cons.mp hc
      · rfl
      · exact hne (hf c hc)

/-- A text without exponent. -/
theorem textValue_withPoint {whole fractional : Bytes} (hw : IsDigits whole)
    (hf : IsDigits fractional) :
    textValue (withPoint whole fractional) =
      natOf whole + natOf fractional / 10 ^ fractional.length := by
  have hne := withPoint_ne hw hf
  unfold textValue
  rw [List.takeWhile_eq_self_iff.mpr hne, List.dropWhile_eq_nil_iff.mpr hne, withPoint_value hw]
  simp [exponentValue]

theorem exponentText_value {i : Nat} (hi : i < 1000) :
    exponentValue (exponentText i) = (i : ℤ) - 324 := by
  have hval (n : Nat) (hn : n < 1000) :
      natOf (if n < 100 then digits 2 n else digits 3 n) = n := by
    split
    next h => rw [natOf_digits, Nat.mod_eq_of_lt (by omega)]
    next => rw [natOf_digits, Nat.mod_eq_of_lt (by omega)]
  unfold exponentText
  dsimp only
  by_cases h : i < 324
  · simp only [h, ↓reduceIte, exponentValue, hval (324 - i) (by omega)]
    omega
  · simp only [h, ↓reduceIte, exponentValue, hval (i - 324) (by omega)]
    rw [if_neg (by decide)]
    omega

theorem textValue_exponent {whole fractional : Bytes} {i : Nat} (hw : IsDigits whole)
    (hf : IsDigits fractional) (hi : i < 1000) :
    textValue (withPoint whole fractional ++ exponentText i) =
      (natOf whole + natOf fractional / 10 ^ fractional.length) * 10 ^ ((i : ℤ) - 324) := by
  have hne := withPoint_ne hw hf
  have htake : (exponentText i).takeWhile (fun c => decide (c ≠ 101)) = [] := by
    simp [exponentText]
  have hdrop : (exponentText i).dropWhile (fun c => decide (c ≠ 101)) = exponentText i := by
    simp [exponentText]
  unfold textValue
  rw [List.takeWhile_append_of_pos hne, List.dropWhile_append_of_pos hne, htake, hdrop,
    List.append_nil, withPoint_value hw, exponentText_value hi]

/-- Digits cut in two, with the second part as a fraction. -/
theorem natOf_split {ds : Bytes} {n : Nat} :
    (natOf (ds.take n) : ℚ) + natOf (trimZeros (ds.drop n)) / 10 ^ (trimZeros (ds.drop n)).length =
      natOf ds / 10 ^ (ds.length - n) := by
  have h := natOf_append (ds.take n) (ds.drop n)
  rw [List.take_append_drop, List.length_drop] at h
  rw [trimZeros_value, h, List.length_drop]
  push_cast
  field_simp

/-- The text of 17 digits at a decimal exponent stands for them. -/
theorem textValue_layout {d i : Nat} (hd : d < 10 ^ 17) (hi : i < 1000) :
    textValue (
      if 324 ≤ i ∧ i < 341 then
        withPoint ((digits 17 d).take (i - 323)) (trimZeros ((digits 17 d).drop (i - 323)))
      else if 320 ≤ i ∧ i < 324 then
        withPoint [48] (trimZeros (List.replicate (323 - i) 48 ++ digits 17 d))
      else withPoint ((digits 17 d).take 1) (trimZeros ((digits 17 d).drop 1)) ++
        exponentText i) = d * 10 ^ ((i : ℤ) - 340) := by
  have hds := isDigits_digits 17 d
  have htake (n : Nat) : IsDigits ((digits 17 d).take n) := hds.of_subset (List.take_subset n _)
  have hdrop (n : Nat) : IsDigits (trimZeros ((digits 17 d).drop n)) :=
    (hds.of_subset (List.drop_subset n _)).trimZeros
  have hnat : natOf (digits 17 d) = d := by rw [natOf_digits, Nat.mod_eq_of_lt hd]
  split
  next h =>
    rw [textValue_withPoint (htake _) (hdrop _), natOf_split, hnat, length_digits,
      show (i : ℤ) - 340 = -((17 - (i - 323) : Nat) : ℤ) by omega, zpow_neg, zpow_natCast,
      div_eq_mul_inv]
  next =>
    split
    next h =>
      have hzero : IsDigits [48] := isDigits_zeros 1
      have hz : natOf [48] = 0 := rfl
      rw [textValue_withPoint hzero ((isDigits_zeros _).append hds).trimZeros, trimZeros_value,
        natOf_append, natOf_zeros, hnat, hz, List.length_append, List.length_replicate,
        length_digits, show (i : ℤ) - 340 = -((323 - i + 17 : Nat) : ℤ) by omega, zpow_neg,
        zpow_natCast, div_eq_mul_inv]
      simp
    next =>
      rw [textValue_exponent (htake _) (hdrop _) hi, natOf_split, hnat, length_digits,
        show (i : ℤ) - 324 = (i : ℤ) - 340 + ((17 - 1 : Nat) : ℤ) by omega,
        zpow_add₀ (by norm_num), zpow_natCast]
      field_simp

theorem binade_le {x : Double} (hf : x.IsFinite) : x.binade ≤ 2046 := by
  have hlt : x.exponent < 2 ^ 11 := Nat.mod_lt _ (by decide)
  unfold IsFinite at hf
  unfold binade
  omega

/-- The fraction in units of the smallest number. -/
theorem numerator_units (x : Double) : x.numerator * 2 ^ 1074 = x.units * x.denominator := by
  have h1 : 1 ≤ x.binade := Nat.le_max_right _ _
  unfold numerator units denominator
  rw [Nat.mul_assoc, Nat.mul_assoc, ← Nat.pow_add, ← Nat.pow_add,
    show x.binade - 1075 + 1074 = x.binade - 1 + (1075 - x.binade) by omega]

/-- The decimal exponent is that of the magnitude. -/
theorem decimalExponent_spec {x : Double} (hf : x.IsFinite) (h0 : x.units ≠ 0) :
    x.decimalExponent < 633 ∧
      x.numerator * 10 ^ 323 < x.denominator * 10 ^ x.decimalExponent ∧
      x.denominator * 10 ^ x.decimalExponent ≤ x.numerator * 10 ^ 324 := by
  have hs := x.significand_lt
  have hb := binade_le hf
  have hnum : x.numerator ≠ 0 := by
    intro hz
    have h := numerator_units x
    rw [hz, Nat.zero_mul] at h
    obtain h | h := Nat.mul_eq_zero.mp h.symm
    · exact h0 h
    · exact absurd h (Nat.two_pow_pos _).ne'
  have hlast : x.numerator * 10 ^ 323 < x.denominator * 10 ^ 632 := by
    have hpow : 2 ^ (x.binade - 1075) ≤ 2 ^ 971 := Nat.pow_le_pow_right (by decide) (by omega)
    have hden : 1 ≤ x.denominator := Nat.two_pow_pos _
    calc x.numerator * 10 ^ 323 ≤ 2 ^ 53 * 2 ^ 971 * 10 ^ 323 :=
          Nat.mul_le_mul_right _ (Nat.mul_le_mul hs.le hpow)
      _ < 1 * 10 ^ 632 := by decide +kernel
      _ ≤ x.denominator * 10 ^ 632 := Nat.mul_le_mul_right _ hden
  have hfirst : x.denominator * 10 ^ 0 ≤ x.numerator * 10 ^ 324 := by
    have hpow : 2 ^ (1075 - x.binade) ≤ 2 ^ 1074 :=
      Nat.pow_le_pow_right (by decide) (by have : 1 ≤ x.binade := Nat.le_max_right _ _; omega)
    calc x.denominator * 10 ^ 0 ≤ 2 ^ 1074 * 10 ^ 0 := Nat.mul_le_mul_right _ hpow
      _ ≤ 1 * 10 ^ 324 := by decide +kernel
      _ ≤ x.numerator * 10 ^ 324 := Nat.mul_le_mul_right _ (Nat.pos_of_ne_zero hnum)
  unfold decimalExponent
  cases hfind : (List.range 633).find? fun i =>
      decide (x.numerator * 10 ^ 323 < x.denominator * 10 ^ i) with
  | none =>
    have := List.find?_range_eq_none.mp hfind 632 (by decide)
    simp only [Bool.not_eq_true', decide_eq_false_iff_not] at this
    exact absurd hlast this
  | some i =>
    obtain ⟨hlt, hmem, hmin⟩ := List.find?_range_eq_some.mp hfind
    rw [Option.getD_some]
    refine ⟨List.mem_range.mp hmem, of_decide_eq_true hlt, ?_⟩
    cases i with
    | zero => exact hfirst
    | succ i =>
      have hle := hmin i (Nat.lt_succ_self i)
      simp only [Bool.not_eq_true', decide_eq_false_iff_not, not_lt] at hle
      calc x.denominator * 10 ^ (i + 1) = x.denominator * 10 ^ i * 10 := by ring
        _ ≤ x.numerator * 10 ^ 323 * 10 := Nat.mul_le_mul_right _ hle
        _ = x.numerator * 10 ^ 324 := by rw [Nat.mul_assoc, ← Nat.pow_succ]

theorem roundHalfEven_spec (n : Nat) {d : Nat} (hd : 0 < d) :
    2 * (roundHalfEven n d * d) ≤ 2 * n + d ∧ 2 * n ≤ 2 * (roundHalfEven n d * d) + d := by
  have hdiv := Nat.div_add_mod' n d
  have hmod := Nat.mod_lt n hd
  unfold roundHalfEven
  split
  next => omega
  next =>
    split
    next =>
      rw [Nat.add_mul, Nat.one_mul]
      omega
    next =>
      rcases Nat.mod_two_eq_zero_or_one (n / d) with h | h
      · rw [h, Nat.add_zero]
        omega
      · rw [h, Nat.add_mul, Nat.one_mul]
        omega

theorem roundHalfEven_le {n d k : Nat} (hd : 0 < d) (h : n < d * k) : roundHalfEven n d ≤ k := by
  by_contra hlt
  obtain ⟨hup, -⟩ := roundHalfEven_spec n hd
  have hmul : (k + 1) * d ≤ roundHalfEven n d * d := Nat.mul_le_mul_right d (by omega)
  rw [Nat.add_mul, Nat.one_mul, Nat.mul_comm k] at hmul
  omega

/-- A quotient scaled so that `b` digits are before the point. -/
theorem scaled_lt {num den i a b : Nat} (h : num * 10 ^ a < den * 10 ^ i) :
    num * 10 ^ (a + b - i) < den * 10 ^ (i - (a + b)) * 10 ^ b := by
  have hpow : 10 ^ i * 10 ^ (a + b - i) = 10 ^ (i - (a + b)) * 10 ^ b * 10 ^ a := by
    rw [← Nat.pow_add, ← Nat.pow_add, ← Nat.pow_add]
    congr 1
    omega
  refine Nat.lt_of_mul_lt_mul_right (a := 10 ^ a) ?_
  calc num * 10 ^ (a + b - i) * 10 ^ a = num * 10 ^ a * 10 ^ (a + b - i) := Nat.mul_right_comm _ _ _
    _ < den * 10 ^ i * 10 ^ (a + b - i) := Nat.mul_lt_mul_of_pos_right h (by positivity)
    _ = den * (10 ^ i * 10 ^ (a + b - i)) := Nat.mul_assoc _ _ _
    _ = den * 10 ^ (i - (a + b)) * 10 ^ b * 10 ^ a := by
      rw [hpow, Nat.mul_assoc, Nat.mul_assoc, Nat.mul_assoc]

/-- The magnitude of a number. -/
def magnitude (x : Double) : ℚ := x.numerator / x.denominator

theorem exists_unit : ∃ u : Nat, 0 < u ∧ ∀ x : Double, x.magnitude = x.units / u := by
  obtain ⟨u, hu⟩ : ∃ u : Nat, u = 2 ^ 1074 := ⟨_, rfl⟩
  refine ⟨u, hu ▸ Nat.two_pow_pos _, fun x => ?_⟩
  have hden : (x.denominator : ℚ) ≠ 0 := Nat.cast_ne_zero.mpr (Nat.two_pow_pos _).ne'
  have hpos : (u : ℚ) ≠ 0 := Nat.cast_ne_zero.mpr (hu ▸ (Nat.two_pow_pos _).ne')
  have hn := numerator_units x
  rw [← hu] at hn
  have h : (x.numerator : ℚ) * u = x.units * x.denominator := by exact_mod_cast hn
  rw [magnitude, div_eq_div_iff hden hpos, h]

/-- The two powers of ten of a quotient that is scaled to a digit. -/
theorem ten_shift (i j : Nat) :
    (10 : ℚ) ^ (j - i) / 10 ^ (i - j) * 10 ^ ((i : ℤ) - j) = 1 := by
  rcases Nat.le_total i j with h | h
  · rw [Nat.sub_eq_zero_of_le h, pow_zero, div_one, ← zpow_natCast, ← zpow_add₀ (by norm_num),
      show ((j - i : Nat) : ℤ) + ((i : ℤ) - j) = 0 by omega, zpow_zero]
  · rw [Nat.sub_eq_zero_of_le h, pow_zero, show (i : ℤ) - j = ((i - j : Nat) : ℤ) by omega,
      zpow_natCast]
    field_simp

/-- A quotient rounded at a digit that is `m` places behind its first one. -/
theorem round_near {num den r i k m : Nat} (hden : 0 < den) (hle : den * 10 ^ i ≤ num * 10 ^ k)
    (hup : 2 * (r * (den * 10 ^ (i - (k + m)))) ≤
      2 * (num * 10 ^ (k + m - i)) + den * 10 ^ (i - (k + m)))
    (hdown : 2 * (num * 10 ^ (k + m - i)) ≤
      2 * (r * (den * 10 ^ (i - (k + m)))) + den * 10 ^ (i - (k + m))) :
    |(r : ℚ) * 10 ^ ((i : ℤ) - (k + m : Nat)) - num / den| * (2 * 10 ^ m) ≤ num / den := by
  have hden : (0 : ℚ) < den := Nat.cast_pos.mpr hden
  have hshift := ten_shift i (k + m)
  have hg : (0 : ℚ) < 10 ^ ((i : ℤ) - (k + m : Nat)) := by positivity
  have hq : (0 : ℚ) < den * 10 ^ (i - (k + m)) := by positivity
  have hup : 2 * ((r : ℚ) * (den * 10 ^ (i - (k + m)))) ≤
      2 * (num * 10 ^ (k + m - i)) + den * 10 ^ (i - (k + m)) := by exact_mod_cast hup
  have hdown : 2 * ((num : ℚ) * 10 ^ (k + m - i)) ≤
      2 * ((r : ℚ) * (den * 10 ^ (i - (k + m)))) + den * 10 ^ (i - (k + m)) := by
    exact_mod_cast hdown
  have hle : (den : ℚ) * 10 ^ i ≤ num * 10 ^ k := by exact_mod_cast hle
  have hgrid : 10 ^ ((i : ℤ) - (k + m : Nat)) * 10 ^ m ≤ (num : ℚ) / den := by
    have hm : (10 : ℚ) ^ ((i : ℤ) - (k + m : Nat)) * 10 ^ m = 10 ^ i / 10 ^ k := by
      rw [← zpow_natCast (10 : ℚ) m, ← zpow_natCast (10 : ℚ) i, ← zpow_natCast (10 : ℚ) k,
        ← zpow_add₀ (by norm_num), ← zpow_sub₀ (by norm_num)]
      congr 1
      push_cast
      ring
    rw [hm, div_le_div_iff₀ (by positivity) hden, mul_comm]
    exact hle
  have hmag : (num : ℚ) / den =
      num * 10 ^ (k + m - i) / (den * 10 ^ (i - (k + m))) * 10 ^ ((i : ℤ) - (k + m : Nat)) := by
    calc (num : ℚ) / den
        = num / den * (10 ^ (k + m - i) / 10 ^ (i - (k + m)) * 10 ^ ((i : ℤ) - (k + m : Nat))) := by
          rw [hshift, mul_one]
      _ = _ := by rw [← mul_assoc, div_mul_div_comm]
  have hquot : |(r : ℚ) - num * 10 ^ (k + m - i) / (den * 10 ^ (i - (k + m)))| ≤ 1 / 2 := by
    rw [abs_le]
    constructor
    · rw [neg_le_sub_iff_le_add, div_le_iff₀ hq]
      linarith
    · rw [sub_le_iff_le_add, ← sub_le_iff_le_add', le_div_iff₀ hq]
      linarith
  have hdist : |(r : ℚ) * 10 ^ ((i : ℤ) - (k + m : Nat)) - num / den| ≤
      1 / 2 * 10 ^ ((i : ℤ) - (k + m : Nat)) := by
    rw [hmag, ← sub_mul, abs_mul, abs_of_pos hg]
    exact mul_le_mul_of_nonneg_right hquot hg.le
  calc |(r : ℚ) * 10 ^ ((i : ℤ) - (k + m : Nat)) - num / den| * (2 * 10 ^ m)
      ≤ 1 / 2 * 10 ^ ((i : ℤ) - (k + m : Nat)) * (2 * 10 ^ m) :=
        mul_le_mul_of_nonneg_right hdist (by positivity)
    _ = 10 ^ ((i : ℤ) - (k + m : Nat)) * 10 ^ m := by ring
    _ ≤ num / den := hgrid

theorem decimal17_eq {x : Double} {r : Nat}
    (h : roundHalfEven (x.numerator * 10 ^ (340 - x.decimalExponent))
      (x.denominator * 10 ^ (x.decimalExponent - 340)) = r) :
    x.decimal17 =
      if r = 10 ^ 17 then (10 ^ 16, x.decimalExponent + 1) else (r, x.decimalExponent) := by
  unfold decimal17
  simp only [h]

/-- The rounded quotient is as near as half of its last digit. -/
theorem rounded_spec {x : Double} (hf : x.IsFinite) (h0 : x.units ≠ 0) :
    ∃ r i : Nat, x.decimal17 = (if r = 10 ^ 17 then (10 ^ 16, i + 1) else (r, i)) ∧ r ≤ 10 ^ 17 ∧
      i < 633 ∧ |(r : ℚ) * 10 ^ ((i : ℤ) - 340) - x.magnitude| * (2 * 10 ^ 16) ≤ x.magnitude := by
  obtain ⟨hi, hlt, hle⟩ := decimalExponent_spec hf h0
  have hdenpos : 0 < x.denominator := Nat.two_pow_pos _
  have hd : 0 < x.denominator * 10 ^ (x.decimalExponent - 340) :=
    Nat.mul_pos hdenpos (Nat.pow_pos (by decide))
  obtain ⟨hup, hdown⟩ := roundHalfEven_spec (x.numerator * 10 ^ (340 - x.decimalExponent)) hd
  refine ⟨_, x.decimalExponent, decimal17_eq rfl, ?_, hi, ?_⟩
  · exact roundHalfEven_le hd (scaled_lt (a := 323) (b := 17) hlt)
  · exact round_near (k := 324) (m := 16) hdenpos hle hup hdown

/-- The decimal number of 17 digits is as near as half of the last digit. -/
theorem decimal17_spec {x : Double} (hf : x.IsFinite) (h0 : x.units ≠ 0) :
    x.decimal17.1 < 10 ^ 17 ∧ x.decimal17.2 < 1000 ∧
      |(x.decimal17.1 : ℚ) * 10 ^ ((x.decimal17.2 : ℤ) - 340) - x.magnitude| * (2 * 10 ^ 16) ≤
        x.magnitude := by
  obtain ⟨r, i, heq, hround, hi, hnear⟩ := rounded_spec hf h0
  by_cases h17 : r = 10 ^ 17
  · rw [if_pos h17] at heq
    have hsame : ((10 ^ 16 : Nat) : ℚ) * 10 ^ (((i + 1 : Nat) : ℤ) - 340) =
        (r : ℚ) * 10 ^ ((i : ℤ) - 340) := by
      rw [h17, show ((i + 1 : Nat) : ℤ) - 340 = (i : ℤ) - 340 + 1 by omega,
        zpow_add₀ (by norm_num), zpow_one]
      push_cast
      ring
    rw [heq]
    dsimp only
    rw [hsame]
    exact ⟨by norm_num, by omega, hnear⟩
  · rw [if_neg h17] at heq
    rw [heq]
    exact ⟨by omega, by omega, hnear⟩

theorem units_eq_zero_iff {x : Double} (hx : x.negative = false) : x.units = 0 ↔ x.isZero = true := by
  have hval := toNat_eq x hx
  have hf : x.fraction < 2 ^ 52 := Nat.mod_lt _ (by decide)
  have hpow : 2 ^ (x.binade - 1) ≠ 0 := (Nat.two_pow_pos _).ne'
  have hlt : x.toNat < 2 ^ 63 := by
    unfold negative at hx
    have := of_decide_eq_false hx
    omega
  unfold units isZero
  rw [Nat.mul_eq_zero, or_iff_left hpow, Nat.mod_eq_of_lt hlt, beq_iff_eq]
  unfold significand
  split <;> omega

/-- The text of a finite magnitude stands for a number as near as half of its 17th digit. -/
theorem magnitudeText_value {x : Double} (hf : x.IsFinite) (hx : x.negative = false) :
    |textValue x.magnitudeText - x.magnitude| * (2 * 10 ^ 16) ≤ x.magnitude := by
  by_cases h0 : x.units = 0
  · have hz := (units_eq_zero_iff hx).mp h0
    have hval : textValue [48] = 0 := by
      simp [textValue, pointValue, exponentValue, natOf]
    have hmag : x.magnitude = 0 := by
      obtain ⟨u, -, hunits⟩ := exists_unit
      rw [hunits, h0, Nat.cast_zero, zero_div]
    rw [magnitudeText, if_pos hz, hval, hmag]
    simp
  · have hz : x.isZero ≠ true := fun hz => h0 ((units_eq_zero_iff hx).mpr hz)
    obtain ⟨hd, hi, hnear⟩ := decimal17_spec hf h0
    rw [magnitudeText, if_neg hz]
    dsimp only
    rw [textValue_layout hd hi]
    exact hnear

/-- Finite numbers that are not negative have different texts. -/
theorem magnitudeText_inj {x y : Double} (hx : x.IsFinite) (hy : y.IsFinite)
    (hxn : x.negative = false) (hyn : y.negative = false)
    (h : x.magnitudeText = y.magnitudeText) : x = y := by
  obtain ⟨u, hu, hunits⟩ := exists_unit
  have hxv := magnitudeText_value hx hxn
  have hyv := magnitudeText_value hy hyn
  rw [h] at hxv
  generalize textValue y.magnitudeText = r at hxv hyv
  have hgap {x y : Double} (hxv : |r - x.magnitude| * (2 * 10 ^ 16) ≤ x.magnitude)
      (hyv : |r - y.magnitude| * (2 * 10 ^ 16) ≤ y.magnitude) : ¬ x.units < y.units := by
    intro hlt
    have hg : (2 : ℚ) ^ 53 * x.units + y.units ≤ 2 ^ 53 * y.units := by exact_mod_cast units_gap hlt
    have hpos : (0 : ℚ) < y.units := by exact_mod_cast Nat.zero_lt_of_lt hlt
    have hden : (0 : ℚ) < u := Nat.cast_pos.mpr hu
    have hgm : 2 ^ 53 * x.magnitude + y.magnitude ≤ 2 ^ 53 * y.magnitude := by
      rw [hunits, hunits, ← mul_div_assoc, ← mul_div_assoc, ← add_div]
      exact div_le_div_of_nonneg_right hg hden.le
    have hpm : 0 < y.magnitude := by
      rw [hunits]
      exact div_pos hpos hden
    have h₁ := abs_le.mp ((le_div_iff₀ (by norm_num)).mpr hxv)
    have h₂ := abs_le.mp ((le_div_iff₀ (by norm_num)).mpr hyv)
    linarith [h₁.1, h₁.2, h₂.1, h₂.2]
  have heq : x.units = y.units := by
    have h₁ := hgap hxv hyv
    have h₂ := hgap hyv hxv
    omega
  by_cases h0 : x.units = 0
  · have hxz := (units_eq_zero_iff hxn).mp h0
    have hyz := (units_eq_zero_iff hyn).mp (heq ▸ h0)
    have hzero {z : Double} (hn : z.negative = false) (hz : z.isZero = true) : z.toNat = 0 := by
      unfold negative at hn
      unfold isZero at hz
      have hlt := of_decide_eq_false hn
      have hmod := eq_of_beq hz
      omega
    exact UInt64.toNat_inj.mp ((hzero hxn hxz).trans (hzero hyn hyz).symm)
  · exact units_inj hxn hyn heq h0

theorem formatG17_eq {x : Double} (hf : x.IsFinite) (hx : x.negative = false) :
    x.formatG17 = x.magnitudeText := by
  have hval := toNat_eq x hx
  have hfr : x.fraction < 2 ^ 52 := Nat.mod_lt _ (by decide)
  have he : x.exponent < 2 ^ 11 := Nat.mod_lt _ (by decide)
  have hnan : x.isNaN = false := by
    unfold IsFinite at hf
    unfold isNaN
    exact decide_eq_false (by omega)
  unfold formatG17
  rw [hx, hnan]
  simp only [Bool.false_eq_true, ↓reduceIte, List.nil_append]
  rw [if_neg hf]

end Double

end ToiLang
