import ToiLang.Conversion
import ToiLang.Strtod

namespace ToiLang

namespace Double

/-! Finite numbers as multiples of the smallest positive one, 2 ^ -1074, and what C computes with them
exactly: the comparisons, the conversions from and to integers, and `fmod`. -/

/-- A finite number as a multiple of the smallest positive one. -/
def multiple (x : Double) : Int := x.withSign x.units

/-- The smallest positive number is 2 to the power of minus this. -/
@[irreducible] def smallest : Nat := 1074

/-- 1 as a multiple of the smallest positive number. -/
def scale : Nat := 2 ^ smallest

/-- The number without sign that is a multiple of the smallest one. -/
def ofUnits (n : Nat) : Double := UInt64.ofNat ((n.log2 - 52) * 2 ^ 52 + n / 2 ^ (n.log2 - 52))

/-- `fmod(x, y)`: the sign is that of `x`. -/
def fmod (x y : Double) : Double :=
  if x.isNaN || y.isNaN || x.exponent = 2047 || y.isZero then nan
  else if y.exponent = 2047 then x
  else if x.negative then (ofUnits (x.units % y.units)).negate
  else ofUnits (x.units % y.units)

/-- `x / y`, rounded to the nearest number. -/
def divide (x y : Double) : Double :=
  let magnitude :=
    if x.isNaN || y.isNaN || (x.exponent = 2047 && y.exponent = 2047) || (x.isZero && y.isZero) then nan
    else if x.exponent = 2047 || y.isZero then infinity
    else if y.exponent = 2047 then 0
    else nearest x.units y.units
  if x.negative = y.negative then magnitude else magnitude.negate

/-- `floor(x)`: from the exponent 1075 on every number is an integer. -/
def floor (x : Double) : Double :=
  if 1075 ≤ x.exponent ∨ x.isZero then x else ofInt64 (x.multiple.fdiv scale)

/-- A number of units that is a number: 53 bits and a power of two. -/
def Fits (n : Nat) : Prop := ∃ k, 2 ^ k ∣ n ∧ n < 2 ^ (53 + k)

theorem Fits.shift_dvd {n : Nat} (h : Fits n) : 2 ^ (n.log2 - 52) ∣ n := by
  obtain ⟨k, hk, hn⟩ := h
  rcases Nat.eq_zero_or_pos n with rfl | hpos
  · exact Nat.dvd_zero _
  · have hlog : n.log2 < 53 + k := (Nat.log2_lt (by omega)).mpr hn
    exact (Nat.pow_dvd_pow 2 (by omega)).trans hk

theorem fits_units (x : Double) : Fits x.units := by
  refine ⟨x.binade - 1, Nat.dvd_mul_left _ _, ?_⟩
  rw [Nat.pow_add]
  exact Nat.mul_lt_mul_of_pos_right x.significand_lt (Nat.two_pow_pos _)

theorem log2_units {x : Double} (hf : x.IsFinite) : x.units.log2 < 2098 := by
  have hb := binade_le hf
  rcases Nat.eq_zero_or_pos x.units with h0 | hpos
  · rw [h0]
    decide
  · have hlt : x.units < 2 ^ (53 + (x.binade - 1)) := by
      rw [Nat.pow_add]
      exact Nat.mul_lt_mul_of_pos_right x.significand_lt (Nat.two_pow_pos _)
    have := (Nat.log2_lt (by omega)).mpr hlt
    omega

/-- The remainder of two numbers is a number. -/
theorem Fits.mod {m n : Nat} (hm : Fits m) (hn : Fits n) (h0 : 0 < n) : Fits (m % n) := by
  obtain ⟨i, hi, hmi⟩ := hm
  obtain ⟨j, hj, hnj⟩ := hn
  rcases Nat.le_total i j with hij | hji
  · have hn' : 2 ^ i ∣ n := (Nat.pow_dvd_pow 2 hij).trans hj
    have hle := Nat.mod_le m n
    exact ⟨i, (Nat.dvd_mod_iff hn').mpr hi, by omega⟩
  · have hm' : 2 ^ j ∣ m := (Nat.pow_dvd_pow 2 hji).trans hi
    have hlt := Nat.mod_lt m h0
    exact ⟨j, (Nat.dvd_mod_iff hj).mpr hm', by omega⟩

/-- A number whose units are a multiple of a power of two, divided by it. -/
theorem Fits.of_mul {n t : Nat} (h : Fits (n * 2 ^ t)) : Fits n := by
  obtain ⟨k, hk, hlt⟩ := h
  rcases Nat.le_total k t with hkt | htk
  · refine ⟨0, one_dvd n, ?_⟩
    have hle : 2 ^ (53 + k) ≤ 2 ^ 53 * 2 ^ t := by
      rw [← Nat.pow_add]
      exact Nat.pow_le_pow_right (by decide) (by omega)
    exact Nat.lt_of_mul_lt_mul_right (lt_of_lt_of_le hlt hle)
  · obtain ⟨d, rfl⟩ := Nat.exists_eq_add_of_le htk
    rw [Nat.pow_add, Nat.mul_comm (2 ^ t)] at hk
    refine ⟨d, Nat.dvd_of_mul_dvd_mul_right (Nat.two_pow_pos t) hk, ?_⟩
    rw [show 53 + (t + d) = 53 + d + t by omega, Nat.pow_add] at hlt
    exact Nat.lt_of_mul_lt_mul_right hlt

theorem log2_mul_pow {n : Nat} (h : n ≠ 0) (k : Nat) : (n * 2 ^ k).log2 = n.log2 + k := by
  have hn : n * 2 ^ k ≠ 0 := Nat.mul_ne_zero h (Nat.two_pow_pos k).ne'
  refine (Nat.log2_eq_iff hn).mpr ?_
  obtain ⟨hlow, hhigh⟩ := (Nat.log2_eq_iff h).mp rfl
  have hpos := Nat.two_pow_pos k
  constructor
  · rw [Nat.pow_add]
    exact Nat.mul_le_mul_right _ hlow
  · rw [show n.log2 + k + 1 = n.log2 + 1 + k by omega, Nat.pow_add]
    exact Nat.mul_lt_mul_of_pos_right hhigh hpos

/-- The fields of the number with given units. -/
theorem ofUnits_spec {n : Nat} (h : Fits n) (hmax : n.log2 < 2098) :
    (ofUnits n).negative = false ∧ (ofUnits n).IsFinite ∧ (ofUnits n).units = n := by
  obtain ⟨m, hm⟩ := h.shift_dvd
  have hlog : n.log2 - 52 ≤ 2045 := by omega
  have hhigh : n < 2 ^ (n.log2 - 52) * 2 ^ 53 := by
    rw [← Nat.pow_add]
    exact lt_of_lt_of_le Nat.lt_log2_self (Nat.pow_le_pow_right (by decide) (by omega))
  have hlow : n.log2 - 52 ≠ 0 → 2 ^ (n.log2 - 52) * 2 ^ 52 ≤ n := by
    intro hs
    have hn : n ≠ 0 := by
      rintro rfl
      exact hs (by decide)
    rw [← Nat.pow_add, show n.log2 - 52 + 52 = n.log2 by omega]
    exact Nat.log2_self_le hn
  have hval : (ofUnits n).toNat = ((n.log2 - 52) * 2 ^ 52 + n / 2 ^ (n.log2 - 52)) % 2 ^ 64 :=
    UInt64.toNat_ofNat'
  generalize n.log2 - 52 = s at hm hlog hhigh hlow hval
  have hpow := Nat.two_pow_pos s
  rw [hm, Nat.mul_div_cancel_left m hpow, ← hm] at hval
  have hmlt : m < 2 ^ 53 := by
    rw [hm] at hhigh
    exact Nat.lt_of_mul_lt_mul_left hhigh
  have hmge : s ≠ 0 → 2 ^ 52 ≤ m := by
    intro hs
    have hle := hlow hs
    rw [hm] at hle
    exact Nat.le_of_mul_le_mul_left hle hpow
  clear hhigh hlow hpow
  rw [Nat.mod_eq_of_lt (by omega)] at hval
  have hexp : (ofUnits n).exponent = s + m / 2 ^ 52 := by
    unfold exponent
    rw [hval]
    omega
  have hfrac : (ofUnits n).fraction = m % 2 ^ 52 := by
    unfold fraction
    rw [hval]
    omega
  have hsig : (ofUnits n).significand = m := by
    unfold significand
    split <;> omega
  have hbin : (ofUnits n).binade - 1 = s := by
    have hone : s ≠ 0 → 1 ≤ m / 2 ^ 52 := fun hs => (Nat.one_le_div_iff (by decide)).mpr (hmge hs)
    have hle : m / 2 ^ 52 ≤ 1 := Nat.le_of_lt_succ ((Nat.div_lt_iff_lt_mul (by decide)).mpr hmlt)
    rw [binade, hexp]
    clear * - hone hle
    omega
  refine ⟨?_, ?_, ?_⟩
  · unfold negative
    rw [hval]
    exact decide_eq_false (by omega)
  · unfold IsFinite
    omega
  · rw [units, hsig, hbin, Nat.mul_comm, ← hm]

/-- A number without sign is the one with its units. -/
theorem ofUnits_units {x : Double} (hf : x.IsFinite) (hx : x.negative = false) : ofUnits x.units = x := by
  obtain ⟨hneg, -, hunits⟩ := ofUnits_spec x.fits_units (log2_units hf)
  rcases Nat.eq_zero_or_pos x.units with h0 | hpos
  · have hzero := (units_eq_zero_iff hx).mp h0
    have hx0 : x.toNat = 0 := by
      have hlt : ¬ 2 ^ 63 ≤ x.toNat := of_decide_eq_false hx
      have hmod := eq_of_beq hzero
      omega
    rw [h0]
    exact UInt64.toNat_inj.mp (by rw [hx0]; rfl)
  · exact units_inj hneg hx hunits (by omega)

theorem abs_units (x : Double) : x.abs.units = x.units := by
  unfold units
  rw [abs_significand, abs_binade]

theorem isNaN_of_finite {x : Double} (hf : x.IsFinite) : x.isNaN = false := by
  unfold IsFinite exponent at hf
  unfold isNaN
  exact decide_eq_false (by omega)

/-- Of two numbers without sign the one with more units has more bits. -/
theorem units_le_of_toNat_le {x y : Double} (hx : x.negative = false) (hy : y.negative = false)
    (h : x.toNat ≤ y.toNat) : x.units ≤ y.units := by
  rw [toNat_significand hx, toNat_significand hy] at h
  have hxs := x.significand_lt
  have hys := y.significand_lt
  have hyb : 1 ≤ y.binade := Nat.le_max_right _ _
  rcases Nat.lt_trichotomy x.binade y.binade with hlt | heq | hgt
  · have := units_lt hlt
    omega
  · rw [heq] at h
    have hs : x.significand ≤ y.significand := by omega
    unfold units
    rw [heq]
    exact Nat.mul_le_mul_right _ hs
  · have := le_significand (x := x) (by omega)
    omega

theorem units_lt_iff {x y : Double} (hx : x.negative = false) (hy : y.negative = false) :
    x.units < y.units ↔ x.toNat < y.toNat := by
  constructor
  · intro h
    by_contra hle
    have := units_le_of_toNat_le hy hx (by omega)
    omega
  · intro h
    have hle := units_le_of_toNat_le hx hy (by omega)
    refine lt_of_le_of_ne hle fun he => ?_
    rcases Nat.eq_zero_or_pos x.units with h0 | hpos
    · have hxz := eq_of_beq ((units_eq_zero_iff hx).mp h0)
      have hyz := eq_of_beq ((units_eq_zero_iff hy).mp (he ▸ h0))
      have hxn : ¬ 2 ^ 63 ≤ x.toNat := of_decide_eq_false hx
      have hyn : ¬ 2 ^ 63 ≤ y.toNat := of_decide_eq_false hy
      omega
    · have := units_inj hx hy he (by omega)
      rw [this] at h
      omega

/-- The units of two numbers are ordered as their bits without the sign are. -/
theorem units_lt_iff_bits (x y : Double) : x.units < y.units ↔ x.toNat % 2 ^ 63 < y.toNat % 2 ^ 63 := by
  have h := units_lt_iff x.abs_negative y.abs_negative
  rwa [abs_units, abs_units, toNat_abs, toNat_abs] at h

theorem units_eq_zero_iff_bits (x : Double) : x.units = 0 ↔ x.toNat % 2 ^ 63 = 0 := by
  have h := units_eq_zero_iff x.abs_negative
  rw [abs_units, abs_isZero] at h
  rw [h]
  exact beq_iff_eq

theorem order_lt_iff (x y : Double) : x.order < y.order ↔ x.multiple < y.multiple := by
  have hlt := units_lt_iff_bits x y
  have hgt := units_lt_iff_bits y x
  have hx := units_eq_zero_iff_bits x
  have hy := units_eq_zero_iff_bits y
  unfold order multiple withSign
  split <;> split <;> omega

theorem order_eq_iff (x y : Double) : x.order = y.order ↔ x.multiple = y.multiple := by
  have hlt := order_lt_iff x y
  have hgt := order_lt_iff y x
  omega

theorem lt_iff_multiple {x y : Double} (hx : x.IsFinite) (hy : y.IsFinite) :
    x.lt y = true ↔ x.multiple < y.multiple := by
  unfold lt
  rw [isNaN_of_finite hx, isNaN_of_finite hy]
  simp only [Bool.not_false, Bool.true_and, decide_eq_true_eq]
  exact order_lt_iff x y

theorem eq_iff_multiple {x y : Double} (hx : x.IsFinite) (hy : y.IsFinite) :
    x.eq y = true ↔ x.multiple = y.multiple := by
  unfold eq
  rw [isNaN_of_finite hx, isNaN_of_finite hy]
  simp only [Bool.not_false, Bool.true_and, decide_eq_true_eq]
  exact order_eq_iff x y

/-- A number is what its sign and its units say. -/
theorem ext_units {x y : Double} (hx : x.IsFinite) (hy : y.IsFinite) (hneg : x.negative = y.negative)
    (hunits : x.units = y.units) : x = y := by
  have habs : x.abs = y.abs := by
    rw [← ofUnits_units (abs_finite hx) x.abs_negative, ← ofUnits_units (abs_finite hy) y.abs_negative,
      abs_units, abs_units, hunits]
  cases hn : x.negative with
  | false => rw [← abs_eq hn, habs, abs_eq (hneg ▸ hn)]
  | true => rw [← negate_abs hn, habs, negate_abs (hneg ▸ hn)]

theorem negate_spec {x : Double} (hx : x.negative = false) :
    x.negate.negative = true ∧ x.negate.exponent = x.exponent ∧ x.negate.units = x.units := by
  have hlt : ¬ 2 ^ 63 ≤ x.toNat := of_decide_eq_false hx
  have hval : x.negate.toNat = x.toNat + 2 ^ 63 := by
    unfold negate
    rw [UInt64.toNat_add, UInt64.toNat_ofNat']
    omega
  have hexp : x.negate.exponent = x.exponent := by
    unfold exponent
    rw [hval]
    omega
  have hfrac : x.negate.fraction = x.fraction := by
    unfold fraction
    rw [hval]
    omega
  refine ⟨?_, hexp, ?_⟩
  · unfold negative
    rw [hval]
    exact decide_eq_true (by omega)
  · unfold units significand binade
    rw [hexp, hfrac]

theorem smallest_eq : smallest = 1074 := by
  unfold smallest
  rfl

theorem scale_eq {a b : Nat} (h : a + b = 1074) : scale = 2 ^ a * 2 ^ b := by
  rw [scale, smallest_eq, ← Nat.pow_add, h]

theorem pow_add_scale {k n : Nat} (h : n = k + 1074) : 2 ^ n = 2 ^ k * scale := by
  rw [h, ← smallest_eq, Nat.pow_add, scale]

theorem scale_pos : 0 < scale := Nat.two_pow_pos _

theorem log2_mul_scale {n : Nat} (h : n ≠ 0) : (n * scale).log2 = n.log2 + 1074 :=
  smallest_eq ▸ log2_mul_pow h smallest

theorem numerator_scale (x : Double) : x.numerator * scale = x.units * x.denominator := by
  have h := x.numerator_units
  rwa [← smallest_eq] at h

/-- The integer in front of the point, as a multiple. -/
theorem truncate_eq (x : Double) : x.truncate = x.multiple.tdiv scale := by
  have hden : 0 < x.denominator := Nat.two_pow_pos _
  have hdiv : x.numerator / x.denominator = x.units / scale := by
    have h := x.numerator_scale
    calc x.numerator / x.denominator
        = x.numerator * scale / (x.denominator * scale) :=
          (Nat.mul_div_mul_right _ _ scale_pos).symm
      _ = x.units * x.denominator / (scale * x.denominator) := by rw [h, Nat.mul_comm x.denominator]
      _ = x.units / scale := Nat.mul_div_mul_right _ _ hden
  unfold truncate multiple withSign
  rw [hdiv]
  split
  · rw [Int.neg_tdiv, Int.ofNat_tdiv]
  · rw [Int.ofNat_tdiv]

theorem ofNat_eq {n : Nat} (h0 : n ≠ 0) :
    ofNat n = UInt64.ofNat ((1022 + n.log2) * 2 ^ 52 + n * 2 ^ (52 - n.log2)) := if_neg h0

/-- An integer that is a number is converted to itself. -/
theorem ofUint64_eq {n : Nat} (h : Fits n) : ofUint64 n = ofUnits (n * scale) := by
  rcases Nat.eq_zero_or_pos n with rfl | hpos
  · rw [Nat.zero_mul]
    rfl
  · have h0 : n ≠ 0 := by omega
    have hlog : (n * scale).log2 - 52 = 1022 + n.log2 := by
      have hl := log2_mul_scale h0
      omega
    unfold ofUnits ofUint64
    rw [hlog]
    split
    next hn =>
      have hl : n.log2 < 53 := (Nat.log2_lt h0).mpr hn
      have hs : scale = 2 ^ (52 - n.log2) * 2 ^ (1022 + n.log2) := scale_eq (by omega)
      rw [ofNat_eq h0, hs, ← Nat.mul_assoc, Nat.mul_div_cancel _ (Nat.two_pow_pos _)]
    next hn =>
      have hl : 53 ≤ n.log2 := (Nat.le_log2 h0).mpr (by omega)
      have hs : 2 ^ (1022 + n.log2) = 2 ^ (n.log2 - 52) * scale := by
        exact pow_add_scale (by omega)
      have hr : roundHalfEven n (2 ^ (n.log2 - 52)) = n / 2 ^ (n.log2 - 52) := by
        unfold roundHalfEven
        rw [Nat.mod_eq_zero_of_dvd h.shift_dvd, if_pos (Nat.two_pow_pos _)]
      rw [hs, Nat.mul_div_mul_right _ _ scale_pos, hr]

theorem Fits.scale {n : Nat} (h : Fits n) : Fits (n * scale) := by
  obtain ⟨k, hk, hn⟩ := h
  refine ⟨k + 1074, ?_, ?_⟩
  · rw [pow_add_scale rfl]
    exact Nat.mul_dvd_mul_right hk _
  · rw [← Nat.add_assoc, pow_add_scale rfl]
    exact Nat.mul_lt_mul_of_pos_right hn scale_pos

theorem log2_scale {n : Nat} (h : n.log2 < 1024) : (n * Double.scale).log2 < 2098 := by
  rcases Nat.eq_zero_or_pos n with rfl | hpos
  · rw [Nat.zero_mul]
    decide
  · have hl := log2_mul_scale (show n ≠ 0 by omega)
    omega

theorem ofInt64_eq (i : Int) :
    ofInt64 i = if i < 0 then (ofUint64 i.natAbs).negate else ofUint64 i.natAbs := rfl

/-- The conversion of an integer that is a number. -/
theorem ofInt64_spec {i : Int} (h : Fits i.natAbs) (hlog : i.natAbs.log2 < 1024) :
    (ofInt64 i).IsFinite ∧ (ofInt64 i).negative = decide (i < 0) ∧
      (ofInt64 i).units = i.natAbs * scale := by
  obtain ⟨hneg, hfin, hunits⟩ := ofUnits_spec h.scale (log2_scale hlog)
  rw [ofInt64_eq, ofUint64_eq h]
  split
  next hi =>
    obtain ⟨hn, he, hu⟩ := negate_spec hneg
    refine ⟨?_, hn.trans (decide_eq_true hi).symm, hu.trans hunits⟩
    unfold IsFinite at hfin ⊢
    rwa [he]
  next hi => exact ⟨hfin, hneg.trans (decide_eq_false hi).symm, hunits⟩

theorem multiple_ofInt64 {i : Int} (h : Fits i.natAbs) (hlog : i.natAbs.log2 < 1024) :
    (ofInt64 i).multiple = i * scale := by
  obtain ⟨-, hneg, hunits⟩ := ofInt64_spec h hlog
  unfold multiple withSign
  rw [hneg, hunits]
  generalize scale = t
  rcases Int.lt_or_le i 0 with hi | hi
  · have hi' : i = -(i.natAbs : Int) := by omega
    rw [decide_eq_true hi, if_pos rfl]
    conv_rhs => rw [hi']
    push_cast
    ring
  · have hi' : i = (i.natAbs : Int) := by omega
    rw [decide_eq_false (by omega), if_neg (by decide)]
    conv_rhs => rw [hi']
    push_cast
    ring

theorem isZero_iff (x : Double) : x.isZero = true ↔ x.units = 0 := by
  rw [units_eq_zero_iff_bits]
  exact beq_iff_eq

theorem tmod_withSign (x y : Double) :
    x.multiple.tmod y.multiple = x.withSign (x.units % y.units) := by
  unfold multiple withSign
  split <;> split <;> simp only [Int.neg_tmod, Int.tmod_neg, Int.ofNat_tmod]

/-- `fmod` is the exact remainder. -/
theorem fmod_spec {x y : Double} (hx : x.IsFinite) (hy : y.IsFinite) (h0 : y.isZero = false) :
    (fmod x y).IsFinite ∧ (fmod x y).negative = x.negative ∧ (fmod x y).units = x.units % y.units := by
  have hpos : 0 < y.units := by
    refine Nat.pos_of_ne_zero fun h => ?_
    rw [(isZero_iff y).mpr h] at h0
    exact Bool.noConfusion h0
  have hlog : (x.units % y.units).log2 < 2098 := by
    rcases Nat.eq_zero_or_pos (x.units % y.units) with h | h
    · rw [h]
      decide
    · have hle := Nat.mod_le x.units y.units
      have hlt := (Nat.log2_lt (by omega)).mp (log2_units hx)
      exact (Nat.log2_lt (by omega)).mpr (lt_of_le_of_lt hle hlt)
  obtain ⟨hneg, hfin, hunits⟩ := ofUnits_spec (x.fits_units.mod y.fits_units hpos) hlog
  have he : fmod x y = if x.negative then (ofUnits (x.units % y.units)).negate
      else ofUnits (x.units % y.units) := by
    unfold fmod
    unfold IsFinite at hx hy
    rw [isNaN_of_finite hx, isNaN_of_finite hy, h0, if_neg (by simpa using hx), if_neg hy]
  rw [he]
  cases hxn : x.negative with
  | false => exact ⟨hfin, hneg, hunits⟩
  | true =>
    obtain ⟨hn, hexp, hu⟩ := negate_spec hneg
    refine ⟨?_, hn, hu.trans hunits⟩
    unfold IsFinite at hfin ⊢
    rw [if_pos rfl, hexp]
    exact hfin

theorem le_roundHalfEven (n d : Nat) : n / d ≤ roundHalfEven n d := by
  unfold roundHalfEven
  split
  · exact Nat.le_refl _
  · split <;> omega

theorem roundHalfEven_le_succ (n d : Nat) : roundHalfEven n d ≤ n / d + 1 := by
  unfold roundHalfEven
  split
  · omega
  · split <;> omega

/-- A quotient is rounded to less than an even number just when it is more than a half below it. -/
theorem roundHalfEven_lt_iff {n d k : Nat} (hd : 0 < d) :
    roundHalfEven n d < 2 * (k + 1) ↔ 2 * n < (4 * k + 3) * d := by
  have hdiv := Nat.div_add_mod' n d
  have hmod := Nat.mod_lt n hd
  have hle := le_roundHalfEven n d
  have hup := roundHalfEven_le_succ n d
  rcases Nat.lt_trichotomy (n / d) (2 * k + 1) with hlt | heq | hgt
  · have hmul : (n / d + 1) * d ≤ (2 * k + 1) * d := Nat.mul_le_mul_right d hlt
    rw [Nat.add_mul, Nat.one_mul] at hmul
    have he : (4 * k + 3) * d = 2 * ((2 * k + 1) * d) + d := by ring
    omega
  · have he : (4 * k + 3) * d = 2 * ((2 * k + 1) * d) + d := by ring
    rw [heq] at hdiv
    unfold roundHalfEven
    rw [heq]
    split
    · omega
    · split <;> omega
  · have hmul : (2 * k + 2) * d ≤ n / d * d := Nat.mul_le_mul_right d hgt
    have he : (4 * k + 3) * d + d = 2 * ((2 * k + 2) * d) := by ring
    omega

/-- It is rounded to at most an even number just when it is at most a half above it. -/
theorem roundHalfEven_le_iff {n d k : Nat} (hd : 0 < d) :
    roundHalfEven n d ≤ 2 * k ↔ 2 * n ≤ (4 * k + 1) * d := by
  have hdiv := Nat.div_add_mod' n d
  have hmod := Nat.mod_lt n hd
  have hle := le_roundHalfEven n d
  have hup := roundHalfEven_le_succ n d
  rcases Nat.lt_trichotomy (n / d) (2 * k) with hlt | heq | hgt
  · have hmul : (n / d + 1) * d ≤ 2 * k * d := Nat.mul_le_mul_right d hlt
    rw [Nat.add_mul, Nat.one_mul] at hmul
    have he : (4 * k + 1) * d = 2 * (2 * k * d) + d := by ring
    omega
  · have he : (4 * k + 1) * d = 2 * (2 * k * d) + d := by ring
    rw [heq] at hdiv
    unfold roundHalfEven
    rw [heq]
    split
    · omega
    · split <;> omega
  · have hmul : (2 * k + 1) * d ≤ n / d * d := Nat.mul_le_mul_right d hgt
    have he : (4 * k + 1) * d + d = 2 * ((2 * k + 1) * d) := by ring
    omega

theorem toNat_nearest (p q : Nat) :
    (nearest p q).toNat = min (2047 * 2 ^ 52) (((p * scale / q).log2 - 52) * 2 ^ 52 +
      roundHalfEven (p * scale) (q * 2 ^ ((p * scale / q).log2 - 52))) := by
  rw [scale, smallest_eq]
  exact UInt64.toNat_ofNat_of_lt' (lt_of_le_of_lt (Nat.min_le_left _ _) (by decide))

/-- The significand of a quotient: it has 53 bits, or is rounded up to one more. -/
theorem quotient_bounds {n q : Nat} (hq : 0 < q) :
    n < q * 2 ^ ((n / q).log2 - 52) * 2 ^ 53 ∧
      roundHalfEven n (q * 2 ^ ((n / q).log2 - 52)) ≤ 2 ^ 53 ∧
      ((n / q).log2 - 52 ≠ 0 →
        q * 2 ^ ((n / q).log2 - 52) * 2 ^ 52 ≤ n ∧
          2 ^ 52 ≤ roundHalfEven n (q * 2 ^ ((n / q).log2 - 52))) := by
  have hhigh : n / q < 2 ^ ((n / q).log2 - 52) * 2 ^ 53 := by
    rw [← Nat.pow_add]
    exact lt_of_lt_of_le Nat.lt_log2_self (Nat.pow_le_pow_right (by decide) (by omega))
  have hlow : (n / q).log2 - 52 ≠ 0 → 2 ^ ((n / q).log2 - 52) * 2 ^ 52 ≤ n / q := by
    intro hs
    have hn : n / q ≠ 0 := by
      intro h0
      rw [h0] at hs
      exact hs (by decide)
    rw [← Nat.pow_add, show (n / q).log2 - 52 + 52 = (n / q).log2 by omega]
    exact Nat.log2_self_le hn
  generalize (n / q).log2 - 52 = s at hhigh hlow
  have hpow := Nat.two_pow_pos s
  have hd : 0 < q * 2 ^ s := Nat.mul_pos hq hpow
  have hn : n < q * 2 ^ s * 2 ^ 53 := by
    rw [Nat.mul_assoc, Nat.mul_comm]
    exact (Nat.div_lt_iff_lt_mul hq).mp hhigh
  refine ⟨hn, ?_, fun hs => ?_⟩
  · have hdiv : n / (q * 2 ^ s) < 2 ^ 53 := (Nat.div_lt_iff_lt_mul hd).mpr (by rwa [Nat.mul_comm])
    have hup := roundHalfEven_le_succ n (q * 2 ^ s)
    omega
  · have hge : q * 2 ^ s * 2 ^ 52 ≤ n := by
      rw [Nat.mul_assoc, Nat.mul_comm]
      exact (Nat.le_div_iff_mul_le hq).mp (hlow hs)
    have hdiv : 2 ^ 52 ≤ n / (q * 2 ^ s) := (Nat.le_div_iff_mul_le hd).mpr (by rwa [Nat.mul_comm])
    exact ⟨hge, hdiv.trans (le_roundHalfEven _ _)⟩

/-- A quotient is rounded to less than a power of two just when it is below the last half. -/
theorem nearest_lt_iff {p q e : Nat} (hq : 0 < q) (he : e + 2 ≤ 2047) :
    (nearest p q).toNat < (e + 2) * 2 ^ 52 ↔ 2 * (p * scale) < (2 ^ 54 - 1) * (q * 2 ^ e) := by
  rw [toNat_nearest]
  obtain ⟨hhigh, hround, hlow⟩ := quotient_bounds (n := p * scale) hq
  have hstep := @roundHalfEven_lt_iff (p * scale) (q * 2 ^ ((p * scale / q).log2 - 52)) (2 ^ 52 - 1)
    (Nat.mul_pos hq (Nat.two_pow_pos _))
  generalize (p * scale / q).log2 - 52 = s at hhigh hround hlow hstep
  rcases Nat.lt_trichotomy s e with hlt | rfl | hgt
  · obtain ⟨c, rfl⟩ := Nat.exists_eq_add_of_lt hlt
    have hpow : q * 2 ^ (s + c + 1) = 2 * (q * 2 ^ s * 2 ^ c) := by
      rw [Nat.pow_add, Nat.pow_add]
      ring
    have hc : q * 2 ^ s ≤ q * 2 ^ s * 2 ^ c := Nat.le_mul_of_pos_right _ (Nat.two_pow_pos c)
    rw [hpow]
    omega
  · omega
  · obtain ⟨c, rfl⟩ := Nat.exists_eq_add_of_lt hgt
    obtain ⟨hge, hsig⟩ := hlow (by omega)
    have hpow : q * 2 ^ (e + c + 1) = 2 * (q * 2 ^ e * 2 ^ c) := by
      rw [Nat.pow_add, Nat.pow_add]
      ring
    have hc : q * 2 ^ e ≤ q * 2 ^ e * 2 ^ c := Nat.le_mul_of_pos_right _ (Nat.two_pow_pos c)
    rw [hpow] at hge
    omega

/-- It is rounded to at most a power of two just when it is not above the first half behind it. -/
theorem nearest_le_iff {p q e : Nat} (hq : 0 < q) (he : e + 1 < 2047) :
    (nearest p q).toNat ≤ (e + 1) * 2 ^ 52 ↔ 2 * (p * scale) ≤ (2 ^ 53 + 1) * (q * 2 ^ e) := by
  rw [toNat_nearest]
  obtain ⟨hhigh, hround, hlow⟩ := quotient_bounds (n := p * scale) hq
  have hstep := @roundHalfEven_le_iff (p * scale) (q * 2 ^ ((p * scale / q).log2 - 52)) (2 ^ 51)
    (Nat.mul_pos hq (Nat.two_pow_pos _))
  generalize (p * scale / q).log2 - 52 = s at hhigh hround hlow hstep
  rcases Nat.lt_trichotomy s e with hlt | rfl | hgt
  · obtain ⟨c, rfl⟩ := Nat.exists_eq_add_of_lt hlt
    have hpow : q * 2 ^ (s + c + 1) = 2 * (q * 2 ^ s * 2 ^ c) := by
      rw [Nat.pow_add, Nat.pow_add]
      ring
    have hc : q * 2 ^ s ≤ q * 2 ^ s * 2 ^ c := Nat.le_mul_of_pos_right _ (Nat.two_pow_pos c)
    rw [hpow]
    omega
  · omega
  · obtain ⟨c, rfl⟩ := Nat.exists_eq_add_of_lt hgt
    obtain ⟨hge, hsig⟩ := hlow (by omega)
    have hpow : q * 2 ^ (e + c + 1) = 2 * (q * 2 ^ e * 2 ^ c) := by
      rw [Nat.pow_add, Nat.pow_add]
      ring
    have hc : q * 2 ^ e ≤ q * 2 ^ e * 2 ^ c := Nat.le_mul_of_pos_right _ (Nat.two_pow_pos c)
    have hpos : 0 < q * 2 ^ e := Nat.mul_pos hq (Nat.two_pow_pos e)
    rw [hpow] at hge
    omega

theorem units_lt_of_exponent {x : Double} (h : x.exponent < 1075) : x.units < 2 ^ 53 * scale := by
  have hb : 2 ^ (x.binade - 1) ≤ scale := by
    refine Nat.pow_le_pow_right (by decide) ?_
    rw [smallest_eq]
    unfold binade
    omega
  exact lt_of_lt_of_le (Nat.mul_lt_mul_of_pos_right x.significand_lt (Nat.two_pow_pos _)) (Nat.mul_le_mul_left _ hb)

theorem scale_dvd_of_exponent {x : Double} (h : 1075 ≤ x.exponent) : scale ∣ x.units := by
  refine (Nat.pow_dvd_pow 2 ?_).trans (Nat.dvd_mul_left _ _)
  rw [smallest_eq]
  unfold binade
  omega

/-- `floor` is exact. -/
theorem floor_spec {x : Double} (hf : x.IsFinite) :
    x.floor.IsFinite ∧ x.floor.multiple = x.multiple.fdiv scale * scale := by
  unfold floor
  split
  next h =>
    refine ⟨hf, ?_⟩
    have hdvd : (scale : Int) ∣ x.multiple := by
      rcases h with he | hz
      · have hnat := Int.natCast_dvd_natCast.mpr (scale_dvd_of_exponent he)
        unfold multiple withSign
        split
        · exact (Int.dvd_neg).mpr hnat
        · exact hnat
      · have h0 := (isZero_iff x).mp hz
        unfold multiple withSign
        rw [h0]
        split <;> exact Int.dvd_zero _
    exact (Int.fdiv_mul_cancel hdvd).symm
  next h =>
    have hlt := units_lt_of_exponent (x := x) (by omega)
    have hscale := scale_pos
    have hm : x.multiple.natAbs < 2 ^ 53 * scale := by
      unfold multiple withSign
      split <;> omega
    have hmod := Int.fmod_add_fdiv_mul x.multiple scale
    have hlow := Int.fmod_nonneg_of_pos x.multiple (Int.natCast_pos.mpr hscale)
    have hhigh := Int.fmod_lt_of_pos x.multiple (Int.natCast_pos.mpr hscale)
    have hle {c : Int} (hc : c ≤ x.multiple.fdiv scale) : c * scale ≤ x.multiple.fdiv scale * scale :=
      Int.mul_le_mul_of_nonneg_right hc (by omega)
    have hge {c : Int} (hc : x.multiple.fdiv scale ≤ c) : x.multiple.fdiv scale * scale ≤ c * scale :=
      Int.mul_le_mul_of_nonneg_right hc (by omega)
    have hup : x.multiple.fdiv scale ≤ 2 ^ 53 := by
      by_contra hc
      have := hle (c := 2 ^ 53 + 1) (by omega)
      omega
    have hdown : -2 ^ 53 ≤ x.multiple.fdiv scale := by
      by_contra hc
      have := hge (c := -2 ^ 53 - 1) (by omega)
      omega
    have hfits : Fits (x.multiple.fdiv scale).natAbs := by
      rcases Nat.lt_or_ge (x.multiple.fdiv scale).natAbs (2 ^ 53) with hs | hs
      · exact ⟨0, one_dvd _, hs⟩
      · rw [show (x.multiple.fdiv scale).natAbs = 2 ^ 53 by omega]
        exact ⟨1, by decide, by decide⟩
    have hlog : (x.multiple.fdiv scale).natAbs.log2 < 1024 := by
      rcases Nat.eq_zero_or_pos (x.multiple.fdiv scale).natAbs with h0 | hpos
      · rw [h0]
        decide
      · have hlt : (x.multiple.fdiv scale).natAbs < 2 ^ 54 := by omega
        have := (Nat.log2_lt (by omega)).mpr hlt
        omega
    exact ⟨(ofInt64_spec hfits hlog).1, multiple_ofInt64 hfits hlog⟩

end Double

end ToiLang
