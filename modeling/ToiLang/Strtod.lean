import Mathlib.Data.Nat.Log
import ToiLang.Ctype
import ToiLang.Decimal

namespace ToiLang

/-- `isdigit` -/
def isDigit (c : UInt8) : Bool := 48 ≤ c && c ≤ 57

namespace Double

/-- The number nearest to a quotient, a half to the even significand; above the largest ones it is
an infinity. -/
def nearest (p q : Nat) : Double :=
  let shift := (p * 2 ^ 1074 / q).log2 - 52
  UInt64.ofNat (min (2047 * 2 ^ 52) (shift * 2 ^ 52 + roundHalfEven (p * 2 ^ 1074) (q * 2 ^ shift)))

def infinity : Double := UInt64.ofNat (2047 * 2 ^ 52)
def nan : Double := UInt64.ofNat (2047 * 2 ^ 52 + 2 ^ 51)

/-- `-x`, for a number without sign. -/
def negate (x : Double) : Double := x + UInt64.ofNat (2 ^ 63)

/-- `n` times a power of `base`. -/
def scaled (base n : Nat) (e : Int) : Double :=
  if 0 ≤ e then nearest (n * base ^ e.toNat) 1 else nearest n (base ^ (-e).toNat)

end Double

namespace Strtod

/-- An optional sign, true for a minus, and what follows it. -/
def sign : Bytes → Bool × Bytes
  | [] => (false, [])
  | c :: s => if c = 45 then (true, s) else if c = 43 then (false, s) else (false, c :: s)

/-- The digits on both sides of an optional point, and what follows them. -/
def point (digit : UInt8 → Bool) (s : Bytes) : Bytes × Bytes × Bytes :=
  match s.dropWhile digit with
  | 46 :: rest => (s.takeWhile digit, rest.takeWhile digit, rest.dropWhile digit)
  | rest => (s.takeWhile digit, [], rest)

/-- An exponent behind a letter. Without a digit it is not one. -/
def exponent (letter : UInt8) : Bytes → Int × Bytes
  | [] => (0, [])
  | c :: s =>
    let (minus, rest) := sign s
    let ds := rest.takeWhile isDigit
    if toLower c = letter ∧ ds ≠ [] then
      (if minus then -Double.natOf ds else Double.natOf ds, rest.dropWhile isDigit)
    else (0, c :: s)

def decimal (s : Bytes) : Option (Double × Bytes) :=
  let (whole, fractional, rest) := point isDigit s
  if whole = [] ∧ fractional = [] then none
  else
    let (e, rest) := exponent 101 rest
    some (Double.scaled 10 (Double.natOf (whole ++ fractional)) (e - fractional.length), rest)

def hexNat (ds : Bytes) : Nat := ds.foldl (fun n c => 16 * n + (hexDigit c).getD 0) 0

/-- What follows `0x`. -/
def hexadecimal (s : Bytes) : Option (Double × Bytes) :=
  let (whole, fractional, rest) := point (fun c => (hexDigit c).isSome) s
  if whole = [] ∧ fractional = [] then none
  else
    let (e, rest) := exponent 112 rest
    some (Double.scaled 2 (hexNat (whole ++ fractional)) (e - 4 * fractional.length), rest)

/-- The characters that may stand between the brackets behind `nan`. -/
def nanChar (c : UInt8) : Bool :=
  isDigit c || (97 ≤ toLower c && toLower c ≤ 122) || c = 95

/-- What follows `nan` and, when they are complete, the brackets behind it. -/
def afterNan (s : Bytes) : Bytes :=
  match s with
  | 40 :: r =>
    match r.dropWhile nanChar with
    | 41 :: rest => rest
    | _ => s
  | _ => s

def magnitude (s : Bytes) : Option (Double × Bytes) :=
  if (s.take 8).map toLower = ascii "infinity" then some (Double.infinity, s.drop 8)
  else if (s.take 3).map toLower = ascii "inf" then some (Double.infinity, s.drop 3)
  else if (s.take 3).map toLower = ascii "nan" then some (Double.nan, afterNan (s.drop 3))
  else if (s.take 2).map toLower = ascii "0x" then
    (hexadecimal (s.drop 2)).orElse fun _ => decimal s
  else decimal s

end Strtod

/-- `strtod`: the number and what stands at the end pointer. -/
def strtod (s : Bytes) : Double × Bytes :=
  let (minus, rest) := Strtod.sign (s.dropWhile isSpace)
  match Strtod.magnitude rest with
  | none => (0, s)
  | some (x, rest) => (if minus then x.negate else x, rest)

namespace Double

/-- `%d` of a number that is not negative. -/
def natText (n : Nat) : Bytes := digits (Nat.log 10 n + 1) n

/-- `%.0f` of a finite number. -/
def formatF0 (x : Double) : Bytes :=
  (if x.negative then [45] else []) ++ natText (roundHalfEven x.numerator x.denominator)

theorem roundHalfEven_eq {n d k : Nat} (hup : 2 * n < (2 * k + 1) * d)
    (hdown : 2 * k * d < 2 * n + d) : roundHalfEven n d = k := by
  have hd : 0 < d := by
    by_contra h
    have : d = 0 := by omega
    simp [this] at hup
  obtain ⟨h1, h2⟩ := roundHalfEven_spec n hd
  generalize roundHalfEven n d = r at h1 h2
  rcases Nat.lt_trichotomy r k with hlt | heq | hgt
  · have hle : (r + 1) * d ≤ k * d := Nat.mul_le_mul_right d hlt
    rw [Nat.add_mul, Nat.one_mul] at hle
    rw [Nat.mul_assoc] at hdown
    omega
  · exact heq
  · have hle : (k + 1) * d ≤ r * d := Nat.mul_le_mul_right d hgt
    rw [Nat.add_mul, Nat.one_mul] at hle
    rw [Nat.add_mul, Nat.mul_assoc, Nat.one_mul] at hup
    omega

/-- The bits of a number that is not negative. -/
theorem toNat_significand {x : Double} (hx : x.negative = false) :
    x.toNat = (x.binade - 1) * 2 ^ 52 + x.significand := by
  rw [toNat_eq x hx]
  unfold binade significand
  split
  next h =>
    rw [h]
    omega
  next h =>
    rw [show max x.exponent 1 = x.exponent by omega]
    omega

/-- `n / d` is as near to `u` as a decimal number of 17 digits. -/
structure Near (n d u : Nat) : Prop where
  below : 2 * 10 ^ 16 * n ≤ (2 * 10 ^ 16 + 1) * (u * d)
  above : (2 * 10 ^ 16 - 1) * (u * d) ≤ 2 * 10 ^ 16 * n

/-- The binade of a quotient is that of the number it is near to, except below a power of two. -/
theorem Near.shift {n d s b : Nat} (h : Near n d (s * 2 ^ b)) (hd : 0 < d) (hs : s < 2 ^ 53)
    (hb : b ≠ 0 → 2 ^ 52 ≤ s) :
    (n / d).log2 - 52 = b ∨ ((n / d).log2 - 52 + 1 = b ∧ s = 2 ^ 52) := by
  have hpow := Nat.two_pow_pos b
  have hP : 0 < 2 ^ b * d := Nat.mul_pos hpow hd
  obtain ⟨hbelow, habove⟩ := h
  rw [Nat.mul_assoc s] at hbelow habove
  have hupper : (n / d).log2 < 53 + b ∨ n / d = 0 := by
    by_cases h0 : n / d = 0
    · exact .inr h0
    · refine .inl ((Nat.log2_lt h0).mpr ((Nat.div_lt_iff_lt_mul hd).mpr ?_))
      have hle : s * (2 ^ b * d) ≤ (2 ^ 53 - 1) * (2 ^ b * d) := Nat.mul_le_mul_right _ (by omega)
      rw [Nat.pow_add, Nat.mul_assoc]
      omega
  have hlower (k : Nat) (hk : 2 ^ (k + b) * d ≤ n) : k + b ≤ (n / d).log2 := by
    have hle : 2 ^ (k + b) ≤ n / d := (Nat.le_div_iff_mul_le hd).mpr hk
    have h0 : n / d ≠ 0 := by
      have := Nat.two_pow_pos (k + b)
      omega
    exact (Nat.le_log2 h0).mpr hle
  by_cases hb0 : b = 0
  · left
    rcases hupper with hlt | h0
    · omega
    · rw [h0, hb0]
      rfl
  · have hs52 := hb hb0
    have h51 : 51 + b ≤ (n / d).log2 := by
      refine hlower 51 ?_
      have hle : 2 ^ 52 * (2 ^ b * d) ≤ s * (2 ^ b * d) := Nat.mul_le_mul_right _ hs52
      rw [Nat.pow_add, Nat.mul_assoc]
      omega
    have hlt : (n / d).log2 < 53 + b := by
      rcases hupper with hlt | h0
      · exact hlt
      · rw [h0, show Nat.log2 0 = 0 from rfl] at h51
        omega
    by_cases hs' : s = 2 ^ 52
    · omega
    · left
      have h52 : 52 + b ≤ (n / d).log2 := by
        refine hlower 52 ?_
        have hle : (2 ^ 52 + 1) * (2 ^ b * d) ≤ s * (2 ^ b * d) :=
          Nat.mul_le_mul_right _ (by omega)
        rw [Nat.pow_add, Nat.mul_assoc]
        omega
      omega

theorem Near.round {n d k t : Nat} (h : Near n d (k * 2 ^ t)) (hd : 0 < d) (hk : k ≤ 2 ^ 53) :
    roundHalfEven n (d * 2 ^ t) = k := by
  have hP : 0 < d * 2 ^ t := Nat.mul_pos hd (Nat.two_pow_pos t)
  obtain ⟨hbelow, habove⟩ := h
  rw [Nat.mul_assoc k, Nat.mul_comm _ d] at hbelow habove
  have hle : k * (d * 2 ^ t) ≤ 2 ^ 53 * (d * 2 ^ t) := Nat.mul_le_mul_right _ hk
  apply roundHalfEven_eq
  · rw [Nat.add_mul, Nat.mul_assoc 2 k]
    omega
  · rw [Nat.mul_assoc 2 k]
    omega

/-- A quotient as near to a number as its 17 digits is rounded to that number. -/
theorem nearest_eq {p q : Nat} {x : Double} (h : Near (p * 2 ^ 1074) q x.units) (hq : 0 < q)
    (hf : x.IsFinite) (hx : x.negative = false) : nearest p q = x := by
  have hval := toNat_significand hx
  have hlt := x.toNat_lt
  have hs := x.significand_lt
  have hbits : x.toNat ≤ 2047 * 2 ^ 52 := by
    have hb := binade_le hf
    omega
  have hcases := h.shift hq hs fun hb => le_significand (x := x) (by omega)
  unfold nearest
  generalize (p * 2 ^ 1074 / q).log2 - 52 = t at hcases
  have hround : t * 2 ^ 52 + roundHalfEven (p * 2 ^ 1074) (q * 2 ^ t) = x.toNat := by
    rcases hcases with ht | ⟨ht, hs52⟩
    · rw [ht, Near.round (k := x.significand) h hq hs.le, hval]
    · have hn : Near (p * 2 ^ 1074) q (2 ^ 53 * 2 ^ t) := by
        have hu : x.units = 2 ^ 53 * 2 ^ t := by
          rw [units, hs52, ← ht]
          ring
        rwa [← hu]
      rw [hn.round hq (Nat.le_refl _), hval, hs52, ← ht]
      ring
  simp only [hround, Nat.min_eq_right hbits]
  exact UInt64.ofNat_toNat

theorem magnitude_units (x : Double) : x.magnitude * (2 ^ 1074 : Nat) = x.units := by
  have hn := numerator_units x
  have hd : (0 : ℚ) < x.denominator := Nat.cast_pos.mpr (Nat.two_pow_pos _)
  generalize 2 ^ 1074 = w at hn ⊢
  have h : (x.numerator : ℚ) * w = x.units * x.denominator := by exact_mod_cast hn
  rw [magnitude, div_mul_eq_mul_div, div_eq_iff hd.ne', h]

theorem near_of_value {p q : Nat} {x : Double} (hq : 0 < q)
    (h : |(p : ℚ) / q - x.magnitude| * (2 * 10 ^ 16) ≤ x.magnitude) :
    Near (p * 2 ^ 1074) q x.units := by
  have hq' : (0 : ℚ) < q := Nat.cast_pos.mpr hq
  have hu := magnitude_units x
  have hp : (p : ℚ) / q * q = p := div_mul_cancel₀ _ hq'.ne'
  obtain ⟨hlo, hhi⟩ := abs_le.mp ((le_div_iff₀ (by norm_num)).mpr h)
  generalize (p : ℚ) / q = v at hp hlo hhi
  generalize x.magnitude = m at hu hlo hhi
  obtain ⟨w, hw, hpos⟩ : ∃ w, w = 2 ^ 1074 ∧ 0 < w := ⟨_, rfl, Nat.two_pow_pos _⟩
  rw [← hw] at hu ⊢
  have hscale : (0 : ℚ) < q * w := mul_pos hq' (Nat.cast_pos.mpr hpos)
  constructor
  · have hv : 2 * 10 ^ 16 * v ≤ (2 * 10 ^ 16 + 1) * m := by linarith
    have := mul_le_mul_of_nonneg_right hv hscale.le
    have hq : (2 * 10 ^ 16 * (p * w) : ℚ) ≤ (2 * 10 ^ 16 + 1) * (x.units * q) := by
      rw [← hp, ← hu]
      linarith
    exact_mod_cast hq
  · have hv : (2 * 10 ^ 16 - 1) * m ≤ 2 * 10 ^ 16 * v := by linarith
    have := mul_le_mul_of_nonneg_right hv hscale.le
    have hq : ((2 * 10 ^ 16 - 1 : Nat) * (x.units * q) : ℚ) ≤ 2 * 10 ^ 16 * (p * w) := by
      rw [← hp, ← hu]
      push_cast
      linarith
    exact_mod_cast hq

theorem scaled_eq {base n : Nat} {e : Int} {x : Double} (hbase : 0 < base) (hf : x.IsFinite)
    (hx : x.negative = false)
    (h : |(n : ℚ) * base ^ e - x.magnitude| * (2 * 10 ^ 16) ≤ x.magnitude) :
    scaled base n e = x := by
  unfold scaled
  split
  next he =>
    refine nearest_eq (near_of_value Nat.one_pos ?_) Nat.one_pos hf hx
    rw [show e = (e.toNat : Int) by omega, zpow_natCast] at h
    simpa using h
  next he =>
    have hpow : 0 < base ^ (-e).toNat := Nat.pow_pos hbase
    refine nearest_eq (near_of_value hpow ?_) hpow hf hx
    rw [show e = -((-e).toNat : Int) by omega, zpow_neg, zpow_natCast, ← div_eq_mul_inv] at h
    simpa using h

end Double

theorem isDigit_iff {c : UInt8} : isDigit c = true ↔ 48 ≤ c.toNat ∧ c.toNat ≤ 57 := by
  simp [isDigit, UInt8.le_iff_toNat_le]

namespace Strtod

open Double

/-- A text that is not continued by a digit or a point. -/
def Stops (rest : Bytes) : Prop := ∀ c ∈ rest.head?, isDigit c = false ∧ c ≠ 46

theorem digits_prefix {ds rest : Bytes} (hd : IsDigits ds)
    (hr : ∀ c ∈ rest.head?, isDigit c = false) :
    (ds ++ rest).takeWhile isDigit = ds ∧ (ds ++ rest).dropWhile isDigit = rest := by
  have hall : ∀ c ∈ ds, isDigit c = true := fun c hc => isDigit_iff.mpr (hd c hc)
  rw [List.takeWhile_append_of_pos hall, List.dropWhile_append_of_pos hall]
  cases rest with
  | nil => simp
  | cons c rest =>
    have hc := hr c rfl
    simp [hc]

theorem point_withPoint {whole fractional rest : Bytes} (hw : IsDigits whole)
    (hf : IsDigits fractional) (hr : Stops rest) :
    point isDigit (withPoint whole fractional ++ rest) = (whole, fractional, rest) := by
  have hdigit : ∀ c ∈ rest.head?, isDigit c = false := fun c hc => (hr c hc).1
  unfold withPoint point
  by_cases h : fractional = []
  · obtain ⟨ht, hd⟩ := digits_prefix hw hdigit
    rw [if_pos h, ht, hd, h]
    split
    next rest' => exact absurd rfl (hr 46 rfl).2
    next => rfl
  · have hpoint : ∀ c ∈ (46 :: (fractional ++ rest)).head?, isDigit c = false := by
      intro c hc
      cases hc
      rfl
    obtain ⟨ht, hd⟩ := digits_prefix hw hpoint
    obtain ⟨ht', hd'⟩ := digits_prefix hf hdigit
    rw [if_neg h, List.append_assoc, List.cons_append, hd, ht]
    simp only [ht', hd']

theorem decimal_withPoint {whole fractional rest : Bytes} (hw : IsDigits whole)
    (hne : whole ≠ []) (hf : IsDigits fractional) (hr : Stops rest) :
    decimal (withPoint whole fractional ++ rest) =
      some (scaled 10 (natOf (whole ++ fractional)) ((exponent 101 rest).1 - fractional.length),
        (exponent 101 rest).2) := by
  unfold decimal
  rw [point_withPoint hw hf hr]
  simp [hne]

theorem exponent_text {i : Nat} (hi : i < 1000) :
    exponent 101 (exponentText i) = ((i : Int) - 324, []) := by
  have hds (n : Nat) (hn : n < 1000) :
      ∃ ds, (if n < 100 then digits 2 n else digits 3 n) = ds ∧ ds ≠ [] ∧ IsDigits ds ∧
        natOf ds = n := by
    split
    next => exact ⟨_, rfl, by simp [digits], isDigits_digits _ _, by
      rw [natOf_digits, Nat.mod_eq_of_lt (by omega)]⟩
    next => exact ⟨_, rfl, by simp [digits], isDigits_digits _ _, by
      rw [natOf_digits, Nat.mod_eq_of_lt (by omega)]⟩
  have hread (c : UInt8) (hc : c = 45 ∨ c = 43) {ds : Bytes} (hne : ds ≠ []) (hd : IsDigits ds) :
      exponent 101 (101 :: c :: ds) = (if c = 45 then -(natOf ds : Int) else natOf ds, []) := by
    have hend : ∀ c ∈ ([] : Bytes).head?, isDigit c = false := by simp
    obtain ⟨ht, hdrop⟩ := digits_prefix hd hend
    rw [List.append_nil] at ht hdrop
    rcases hc with rfl | rfl
    · have hs : sign (45 :: ds) = (true, ds) := rfl
      simp only [exponent, hs, ht, hdrop]
      rw [if_pos ⟨rfl, hne⟩]
    · have hs : sign (43 :: ds) = (false, ds) := rfl
      simp only [exponent, hs, ht, hdrop]
      rw [if_pos ⟨rfl, hne⟩, if_neg (by decide)]
      rfl
  unfold exponentText
  dsimp only
  by_cases h : i < 324
  · obtain ⟨ds, heq, hne, hd, hval⟩ := hds (324 - i) (by omega)
    simp only [if_pos h, heq]
    rw [hread 45 (.inl rfl) hne hd, hval, if_pos rfl]
    simp only [Prod.mk.injEq, and_true]
    omega
  · obtain ⟨ds, heq, hne, hd, hval⟩ := hds (i - 324) (by omega)
    simp only [if_neg h, heq]
    rw [hread 43 (.inr rfl) hne hd, hval, if_neg (by decide)]
    simp only [Prod.mk.injEq, and_true]
    omega

/-- The text of 17 digits at a decimal exponent is read as what it stands for. -/
theorem decimal_text {whole fractional rest : Bytes} {x : Double} (hw : IsDigits whole)
    (hne : whole ≠ []) (hf : IsDigits fractional) (hr : rest = [] ∨ ∃ i < 1000, rest = exponentText i)
    (hx : x.IsFinite) (hpos : x.negative = false)
    (hnear : |textValue (withPoint whole fractional ++ rest) - x.magnitude| * (2 * 10 ^ 16) ≤
      x.magnitude) : decimal (withPoint whole fractional ++ rest) = some (x, []) := by
  have hstops : Stops rest := by
    rcases hr with rfl | ⟨i, -, rfl⟩
    · simp [Stops]
    · simp [Stops, exponentText, isDigit]
  have hvalue (e : Int) : (natOf (whole ++ fractional) : ℚ) * 10 ^ (e - fractional.length) =
      (natOf whole + natOf fractional / 10 ^ fractional.length) * 10 ^ e := by
    rw [natOf_append, zpow_sub₀ (by norm_num), zpow_natCast]
    push_cast
    field_simp
  rw [decimal_withPoint hw hne hf hstops]
  rcases hr with rfl | ⟨i, hi, rfl⟩
  · rw [List.append_nil, textValue_withPoint hw hf] at hnear
    rw [show exponent 101 [] = (0, []) from rfl]
    rw [scaled_eq (by decide) hx hpos]
    have := hvalue 0
    push_cast at this ⊢
    rw [this, mul_one]
    exact hnear
  · rw [textValue_exponent hw hf hi] at hnear
    rw [exponent_text hi]
    dsimp only
    rw [scaled_eq (by decide) hx hpos]
    have := hvalue ((i : Int) - 324)
    push_cast at this ⊢
    rw [this]
    exact hnear

/-- A text that begins with a digit and is not `0x` is a decimal one. -/
theorem magnitude_decimal {c : UInt8} {s : Bytes} (hc : isDigit c = true)
    (hs : ∀ d ∈ s.head?, toLower d ≠ 120) : magnitude (c :: s) = decimal (c :: s) := by
  have hd := isDigit_iff.mp hc
  have hlow : toLower c = c := by
    refine if_neg fun h => ?_
    have := UInt8.le_iff_toNat_le.mp h.1
    simp at this
    omega
  have hne {w t : Bytes} (hw : ∃ b u, w = b :: u ∧ 57 < b.toNat) : c :: t ≠ w := by
    obtain ⟨b, u, rfl, hb⟩ := hw
    intro h
    cases h
    omega
  unfold magnitude
  simp only [List.take_succ_cons, List.map_cons, hlow]
  have hinfinity : ∀ t, c :: t ≠ ascii "infinity" := fun _ => hne ⟨105, _, rfl, by decide⟩
  have hinf : ∀ t, c :: t ≠ ascii "inf" := fun _ => hne ⟨105, _, rfl, by decide⟩
  have hnan : ∀ t, c :: t ≠ ascii "nan" := fun _ => hne ⟨110, _, rfl, by decide⟩
  rw [if_neg (hinfinity _), if_neg (hinf _), if_neg (hnan _), if_neg]
  intro h
  cases s with
  | nil => cases h
  | cons d s =>
    simp only [List.take_succ_cons, List.map_cons] at h
    exact hs d rfl (by injection h with _ h; injection h)

theorem toLower_digit {c : UInt8} (hc : isDigit c = true) : toLower c ≠ 120 := by
  have hd := isDigit_iff.mp hc
  unfold toLower
  split
  next h =>
    have := UInt8.le_iff_toNat_le.mp h.1
    simp at this
    omega
  next =>
    rintro rfl
    exact absurd hd (by decide)

theorem magnitude_withPoint {whole fractional rest : Bytes} (hw : IsDigits whole)
    (hne : whole ≠ []) (hr : rest = [] ∨ ∃ i < 1000, rest = exponentText i) :
    magnitude (withPoint whole fractional ++ rest) = decimal (withPoint whole fractional ++ rest) := by
  obtain ⟨c, ds, rfl⟩ := List.exists_cons_of_ne_nil hne
  have hc : isDigit c = true := isDigit_iff.mpr (hw c List.mem_cons_self)
  have hhead (tail : Bytes) (ht : ∀ d ∈ tail.head?, toLower d ≠ 120) :
      ∀ d ∈ (ds ++ tail).head?, toLower d ≠ 120 := by
    cases ds with
    | nil => exact ht
    | cons d ds =>
      intro d' hd'
      cases hd'
      exact toLower_digit (isDigit_iff.mpr (hw d (by simp)))
  have hrest : ∀ d ∈ rest.head?, toLower d ≠ 120 := by
    rcases hr with rfl | ⟨i, -, rfl⟩
    · simp
    · intro d hd
      cases hd
      decide
  unfold withPoint
  split
  next => exact magnitude_decimal hc (hhead rest hrest)
  next =>
    rw [List.append_assoc, List.cons_append]
    refine magnitude_decimal hc (hhead _ ?_)
    intro d hd
    cases hd
    decide

/-- The text of a magnitude is digits with a point and an exponent. -/
theorem magnitudeText_layout {x : Double} (hf : x.IsFinite) (hx : x.negative = false) :
    ∃ whole fractional rest, x.magnitudeText = withPoint whole fractional ++ rest ∧
      IsDigits whole ∧ whole ≠ [] ∧ IsDigits fractional ∧
      (rest = [] ∨ ∃ i < 1000, rest = exponentText i) := by
  have htake (k n : Nat) : IsDigits ((digits 17 n).take k) :=
    (isDigits_digits 17 n).of_subset (List.take_subset k _)
  have hdrop (k n : Nat) : IsDigits (trimZeros ((digits 17 n).drop k)) :=
    ((isDigits_digits 17 n).of_subset (List.drop_subset k _)).trimZeros
  by_cases hz : x.isZero = true
  · refine ⟨[48], [], [], ?_, isDigits_zeros 1, by simp, isDigits_zeros 0, .inl rfl⟩
    rw [magnitudeText, if_pos hz]
    rfl
  · have h0 : x.units ≠ 0 := fun h0 => hz ((units_eq_zero_iff hx).mp h0)
    obtain ⟨hd, hi, -⟩ := decimal17_spec hf h0
    have htext : x.magnitudeText = _ := if_neg hz
    dsimp only at htext
    split at htext
    next h =>
      refine ⟨_, _, [], by rw [htext, List.append_nil], htake _ _, ?_, hdrop _ _, .inl rfl⟩
      intro hnil
      have := congrArg List.length hnil
      simp only [List.length_take, length_digits, List.length_nil] at this
      omega
    next =>
      split at htext
      next =>
        exact ⟨[48], _, [], by rw [htext, List.append_nil], isDigits_zeros 1, by simp,
          ((isDigits_zeros _).append (isDigits_digits _ _)).trimZeros, .inl rfl⟩
      next =>
        refine ⟨_, _, _, htext, htake _ _, ?_, hdrop _ _, .inr ⟨_, hi, rfl⟩⟩
        intro hnil
        have := congrArg List.length hnil
        simp at this

/-- The text of a magnitude is read as that magnitude. -/
theorem magnitude_magnitudeText {x : Double} (hf : x.IsFinite) (hx : x.negative = false) :
    magnitude x.magnitudeText = some (x, []) := by
  have hnear := magnitudeText_value hf hx
  obtain ⟨whole, fractional, rest, heq, hw, hne, hfr, hr⟩ := magnitudeText_layout hf hx
  rw [heq] at hnear ⊢
  rw [magnitude_withPoint hw hne hr, decimal_text hw hne hfr hr hf hx hnear]

/-- A text of digits begins with one. -/
theorem head_withPoint {whole : Bytes} (fractional rest : Bytes) (hw : IsDigits whole)
    (hne : whole ≠ []) :
    ∃ c s, withPoint whole fractional ++ rest = c :: s ∧ isDigit c = true := by
  obtain ⟨c, ds, rfl⟩ := List.exists_cons_of_ne_nil hne
  have hc : isDigit c = true := isDigit_iff.mpr (hw c List.mem_cons_self)
  unfold withPoint
  split
  next => exact ⟨c, _, rfl, hc⟩
  next => exact ⟨c, _, rfl, hc⟩

end Strtod

namespace Double

/-- A number without its sign. -/
def abs (x : Double) : Double := UInt64.ofNat (x.toNat % 2 ^ 63)

theorem toNat_abs (x : Double) : x.abs.toNat = x.toNat % 2 ^ 63 := by
  unfold abs
  rw [UInt64.toNat_ofNat', Nat.mod_eq_of_lt (by omega)]

theorem abs_negative (x : Double) : x.abs.negative = false := by
  unfold negative
  rw [toNat_abs]
  exact decide_eq_false (by omega)

theorem abs_exponent (x : Double) : x.abs.exponent = x.exponent := by
  unfold exponent
  rw [toNat_abs]
  omega

theorem abs_fraction (x : Double) : x.abs.fraction = x.fraction := by
  unfold fraction
  rw [toNat_abs]
  omega

theorem abs_isZero (x : Double) : x.abs.isZero = x.isZero := by
  unfold isZero
  rw [toNat_abs, Nat.mod_mod]

theorem abs_significand (x : Double) : x.abs.significand = x.significand := by
  unfold significand
  rw [abs_exponent, abs_fraction]

theorem abs_binade (x : Double) : x.abs.binade = x.binade := by
  unfold binade
  rw [abs_exponent]

theorem abs_numerator (x : Double) : x.abs.numerator = x.numerator := by
  unfold numerator
  rw [abs_significand, abs_binade]

theorem abs_denominator (x : Double) : x.abs.denominator = x.denominator := by
  unfold denominator
  rw [abs_binade]

theorem abs_finite {x : Double} (hf : x.IsFinite) : x.abs.IsFinite := by
  unfold IsFinite
  rwa [abs_exponent]

theorem abs_magnitudeText (x : Double) : x.abs.magnitudeText = x.magnitudeText := by
  have h10 : x.abs.decimalExponent = x.decimalExponent := by
    unfold decimalExponent
    rw [abs_numerator, abs_denominator]
  have h17 : x.abs.decimal17 = x.decimal17 := by
    unfold decimal17
    rw [abs_numerator, abs_denominator, h10]
  unfold magnitudeText
  rw [abs_isZero, h17]

theorem negate_abs {x : Double} (hx : x.negative = true) : x.abs.negate = x := by
  have hlt := x.toNat_lt
  have hneg : 2 ^ 63 ≤ x.toNat := of_decide_eq_true hx
  apply UInt64.toNat_inj.mp
  unfold negate
  rw [UInt64.toNat_add, toNat_abs, UInt64.toNat_ofNat']
  omega

theorem abs_eq {x : Double} (hx : x.negative = false) : x.abs = x := by
  have hneg : ¬ 2 ^ 63 ≤ x.toNat := of_decide_eq_false hx
  apply UInt64.toNat_inj.mp
  rw [toNat_abs]
  omega

end Double

/-- A text of a magnitude behind an optional minus. -/
theorem strtod_sign {x : Double} {text : Bytes} (h : Strtod.magnitude text = some (x.abs, []))
    (hhead : ∃ c s, text = c :: s ∧ 48 ≤ c.toNat) :
    strtod ((if x.negative then [45] else []) ++ text) = (x, []) := by
  obtain ⟨c, s, rfl, hc⟩ := hhead
  have hspace : isSpace c = false := by
    simp [isSpace, UInt8.le_iff_toNat_le]
    constructor
    · rintro rfl
      exact absurd hc (by decide)
    · omega
  have hminus : c ≠ 45 := by
    rintro rfl
    exact absurd hc (by decide)
  have hplus : c ≠ 43 := by
    rintro rfl
    exact absurd hc (by decide)
  unfold strtod
  cases hx : x.negative with
  | true =>
    have hdrop : (45 :: c :: s).dropWhile isSpace = 45 :: c :: s := rfl
    have hsign : Strtod.sign (45 :: c :: s) = (true, c :: s) := rfl
    simp only [↓reduceIte, List.cons_append, List.nil_append, hdrop, hsign, h, Double.negate_abs hx]
  | false =>
    have hdrop : (c :: s).dropWhile isSpace = c :: s := by simp [hspace]
    have hsign : Strtod.sign (c :: s) = (false, c :: s) := by simp [Strtod.sign, hminus, hplus]
    simp only [Bool.false_eq_true, ↓reduceIte, List.nil_append, hdrop, hsign, h, Double.abs_eq hx]

/-- A finite number is read back from its 17 digits. -/
theorem strtod_formatG17 {x : Double} (hf : x.IsFinite) : strtod x.formatG17 = (x, []) := by
  have hnan : x.isNaN = false := by
    have hexp : x.exponent < 2047 := by
      have : x.exponent < 2 ^ 11 := Nat.mod_lt _ (by decide)
      unfold Double.IsFinite at hf
      omega
    unfold Double.exponent at hexp
    unfold Double.isNaN
    exact decide_eq_false (by omega)
  unfold Double.formatG17
  rw [hnan]
  simp only [Bool.false_eq_true, ↓reduceIte]
  rw [if_neg hf, ← Double.abs_magnitudeText]
  refine strtod_sign (Strtod.magnitude_magnitudeText (Double.abs_finite hf) x.abs_negative) ?_
  obtain ⟨whole, fractional, rest, heq, hw, hne, -, -⟩ :=
    Strtod.magnitudeText_layout (Double.abs_finite hf) x.abs_negative
  obtain ⟨c, s, htext, hc⟩ := Strtod.head_withPoint fractional rest hw hne
  exact ⟨c, s, heq.trans htext, (isDigit_iff.mp hc).1⟩

theorem Double.int?_infinite {x : Double} (h : x.exponent = 2047) : x.int? = none := by
  have hz : x.isZero = false := by
    unfold Double.exponent at h
    unfold Double.isZero
    refine beq_false_of_ne ?_
    omega
  have habs : x.natAbs? = none := by
    unfold Double.natAbs?
    rw [hz, h]
    simp
  unfold Double.int?
  rw [habs]
  rfl

/-- The text of every number is read whole, and as a number of the same text. -/
theorem formatG17_strtod (x : Double) :
    ∃ y, strtod x.formatG17 = (y, []) ∧ y.formatG17 = x.formatG17 ∧ y.int? = x.int? ∧
      (y.isZero = true → y = x) := by
  by_cases hf : x.IsFinite
  · exact ⟨x, strtod_formatG17 hf, rfl, rfl, fun _ => rfl⟩
  · have hexp : x.exponent = 2047 := not_not.mp hf
    rw [Double.int?_infinite hexp]
    unfold Double.formatG17
    rw [if_pos hexp]
    cases x.negative <;> cases x.isNaN
    · exact ⟨.infinity, by decide, by decide, by decide,
      fun h => absurd h (by decide)⟩
    · exact ⟨.nan, by decide, by decide, by decide,
      fun h => absurd h (by decide)⟩
    · exact ⟨Double.infinity.negate, by decide, by decide, by decide,
      fun h => absurd h (by decide)⟩
    · exact ⟨Double.nan.negate, by decide, by decide, by decide,
      fun h => absurd h (by decide)⟩

namespace Double

theorem isDigits_natText (n : Nat) : IsDigits (natText n) := isDigits_digits _ _

theorem natText_ne_nil (n : Nat) : natText n ≠ [] := by
  intro h
  have := congrArg List.length h
  simp [natText] at this

theorem natOf_natText (n : Nat) : natOf (natText n) = n := by
  unfold natText
  rw [natOf_digits, Nat.mod_eq_of_lt (Nat.lt_pow_succ_log_self (by decide) n)]

/-- A number that `x == floor(x)` holds of. -/
def IsInteger (x : Double) : Prop := x.denominator ∣ x.numerator

instance (x : Double) : Decidable x.IsInteger := inferInstanceAs (Decidable (_ ∣ _))

theorem magnitude_integer {x : Double} {n : Nat} (h : x.numerator = x.denominator * n) :
    x.magnitude = n := by
  have hden : (0 : ℚ) < x.denominator := Nat.cast_pos.mpr (Nat.two_pow_pos _)
  rw [magnitude, h, Nat.cast_mul, mul_div_cancel_left₀ _ hden.ne']

end Double

/-- An integer is read back from its digits. -/
theorem strtod_formatF0 {x : Double} (hf : x.IsFinite) (hint : x.IsInteger) :
    strtod x.formatF0 = (x, []) := by
  obtain ⟨n, hn⟩ := hint
  have hden : 0 < x.denominator := Nat.two_pow_pos _
  have hround : Double.roundHalfEven x.numerator x.denominator = n :=
    Double.roundHalfEven_eq (by rw [hn]; linarith) (by rw [hn]; linarith)
  have hw := Double.isDigits_natText n
  have hne := Double.natText_ne_nil n
  have hfr : Double.IsDigits [] := Double.isDigits_zeros 0
  have htext : Double.natText n = Double.withPoint (Double.natText n) [] ++ [] := by
    simp [Double.withPoint]
  unfold Double.formatF0
  rw [hround]
  refine strtod_sign ?_ ?_
  · rw [htext, Strtod.magnitude_withPoint hw hne (.inl rfl)]
    refine Strtod.decimal_text hw hne hfr (.inl rfl) (Double.abs_finite hf) x.abs_negative ?_
    have hmag : x.abs.magnitude = n :=
      Double.magnitude_integer (by rw [Double.abs_numerator, Double.abs_denominator, hn])
    rw [List.append_nil, Double.textValue_withPoint hw hfr, Double.natOf_natText, hmag]
    simp [Double.natOf]
  · obtain ⟨c, s, heq, hc⟩ := Strtod.head_withPoint [] [] hw hne
    exact ⟨c, s, htext.trans heq, (isDigit_iff.mp hc).1⟩

end ToiLang
