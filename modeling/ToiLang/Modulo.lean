import ToiLang.Opcode
import ToiLang.Operators
import ToiLang.Remainder

namespace ToiLang

/-! The remainder of two numbers in the instructions that compute it, and what the optimiser folds. -/

/-- `(int64_t)x`; none where C leaves it undefined. -/
def castInt64 (x : Double) : Option Int :=
  if x.IsFinite ∧ -2 ^ 63 ≤ x.truncate ∧ x.truncate < 2 ^ 63 then some x.truncate else none

/-- `(double)INT64_MIN` -/
def int64Min : Double := 0xC3E0000000000000

/-- `(double)INT64_MAX`, which is 2 to the power of 63. -/
def int64Max : Double := 0x43E0000000000000

/-- `to_int64_local`: the integer that a number is, if it is one; none where a conversion is undefined. -/
def toInt64Local (x : Double) : Option (Option Int) :=
  if x.lt int64Min || int64Max.lt x then some none
  else (castInt64 x).map fun i => if Double.eq (Double.ofInt64 i) x then some i else none

/-- `ia % ib`; none where C leaves it undefined. -/
def remainderInt64 (ia ib : Int) : Option Int := if ia = -2 ^ 63 ∧ ib = -1 then none else some (ia.tmod ib)

/-- The remainder as all instructions but `OP_FMOD` compute it; none where C leaves it undefined. -/
def modNumbers (a b : Double) : Option Double :=
  match toInt64Local a with
  | none => none
  | some none => some (Double.fmod a b)
  | some (some ia) =>
    match toInt64Local b with
    | none => none
    | some none => some (Double.fmod a b)
    | some (some ib) => if ib = 0 then some (Double.fmod a b) else (remainderInt64 ia ib).map Double.ofInt64

/-- What an arithmetic instruction works on: the stack with its top first, the slots of the frame and the
constants. -/
structure Operands where
  stack : List Value
  slots : Nat → Value
  constants : List Value

def Operands.push (s : Operands) (x : Double) : Operands := { s with stack := .number x :: s.stack }

def Operands.setSlot (s : Operands) (slot : Nat) (x : Double) : Operands :=
  { s with slots := Function.update s.slots slot (.number x) }

/-- How an arithmetic instruction ends: it is done, it calls a metamethod with its arguments, it fails, or C
leaves it undefined. -/
inductive Computed
  | done (s : Operands)
  | call (s : Operands) (method : Value) (args : List Value)
  | fail
  | undefined

def Computed.ofNumber (x : Option Double) (store : Double → Operands) : Computed :=
  match x with
  | some r => .done (store r)
  | none => .undefined

/-- The remainder of two values, where the operands are off the stack `s`. -/
def modulo (method : Value → Value) (s : Operands) (a b : Value) (store : Double → Operands) : Computed :=
  match a, b with
  | .number x, .number y => .ofNumber (modNumbers x y) store
  | _, _ => if methodOf method a b = .nil then .fail else .call s (methodOf method a b) [a, b]

/-- `vm_handle_op_modulo` -/
def vmHandleOpModulo (method : Value → Value) (s : Operands) : Computed :=
  match s.stack with
  | b :: a :: rest => modulo method { s with stack := rest } a b { s with stack := rest }.push
  | _ => .undefined

/-- `vm_handle_op_mod_const` -/
def vmHandleOpModConst (method : Value → Value) (constant : Nat) (s : Operands) : Computed :=
  match s.stack with
  | a :: rest =>
    modulo method { s with stack := rest } a (s.constants.getD constant .nil) { s with stack := rest }.push
  | [] => .undefined

/-- `vm_handle_op_i_mod`, which takes its operands to be numbers. -/
def vmHandleOpIMod (s : Operands) : Computed :=
  match s.stack with
  | .number b :: .number a :: rest => .ofNumber (modNumbers a b) { s with stack := rest }.push
  | _ => .undefined

/-- `vm_handle_op_f_mod` -/
def vmHandleOpFMod (s : Operands) : Computed :=
  match s.stack with
  | .number b :: .number a :: rest => .done ({ s with stack := rest }.push (Double.fmod a b))
  | _ => .undefined

/-- `vm_handle_op_mod_set_local` -/
def vmHandleOpModSetLocal (method : Value → Value) (slot : Nat) (s : Operands) : Computed :=
  match s.stack with
  | b :: a :: rest =>
    modulo method { s with stack := rest } a b fun r => ({ s with stack := rest }.setSlot slot r).push r
  | _ => .undefined

/-- `vm_handle_op_mod_local_const` -/
def vmHandleOpModLocalConst (method : Value → Value) (slot constant : Nat) (s : Operands) : Computed :=
  modulo method s (s.slots slot) (s.constants.getD constant .nil) fun r => (s.setSlot slot r).push r

/-- `fold_binary_numbers` on two constants: the constant that it adds, if any; none where C leaves it undefined.
`arith` are the other operators. -/
def foldBinaryNumbers (arith : OpCode → Double → Double → Double) (op : OpCode) (v₁ v₂ : Value) :
    Option (Option Double) :=
  match v₁, v₂ with
  | .number a, .number b =>
    match op with
    | .opAdd | .opSubtract | .opMultiply | .opPower => some (some (arith op a b))
    | .opDivide => some (some (a.divide b))
    | .opIntDiv => (castInt64 (a.divide b)).map fun i => some (Double.ofInt64 i)
    | .opModulo => some (some (Double.fmod a b))
    | _ => some none
  | _, _ => some none

/-- `vm_handle_op_int_div` -/
def vmHandleOpIntDiv (method : Value → Value) (s : Operands) : Computed :=
  match s.stack with
  | b :: a :: rest =>
    match a, b with
    | .number x, .number y => .done ({ s with stack := rest }.push (x.divide y).floor)
    | _, _ =>
      if methodOf method a b = .nil then .fail else .call { s with stack := rest } (methodOf method a b) [a, b]
  | _ => .undefined

/-- The ways to a remainder: the instructions, and the constant that the optimiser loads in place of two constants
and an `OP_MODULO`. -/
inductive ModInstr
  | modulo
  | modConst (constant : Nat)
  | iMod
  | fMod
  | modSetLocal (slot : Nat)
  | modLocalConst (slot constant : Nat)
  | folded (c₁ c₂ : Nat)

def ModInstr.exec (method : Value → Value) (arith : OpCode → Double → Double → Double) (s : Operands) :
    ModInstr → Computed
  | .modulo => vmHandleOpModulo method s
  | .modConst constant => vmHandleOpModConst method constant s
  | .iMod => vmHandleOpIMod s
  | .fMod => vmHandleOpFMod s
  | .modSetLocal slot => vmHandleOpModSetLocal method slot s
  | .modLocalConst slot constant => vmHandleOpModLocalConst method slot constant s
  | .folded c₁ c₂ =>
    match foldBinaryNumbers arith .opModulo (s.constants.getD c₁ .nil) (s.constants.getD c₂ .nil) with
    | some (some r) => .done (s.push r)
    | some none => .fail
    | none => .undefined

/-- The operands are where the instruction finds them. -/
def ModInstr.Takes (s : Operands) (a b : Double) : ModInstr → Prop
  | .modulo | .iMod | .fMod | .modSetLocal _ => ∃ rest, s.stack = .number b :: .number a :: rest
  | .modConst constant => (∃ rest, s.stack = .number a :: rest) ∧ s.constants.getD constant .nil = .number b
  | .modLocalConst slot constant => s.slots slot = .number a ∧ s.constants.getD constant .nil = .number b
  | .folded c₁ c₂ => s.constants.getD c₁ .nil = .number a ∧ s.constants.getD c₂ .nil = .number b

/-- The state behind an instruction with the result `r`. -/
def ModInstr.after (s : Operands) (r : Double) : ModInstr → Operands
  | .modulo | .iMod | .fMod => { s with stack := s.stack.drop 2 }.push r
  | .modConst _ => { s with stack := s.stack.drop 1 }.push r
  | .modSetLocal slot => ({ s with stack := s.stack.drop 2 }.setSlot slot r).push r
  | .modLocalConst slot _ => (s.setSlot slot r).push r
  | .folded _ _ => s.push r

/-- `a - b * trunc(a / b)`, in multiples of the smallest number. -/
def IsRemainder (r a b : Double) : Prop :=
  r.IsFinite ∧ r.multiple = a.multiple - b.multiple * a.multiple.tdiv b.multiple

/-- The instruction leaves `r` for the operands `a` and `b`, wherever else its state is. -/
def ModInstr.Yields (method : Value → Value) (arith : OpCode → Double → Double → Double) (a b r : Double)
    (i : ModInstr) : Prop :=
  ∀ s, i.Takes s a b → i.exec method arith s = .done (i.after s r)

/-- Every way to a remainder is defined and leaves the exact one. -/
def RemaindersRight (method : Value → Value) (arith : OpCode → Double → Double → Double) (a b : Double) : Prop :=
  ∀ i : ModInstr, ∃ r, i.Yields method arith a b r ∧ IsRemainder r a b

/-- All of them leave the same number, with the same sign when it is a zero. -/
def SameRemainder (method : Value → Value) (arith : OpCode → Double → Double → Double) (a b : Double) : Prop :=
  ∃ r, ∀ i : ModInstr, i.Yields method arith a b r

/-- The optimiser folds an integer division without a conversion that C leaves undefined. -/
def DivisionDefined (arith : OpCode → Double → Double → Double) (a b : Double) : Prop :=
  foldBinaryNumbers arith .opIntDiv (.number a) (.number b) ≠ none

/-- An integer that `int64_t` has. -/
def Double.IsInt64 (x : Double) : Prop := ∃ i : Int, -2 ^ 63 ≤ i ∧ i < 2 ^ 63 ∧ x.multiple = i * Double.scale

/-- No conversion meets 2 to the power of 63, and the remainder is not that of the smallest integer and -1. -/
structure RemaindersClear (a b : Double) : Prop where
  left : a ≠ int64Max
  right : a.IsInt64 → b ≠ int64Max
  overflow : a = int64Min → b.multiple ≠ -Double.scale

/-- The remainder of a negative integer, or of -0, is not zero where both are integers of 64 bits. -/
def NoNegativeZero (a b : Double) : Prop :=
  a.IsInt64 → b.IsInt64 → b.multiple ∣ a.multiple → a.negative = false

/-- The quotient is rounded to a number whose integral part `long` has. -/
def QuotientFits (a b : Double) : Prop :=
  (-(2 ^ 63 + 2 ^ 10) : ℚ) ≤ a.multiple / b.multiple ∧ (a.multiple / b.multiple : ℚ) < 2 ^ 63 - 2 ^ 9

namespace Double

theorem fits_integer {n : Nat} (x : Double) (h : n = x.units / scale) : Fits n := by
  obtain ⟨k, hk, hlt⟩ := x.fits_units
  subst h
  rcases Nat.le_total smallest k with hle | hle
  · have hdvd : scale ∣ x.units := (Nat.pow_dvd_pow 2 hle).trans hk
    refine Fits.of_mul (t := smallest) ⟨k, ?_, ?_⟩ <;> rw [← scale, Nat.div_mul_cancel hdvd]
    · exact hk
    · exact hlt
  · refine ⟨0, one_dvd _, (Nat.div_lt_iff_lt_mul scale_pos).mpr (lt_of_lt_of_le hlt ?_)⟩
    rw [scale, ← Nat.pow_add]
    exact Nat.pow_le_pow_right (by decide) (by omega)

theorem natAbs_multiple (x : Double) : x.multiple.natAbs = x.units := by
  unfold multiple withSign
  split <;> omega

/-- A number that is not zero is what its multiple says. -/
theorem eq_of_multiple {x y : Double} (hx : x.IsFinite) (hy : y.IsFinite) (h : x.multiple = y.multiple)
    (h0 : x.multiple ≠ 0) : x = y := by
  have hunits : x.units = y.units := by rw [← natAbs_multiple, h, natAbs_multiple]
  have hneg : x.negative = y.negative := by
    unfold multiple withSign at h h0
    cases hxn : x.negative <;> cases hyn : y.negative <;> rw [hxn] at h h0 <;> rw [hyn] at h
    · simp only [Bool.false_eq_true, ↓reduceIte] at h h0
      omega
    · simp only [Bool.false_eq_true, ↓reduceIte] at h h0
      omega
  exact ext_units hx hy hneg hunits

theorem multiple_eq_zero {x : Double} : x.multiple = 0 ↔ x.isZero = true := by
  rw [isZero_iff, ← natAbs_multiple, Int.natAbs_eq_zero]

end Double

theorem multiple_int64Max : int64Max.multiple = 2 ^ 63 * Double.scale := by
  have h : Double.ofInt64 (2 ^ 63) = int64Max := by decide
  rw [← h]
  exact Double.multiple_ofInt64 ⟨63, by decide, by decide⟩ (by decide)

theorem multiple_int64Min : int64Min.multiple = -2 ^ 63 * Double.scale := by
  have h : Double.ofInt64 (-2 ^ 63) = int64Min := by decide
  rw [← h]
  exact Double.multiple_ofInt64 ⟨63, by decide, by decide⟩ (by decide)

theorem int64Max_finite : int64Max.IsFinite := by decide
theorem int64Min_finite : int64Min.IsFinite := by decide

/-- The integer in front of the point of a number that `to_int64_local` converts. -/
theorem tdiv_bounds {m t : Int} {n : Nat} (hn : 0 < n) (ht : t = m.tdiv n) (hlow : -2 ^ 63 * (n : Int) ≤ m)
    (hhigh : m ≤ 2 ^ 63 * (n : Int)) :
    -2 ^ 63 ≤ t ∧ t ≤ 2 ^ 63 ∧ (t = 2 ^ 63 ↔ m = 2 ^ 63 * (n : Int)) := by
  have hdiv := Int.tmod_add_tdiv_mul m n
  rw [← ht] at hdiv
  have hn' : (0 : Int) < n := by omega
  have hlt : -(n : Int) < m.tmod n ∧ m.tmod n < n := by
    have habs := Int.natAbs_tmod m n
    have hmod := Nat.mod_lt m.natAbs hn
    rw [Int.natAbs_natCast] at habs
    omega
  have hle {c : Int} (h : c ≤ t) : c * n ≤ t * n := Int.mul_le_mul_of_nonneg_right h (by omega)
  have hge {c : Int} (h : t ≤ c) : t * n ≤ c * n := Int.mul_le_mul_of_nonneg_right h (by omega)
  refine ⟨?_, ?_, fun h => ?_, fun h => ?_⟩
  · by_contra h
    have := hge (c := -2 ^ 63 - 1) (by omega)
    omega
  · by_contra h
    have := hle (c := 2 ^ 63 + 1) (by omega)
    omega
  · have hpos : 0 ≤ m.tmod n := Int.tmod_nonneg _ (by
      rw [h] at hdiv
      omega)
    rw [h] at hdiv
    omega
  · rw [ht, h]
    exact Int.mul_tdiv_cancel _ (by omega)

theorem log2_lt_of_int64 {i : Int} (hlow : -2 ^ 63 ≤ i) (hhigh : i ≤ 2 ^ 63) : i.natAbs.log2 < 1024 := by
  rcases Nat.eq_zero_or_pos i.natAbs with h0 | hpos
  · rw [h0]
    decide
  · have hlt : i.natAbs < 2 ^ 64 := by omega
    have := (Nat.log2_lt (by omega)).mpr hlt
    omega

theorem isInt64_iff {x : Double} {i : Int} (h : x.multiple = i * Double.scale) :
    x.IsInt64 ↔ -2 ^ 63 ≤ i ∧ i < 2 ^ 63 := by
  constructor
  · rintro ⟨j, hlow, hhigh, hj⟩
    have hij : j = i := Int.eq_of_mul_eq_mul_right (Int.natCast_pos.mpr Double.scale_pos).ne' (hj.symm.trans h)
    omega
  · intro hi
    exact ⟨i, hi.1, hi.2, h⟩

/-- What `to_int64_local` makes of a finite number. -/
theorem toInt64Local_spec {x : Double} (hf : x.IsFinite) :
    (x = int64Max ∧ toInt64Local x = none) ∨
    (∃ i : Int, -2 ^ 63 ≤ i ∧ i < 2 ^ 63 ∧ x.multiple = i * Double.scale ∧ toInt64Local x = some (some i)) ∨
    (x ≠ int64Max ∧ ¬ x.IsInt64 ∧ toInt64Local x = some none) := by
  have hmin := Double.lt_iff_multiple hf int64Min_finite
  have hmax := Double.lt_iff_multiple int64Max_finite hf
  rw [multiple_int64Min] at hmin
  rw [multiple_int64Max] at hmax
  have hscale : (0 : Int) < Double.scale := Int.natCast_pos.mpr Double.scale_pos
  by_cases hrange : x.lt int64Min = true ∨ int64Max.lt x = true
  · refine Or.inr (Or.inr ⟨?_, ?_, if_pos (by simpa using hrange)⟩)
    · rintro rfl
      rw [hmin, hmax, multiple_int64Max] at hrange
      omega
    · rintro ⟨i, hlow, hhigh, hi⟩
      have h₁ : -2 ^ 63 * (Double.scale : Int) ≤ i * Double.scale :=
        Int.mul_le_mul_of_nonneg_right hlow (by omega)
      have h₂ : i * (Double.scale : Int) ≤ 2 ^ 63 * Double.scale :=
        Int.mul_le_mul_of_nonneg_right (by omega) (by omega)
      rw [hmin, hmax, hi] at hrange
      omega
  · have hcast : toInt64Local x =
        (castInt64 x).map fun i => if Double.eq (Double.ofInt64 i) x then some i else none :=
      if_neg (by simpa using hrange)
    rw [hmin, hmax] at hrange
    obtain ⟨hlow, hhigh, hequal⟩ := tdiv_bounds Double.scale_pos (Double.truncate_eq x) (by omega) (by omega)
    rcases eq_or_ne x.truncate (2 ^ 63) with ht | ht
    · refine Or.inl ⟨?_, ?_⟩
      · have hm := hequal.mp ht
        exact Double.eq_of_multiple hf int64Max_finite (hm.trans multiple_int64Max.symm) (by omega)
      · rw [hcast, castInt64, if_neg (by omega)]
        rfl
    · have hsome : castInt64 x = some x.truncate := if_pos ⟨hf, hlow, by omega⟩
      have hfits : Double.Fits x.truncate.natAbs := by
        refine Double.fits_integer x ?_
        rw [Double.truncate_eq, Int.natAbs_tdiv, Double.natAbs_multiple, Int.natAbs_natCast]
        rfl
      have hlog := log2_lt_of_int64 hlow hhigh
      have heq := Double.eq_iff_multiple (Double.ofInt64_spec hfits hlog).1 hf
      rw [Double.multiple_ofInt64 hfits hlog] at heq
      rw [hcast, hsome, Option.map_some]
      by_cases hint : x.truncate * Double.scale = x.multiple
      · refine Or.inr (Or.inl ⟨x.truncate, hlow, by omega, hint.symm, ?_⟩)
        rw [if_pos (heq.mpr hint)]
      · refine Or.inr (Or.inr ⟨?_, ?_, ?_⟩)
        · rintro rfl
          exact ht (hequal.mpr multiple_int64Max)
        · rintro ⟨i, -, -, hi⟩
          refine hint ?_
          rw [Double.truncate_eq, hi, Int.mul_tdiv_cancel _ hscale.ne']
        · rw [if_neg (by rw [heq]; exact hint)]

theorem fmod_isRemainder {a b : Double} (ha : a.IsFinite) (hb : b.IsFinite) (h0 : b.isZero = false) :
    IsRemainder (Double.fmod a b) a b := by
  obtain ⟨hfin, hneg, hunits⟩ := Double.fmod_spec ha hb h0
  refine ⟨hfin, ?_⟩
  rw [← Int.tmod_def, Double.tmod_withSign, Double.multiple, Double.withSign, hneg, hunits, Double.withSign]

/-- The remainder of two integers of 64 bits is that of the numbers. -/
theorem tmod_multiple {a b : Double} {ia ib : Int} (ha : a.multiple = ia * Double.scale)
    (hb : b.multiple = ib * Double.scale) : a.multiple.tmod b.multiple = ia.tmod ib * Double.scale := by
  rw [ha, hb, Int.mul_comm ia, Int.mul_comm ib, Int.mul_tmod_mul_of_pos _ _ (Int.natCast_pos.mpr Double.scale_pos),
    Int.mul_comm]

theorem natAbs_of_multiple {x : Double} {i : Int} (h : x.multiple = i * Double.scale) :
    x.units = i.natAbs * Double.scale := by
  rw [← Double.natAbs_multiple, h, Int.natAbs_mul, Int.natAbs_natCast]

theorem fits_of_multiple {x : Double} {i : Int} (h : x.multiple = i * Double.scale) : Double.Fits i.natAbs := by
  refine Double.fits_integer x ?_
  rw [natAbs_of_multiple h, Nat.mul_div_cancel _ Double.scale_pos]

/-- The remainder of two integers as a number. -/
theorem ofInt64_tmod {a b : Double} {ia ib : Int} (hlow : -2 ^ 63 ≤ ia) (hhigh : ia ≤ 2 ^ 63) (hib : ib ≠ 0)
    (ha : a.multiple = ia * Double.scale) (hb : b.multiple = ib * Double.scale) :
    IsRemainder (Double.ofInt64 (ia.tmod ib)) a b ∧
      (Double.ofInt64 (ia.tmod ib)).negative = decide (ia.tmod ib < 0) := by
  have hfits : Double.Fits (ia.tmod ib).natAbs := by
    rw [Int.natAbs_tmod]
    exact (fits_of_multiple ha).mod (fits_of_multiple hb) (Int.natAbs_pos.mpr hib)
  have hle : (ia.tmod ib).natAbs ≤ ia.natAbs := by
    rw [Int.natAbs_tmod]
    exact Nat.mod_le _ _
  have hlog : (ia.tmod ib).natAbs.log2 < 1024 := log2_lt_of_int64 (by omega) (by omega)
  obtain ⟨hfin, hneg, -⟩ := Double.ofInt64_spec hfits hlog
  refine ⟨⟨hfin, ?_⟩, hneg⟩
  rw [Double.multiple_ofInt64 hfits hlog, ← Int.tmod_def, tmod_multiple ha hb]

theorem scale_ne_zero : (Double.scale : Int) ≠ 0 := (Int.natCast_pos.mpr Double.scale_pos).ne'

/-- The ways through `modNumbers` on finite numbers. -/
theorem modNumbers_cases {a b : Double} (ha : a.IsFinite) (hb : b.IsFinite) (h0 : b.isZero = false) :
    (¬ RemaindersClear a b ∧ modNumbers a b = none) ∨
    (RemaindersClear a b ∧ ¬ (a.IsInt64 ∧ b.IsInt64) ∧ modNumbers a b = some (Double.fmod a b)) ∨
    (RemaindersClear a b ∧ ∃ ia ib : Int, (-2 ^ 63 ≤ ia ∧ ia < 2 ^ 63) ∧ ib ≠ 0 ∧
      a.multiple = ia * Double.scale ∧ b.multiple = ib * Double.scale ∧ a.IsInt64 ∧ b.IsInt64 ∧
      modNumbers a b = some (Double.ofInt64 (ia.tmod ib))) := by
  have hminInt : int64Min.IsInt64 := ⟨-2 ^ 63, by decide, by decide, multiple_int64Min⟩
  unfold modNumbers
  rcases toInt64Local_spec ha with ⟨hmax, hnone⟩ | ⟨ia, halow, hahigh, hia, hsome⟩ | ⟨hamax, haint, hnoInt⟩
  · rw [hnone]
    exact Or.inl ⟨fun h => h.left hmax, rfl⟩
  · have hamax : a ≠ int64Max := by
      rintro rfl
      have := (isInt64_iff multiple_int64Max).mp ⟨ia, halow, hahigh, hia⟩
      omega
    rw [hsome]
    rcases toInt64Local_spec hb with ⟨hmax, hnone⟩ | ⟨ib, hblow, hbhigh, hib, hbsome⟩ | ⟨hbmax, hbint, hbnoInt⟩
    · rw [hnone]
      exact Or.inl ⟨fun h => h.right ⟨ia, halow, hahigh, hia⟩ hmax, rfl⟩
    · have hbmax : b ≠ int64Max := by
        rintro rfl
        have := (isInt64_iff multiple_int64Max).mp ⟨ib, hblow, hbhigh, hib⟩
        omega
      have hib0 : ib ≠ 0 := by
        rintro rfl
        rw [Int.zero_mul] at hib
        rw [Double.multiple_eq_zero.mp hib] at h0
        exact Bool.noConfusion h0
      have hminus : b.multiple = -Double.scale ↔ ib = -1 := by
        rw [hib, ← Int.neg_one_mul]
        exact ⟨Int.eq_of_mul_eq_mul_right scale_ne_zero, congrArg (· * _)⟩
      have hmin : a = int64Min ↔ ia = -2 ^ 63 := by
        constructor
        · rintro rfl
          exact Int.eq_of_mul_eq_mul_right scale_ne_zero (hia.symm.trans multiple_int64Min)
        · rintro rfl
          refine Double.eq_of_multiple ha int64Min_finite (hia.trans multiple_int64Min.symm) ?_
          rw [hia]
          exact Int.mul_ne_zero (by decide) scale_ne_zero
      rw [hbsome]
      dsimp only
      rw [if_neg hib0, remainderInt64]
      by_cases hover : ia = -2 ^ 63 ∧ ib = -1
      · rw [if_pos hover]
        exact Or.inl ⟨fun h => h.overflow (hmin.mpr hover.1) (hminus.mpr hover.2), rfl⟩
      · rw [if_neg hover]
        refine Or.inr (Or.inr ⟨⟨hamax, fun _ => hbmax, ?_⟩, ia, ib, ⟨halow, hahigh⟩, hib0, hia, hib,
          ⟨ia, halow, hahigh, hia⟩, ⟨ib, hblow, hbhigh, hib⟩, rfl⟩)
        intro hm hone
        exact hover ⟨hmin.mp hm, hminus.mp hone⟩
    · rw [hbnoInt]
      refine Or.inr (Or.inl ⟨⟨hamax, fun _ => hbmax, ?_⟩, fun h => hbint h.2, rfl⟩)
      intro _ hone
      exact hbint ⟨-1, by decide, by decide, by rw [hone, Int.neg_one_mul]⟩
  · rw [hnoInt]
    refine Or.inr (Or.inl ⟨⟨hamax, fun h => absurd h haint, ?_⟩, fun h => haint h.1, rfl⟩)
    rintro rfl
    exact absurd hminInt haint

/-- A remainder of integers has the sign that `fmod` gives it unless it is a negative zero. -/
theorem modNumbers_eq_fmod_iff {a b : Double} (ha : a.IsFinite) (hb : b.IsFinite) (h0 : b.isZero = false)
    (h : RemaindersClear a b) : modNumbers a b = some (Double.fmod a b) ↔ NoNegativeZero a b := by
  rcases modNumbers_cases ha hb h0 with ⟨hbad, -⟩ | ⟨-, hint, he⟩ | ⟨-, ia, ib, hrange, hib0, hia, hib, hai, hbi, he⟩
  · exact absurd h hbad
  · rw [he]
    exact ⟨fun _ hai hbi => absurd ⟨hai, hbi⟩ hint, fun _ => rfl⟩
  · obtain ⟨⟨hfin, hval⟩, hneg⟩ := ofInt64_tmod hrange.1 (by omega) hib0 hia hib
    obtain ⟨hffin, hfneg, hfunits⟩ := Double.fmod_spec ha hb h0
    have hunits : (Double.ofInt64 (ia.tmod ib)).units = (Double.fmod a b).units := by
      rw [← Double.natAbs_multiple, hval, ← Int.tmod_def, Double.tmod_withSign, hfunits]
      unfold Double.withSign
      split <;> omega
    have hdvd : b.multiple ∣ a.multiple ↔ ia.tmod ib = 0 := by
      rw [Int.dvd_iff_tmod_eq_zero, tmod_multiple hia hib]
      exact ⟨fun hz => (Int.mul_eq_zero.mp hz).resolve_right scale_ne_zero, fun hz => by rw [hz, Int.zero_mul]⟩
    have hscale : (0 : Int) < Double.scale := Int.natCast_pos.mpr Double.scale_pos
    rw [he, Option.some.injEq]
    constructor
    · intro heq _ _ hd
      rw [← hfneg, ← heq, hneg, hdvd.mp hd]
      rfl
    · intro hno
      refine Double.ext_units hfin hffin ?_ hunits
      rw [hneg, hfneg]
      cases hn : a.negative with
      | false =>
        have hia0 : 0 ≤ ia * (Double.scale : Int) := by
          rw [← hia, Double.multiple, Double.withSign, hn]
          exact Int.natCast_nonneg _
        have hpos := Int.tmod_nonneg ib (Int.nonneg_of_mul_nonneg_left hia0 hscale)
        exact decide_eq_false (by omega)
      | true =>
        have hia0 : 0 ≤ -ia * (Double.scale : Int) := by
          rw [Int.neg_mul, ← hia, Double.multiple, Double.withSign, if_pos hn, Int.neg_neg]
          exact Int.natCast_nonneg _
        have hpos := Int.tmod_nonneg ib (Int.nonneg_of_mul_nonneg_left hia0 hscale)
        rw [Int.neg_tmod] at hpos
        have hne : ia.tmod ib ≠ 0 := by
          intro hz
          rw [hno hai hbi (hdvd.mpr hz)] at hn
          exact Bool.noConfusion hn
        exact decide_eq_true (by omega)

/-- What an instruction computes from its operands; none where it is undefined. -/
def ModInstr.compute (a b : Double) : ModInstr → Option Double
  | .fMod | .folded _ _ => some (Double.fmod a b)
  | _ => modNumbers a b

theorem ModInstr.exec_eq {method : Value → Value} {arith : OpCode → Double → Double → Double} {s : Operands}
    {a b : Double} {i : ModInstr} (h : i.Takes s a b) :
    i.exec method arith s = .ofNumber (i.compute a b) (i.after s) := by
  cases i with
  | modulo =>
    obtain ⟨rest, hs⟩ := h
    simp only [exec, vmHandleOpModulo, hs, ToiLang.modulo, compute]
    congr 1
    funext r
    simp only [after, hs, List.drop_succ_cons, List.drop_zero]
  | modConst constant =>
    obtain ⟨⟨rest, hs⟩, hc⟩ := h
    simp only [exec, vmHandleOpModConst, hs, hc, ToiLang.modulo, compute]
    congr 1
    funext r
    simp only [after, hs, List.drop_succ_cons, List.drop_zero]
  | iMod =>
    obtain ⟨rest, hs⟩ := h
    simp only [exec, vmHandleOpIMod, hs, compute]
    congr 1
    funext r
    simp only [after, hs, List.drop_succ_cons, List.drop_zero]
  | fMod =>
    obtain ⟨rest, hs⟩ := h
    simp only [exec, vmHandleOpFMod, hs, compute, Computed.ofNumber, after, List.drop_succ_cons, List.drop_zero]
  | modSetLocal slot =>
    obtain ⟨rest, hs⟩ := h
    simp only [exec, vmHandleOpModSetLocal, hs, ToiLang.modulo, compute]
    congr 1
    funext r
    simp only [after, hs, List.drop_succ_cons, List.drop_zero]
  | modLocalConst slot constant =>
    obtain ⟨hs, hc⟩ := h
    simp only [exec, vmHandleOpModLocalConst, hs, hc, ToiLang.modulo, compute, after]
  | folded c₁ c₂ =>
    obtain ⟨h₁, h₂⟩ := h
    simp only [exec, h₁, h₂, foldBinaryNumbers, compute, Computed.ofNumber, after]

theorem ModInstr.yields_of_compute {method : Value → Value} {arith : OpCode → Double → Double → Double}
    {a b r : Double} {i : ModInstr} (h : i.compute a b = some r) : i.Yields method arith a b r := by
  intro s hs
  rw [exec_eq hs, h]
  rfl

/-- What an instruction leaves is what it computes, where there are operands for it. -/
theorem ModInstr.compute_of_yields {method : Value → Value} {arith : OpCode → Double → Double → Double}
    {a b r : Double} {i : ModInstr} {s : Operands} (hs : i.Takes s a b) (h : i.Yields method arith a b r) :
    ∃ r', i.compute a b = some r' ∧ i.after s r' = i.after s r := by
  have he := h s hs
  rw [exec_eq hs] at he
  cases hc : i.compute a b with
  | none =>
    rw [hc] at he
    cases he
  | some r' =>
    rw [hc] at he
    exact ⟨r', rfl, Computed.done.inj he⟩

/-- The operands on the stack. -/
def onStack (a b : Double) : Operands := ⟨[.number b, .number a], fun _ => .nil, []⟩

theorem onStack_takes {a b : Double} {i : ModInstr} (h : i = .modulo ∨ i = .fMod) : i.Takes (onStack a b) a b := by
  rcases h with rfl | rfl
  · exact ⟨[], rfl⟩
  · exact ⟨[], rfl⟩

theorem compute_onStack {method : Value → Value} {arith : OpCode → Double → Double → Double} {a b r : Double}
    {i : ModInstr} (hi : i = .modulo ∨ i = .fMod) (h : i.Yields method arith a b r) :
    i.compute a b = some r := by
  obtain ⟨r', hc, heq⟩ := ModInstr.compute_of_yields (onStack_takes hi) h
  have hr : r' = r := by
    rcases hi with rfl | rfl
    · exact Value.number.inj (List.cons.inj (congrArg Operands.stack heq)).1
    · exact Value.number.inj (List.cons.inj (congrArg Operands.stack heq)).1
  rw [hc, hr]

theorem remaindersRight_iff {method : Value → Value} {arith : OpCode → Double → Double → Double} {a b : Double}
    (ha : a.IsFinite) (hb : b.IsFinite) (h0 : b.isZero = false) :
    RemaindersRight method arith a b ↔ RemaindersClear a b := by
  constructor
  · intro h
    obtain ⟨r, hy, -⟩ := h .modulo
    have hc : modNumbers a b = some r := compute_onStack (Or.inl rfl) hy
    rcases modNumbers_cases ha hb h0 with ⟨-, hnone⟩ | ⟨hclear, -⟩ | ⟨hclear, -⟩
    · rw [hnone] at hc
      cases hc
    · exact hclear
    · exact hclear
  · intro hclear i
    have hmod : ∃ r, modNumbers a b = some r ∧ IsRemainder r a b := by
      rcases modNumbers_cases ha hb h0 with ⟨hbad, -⟩ | ⟨-, -, he⟩ | ⟨-, ia, ib, hrange, hib0, hia, hib, -, -, he⟩
      · exact absurd hclear hbad
      · exact ⟨_, he, fmod_isRemainder ha hb h0⟩
      · exact ⟨_, he, (ofInt64_tmod hrange.1 (by omega) hib0 hia hib).1⟩
    have hcompute : ∃ r, i.compute a b = some r ∧ IsRemainder r a b := by
      cases i with
      | fMod | folded => exact ⟨_, rfl, fmod_isRemainder ha hb h0⟩
      | modulo | modConst | iMod | modSetLocal | modLocalConst => exact hmod
    obtain ⟨r, hc, hr⟩ := hcompute
    exact ⟨r, ModInstr.yields_of_compute hc, hr⟩

theorem sameRemainder_iff {method : Value → Value} {arith : OpCode → Double → Double → Double} {a b : Double}
    (ha : a.IsFinite) (hb : b.IsFinite) (h0 : b.isZero = false) (hclear : RemaindersClear a b) :
    SameRemainder method arith a b ↔ NoNegativeZero a b := by
  rw [← modNumbers_eq_fmod_iff ha hb h0 hclear]
  constructor
  · rintro ⟨r, hr⟩
    have hm : modNumbers a b = some r := compute_onStack (Or.inl rfl) (hr .modulo)
    have hf : some (Double.fmod a b) = some r := compute_onStack (Or.inr rfl) (hr .fMod)
    rw [hm, hf]
  · intro h
    refine ⟨Double.fmod a b, fun i => ModInstr.yields_of_compute ?_⟩
    cases i with
    | fMod | folded => rfl
    | modulo | modConst | iMod | modSetLocal | modLocalConst => exact h

theorem divide_finite {a b : Double} (ha : a.IsFinite) (hb : b.IsFinite) (h0 : b.isZero = false) :
    a.divide b = if a.negative = b.negative then Double.nearest a.units b.units
      else (Double.nearest a.units b.units).negate := by
  have hae : (a.exponent = 2047) = False := eq_false ha
  have hbe : (b.exponent = 2047) = False := eq_false hb
  unfold Double.divide
  rw [Double.isNaN_of_finite ha, Double.isNaN_of_finite hb, h0]
  simp only [hae, hbe, Bool.or_false, Bool.and_false, decide_false, Bool.false_eq_true, ↓reduceIte]

theorem truncate_natural {x : Double} (hx : x.negative = false) : x.truncate = (x.units / Double.scale : Nat) := by
  rw [Double.truncate_eq, Double.multiple, Double.withSign, if_neg (by simp [hx]), Int.ofNat_tdiv]

theorem castInt64_ne_none {x : Double} :
    castInt64 x ≠ none ↔ x.IsFinite ∧ -2 ^ 63 ≤ x.truncate ∧ x.truncate < 2 ^ 63 := by
  unfold castInt64
  split
  next h => exact ⟨fun _ => h, fun _ => Option.some_ne_none _⟩
  next h => exact ⟨fun hn => absurd rfl hn, fun hc => absurd hc h⟩

theorem finite_of_lt {x : Double} (h : x.toNat < 2047 * 2 ^ 52) : x.IsFinite := by
  unfold Double.IsFinite Double.exponent
  omega

theorem units_int64Max : int64Max.units = 2 ^ 63 * Double.scale := by
  rw [← Double.natAbs_multiple, multiple_int64Max, Int.natAbs_mul, Int.natAbs_natCast]
  rfl

/-- A number without sign is converted to an integer just when it is below 2 to the power of 63. -/
theorem castInt64_positive {x : Double} (hx : x.negative = false) :
    castInt64 x ≠ none ↔ x.toNat < 1086 * 2 ^ 52 := by
  have hlt := Double.units_lt_iff hx (y := int64Max) (by decide)
  rw [units_int64Max, show int64Max.toNat = 1086 * 2 ^ 52 by decide,
    ← Nat.div_lt_iff_lt_mul Double.scale_pos] at hlt
  rw [castInt64_ne_none, truncate_natural hx, ← hlt]
  constructor
  · rintro ⟨-, -, h⟩
    exact_mod_cast h
  · intro h
    have hbits := hlt.mp h
    generalize x.units / Double.scale = t at h
    exact ⟨finite_of_lt (by omega), by omega, by omega⟩

/-- The number that follows on 2 to the power of 63. -/
def behindInt64Max : Double := 0x43E0000000000001

theorem units_behindInt64Max : behindInt64Max.units = (2 ^ 63 + 2 ^ 11) * Double.scale := by
  have h : Double.ofInt64 (2 ^ 63 + 2 ^ 11) = behindInt64Max := by decide
  have hfits : Double.Fits (2 ^ 63 + 2 ^ 11 : Int).natAbs := ⟨11, by decide, by decide⟩
  rw [← h]
  exact (Double.ofInt64_spec hfits (by decide)).2.2

/-- Its negation is just when it is not above that. -/
theorem castInt64_negate {x : Double} (hx : x.negative = false) :
    castInt64 x.negate ≠ none ↔ x.toNat ≤ 1086 * 2 ^ 52 := by
  obtain ⟨hneg, hexp, hunits⟩ := Double.negate_spec hx
  have htrunc : x.negate.truncate = -((x.units / Double.scale : Nat) : Int) := by
    rw [Double.truncate_eq, Double.multiple, Double.withSign, hunits, if_pos hneg, Int.neg_tdiv, Int.ofNat_tdiv]
  rw [castInt64_ne_none, htrunc]
  constructor
  · rintro ⟨-, hlow, -⟩
    by_contra hgt
    have hle := Double.units_le_of_toNat_le (x := behindInt64Max) (by decide) hx (by
      rw [show behindInt64Max.toNat = 1086 * 2 ^ 52 + 1 by decide]
      omega)
    rw [units_behindInt64Max] at hle
    have hdiv := (Nat.le_div_iff_mul_le Double.scale_pos).mpr hle
    omega
  · intro hle
    have hunits := Double.units_le_of_toNat_le hx (y := int64Max) (by decide) (by
      rw [show int64Max.toNat = 1086 * 2 ^ 52 by decide]
      exact hle)
    rw [units_int64Max] at hunits
    have hdiv : x.units / Double.scale ≤ 2 ^ 63 := Nat.div_le_of_le_mul (by rwa [Nat.mul_comm])
    have hfin := finite_of_lt (x := x) (by omega)
    generalize x.units / Double.scale = t at hdiv
    refine ⟨?_, by omega, by omega⟩
    unfold Double.IsFinite at hfin ⊢
    rwa [hexp]

theorem nearest_negative (p q : Nat) : (Double.nearest p q).negative = false := by
  have h := Double.toNat_nearest p q
  exact decide_eq_false (by omega)

theorem nearest_lt_int64 {p q : Nat} (hq : 0 < q) :
    (Double.nearest p q).toNat < 1086 * 2 ^ 52 ↔ p < (2 ^ 63 - 2 ^ 9) * q := by
  have h := Double.nearest_lt_iff (p := p) (e := 1084) hq (by decide)
  rw [Double.pow_add_scale (show 1084 = 10 + 1074 by decide)] at h
  rw [show (1084 + 2) = 1086 by decide] at h
  rw [h]
  have hcancel := Nat.mul_lt_mul_right (b := 2 * p) (c := (2 ^ 54 - 1) * (q * 2 ^ 10)) Double.scale_pos
  rw [Nat.mul_assoc, Nat.mul_assoc, Nat.mul_assoc q] at hcancel
  rw [hcancel]
  omega

theorem nearest_le_int64 {p q : Nat} (hq : 0 < q) :
    (Double.nearest p q).toNat ≤ 1086 * 2 ^ 52 ↔ p ≤ (2 ^ 63 + 2 ^ 10) * q := by
  have h := Double.nearest_le_iff (p := p) (e := 1085) hq (by decide)
  rw [Double.pow_add_scale (show 1085 = 11 + 1074 by decide)] at h
  rw [show (1085 + 1) = 1086 by decide] at h
  rw [h]
  have hcancel := Nat.mul_le_mul_right_iff (n := 2 * p) (m := (2 ^ 53 + 1) * (q * 2 ^ 11)) Double.scale_pos
  rw [Nat.mul_assoc, Nat.mul_assoc, Nat.mul_assoc q] at hcancel
  rw [hcancel]
  omega

theorem divisionDefined_iff {arith : OpCode → Double → Double → Double} {a b : Double}
    (ha : a.IsFinite) (hb : b.IsFinite) (h0 : b.isZero = false) :
    DivisionDefined arith a b ↔ QuotientFits a b := by
  have hq : 0 < b.units := by
    refine Nat.pos_of_ne_zero fun h => ?_
    rw [(Double.isZero_iff b).mpr h] at h0
    exact Bool.noConfusion h0
  have hq' : (0 : ℚ) < b.units := by exact_mod_cast hq
  have hfold : DivisionDefined arith a b ↔ castInt64 (a.divide b) ≠ none := by
    unfold DivisionDefined foldBinaryNumbers
    rw [ne_eq, ne_eq, Option.map_eq_none_iff]
  have hratio : (a.multiple / b.multiple : ℚ) =
      if a.negative = b.negative then (a.units / b.units : ℚ) else -(a.units / b.units : ℚ) := by
    unfold Double.multiple Double.withSign
    cases a.negative <;> cases b.negative <;> push_cast <;> simp [neg_div, div_neg]
  have hpos : (0 : ℚ) ≤ a.units / b.units := by positivity
  rw [hfold, divide_finite ha hb h0, QuotientFits, hratio]
  split
  · rw [castInt64_positive (nearest_negative _ _), nearest_lt_int64 hq]
    constructor
    · intro h
      have h' : (a.units : ℚ) < (2 ^ 63 - 2 ^ 9 : Nat) * b.units := by exact_mod_cast h
      refine ⟨by linarith, (div_lt_iff₀ hq').mpr ?_⟩
      norm_num at h' ⊢
      exact h'
    · rintro ⟨-, h⟩
      have h' := (div_lt_iff₀ hq').mp h
      norm_num at h' ⊢
      exact_mod_cast h'
  · rw [castInt64_negate (nearest_negative _ _), nearest_le_int64 hq]
    constructor
    · intro h
      have h' : (a.units : ℚ) ≤ (2 ^ 63 + 2 ^ 10 : Nat) * b.units := by exact_mod_cast h
      refine ⟨neg_le_neg ((div_le_iff₀ hq').mpr ?_), by linarith⟩
      norm_num at h' ⊢
      exact h'
    · rintro ⟨h, -⟩
      have h' := (div_le_iff₀ hq').mp (neg_le_neg_iff.mp h)
      norm_num at h' ⊢
      exact_mod_cast h'

/-- When the instructions and the optimiser compute the remainder and the integer quotient of two numbers right:
for the numbers as such, and with the sign of a zero. -/
theorem modulo_iff (method : Value → Value) (arith : OpCode → Double → Double → Double) {a b : Double}
    (ha : a.IsFinite) (hb : b.IsFinite) (h0 : b.isZero = false) :
    (RemaindersRight method arith a b ∧ DivisionDefined arith a b ↔ RemaindersClear a b ∧ QuotientFits a b) ∧
    (RemaindersRight method arith a b ∧ SameRemainder method arith a b ∧ DivisionDefined arith a b ↔
      RemaindersClear a b ∧ NoNegativeZero a b ∧ QuotientFits a b) := by
  have hright : RemaindersRight method arith a b ↔ RemaindersClear a b := remaindersRight_iff ha hb h0
  have hdivision : DivisionDefined arith a b ↔ QuotientFits a b := divisionDefined_iff ha hb h0
  refine ⟨and_congr hright hdivision, ?_⟩
  constructor
  · rintro ⟨hr, hs, hd⟩
    have hclear := hright.mp hr
    exact ⟨hclear, (sameRemainder_iff ha hb h0 hclear).mp hs, hdivision.mp hd⟩
  · rintro ⟨hclear, hno, hq⟩
    exact ⟨hright.mpr hclear, (sameRemainder_iff ha hb h0 hclear).mpr hno, hdivision.mpr hq⟩

theorem multiple_small {x : Double} {n : Nat} (h : Double.ofInt64 n = x) (hn : n < 2 ^ 53) :
    x.multiple = n * Double.scale := by
  rw [← h]
  refine Double.multiple_ofInt64 ⟨0, one_dvd _, by simpa using hn⟩ ?_
  exact log2_lt_of_int64 (by omega) (by omega)

theorem quotientFits_seven : QuotientFits 0x401C000000000000 0x4000000000000000 := by
  have h7 : Double.multiple 0x401C000000000000 = (7 : Nat) * Double.scale := multiple_small (by decide) (by decide)
  have h2 : Double.multiple 0x4000000000000000 = (2 : Nat) * Double.scale := multiple_small (by decide) (by decide)
  have hscale : (Double.scale : ℚ) ≠ 0 := by exact_mod_cast Double.scale_pos.ne'
  rw [QuotientFits, h7, h2]
  push_cast
  rw [mul_div_mul_right _ _ hscale]
  norm_num

/-- `7 % 2` and `7 // 2` -/
theorem modulo_iff_seven :
    RemaindersRight (fun _ => .nil) (fun _ x _ => x) 0x401C000000000000 0x4000000000000000 ∧
      SameRemainder (fun _ => .nil) (fun _ x _ => x) 0x401C000000000000 0x4000000000000000 ∧
      DivisionDefined (fun _ x _ => x) 0x401C000000000000 0x4000000000000000 := by
  refine (modulo_iff (fun _ => .nil) (fun _ x _ => x) (by decide) (by decide) (by decide)).2.mpr
    ⟨⟨by decide, fun _ => by decide, fun h => ?_⟩, fun _ _ _ => by decide, quotientFits_seven⟩
  exact absurd h (by decide)

/-- `fmod(-4, 2)` is -0. -/
theorem fmod_negative_zero : Double.fmod 0xC010000000000000 0x4000000000000000 = 0x8000000000000000 := by
  have h4 : Double.multiple 0xC010000000000000 = -4 * Double.scale := by
    have h : Double.ofInt64 (-4) = 0xC010000000000000 := by decide
    rw [← h]
    exact Double.multiple_ofInt64 ⟨2, by decide, by decide⟩ (by decide)
  have h2 : Double.multiple 0x4000000000000000 = (2 : Nat) * Double.scale := multiple_small (by decide) (by decide)
  obtain ⟨hfin, hneg, hunits⟩ :=
    Double.fmod_spec (x := 0xC010000000000000) (y := 0x4000000000000000) (by decide) (by decide) (by decide)
  refine Double.ext_units hfin (by decide) (hneg.trans (by decide)) ?_
  rw [hunits, natAbs_of_multiple h4, natAbs_of_multiple h2, Nat.mul_mod_mul_right,
    (Double.isZero_iff 0x8000000000000000).mp (by decide)]
  exact Nat.zero_mul _

/-- 2 to the power of 63 is taken for an `int64_t`, and so is the remainder of the smallest one and -1; -4 has the
remainder 0 by 2 in `OP_MODULO` and -0 in `OP_FMOD`. -/
theorem undefined_at_the_end :
    vmHandleOpModulo (fun _ => .nil) (onStack int64Max 0x3FF0000000000000) = .undefined ∧
      vmHandleOpModulo (fun _ => .nil) (onStack int64Min 0xBFF0000000000000) = .undefined ∧
      vmHandleOpModulo (fun _ => .nil) (onStack 0xC010000000000000 0x4000000000000000) =
        .done ((⟨[], fun _ => .nil, []⟩ : Operands).push 0) ∧
      vmHandleOpFMod (onStack 0xC010000000000000 0x4000000000000000) =
        .done ((⟨[], fun _ => .nil, []⟩ : Operands).push 0x8000000000000000) ∧
      ¬ RemaindersRight (fun _ => .nil) (fun _ x _ => x) int64Max 0x3FF0000000000000 := by
  refine ⟨rfl, rfl, rfl, ?_, fun h => ?_⟩
  · rw [← fmod_negative_zero]
    rfl
  obtain ⟨r, hy, -⟩ := h .modulo
  cases hy (onStack int64Max 0x3FF0000000000000) (onStack_takes (Or.inl rfl))

theorem fdiv_eq_tdiv_iff {m n : Int} (hn : 0 < n) : m.fdiv n = m.tdiv n ↔ 0 ≤ m ∨ n ∣ m := by
  rw [Int.fdiv_eq_tdiv]
  split
  next hd => simp [hd]
  next hd =>
    split
    next hm => simp [hm, hn.le]
    next hm =>
      have : ¬ (0 ≤ m ∨ n ∣ m) := by
        rintro (h | h)
        · exact hm h
        · exact hd h
      rw [if_pos hn.le, Int.sign_eq_one_of_pos hn]
      exact iff_of_false (by omega) this

end ToiLang
