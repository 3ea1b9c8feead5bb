import Mathlib.Data.List.Lex
import Mathlib.Data.Sum.Order
import ToiLang.Double

namespace ToiLang

/-- A key or a value of the tree. -/
inductive BTreeAtom
  | number (x : Double)
  | string (s : Bytes)
  deriving DecidableEq, Repr

structure LeafEntry where
  key : BTreeAtom
  value : BTreeAtom
  deriving DecidableEq, Repr

structure InternalEntry where
  key : BTreeAtom
  child : UInt32
  deriving DecidableEq, Repr

def memcmp : Bytes → Bytes → Ordering
  | a :: as, b :: bs => if a < b then .lt else if b < a then .gt else memcmp as bs
  | _, _ => .eq

/-- Numbers come before strings, and a string before the strings that it begins. -/
def atomCompare : BTreeAtom → BTreeAtom → Ordering
  | .number a, .number b => if Double.lt a b then .lt else if Double.lt b a then .gt else .eq
  | .number _, .string _ => .lt
  | .string _, .number _ => .gt
  | .string a, .string b =>
    match memcmp a b with
    | .eq => if a.length < b.length then .lt else if b.length < a.length then .gt else .eq
    | o => o

def atomEncodedSize : BTreeAtom → Nat
  | .number _ => 1 + 8
  | .string s => 1 + 4 + s.length

/-- The place of an atom in the order of the keys. -/
def BTreeAtom.rank : BTreeAtom → Int ⊕ₗ List Nat
  | number x => Sum.inlₗ (Double.order x)
  | string s => Sum.inrₗ (s.map UInt8.toNat)

/-- What `atom_from_value` makes of a value: no NaN, and a string as long as an `int` can say. -/
def BTreeAtom.Valid : BTreeAtom → Prop
  | number x => Double.isNaN x = false
  | string s => s.length < 2 ^ 31

instance (a : BTreeAtom) : Decidable a.Valid :=
  match a with
  | .number x => inferInstanceAs (Decidable (Double.isNaN x = false))
  | .string s => inferInstanceAs (Decidable (s.length < 2 ^ 31))

/-- A comparison says how two places are ordered. -/
def Ordering.Says {κ : Type} [LinearOrder κ] (o : Ordering) (x y : κ) : Prop :=
  match o with
  | .lt => x < y
  | .eq => x = y
  | .gt => y < x

section Says

variable {κ : Type} [LinearOrder κ] {o : Ordering} {x y : κ}

theorem Ordering.Says.lt_iff (h : Ordering.Says o x y) : o = .lt ↔ x < y := by
  cases o with
  | lt => exact ⟨fun _ => h, fun _ => rfl⟩
  | eq => exact ⟨(fun he => nomatch he), fun hlt => absurd h hlt.ne⟩
  | gt => exact ⟨(fun he => nomatch he), fun hlt => absurd h hlt.asymm⟩

theorem Ordering.Says.eq_iff (h : Ordering.Says o x y) : o = .eq ↔ x = y := by
  cases o with
  | lt => exact ⟨(fun he => nomatch he), fun heq => absurd heq (show x < y from h).ne⟩
  | eq => exact ⟨fun _ => h, fun _ => rfl⟩
  | gt => exact ⟨(fun he => nomatch he), fun heq => absurd heq (show y < x from h).ne'⟩

theorem Ordering.Says.gt_iff (h : Ordering.Says o x y) : o = .gt ↔ y < x := by
  cases o with
  | lt => exact ⟨(fun he => nomatch he), fun hlt => absurd h hlt.asymm⟩
  | eq => exact ⟨(fun he => nomatch he), fun hlt => absurd h hlt.ne'⟩
  | gt => exact ⟨fun _ => h, fun _ => rfl⟩

end Says

theorem memcmp_order (a b : Bytes) :
    Ordering.Says (atomCompare (.string a) (.string b)) (a.map UInt8.toNat) (b.map UInt8.toNat) := by
  induction a generalizing b with
  | nil =>
    cases b with
    | nil => rfl
    | cons y b => exact List.nil_lt_cons _ _
  | cons x a ih =>
    cases b with
    | nil => exact List.nil_lt_cons _ _
    | cons y b =>
      by_cases hxy : x < y
      · have hcmp : atomCompare (.string (x :: a)) (.string (y :: b)) = .lt := by
          simp [atomCompare, memcmp, hxy]
        rw [hcmp]
        exact List.cons_lt_cons_iff.mpr (.inl (UInt8.lt_iff_toNat_lt.mp hxy))
      · by_cases hyx : y < x
        · have hcmp : atomCompare (.string (x :: a)) (.string (y :: b)) = .gt := by
            simp [atomCompare, memcmp, hxy, hyx]
          rw [hcmp]
          exact List.cons_lt_cons_iff.mpr (.inl (UInt8.lt_iff_toNat_lt.mp hyx))
        · have hcmp : atomCompare (.string (x :: a)) (.string (y :: b)) =
              atomCompare (.string a) (.string b) := by
            simp [atomCompare, memcmp, hxy, hyx]
          have heq : x.toNat = y.toNat := by
            rw [UInt8.lt_iff_toNat_lt] at hxy hyx
            omega
          have htail := ih b
          rw [hcmp]
          rw [List.map_cons, List.map_cons, heq]
          cases ho : atomCompare (.string a) (.string b) with
          | lt =>
            rw [ho] at htail
            exact List.cons_lt_cons_iff.mpr (.inr ⟨rfl, htail⟩)
          | eq =>
            rw [ho] at htail
            exact congrArg (List.cons _) htail
          | gt =>
            rw [ho] at htail
            exact List.cons_lt_cons_iff.mpr (.inr ⟨rfl, htail⟩)

theorem atomCompare_order {a b : BTreeAtom} (ha : a.Valid) (hb : b.Valid) :
    Ordering.Says (atomCompare a b) a.rank b.rank := by
  cases a with
  | number x =>
    cases b with
    | number y =>
      have hlt {x y : Double} (hx : (BTreeAtom.number x).Valid) (hy : (BTreeAtom.number y).Valid) :
          x.lt y = decide (x.order < y.order) := by
        unfold Double.lt
        rw [show x.isNaN = false from hx, show y.isNaN = false from hy]
        rfl
      simp only [atomCompare, hlt ha hb, hlt hb ha, decide_eq_true_eq]
      rcases lt_trichotomy (Double.order x) (Double.order y) with h | h | h
      · rw [if_pos h]
        exact Sum.Lex.inl_lt_inl_iff.mpr h
      · rw [if_neg (by omega), if_neg (by omega)]
        exact congrArg Sum.inlₗ h
      · rw [if_neg (by omega), if_pos h]
        exact Sum.Lex.inl_lt_inl_iff.mpr h
    | string t => exact Sum.Lex.inl_lt_inr _ _
  | string s =>
    cases b with
    | number y => exact Sum.Lex.inl_lt_inr _ _
    | string t =>
      have h := memcmp_order s t
      cases ho : atomCompare (.string s) (.string t) with
      | lt =>
        rw [ho] at h
        exact Sum.Lex.inr_lt_inr_iff.mpr h
      | eq =>
        rw [ho] at h
        exact congrArg Sum.inrₗ h
      | gt =>
        rw [ho] at h
        exact Sum.Lex.inr_lt_inr_iff.mpr h

theorem atomCompare_lt {a b : BTreeAtom} (ha : a.Valid) (hb : b.Valid) :
    atomCompare a b = .lt ↔ a.rank < b.rank := (atomCompare_order ha hb).lt_iff

theorem atomCompare_eq {a b : BTreeAtom} (ha : a.Valid) (hb : b.Valid) :
    atomCompare a b = .eq ↔ a.rank = b.rank := (atomCompare_order ha hb).eq_iff

theorem atomCompare_gt {a b : BTreeAtom} (ha : a.Valid) (hb : b.Valid) :
    atomCompare a b = .gt ↔ b.rank < a.rank := (atomCompare_order ha hb).gt_iff

end ToiLang
