import Mathlib.Order.Lattice

namespace ToiLang

variable {K V : Type} {ref : V → Option Nat} {F G H : Nat → K → V} {u v w : V}

/-- The values of two stores that unfold to the same finite tree, where `ref` is the address that a
value refers to and the stores are what there is at an address under each key. -/
inductive Alike (ref : V → Option Nat) (F G : Nat → K → V) : V → V → Prop
  | leaf {v : V} (h : ref v = none) : Alike ref F G v v
  | node {v w : V} {a b : Nat} (hv : ref v = some a) (hw : ref w = some b)
      (h : ∀ k, Alike ref F G (F a k) (G b k)) : Alike ref F G v w

namespace Alike

theorem symm (h : Alike ref F G v w) : Alike ref G F w v := by
  induction h with
  | leaf h => exact .leaf h
  | node hv hw _ ih => exact .node hw hv ih

theorem trans (h : Alike ref F G u v) (h' : Alike ref G H v w) : Alike ref F H u w := by
  induction h generalizing w with
  | leaf h =>
    cases h' with
    | leaf => exact .leaf h
    | node hv => simp [h] at hv
  | node hu hv _ ih =>
    cases h' with
    | leaf h => simp [h] at hv
    | node hv' hw h' =>
      cases Option.some.inj (hv.symm.trans hv')
      exact .node hu hw fun k => ih k (h' k)

theorem eq_of_leaf (h : Alike ref F G v w) (hv : ref v = none) : v = w := by
  cases h with
  | leaf => rfl
  | node hv' => simp [hv] at hv'

theorem eq_of_leaf_right (h : Alike ref F G v w) (hw : ref w = none) : v = w :=
  (h.symm.eq_of_leaf hw).symm

end Alike

/-- From `lo` on and below `hi` a store refers upwards and to below `hi`. -/
def Upward (ref : V → Option Nat) (lo hi : Nat) (G : Nat → K → V) : Prop :=
  ∀ b, lo ≤ b → b < hi → ∀ k c, ref (G b k) = some c → b < c ∧ c < hi

/-- A value that refers into a range or nowhere. -/
def Within (ref : V → Option Nat) (lo hi : Nat) (v : V) : Prop :=
  ∀ a, ref v = some a → lo ≤ a ∧ a < hi

theorem Within.mono {lo hi lo' hi' : Nat} (h : Within ref lo hi v) (hlo : lo' ≤ lo)
    (hhi : hi ≤ hi') : Within ref lo' hi' v := by
  intro a ha
  have := h a ha
  omega

theorem Within.leaf {lo hi : Nat} (h : ref v = none) : Within ref lo hi v := by
  intro a ha
  simp [h] at ha

/-- What a value unfolds to is left as it is by changes outside of the range that it refers to. -/
theorem Alike.frame {lo hi : Nat} {G' : Nat → K → V} (h : Alike ref F G v w)
    (hw : Within ref lo hi w) (hup : Upward ref lo hi G)
    (heq : ∀ b, lo ≤ b → b < hi → G' b = G b) : Alike ref F G' v w := by
  induction h with
  | leaf h => exact .leaf h
  | @node v w a b hv hw' _ ih =>
    obtain ⟨hlo, hhi⟩ := hw b hw'
    refine .node hv hw' fun k => ?_
    rw [heq b hlo hhi]
    refine ih k fun c hc => ?_
    have := hup b hlo hhi k c hc
    omega

end ToiLang
