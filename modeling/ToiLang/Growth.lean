import Mathlib.Algebra.Ring.Nat
import Mathlib.Tactic.ByContra

namespace ToiLang

/-! Buffers whose capacity is an `int` that is doubled. -/

/-- The loop that doubles the capacity; an `int` that it cannot hold makes the loop run on. -/
def growCapacity (needed : Nat) : Nat → Nat → Option Nat
  | 0, _ => none
  | fuel + 1, capacity =>
    if 2 ^ 31 ≤ capacity then none
    else if capacity < needed then growCapacity needed fuel (capacity * 2)
    else some capacity

/-- The doubled capacities are powers of two, up to the largest that an `int` holds. -/
theorem growCapacity_spec {needed : Nat} (fuel k : Nat) (hk : k ≤ 28) (hfuel : 28 - k < fuel) :
    (needed ≤ 2 ^ 30 → k ≤ 27 → ∃ j ≤ 27, needed ≤ 2 ^ (j + 3) ∧
      growCapacity needed fuel (2 ^ (k + 3)) = some (2 ^ (j + 3))) ∧
    (2 ^ 30 < needed → growCapacity needed fuel (2 ^ (k + 3)) = none) := by
  induction fuel generalizing k with
  | zero => omega
  | succ fuel ih =>
    unfold growCapacity
    by_cases hmax : k = 28
    · subst hmax
      exact ⟨fun _ h => absurd h (by decide), fun _ => if_pos (Nat.le_refl _)⟩
    · have hle : 2 ^ (k + 3) ≤ 2 ^ 30 := Nat.pow_le_pow_right (by decide) (by omega)
      have hnext : 2 ^ (k + 3) * 2 = 2 ^ (k + 1 + 3) := by
        rw [← Nat.pow_succ]
      rw [if_neg (by omega), hnext]
      obtain ⟨hfits, hnone⟩ := ih (k + 1) (by omega) (by omega)
      by_cases hlt : 2 ^ (k + 3) < needed
      · rw [if_pos hlt]
        refine ⟨fun hn _ => hfits hn ?_, hnone⟩
        by_contra hk27
        have heq : k = 27 := by omega
        subst heq
        omega
      · rw [if_neg hlt]
        exact ⟨fun _ hk27 => ⟨k, hk27, Nat.not_lt.mp hlt, rfl⟩, fun hn => by omega⟩

section Writer

variable {σ α : Type} {write : σ → List α → Option σ} {text : σ → List α} {Fits : σ → Prop} {bound : Nat}

/-- A writer that goes on as long as its text is within a bound writes the parts one behind the other. -/
theorem foldlM_write {s : σ} (hs : Fits s) (hbound : ∀ s, Fits s → (text s).length ≤ bound)
    (hfits : ∀ s part, Fits s → (text s).length + part.length ≤ bound →
      ∃ s', write s part = some s' ∧ text s' = text s ++ part ∧ Fits s')
    (hfull : ∀ s part, Fits s → bound < (text s).length + part.length → write s part = none) (parts : List (List α)) :
    (parts.foldlM write s).map text =
      if (text s ++ parts.flatten).length ≤ bound then some (text s ++ parts.flatten) else none := by
  induction parts generalizing s with
  | nil =>
    rw [List.flatten_nil, List.append_nil, if_pos (hbound s hs)]
    rfl
  | cons part parts ih =>
    rw [List.foldlM_cons, List.flatten_cons, ← List.append_assoc]
    by_cases hle : (text s).length + part.length ≤ bound
    · obtain ⟨s', hwrite, htext, hs'⟩ := hfits s part hs hle
      rw [hwrite, ← htext]
      exact ih hs'
    · rw [hfull s part hs (by omega), if_neg]
      · rfl
      · rw [List.length_append, List.length_append]
        omega

end Writer

end ToiLang
