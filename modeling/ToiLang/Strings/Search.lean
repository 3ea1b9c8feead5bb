import Mathlib.Data.List.Infix
import ToiLang.Http.ResponseHead

namespace ToiLang

open Http (indexOf indexOf_eq indexOf_none strstr)

/-! What `strstr` finds: the first place where the needle stands. -/

variable {needle s : Bytes} {n : Nat}

theorem indexOf_found (h : indexOf needle s = some n) :
    needle <+: s.drop n ∧ ∀ m < n, ¬needle <+: s.drop m := by
  induction s generalizing n with
  | nil => cases h
  | cons c s ih =>
    rw [indexOf] at h
    by_cases hp : needle.isPrefixOf (c :: s)
    · rw [if_pos hp] at h
      cases h
      exact ⟨List.isPrefixOf_iff_prefix.mp hp, fun m hm => absurd hm (Nat.not_lt_zero m)⟩
    · rw [if_neg hp] at h
      obtain ⟨k, hk, rfl⟩ := Option.map_eq_some_iff.mp h
      obtain ⟨hat, hfirst⟩ := ih hk
      refine ⟨hat, fun m hm => ?_⟩
      cases m with
      | zero => exact fun h0 => hp (List.isPrefixOf_iff_prefix.mpr h0)
      | succ m => exact hfirst m (Nat.lt_of_succ_lt_succ hm)

theorem indexOf_eq_none (hne : needle ≠ []) : indexOf needle s = none ↔ ¬needle <:+: s := by
  constructor
  · intro h hin
    obtain ⟨a, b, rfl⟩ := hin
    induction a with
    | nil =>
      obtain ⟨c, needle, rfl⟩ := List.exists_cons_of_ne_nil hne
      have hp : (c :: needle).isPrefixOf (c :: (needle ++ b)) = true := List.isPrefixOf_iff_prefix.mpr ⟨b, rfl⟩
      rw [List.nil_append, List.cons_append, indexOf, if_pos hp] at h
      cases h
    | cons c a ih =>
      rw [List.cons_append, List.cons_append, indexOf] at h
      split_ifs at h
      exact ih (Option.map_eq_none_iff.mp h)
  · intro h
    refine indexOf_none fun m hm => h ?_
    obtain ⟨b, hb⟩ := hm
    exact ⟨s.take m, b, by rw [List.append_assoc, hb, List.take_append_drop]⟩

/-- The text around a place where the needle stands. -/
theorem split_around (h : needle <+: s.drop n) : s = s.take n ++ (needle ++ s.drop (n + needle.length)) := by
  obtain ⟨b, hb⟩ := h
  have hdrop : s.drop (n + needle.length) = b := by
    rw [← List.drop_drop, ← hb, List.drop_left]
  rw [hdrop, hb, List.take_append_drop]

theorem indexOf_split (h : indexOf needle s = some n) :
    s = s.take n ++ (needle ++ s.drop (n + needle.length)) :=
  split_around (indexOf_found h).1

theorem indexOf_le (hne : needle ≠ []) (h : indexOf needle s = some n) : n + needle.length ≤ s.length := by
  have hlen := (indexOf_found h).1.length_le
  have hpos := List.length_pos_iff.mpr hne
  rw [List.length_drop] at hlen
  omega

theorem strstr_found (h : strstr s needle = some n) : needle <+: s.drop n :=
  (indexOf_found h).1.trans (List.IsPrefix.drop (List.takeWhile_prefix _) n)

theorem strstr_split (h : strstr s needle = some n) :
    s = s.take n ++ (needle ++ s.drop (n + needle.length)) :=
  split_around (strstr_found h)

end ToiLang
