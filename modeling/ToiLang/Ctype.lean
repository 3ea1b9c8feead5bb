import Mathlib.Data.List.DropRight
import ToiLang.Chunk

namespace ToiLang

/-- `isspace` in the C locale. -/
def isSpace (c : UInt8) : Bool := c = 32 || (9 ≤ c && c ≤ 13)

/-- `tolower` in the C locale. -/
def toLower (c : UInt8) : UInt8 := if 65 ≤ c ∧ c ≤ 90 then c + 32 else c

/-- The value of a hexadecimal digit, as the C source tests for one. -/
def hexDigit (c : UInt8) : Option Nat :=
  if 48 ≤ c ∧ c ≤ 57 then some (c.toNat - 48)
  else if 97 ≤ c ∧ c ≤ 102 then some (10 + (c.toNat - 97))
  else if 65 ≤ c ∧ c ≤ 70 then some (10 + (c.toNat - 65))
  else none

theorem hexDigit_lt {c : UInt8} {d : Nat} (h : hexDigit c = some d) : d < 16 := by
  unfold hexDigit at h
  split_ifs at h with h1 h2 h3
  · have := UInt8.le_iff_toNat_le.mp h1.2
    cases Option.some.inj h
    simp at this
    omega
  · have := UInt8.le_iff_toNat_le.mp h2.2
    cases Option.some.inj h
    simp at this
    omega
  · have := UInt8.le_iff_toNat_le.mp h3.2
    cases Option.some.inj h
    simp at this
    omega

theorem isSpace_eq_false {c : UInt8} (h : 32 < c.toNat) : isSpace c = false := by
  unfold isSpace
  rw [Bool.or_eq_false_iff, decide_eq_false_iff_not, Bool.and_eq_false_iff]
  refine ⟨fun heq => ?_, .inr ?_⟩
  · rw [heq] at h
    exact absurd h (by decide)
  · rw [decide_eq_false_iff_not, UInt8.le_iff_toNat_le]
    exact Nat.not_le.mpr (Nat.lt_trans (by decide) h)

theorem hexDigit_range {c : UInt8} (h : (hexDigit c).isSome) : 48 ≤ c.toNat ∧ c.toNat ≤ 57 ∨
    97 ≤ c.toNat ∧ c.toNat ≤ 102 ∨ 65 ≤ c.toNat ∧ c.toNat ≤ 70 := by
  unfold hexDigit at h
  split_ifs at h with h1 h2 h3
  · exact .inl h1
  · exact .inr (.inl h2)
  · exact .inr (.inr h3)
  · cases h

theorem hexDigit_not_space {c : UInt8} (h : (hexDigit c).isSome) : isSpace c = false := by
  have hrange := hexDigit_range h
  exact isSpace_eq_false (by omega)

/-- The first CR that an LF follows. -/
def findCrlf : Bytes → Option Nat
  | a :: b :: rest => if a = 13 ∧ b = 10 then some 0 else (findCrlf (b :: rest)).map (· + 1)
  | _ => none

theorem findCrlf_some {s : Bytes} {n : Nat} (h : findCrlf s = some n) :
    n + 2 ≤ s.length ∧ s = s.take n ++ 13 :: 10 :: s.drop (n + 2) := by
  induction s generalizing n with
  | nil => cases h
  | cons a s ih =>
    cases s with
    | nil => cases h
    | cons b rest =>
      simp only [findCrlf] at h
      split_ifs at h with hab
      · cases Option.some.inj h
        exact ⟨by simp, by simp [hab.1, hab.2]⟩
      · obtain ⟨m, hm, rfl⟩ := Option.map_eq_some_iff.mp h
        obtain ⟨hlen, heq⟩ := ih hm
        refine ⟨by simp only [List.length_cons] at hlen ⊢; omega, ?_⟩
        rw [List.take_succ_cons, List.cons_append, List.drop_succ_cons, ← heq]

theorem findCrlf_append {s : Bytes} {n : Nat} (h : findCrlf s = some n) (rest : Bytes) :
    findCrlf (s ++ rest) = some n := by
  induction s generalizing n with
  | nil => cases h
  | cons a s ih =>
    cases s with
    | nil => cases h
    | cons b s =>
      simp only [findCrlf, List.cons_append] at h ⊢
      split_ifs at h ⊢ with hab
      · exact h
      · obtain ⟨m, hm, rfl⟩ := Option.map_eq_some_iff.mp h
        rw [← List.cons_append, ih hm]
        rfl

/-- In front of the first line break there is none. -/
theorem findCrlf_take {s : Bytes} {n : Nat} (h : findCrlf s = some n) : findCrlf (s.take n) = none := by
  cases hf : findCrlf (s.take n) with
  | none => rfl
  | some m =>
    have happ := findCrlf_append hf (s.drop n)
    rw [List.take_append_drop, h] at happ
    have hm := Option.some.inj happ
    have hbound := (findCrlf_some hf).1
    rw [List.length_take] at hbound
    omega

/-- The end of a line that holds no line break. -/
theorem findCrlf_line {line : Bytes} (h : findCrlf line = none) (rest : Bytes) :
    findCrlf (line ++ 13 :: 10 :: rest) = some line.length := by
  induction line with
  | nil => rfl
  | cons a line ih =>
    cases line with
    | nil =>
      simp [findCrlf]
    | cons b line =>
      simp only [findCrlf] at h
      split_ifs at h with hab
      have hnone : findCrlf (b :: line) = none := Option.map_eq_none_iff.mp h
      have hrest := ih hnone
      simp only [List.cons_append, findCrlf, if_neg hab] at hrest ⊢
      rw [hrest]
      rfl

/-- A line that is cut before its line break is complete holds no line break. -/
theorem findCrlf_cut {line rest p : Bytes} (h : findCrlf line = none)
    (hp : p <+: line ++ 13 :: 10 :: rest) (hlen : p.length < line.length + 2) :
    findCrlf p = none := by
  cases hf : findCrlf p with
  | none => rfl
  | some n =>
    obtain ⟨tail, ht⟩ := hp
    have hline := findCrlf_line h rest
    rw [← ht, findCrlf_append hf] at hline
    have hn := Option.some.inj hline
    have hbound := (findCrlf_some hf).1
    omega

/-- The white space at both ends taken off. -/
def trimSpace (s : Bytes) : Bytes := (s.dropWhile isSpace).rdropWhile isSpace

end ToiLang
