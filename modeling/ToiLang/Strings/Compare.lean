import ToiLang.Chunk

namespace ToiLang

/-- C's `strcmp`: the difference of the first two bytes that differ, where a zero byte ends both. -/
def strcmp : Bytes → Bytes → Int
  | [], [] => 0
  | [], d :: _ => - (d.toNat : Int)
  | c :: _, [] => c.toNat
  | c :: cs, d :: ds => if c = d then (if c = 0 then 0 else strcmp cs ds) else (c.toNat : Int) - d.toNat

/-- Bytewise order: by the first byte that differs; of two of which one begins the other the shorter
is less. -/
def bytesLess : Bytes → Bytes → Bool
  | _, [] => false
  | [], _ :: _ => true
  | c :: cs, d :: ds => if c = d then bytesLess cs ds else decide (c < d)

/-- The bytes that a C string has. -/
def beforeZero (s : Bytes) : Bytes := s.takeWhile (· ≠ 0)

theorem bytesLess_asymm {x y : Bytes} (h : bytesLess x y = true) : bytesLess y x = false := by
  induction x generalizing y with
  | nil =>
    cases y with
    | nil => cases h
    | cons d ds => rfl
  | cons c cs ih =>
    cases y with
    | nil => cases h
    | cons d ds =>
      unfold bytesLess at h ⊢
      by_cases hcd : c = d
      · rw [if_pos hcd] at h
        rw [if_pos hcd.symm]
        exact ih h
      · rw [if_neg hcd] at h
        rw [if_neg (Ne.symm hcd)]
        have hlt : c < d := of_decide_eq_true h
        exact decide_eq_false (UInt8.not_lt.mpr (UInt8.le_of_lt hlt))

theorem bytesLess_split {x z : Bytes} (y : Bytes) (h : bytesLess x z = true) :
    bytesLess x y = true ∨ bytesLess y z = true := by
  induction x generalizing y z with
  | nil =>
    cases z with
    | nil => cases h
    | cons e es =>
      cases y with
      | nil => exact .inr rfl
      | cons d ds => exact .inl rfl
  | cons c cs ih =>
    cases z with
    | nil => cases h
    | cons e es =>
      cases y with
      | nil => exact .inr rfl
      | cons d ds =>
        unfold bytesLess at h ⊢
        by_cases hcd : c = d
        · subst hcd
          rw [if_pos rfl]
          by_cases hce : c = e
          · rw [if_pos hce] at h ⊢
            exact ih ds h
          · rw [if_neg hce] at h ⊢
            exact .inr h
        · rw [if_neg hcd]
          by_cases hde : d = e
          · subst hde
            rw [if_neg hcd] at h
            exact .inl h
          · rw [if_neg hde]
            have hce : c ≤ e := by
              by_cases hce : c = e
              · exact UInt8.le_of_eq hce
              · rw [if_neg hce] at h
                exact UInt8.le_of_lt (of_decide_eq_true h)
            rcases UInt8.lt_or_lt_of_ne hcd with hlt | hlt
            · exact .inl (decide_eq_true hlt)
            · exact .inr (decide_eq_true (UInt8.lt_of_lt_of_le hlt hce))

theorem bytesLess_total {x y : Bytes} (h : x ≠ y) : bytesLess x y = true ∨ bytesLess y x = true := by
  induction x generalizing y with
  | nil =>
    cases y with
    | nil => exact absurd rfl h
    | cons d ds => exact .inl rfl
  | cons c cs ih =>
    cases y with
    | nil => exact .inr rfl
    | cons d ds =>
      unfold bytesLess
      by_cases hcd : c = d
      · rw [if_pos hcd, if_pos hcd.symm]
        exact ih fun heq => h (by rw [hcd, heq])
      · rw [if_neg hcd, if_neg (Ne.symm hcd)]
        rcases UInt8.lt_or_lt_of_ne hcd with hlt | hlt
        · exact .inl (decide_eq_true hlt)
        · exact .inr (decide_eq_true hlt)

theorem beforeZero_cons (c : UInt8) (cs : Bytes) :
    beforeZero (c :: cs) = if c = 0 then [] else c :: beforeZero cs := by
  unfold beforeZero
  rw [List.takeWhile_cons]
  by_cases hc : c = 0
  · rw [if_pos hc, if_neg (by simp [hc])]
  · rw [if_neg hc, if_pos (by simp [hc])]

/-- `strcmp` compares what is before the zero bytes. -/
theorem strcmp_neg_iff (x y : Bytes) :
    strcmp x y < 0 ↔ bytesLess (beforeZero x) (beforeZero y) = true := by
  induction x generalizing y with
  | nil =>
    cases y with
    | nil => exact ⟨nofun, nofun⟩
    | cons d ds =>
      rw [beforeZero_cons]
      by_cases hd : d = 0
      · subst hd
        exact ⟨nofun, nofun⟩
      · have hpos : 0 < d.toNat :=
          Nat.pos_of_ne_zero fun h0 => hd (UInt8.toNat_inj.mp h0)
        rw [if_neg hd]
        unfold strcmp
        exact ⟨fun _ => rfl, fun _ => by omega⟩
  | cons c cs ih =>
    cases y with
    | nil =>
      have hnot : ¬ strcmp (c :: cs) [] < 0 := by
        unfold strcmp
        omega
      refine ⟨fun h => absurd h hnot, fun h => ?_⟩
      change bytesLess (beforeZero (c :: cs)) [] = true at h
      cases hb : beforeZero (c :: cs) <;> rw [hb] at h <;> cases h
    | cons d ds =>
      rw [beforeZero_cons, beforeZero_cons]
      unfold strcmp
      by_cases hcd : c = d
      · subst hcd
        rw [if_pos rfl]
        by_cases hc : c = 0
        · rw [if_pos hc, if_pos hc, if_pos hc]
          exact ⟨nofun, nofun⟩
        · rw [if_neg hc, if_neg hc, if_neg hc]
          unfold bytesLess
          rw [if_pos rfl]
          exact ih ds
      · rw [if_neg hcd]
        have hlt : ((c.toNat : Int) - d.toNat < 0) ↔ c < d := by
          rw [UInt8.lt_iff_toNat_lt]
          omega
        rw [hlt]
        by_cases hc : c = 0
        · have hd : d ≠ 0 := fun hd => hcd (hc.trans hd.symm)
          rw [if_pos hc, if_neg hd]
          refine ⟨fun _ => rfl, fun _ => ?_⟩
          rw [hc]
          exact UInt8.pos_iff_ne_zero.mpr hd
        · rw [if_neg hc]
          by_cases hd : d = 0
          · rw [if_pos hd, hd]
            exact ⟨fun h => absurd h UInt8.not_lt_zero, nofun⟩
          · rw [if_neg hd]
            unfold bytesLess
            rw [if_neg hcd]
            exact decide_eq_true_iff.symm

theorem strcmp_swap (x y : Bytes) : strcmp y x = - strcmp x y := by
  induction x generalizing y with
  | nil =>
    cases y with
    | nil => rfl
    | cons d ds =>
      unfold strcmp
      omega
  | cons c cs ih =>
    cases y with
    | nil => rfl
    | cons d ds =>
      unfold strcmp
      by_cases hcd : c = d
      · subst hcd
        rw [if_pos rfl, if_pos rfl]
        split
        next => rfl
        next => exact ih ds
      · rw [if_neg hcd, if_neg (Ne.symm hcd)]
        omega

/-- Strings that differ before their zero bytes are in the order of what is before these. -/
theorem bytesLess_of_beforeZero {x y : Bytes}
    (h : bytesLess (beforeZero x) (beforeZero y) = true) : bytesLess x y = true := by
  induction x generalizing y with
  | nil =>
    cases y with
    | nil => cases h
    | cons d ds => rfl
  | cons c cs ih =>
    cases y with
    | nil =>
      change bytesLess (beforeZero (c :: cs)) [] = true at h
      cases hb : beforeZero (c :: cs) <;> rw [hb] at h <;> cases h
    | cons d ds =>
      have hneg := (strcmp_neg_iff (c :: cs) (d :: ds)).mpr h
      unfold strcmp at hneg
      unfold bytesLess
      by_cases hcd : c = d
      · subst hcd
        rw [if_pos rfl] at hneg ⊢
        by_cases hc : c = 0
        · rw [if_pos hc] at hneg
          omega
        · rw [if_neg hc] at hneg
          exact ih ((strcmp_neg_iff cs ds).mp hneg)
      · rw [if_neg hcd] at hneg ⊢
        refine decide_eq_true (UInt8.lt_iff_toNat_lt.mpr ?_)
        omega

end ToiLang
