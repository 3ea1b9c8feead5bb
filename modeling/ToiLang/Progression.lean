import Mathlib.Data.List.Perm.Subperm
import Mathlib.Tactic.Linarith

namespace ToiLang

/-- `p` is one of `start`, `start + step`, … -/
def OnGrid (start step p : Int) : Prop := ∃ k : Nat, p = start + k * step

/-- A walk by `step` that is at `i` has not passed `lim`. -/
def goesOn (step lim i : Int) : Bool :=
  if 0 < step then decide (i ≤ lim) else decide (step < 0 ∧ lim ≤ i)

/-- The order of the places of a walk. -/
def Before (step p q : Int) : Prop := if 0 < step then p < q else q < p

/-- The places of the walk from `i` by `step` up to and including `lim`. -/
structure Walk (step lim i : Int) (l : List Int) : Prop where
  ordered : l.Pairwise (Before step)
  mem : ∀ p, p ∈ l ↔ OnGrid i step p ∧ goesOn step lim p = true

section Grid

variable {step lim i p : Int}

theorem onGrid_self (i step : Int) : OnGrid i step i := ⟨0, by simp⟩

theorem onGrid_cons : OnGrid i step p ↔ p = i ∨ OnGrid (i + step) step p := by
  constructor
  · intro ⟨k, hk⟩
    cases k with
    | zero => exact .inl (by simpa using hk)
    | succ k => exact .inr ⟨k, by push_cast at hk; linarith⟩
  · intro h
    rcases h with h | ⟨k, hk⟩
    · exact h ▸ onGrid_self _ _
    · exact ⟨k + 1, by push_cast; linarith⟩

theorem onGrid_up (hs : 0 < step) : OnGrid i step p ↔ step ∣ p - i ∧ i ≤ p := by
  constructor
  · intro ⟨k, hk⟩
    have hpos : 0 ≤ (k : Int) * step := Int.mul_nonneg (Int.natCast_nonneg k) (Int.le_of_lt hs)
    exact ⟨⟨k, by rw [hk, Int.mul_comm]; omega⟩, by omega⟩
  · intro ⟨⟨c, hc⟩, hle⟩
    have hpos : 0 ≤ c := by
      by_contra hneg
      have hmul : step * c < 0 := Int.mul_neg_of_pos_of_neg hs (by omega)
      omega
    obtain ⟨k, rfl⟩ := Int.eq_ofNat_of_zero_le hpos
    exact ⟨k, by rw [Int.mul_comm]; omega⟩

theorem onGrid_neg : OnGrid i step p ↔ OnGrid (-i) (-step) (-p) := by
  unfold OnGrid
  apply exists_congr
  intro k
  rw [Int.mul_neg]
  omega

theorem onGrid_down (hs : step < 0) : OnGrid i step p ↔ step ∣ p - i ∧ p ≤ i := by
  rw [onGrid_neg, onGrid_up (by omega)]
  have hdvd : -step ∣ -p - -i ↔ step ∣ p - i := by
    rw [Int.neg_dvd, show -p - -i = -(p - i) by omega, Int.dvd_neg]
  rw [hdvd]
  omega

theorem goesOn_up (hs : 0 < step) : goesOn step lim p = true ↔ p ≤ lim := by
  unfold goesOn
  rw [if_pos hs, decide_eq_true_eq]

theorem goesOn_down (hs : step < 0) : goesOn step lim p = true ↔ lim ≤ p := by
  unfold goesOn
  rw [if_neg (by omega), decide_eq_true_eq]
  omega

theorem step_ne_zero_of_goesOn (h : goesOn step lim p = true) : step ≠ 0 := by
  rintro rfl
  simp [goesOn] at h

/-- What is behind a place that the walk has passed is passed too. -/
theorem goesOn_of_onGrid (hg : OnGrid i step p) (h : goesOn step lim p = true) : goesOn step lim i = true := by
  rcases Int.lt_or_gt_of_ne (step_ne_zero_of_goesOn h) with hs | hs
  · rw [goesOn_down hs] at h ⊢
    have hle := ((onGrid_down hs).mp hg).2
    omega
  · rw [goesOn_up hs] at h ⊢
    have hle := ((onGrid_up hs).mp hg).2
    omega

theorem before_of_onGrid (hs : step ≠ 0) (hg : OnGrid (i + step) step p) : Before step i p := by
  unfold Before
  rcases Int.lt_or_gt_of_ne hs with hneg | hpos
  · have hle := ((onGrid_down hneg).mp hg).2
    rw [if_neg (by omega)]
    omega
  · have hle := ((onGrid_up hpos).mp hg).2
    rw [if_pos hpos]
    omega

end Grid

section Order

variable {step : Int}

theorem Before.ne {p q : Int} (h : Before step p q) : p ≠ q := by
  unfold Before at h
  split at h
  next => omega
  next => omega

theorem Before.asymm {p q : Int} (h : Before step p q) (h' : Before step q p) : False := by
  unfold Before at h h'
  split at h
  next hs =>
    rw [if_pos hs] at h'
    omega
  next hs =>
    rw [if_neg hs] at h'
    omega

/-- An ordered list is known from its members. -/
theorem eq_of_ordered {l l' : List Int} (hl : l.Pairwise (Before step)) (hl' : l'.Pairwise (Before step))
    (hmem : ∀ p, p ∈ l ↔ p ∈ l') : l = l' := by
  have hnodup : l.Nodup := hl.imp fun h => h.ne
  have hnodup' : l'.Nodup := hl'.imp fun h => h.ne
  have hperm : l.Perm l' := (List.perm_ext_iff_of_nodup hnodup hnodup').mpr hmem
  exact hperm.eq_of_pairwise (fun p q _ _ h h' => (h.asymm h').elim) hl hl'

end Order

section Walk

variable {step lim i : Int} {l : List Int}

theorem Walk.nil (h : goesOn step lim i = false) : Walk step lim i [] := by
  refine ⟨.nil, fun p => ?_⟩
  constructor
  · intro hp
    cases hp
  · intro ⟨hg, hgo⟩
    rw [goesOn_of_onGrid hg hgo] at h
    cases h

theorem Walk.cons (h : goesOn step lim i = true) (hw : Walk step lim (i + step) l) :
    Walk step lim i (i :: l) := by
  refine ⟨List.pairwise_cons.mpr ⟨fun p hp => ?_, hw.ordered⟩, fun p => ?_⟩
  · exact before_of_onGrid (step_ne_zero_of_goesOn h) ((hw.mem p).mp hp).1
  · rw [List.mem_cons, hw.mem p, @onGrid_cons step i p]
    constructor
    · intro hp
      rcases hp with rfl | ⟨hg, hgo⟩
      · exact ⟨Or.inl rfl, h⟩
      · exact ⟨Or.inr hg, hgo⟩
    · intro ⟨hp, hgo⟩
      exact Or.imp_right (fun hg => ⟨hg, hgo⟩) hp

theorem Walk.eq_nil (hw : Walk step lim i l) (h : goesOn step lim i = false) : l = [] := by
  apply List.eq_nil_iff_forall_not_mem.mpr
  intro p hp
  obtain ⟨hg, hgo⟩ := (hw.mem p).mp hp
  rw [goesOn_of_onGrid hg hgo] at h
  cases h

end Walk

end ToiLang
