import ToiLang.Http.MessageRoundTrip
import ToiLang.Http.ResponseHead

namespace ToiLang.Http

/-! The splitting of strings at one byte. The parts are those of the text in front of the first zero byte,
and the last of them goes on with all that stands behind. -/

variable {sep : UInt8}

theorem splitOn_cons (c : UInt8) (s : Bytes) :
    (c :: s).splitOn sep = if c = sep then [] :: s.splitOn sep else (s.splitOn sep).modifyHead (c :: ·) := by
  rw [List.splitOn_cons_eq_if_modifyHead]
  simp only [beq_iff_eq]

theorem exists_last (sep : UInt8) (s : Bytes) : ∃ front last, s.splitOn sep = front ++ [last] := by
  rcases List.eq_nil_or_concat (s.splitOn sep) with h | ⟨front, last, h⟩
  · exact absurd h (List.splitOn_ne_nil _ _)
  · exact ⟨front, last, by rw [h, List.concat_eq_append]⟩

/-- The last part goes on behind the text. -/
theorem splitOn_behind {a z : Bytes} {front : List Bytes} {last : Bytes} (h : a.splitOn sep = front ++ [last]) :
    (a ++ z).splitOn sep = front ++ (z.splitOn sep).modifyHead (last ++ ·) := by
  induction a generalizing front last with
  | nil =>
    have hnil : front = [] ∧ last = [] := by
      cases front with
      | nil => exact ⟨rfl, (List.cons.inj h).1.symm⟩
      | cons x front => simp at h
    obtain ⟨rfl, rfl⟩ := hnil
    rw [List.nil_append, List.nil_append]
    cases z.splitOn sep with
    | nil => rfl
    | cons x xs => rfl
  | cons c a ih =>
    rw [splitOn_cons] at h
    rw [List.cons_append, splitOn_cons]
    by_cases hc : c = sep
    · rw [if_pos hc] at h ⊢
      cases front with
      | nil =>
        obtain ⟨-, hnil⟩ := List.cons.inj h
        exact absurd hnil (List.splitOn_ne_nil _ _)
      | cons x front =>
        obtain ⟨rfl, hrest⟩ := List.cons.inj h
        rw [ih hrest, List.cons_append]
    · rw [if_neg hc] at h ⊢
      obtain ⟨front', last', ha⟩ := exists_last sep a
      rw [ih ha]
      rw [ha] at h
      cases front' with
      | nil =>
        cases front with
        | nil =>
          obtain ⟨rfl, -⟩ := List.cons.inj h
          cases z.splitOn sep with
          | nil => rfl
          | cons x xs => rfl
        | cons x front => simp at h
      | cons x front' =>
        cases front with
        | nil => simp at h
        | cons y front =>
          obtain ⟨rfl, htail⟩ := List.cons.inj h
          obtain ⟨rfl, hlast⟩ := List.append_inj' htail rfl
          rw [List.singleton_inj.mp hlast]
          rfl

/-- A byte is found if it stands in front of the first zero byte. -/
theorem strstr_byte (s : Bytes) : strstr s [sep] = (s.takeWhile (· ≠ 0)).idxOf? sep := by
  unfold strstr
  induction s.takeWhile (· ≠ 0) with
  | nil => rfl
  | cons c cs ih =>
    rw [indexOf, List.idxOf?_cons, ih]
    by_cases hc : c = sep
    · simp [hc, List.isPrefixOf]
    · have hne : sep ≠ c := fun h => hc h.symm
      simp [hne, hc, List.isPrefixOf]

/-- Behind the first zero byte nothing is split any more. -/
theorem splitWith_byte {a z : Bytes} {front : List Bytes} {last : Bytes} {fuel : Nat}
    (ha : (0 : UInt8) ∉ a) (hz : z = [] ∨ z.head? = some 0) (h : a.splitOn sep = front ++ [last])
    (hfuel : a.length < fuel) : splitWith [sep] fuel (a ++ z) = front ++ [last ++ z] := by
  induction fuel generalizing a front with
  | zero => cases hfuel
  | succ fuel ih =>
    have htake : (a ++ z).takeWhile (· ≠ 0) = a := by
      rcases hz with rfl | hz
      · rw [List.append_nil]
        exact takeWhile_no_zero ha
      · obtain ⟨c, z, rfl⟩ := List.exists_cons_of_ne_nil (show z ≠ [] by rintro rfl; cases hz)
        obtain rfl := Option.some.inj hz
        exact (takeWhile_append_stop ha).1
    rw [splitWith, strstr_byte, htake]
    by_cases hslash : sep ∈ a
    · obtain ⟨x, y, rfl, hx⟩ := List.eq_append_cons_of_mem hslash
      rw [idxOf_append hx]
      have htext : x ++ sep :: y ++ z = x ++ sep :: (y ++ z) := by simp
      have hdrop : (x ++ sep :: (y ++ z)).drop (x.length + ([sep] : Bytes).length) = y ++ z := by
        rw [← List.drop_drop, List.drop_left]
        rfl
      have hy0 : (0 : UInt8) ∉ y := fun h0 => ha (List.mem_append_right _ (List.mem_cons_of_mem _ h0))
      have hylen : y.length < fuel := by
        rw [List.length_append, List.length_cons] at hfuel
        omega
      rw [List.splitOn_append_cons_self, List.splitOn_eq_singleton hx] at h
      cases front with
      | nil =>
        obtain ⟨-, hnil⟩ := List.cons.inj h
        exact absurd hnil (List.splitOn_ne_nil _ _)
      | cons f front =>
        obtain ⟨rfl, hrest⟩ := List.cons.inj h
        dsimp only
        rw [htext, List.take_left, hdrop, ih hy0 hrest hylen, List.cons_append]
    · rw [List.splitOn_eq_singleton hslash] at h
      have hfront : front = [] ∧ last = a := by
        cases front with
        | nil => exact ⟨rfl, (List.cons.inj h).1.symm⟩
        | cons x front => simp at h
      obtain ⟨rfl, rfl⟩ := hfront
      rw [List.idxOf?_eq_none_iff.mpr hslash]
      rfl

theorem dropWhile_zero (s : Bytes) :
    s.dropWhile (· ≠ 0) = [] ∨ (s.dropWhile (· ≠ 0)).head? = some 0 := by
  induction s with
  | nil => exact .inl rfl
  | cons c s ih =>
    by_cases hc : c = 0
    · subst hc
      exact .inr rfl
    · rwa [List.dropWhile_cons_of_pos (by simpa using hc)]

/-- The parts that `split` makes of a text. -/
theorem splitWith_parts (s : Bytes) {front : List Bytes} {last : Bytes}
    (h : (s.takeWhile (· ≠ 0)).splitOn sep = front ++ [last]) :
    splitWith [sep] (s.length + 1) s = front ++ [last ++ s.dropWhile (· ≠ 0)] := by
  have hlen := (List.takeWhile_prefix (fun c : UInt8 => decide (c ≠ 0)) (l := s)).length_le
  have hcut : s.takeWhile (· ≠ 0) ++ s.dropWhile (· ≠ 0) = s := List.takeWhile_append_dropWhile
  have hzero : (0 : UInt8) ∉ s.takeWhile (· ≠ 0) := by
    intro h0
    simpa using List.mem_takeWhile_imp h0
  have hsplit := @splitWith_byte sep _ _ _ _ (s.length + 1) hzero (dropWhile_zero s) h (by omega)
  rw [hcut] at hsplit
  exact hsplit

end ToiLang.Http
