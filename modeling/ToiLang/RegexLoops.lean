import Mathlib.Logic.Relation
import ToiLang.Regex

namespace ToiLang.Regex

theorem slice_append {s : Bytes} {a b c : Nat} (hab : a ≤ b) (hbc : b ≤ c) :
    slice s a b ++ slice s b c = slice s a c := by
  have hb : b ⊓ c = b := by omega
  have h : (s.take c).take b = s.take b := by rw [List.take_take, hb]
  have hd : s.take c = (s.take c).take b ++ (s.take c).drop b := (List.take_append_drop b _).symm
  unfold slice
  by_cases hlen : a ≤ (s.take b).length
  · rw [← h] at hlen ⊢
    conv_rhs => rw [hd]
    rw [List.drop_append_of_le_length hlen]
  · have hs : s.length < b := by
      simp only [List.length_take] at hlen
      omega
    have hc : s.take c = s := List.take_of_length_le (by omega)
    rw [hc, List.take_of_length_le (by omega), List.drop_eq_nil_of_le (by omega : s.length ≤ b),
      List.append_nil]

theorem slice_drop {s : Bytes} {a b : Nat} (hab : a ≤ b) :
    slice s a b ++ s.drop b = s.drop a := by
  have h := slice_append (s := s) hab (Nat.le_add_right b s.length)
  have hb : s.take (b + s.length) = s := List.take_of_length_le (by omega)
  unfold slice at h ⊢
  rwa [hb] at h

theorem length_slice {s : Bytes} {a b : Nat} (hb : b ≤ s.length) : (slice s a b).length = b - a := by
  simp only [slice, List.length_drop, List.length_take]
  omega

section Scan

variable {m : Matcher} {src : Bytes}

theorem Matcher.Fits.span (hm : m.Fits) {pos : Nat} {r : Match} (hpos : pos ≤ src.length)
    (h : m (src.drop pos) = some r) : r.so ≤ r.eo ∧ pos + r.eo ≤ src.length := by
  obtain ⟨hle, hend⟩ := hm _ _ h
  rw [List.length_drop] at hend
  exact ⟨hle, by omega⟩

/-- The spans begin where the search does or behind. -/
theorem spans_mem (hm : m.Fits) {fuel pos : Nat} (hpos : pos ≤ src.length) {span : Nat × Nat}
    (h : span ∈ spans m src fuel pos) :
    pos ≤ span.1 ∧ span.1 ≤ span.2 ∧ span.2 ≤ src.length := by
  induction fuel generalizing pos with
  | zero => simp [spans] at h
  | succ fuel ih =>
    unfold spans at h
    cases hr : m (src.drop pos) with
    | none => simp [hr] at h
    | some r =>
      obtain ⟨hle, hend⟩ := hm.span hpos hr
      simp only [hr, List.mem_cons] at h
      obtain rfl | h := h
      · exact ⟨by omega, by simp only; omega, hend⟩
      · split at h
        next =>
          split at h
          next hlt =>
            have := ih (by omega) h
            omega
          next => simp at h
        next =>
          have := ih (by omega) h
          omega

theorem spans_none {fuel pos : Nat} (h : m (src.drop pos) = none) : spans m src fuel pos = [] := by
  cases fuel with
  | zero => rfl
  | succ fuel =>
    unfold spans
    simp only [h]

theorem spans_some {fuel pos : Nat} {r : Match} (h : m (src.drop pos) = some r) :
    spans m src (fuel + 1) pos = (pos + r.so, pos + r.eo) ::
      if r.so = r.eo then
        if pos + r.eo < src.length then spans m src fuel (pos + r.eo + 1) else []
      else spans m src fuel (pos + r.eo) := by
  conv_lhs => unfold spans
  simp only [h]

theorem spliced_cons (repl : Bytes) (pos s e : Nat) (rest : List (Nat × Nat)) :
    spliced src repl pos ((s, e) :: rest) = slice src pos s ++ repl ++ spliced src repl e rest := rfl

theorem spliced_behind {repl : Bytes} {l : List (Nat × Nat)} {a b : Nat} (hab : a ≤ b)
    (hl : ∀ span ∈ l, b ≤ span.1) :
    spliced src repl a l = slice src a b ++ spliced src repl b l := by
  cases l with
  | nil => exact (slice_drop hab).symm
  | cons span rest =>
    obtain ⟨s, e⟩ := span
    have hs : b ≤ s := hl _ (List.mem_cons_self ..)
    simp only [spliced]
    rw [← slice_append hab hs]
    simp only [List.append_assoc]

/-- What is left of the matches when some of them have been dealt with. -/
def remaining {α : Type} (limit done : Nat) (l : List α) : List α :=
  if limit = 0 then l else l.take (limit - done)

theorem remaining_nil {α : Type} (limit done : Nat) : remaining limit done ([] : List α) = [] := by
  simp [remaining]

theorem remaining_cons {α : Type} {limit done : Nat} (h : limit = 0 ∨ done < limit) (x : α)
    (l : List α) : remaining limit done (x :: l) = x :: remaining limit (done + 1) l := by
  unfold remaining
  split
  next => rfl
  next h0 =>
    obtain ⟨d, hd⟩ : ∃ d, limit - done = d + 1 := ⟨limit - done - 1, by omega⟩
    rw [hd, List.take_succ_cons, show limit - (done + 1) = d by omega]

theorem remaining_zero {α : Type} (limit : Nat) (l : List α) : remaining limit 0 l = limited limit l :=
  rfl

theorem remaining_subset {α : Type} {limit done : Nat} {l : List α} {x : α}
    (h : x ∈ remaining limit done l) : x ∈ l := by
  unfold remaining at h
  split at h
  next => exact h
  next => exact List.mem_of_mem_take h

end Scan

section Turns

variable (m : Matcher) (src : Bytes)

/-- The position behind a match from which the loops of replace and split go on. -/
def nextPos (s e : Nat) : Nat := if s = e ∧ e < src.length then e + 1 else e

/-- The matches of the turns that the loops of replace and split make. -/
def turns (limit : Nat) : Nat → Nat → Nat → Option (List (Nat × Nat))
  | 0, _, _ => none
  | fuel + 1, pos, done =>
    if src.length < pos then some []
    else if 0 < limit ∧ limit ≤ done then some []
    else
      match m (src.drop pos) with
      | none => some []
      | some r =>
        (turns limit fuel (nextPos src (pos + r.so) (pos + r.eo)) (done + 1)).map
          ((pos + r.so, pos + r.eo) :: ·)

/-- The turns that are made at the end of the text, where the same empty match is found again. -/
def turnsAtEnd (limit done : Nat) (l : List (Nat × Nat)) : Nat :=
  if (src.length, src.length) ∈ l ∧ (m []).isSome then limit - done - l.length else 0

end Turns

section Scan

variable {m : Matcher} {src : Bytes}

theorem turns_done {limit fuel pos done : Nat} (h0 : 0 < limit) (h : limit ≤ done) :
    turns m src limit (fuel + 1) pos done = some [] := by
  unfold turns
  simp only [h0, h, and_self, if_true, ite_self]

theorem turns_none {limit fuel pos done : Nat} (h : m (src.drop pos) = none) :
    turns m src limit (fuel + 1) pos done = some [] := by
  unfold turns
  simp only [h, ite_self]

theorem turns_some {limit fuel pos done : Nat} {r : Match} (hpos : pos ≤ src.length)
    (hlimit : limit = 0 ∨ done < limit) (h : m (src.drop pos) = some r) :
    turns m src limit (fuel + 1) pos done =
      (turns m src limit fuel (nextPos src (pos + r.so) (pos + r.eo)) (done + 1)).map
        ((pos + r.so, pos + r.eo) :: ·) := by
  conv_lhs => unfold turns
  simp only [show ¬src.length < pos by omega, show ¬(0 < limit ∧ limit ≤ done) by omega, if_false, h]

theorem nextPos_le {s e : Nat} (he : e ≤ src.length) : e ≤ nextPos src s e ∧
    nextPos src s e ≤ src.length := by
  unfold nextPos
  split <;> omega

theorem turns_mono {limit fuel fuel' pos done : Nat} {l : List (Nat × Nat)} (hle : fuel ≤ fuel')
    (h : turns m src limit fuel pos done = some l) : turns m src limit fuel' pos done = some l := by
  induction fuel generalizing fuel' pos done l with
  | zero => simp [turns] at h
  | succ fuel ih =>
    obtain ⟨f, rfl⟩ : ∃ f, fuel' = f + 1 := ⟨fuel' - 1, by omega⟩
    unfold turns at h ⊢
    by_cases hp : src.length < pos
    · simpa only [hp, if_true] using h
    by_cases hd : 0 < limit ∧ limit ≤ done
    · simpa only [hp, if_false, if_pos hd] using h
    cases hr : m (src.drop pos) with
    | none => simpa only [hp, if_false, if_neg hd, hr] using h
    | some r =>
      simp only [hp, if_false, if_neg hd, hr, Option.map_eq_some_iff] at h ⊢
      obtain ⟨rest, hrest, hl⟩ := h
      exact ⟨rest, ih (by omega) hrest, hl⟩

theorem turns_unique {limit fuel fuel' pos done : Nat} {l l' : List (Nat × Nat)}
    (h : turns m src limit fuel pos done = some l) (h' : turns m src limit fuel' pos done = some l') :
    l = l' := by
  have h1 := turns_mono (Nat.le_max_left fuel fuel') h
  have h2 := turns_mono (Nat.le_max_right fuel fuel') h'
  rw [h1] at h2
  exact Option.some.inj h2

theorem turns_mem (hm : m.Fits) {limit fuel pos done : Nat} {l : List (Nat × Nat)}
    (hpos : pos ≤ src.length) (h : turns m src limit fuel pos done = some l) :
    ∀ span ∈ l, pos ≤ span.1 ∧ span.1 ≤ span.2 ∧ span.2 ≤ src.length := by
  induction fuel generalizing pos done l with
  | zero => simp [turns] at h
  | succ fuel ih =>
    cases hr : m (src.drop pos) with
    | none =>
      rw [turns_none hr] at h
      cases h
      simp
    | some r =>
      by_cases hd : 0 < limit ∧ limit ≤ done
      · rw [turns_done hd.1 hd.2] at h
        cases h
        simp
      obtain ⟨hle, hend⟩ := hm.span hpos hr
      obtain ⟨hnext, hlen⟩ := nextPos_le (s := pos + r.so) hend
      rw [turns_some hpos (by omega) hr, Option.map_eq_some_iff] at h
      obtain ⟨rest, hrest, rfl⟩ := h
      intro span hspan
      rw [List.mem_cons] at hspan
      obtain rfl | hspan := hspan
      · exact ⟨by simp, by simpa using hle, hend⟩
      · have := ih hlen hrest span hspan
        omega

/-- The match that is found at the end of the text. -/
theorem Matcher.Fits.atEnd (hm : m.Fits) {r : Match} (hr : m [] = some r) : r.so = 0 ∧ r.eo = 0 := by
  obtain ⟨hle, hend⟩ := hm _ _ hr
  rw [List.length_nil] at hend
  omega

theorem nextPos_atEnd : nextPos src src.length src.length = src.length := by
  simp [nextPos]

theorem turns_atEnd (hm : m.Fits) {limit done : Nat} (hlimit : limit = 0 ∨ done ≤ limit)
    (hstay : limit = 0 → m [] = none) :
    ∃ fuel, turns m src limit fuel src.length done =
      some (List.replicate (if (m []).isSome then limit - done else 0) (src.length, src.length)) := by
  have hdrop : src.drop src.length = [] := List.drop_length
  cases hr : m [] with
  | none => exact ⟨1, turns_none (by rw [hdrop, hr])⟩
  | some r =>
    obtain ⟨hso, heo⟩ := hm.atEnd hr
    have h0 : limit ≠ 0 := by
      intro h0
      rw [hstay h0] at hr
      cases hr
    simp only [Option.isSome_some, if_true]
    obtain ⟨d, hd⟩ : ∃ d, limit - done = d := ⟨_, rfl⟩
    induction d generalizing done with
    | zero => exact ⟨1, by rw [hd, turns_done (by omega) (by omega), List.replicate_zero]⟩
    | succ d ih =>
      obtain ⟨fuel, hfuel⟩ := @ih (done + 1) (by omega) (by omega)
      refine ⟨fuel + 1, ?_⟩
      rw [turns_some (Nat.le_refl _) (by omega) (by rw [hdrop, hr]), hso, heo, Nat.add_zero,
        nextPos_atEnd, hfuel, hd, show limit - (done + 1) = d by omega]
      rfl

/-- Without a limit the loops do not leave the end of the text. -/
theorem turns_stays (hm : m.Fits) (hsome : (m []).isSome) (fuel done : Nat) :
    turns m src 0 fuel src.length done = none := by
  have hdrop : src.drop src.length = [] := List.drop_length
  obtain ⟨r, hr⟩ := Option.isSome_iff_exists.mp hsome
  obtain ⟨hso, heo⟩ := hm.atEnd hr
  induction fuel generalizing done with
  | zero => rfl
  | succ fuel ih =>
    rw [turns_some (Nat.le_refl _) (Or.inl rfl) (by rw [hdrop, hr]), hso, heo, Nat.add_zero,
      nextPos_atEnd, ih, Option.map_none]

theorem turnsAtEnd_cons {limit done : Nat} {span : Nat × Nat} {l : List (Nat × Nat)}
    (h : span ≠ (src.length, src.length)) :
    turnsAtEnd m src limit done (span :: l) = turnsAtEnd m src limit (done + 1) l := by
  have hmem : (src.length, src.length) ∈ span :: l ↔ (src.length, src.length) ∈ l := by
    rw [List.mem_cons]
    constructor
    · intro hx
      exact hx.resolve_left fun he => h he.symm
    · exact Or.inr
  have hlen : limit - done - (span :: l).length = limit - (done + 1) - l.length := by
    rw [List.length_cons]
    omega
  unfold turnsAtEnd
  simp only [hmem, hlen]

/-- Where the spans go on behind a match that is not empty at the end of the text, the loops do. -/
theorem spans_some_next {fuel pos : Nat} {r : Match} (h : m (src.drop pos) = some r)
    (hle : r.so ≤ r.eo) (hend : pos + r.eo ≤ src.length)
    (hne : (pos + r.so, pos + r.eo) ≠ (src.length, src.length)) :
    spans m src (fuel + 1) pos = (pos + r.so, pos + r.eo) ::
      spans m src fuel (nextPos src (pos + r.so) (pos + r.eo)) ∧
    pos < nextPos src (pos + r.so) (pos + r.eo) := by
  rw [spans_some h]
  unfold nextPos
  by_cases hempty : r.so = r.eo
  · have hlt : pos + r.eo < src.length := by
      apply Nat.lt_of_le_of_ne hend
      intro he
      exact hne (by rw [hempty, he])
    rw [if_pos hempty, if_pos hlt, if_pos ⟨by omega, hlt⟩]
    exact ⟨rfl, by omega⟩
  · rw [if_neg hempty, if_neg (by omega)]
    exact ⟨rfl, by omega⟩

theorem spans_atEnd {fuel pos : Nat} {r : Match} (h : m (src.drop pos) = some r)
    (he : (pos + r.so, pos + r.eo) = (src.length, src.length)) :
    spans m src (fuel + 1) pos = [(src.length, src.length)] := by
  have h1 := congrArg Prod.fst he
  have h2 := congrArg Prod.snd he
  simp only at h1 h2
  rw [spans_some h, if_pos (by omega), if_neg (by omega), he]

/-- The loops make a turn for each match of the scan, as far as the limit allows, and the turns at
the end of the text. -/
theorem turns_value (hm : m.Fits) (limit k : Nat) {pos done : Nat} (hpos : pos ≤ src.length)
    (hk : src.length < pos + k) (hlimit : limit = 0 ∨ done < limit)
    (hstay : limit = 0 → (src.length, src.length) ∈ spans m src k pos → m [] = none) :
    ∃ fuel, turns m src limit fuel pos done = some (remaining limit done (spans m src k pos) ++
      List.replicate (turnsAtEnd m src limit done (spans m src k pos)) (src.length, src.length)) := by
  induction k generalizing pos done with
  | zero => omega
  | succ k ih =>
    cases hr : m (src.drop pos) with
    | none =>
      refine ⟨1, ?_⟩
      rw [turns_none hr, spans_none hr, remaining_nil]
      simp [turnsAtEnd]
    | some r =>
      obtain ⟨hle, hend⟩ := hm.span hpos hr
      by_cases he : (pos + r.so, pos + r.eo) = (src.length, src.length)
      · rw [spans_atEnd hr he] at hstay ⊢
        obtain ⟨fuel, hfuel⟩ := @turns_atEnd m src hm limit (done + 1) (by omega)
          (fun h0 => hstay h0 (List.mem_cons_self ..))
        have h1 := congrArg Prod.fst he
        have h2 := congrArg Prod.snd he
        simp only at h1 h2
        refine ⟨fuel + 1, ?_⟩
        rw [turns_some hpos hlimit hr, h1, h2, nextPos_atEnd, hfuel, remaining_cons hlimit,
          remaining_nil]
        simp [turnsAtEnd, Nat.sub_sub]
      · obtain ⟨hspans, hlt⟩ := spans_some_next hr hle hend he
        obtain ⟨-, hnext⟩ := nextPos_le (s := pos + r.so) hend
        rw [hspans] at hstay ⊢
        rw [turnsAtEnd_cons he, remaining_cons hlimit]
        by_cases hlast : limit = done + 1
        · refine ⟨2, ?_⟩
          rw [turns_some hpos hlimit hr, turns_done (by omega) (by omega)]
          have hd : limit - (done + 1) = 0 := by omega
          have hrem : remaining limit (done + 1)
              (spans m src k (nextPos src (pos + r.so) (pos + r.eo))) = [] := by
            simp [remaining, hd, show limit ≠ 0 by omega]
          rw [hrem]
          simp [turnsAtEnd, hd]
        · obtain ⟨fuel, hfuel⟩ := @ih _ (done + 1) hnext (by omega) (by omega)
            (fun h0 hmem => hstay h0 (List.mem_cons_of_mem _ hmem))
          refine ⟨fuel + 1, ?_⟩
          rw [turns_some hpos hlimit hr, hfuel]
          rfl

theorem turns_diverges (hm : m.Fits) (hsome : (m []).isSome) (k : Nat) {pos : Nat}
    (hpos : pos ≤ src.length) (hmem : (src.length, src.length) ∈ spans m src k pos)
    (fuel done : Nat) : turns m src 0 fuel pos done = none := by
  induction k generalizing pos fuel done with
  | zero => simp [spans] at hmem
  | succ k ih =>
    cases hr : m (src.drop pos) with
    | none =>
      rw [spans_none hr] at hmem
      simp at hmem
    | some r =>
      obtain ⟨hle, hend⟩ := hm.span hpos hr
      obtain ⟨-, hnext⟩ := nextPos_le (s := pos + r.so) hend
      cases fuel with
      | zero => rfl
      | succ fuel =>
        rw [turns_some hpos (Or.inl rfl) hr, Option.map_eq_none_iff]
        by_cases he : (pos + r.so, pos + r.eo) = (src.length, src.length)
        · have h1 := congrArg Prod.fst he
          have h2 := congrArg Prod.snd he
          simp only at h1 h2
          rw [h1, h2, nextPos_atEnd]
          exact turns_stays hm hsome fuel _
        · obtain ⟨hspans, -⟩ := spans_some_next hr hle hend he
          rw [hspans, List.mem_cons] at hmem
          exact ih hnext (hmem.resolve_left fun h => he h.symm) fuel _

/-- The turns of a whole run of the loops of replace and split. -/
theorem turns_iff (hm : m.Fits) (limit : Nat) (l : List (Nat × Nat)) :
    (∃ fuel, turns m src limit fuel 0 0 = some l) ↔
      (StaysAtEnd m src → 0 < limit) ∧
      l = limited limit (successive m src) ++
        List.replicate (turnsAtEnd m src limit 0 (successive m src)) (src.length, src.length) := by
  constructor
  · rintro ⟨fuel, h⟩
    have hstay : StaysAtEnd m src → 0 < limit := by
      intro ⟨hmem, hsome⟩
      apply Nat.pos_of_ne_zero
      intro h0
      rw [h0, turns_diverges hm hsome _ (Nat.zero_le _) hmem] at h
      cases h
    obtain ⟨fuel', h'⟩ := @turns_value m src hm limit (src.length + 1) 0 _ (Nat.zero_le _)
      (by omega) (Nat.eq_zero_or_pos limit) (by
        intro h0 hmem
        apply Option.not_isSome_iff_eq_none.mp
        intro hsome
        have := hstay ⟨hmem, hsome⟩
        omega)
    exact ⟨hstay, turns_unique h h'⟩
  · rintro ⟨hstay, rfl⟩
    apply turns_value hm limit (src.length + 1) (Nat.zero_le _) (by omega) (Nat.eq_zero_or_pos limit)
    intro h0 hmem
    apply Option.not_isSome_iff_eq_none.mp
    intro hsome
    have := hstay ⟨hmem, hsome⟩
    omega

theorem replaceLoop_of_turns (hm : m.Fits) {repl : Bytes} {count fuel pos replaced : Nat}
    {l : List (Nat × Nat)} (hpos : pos ≤ src.length) (hcount : count = 0 ∨ replaced < count)
    (h : turns m src count fuel pos replaced = some l) (out : Bytes) :
    ∃ v, replaceLoop m src repl count fuel out pos replaced = some v ∧
      v.1 ++ src.drop v.2 = out ++ spliced src repl pos l := by
  induction fuel generalizing pos replaced l out with
  | zero => simp [turns] at h
  | succ fuel ih =>
    have hnp : ¬src.length < pos := by omega
    unfold replaceLoop
    cases hr : m (src.drop pos) with
    | none =>
      rw [turns_none hr] at h
      cases h
      exact ⟨(out, pos), by simp only [hnp, if_false], rfl⟩
    | some r =>
      obtain ⟨hle, hend⟩ := hm.span hpos hr
      obtain ⟨-, hnext⟩ := nextPos_le (s := pos + r.so) hend
      rw [turns_some hpos hcount hr, Option.map_eq_some_iff] at h
      obtain ⟨rest, hrest, rfl⟩ := h
      simp only [hnp, if_false]
      by_cases hc : 0 < count ∧ count ≤ replaced + 1
      · have hnil : rest = [] :=
          turns_unique hrest (@turns_done m src count 0 _ _ hc.1 hc.2)
        subst hnil
        rw [if_pos hc]
        exact ⟨_, rfl, by simp [spliced]⟩
      · rw [if_neg hc]
        by_cases he : r.so = r.eo ∧ pos + r.eo < src.length
        · have hn : nextPos src (pos + r.so) (pos + r.eo) = pos + r.eo + 1 :=
            if_pos ⟨by omega, he.2⟩
          rw [hn] at hrest hnext
          rw [if_pos he]
          obtain ⟨v, hv, hout⟩ := ih hnext (by omega) hrest
            (out ++ slice src pos (pos + r.so) ++ repl ++ slice src (pos + r.eo) (pos + r.eo + 1))
          refine ⟨v, hv, ?_⟩
          have hb : ∀ span ∈ rest, pos + r.eo + 1 ≤ span.1 := fun span hspan =>
            (turns_mem hm hnext hrest span hspan).1
          rw [hout]
          simp only [spliced, spliced_behind (Nat.le_succ (pos + r.eo)) hb, List.append_assoc]
        · have hn : nextPos src (pos + r.so) (pos + r.eo) = pos + r.eo := if_neg (by omega)
          rw [hn] at hrest
          rw [if_neg he]
          obtain ⟨v, hv, hout⟩ := ih hend (by omega) hrest (out ++ slice src pos (pos + r.so) ++ repl)
          refine ⟨v, hv, ?_⟩
          rw [hout]
          simp only [spliced, List.append_assoc]

theorem replaceLoop_mono {repl : Bytes} {count fuel fuel' : Nat} {out : Bytes} {pos replaced : Nat}
    {v : Bytes × Nat} (hle : fuel ≤ fuel')
    (h : replaceLoop m src repl count fuel out pos replaced = some v) :
    replaceLoop m src repl count fuel' out pos replaced = some v := by
  induction fuel generalizing fuel' out pos replaced with
  | zero => simp [replaceLoop] at h
  | succ fuel ih =>
    obtain ⟨f, rfl⟩ : ∃ f, fuel' = f + 1 := ⟨fuel' - 1, by omega⟩
    have hf : fuel ≤ f := by omega
    unfold replaceLoop at h ⊢
    by_cases hp : src.length < pos
    · simpa only [hp, if_true] using h
    cases hr : m (src.drop pos) with
    | none => simpa only [hp, if_false, hr] using h
    | some r =>
      simp only [hp, if_false, hr] at h ⊢
      by_cases hc : 0 < count ∧ count ≤ replaced + 1
      · simpa only [if_pos hc] using h
      · rw [if_neg hc] at h ⊢
        by_cases he : r.so = r.eo ∧ pos + r.eo < src.length
        · rw [if_pos he] at h ⊢
          exact ih hf h
        · rw [if_neg he] at h ⊢
          exact ih hf h

/-- When the loop of replace ends the scan has its turns. -/
theorem turns_of_replaceLoop (hm : m.Fits) {repl : Bytes} {count fuel pos replaced : Nat}
    {out : Bytes} {v : Bytes × Nat} (hpos : pos ≤ src.length)
    (hcount : count = 0 ∨ replaced < count)
    (h : replaceLoop m src repl count fuel out pos replaced = some v) :
    ∃ l, turns m src count (fuel + 1) pos replaced = some l := by
  induction fuel generalizing pos replaced out with
  | zero => simp [replaceLoop] at h
  | succ fuel ih =>
    have hnp : ¬src.length < pos := by omega
    unfold replaceLoop at h
    cases hr : m (src.drop pos) with
    | none => exact ⟨[], turns_none hr⟩
    | some r =>
      obtain ⟨hle, hend⟩ := hm.span hpos hr
      obtain ⟨-, hnext⟩ := nextPos_le (s := pos + r.so) hend
      rw [turns_some hpos hcount hr]
      simp only [hnp, if_false, hr] at h
      by_cases hc : 0 < count ∧ count ≤ replaced + 1
      · exact ⟨_, by rw [turns_done hc.1 hc.2]; rfl⟩
      · have hrest : ∃ l, turns m src count (fuel + 1) (nextPos src (pos + r.so) (pos + r.eo))
            (replaced + 1) = some l := by
          rw [if_neg hc] at h
          by_cases he : r.so = r.eo ∧ pos + r.eo < src.length
          · have hn : nextPos src (pos + r.so) (pos + r.eo) = pos + r.eo + 1 :=
              if_pos ⟨by omega, he.2⟩
            rw [if_pos he] at h
            rw [hn] at hnext ⊢
            exact ih hnext (by omega) h
          · have hn : nextPos src (pos + r.so) (pos + r.eo) = pos + r.eo := if_neg (by omega)
            rw [if_neg he] at h
            rw [hn]
            exact ih hend (by omega) h
        obtain ⟨l, hl⟩ := hrest
        exact ⟨_, by rw [hl]; rfl⟩

theorem regexReplace_iff_turns (hm : m.Fits) {repl : Bytes} {count : Int} {v : Bytes} :
    (∃ fuel, regexReplace m src repl count fuel = some v) ↔
      ∃ l, (∃ fuel, turns m src count.toNat fuel 0 0 = some l) ∧ v = spliced src repl 0 l := by
  have hcount := Nat.eq_zero_or_pos count.toNat
  constructor
  · rintro ⟨fuel, h⟩
    obtain ⟨r, hr, rfl⟩ := Option.map_eq_some_iff.mp h
    obtain ⟨l, hl⟩ := turns_of_replaceLoop hm (Nat.zero_le _) hcount hr
    obtain ⟨w, hw, hout⟩ := replaceLoop_of_turns hm (Nat.zero_le _) hcount hl []
    rw [replaceLoop_mono (Nat.le_succ fuel) hr] at hw
    cases hw
    exact ⟨l, ⟨_, hl⟩, hout⟩
  · rintro ⟨l, ⟨fuel, hl⟩, rfl⟩
    obtain ⟨w, hw, hout⟩ := replaceLoop_of_turns hm (Nat.zero_le _) hcount hl []
    exact ⟨fuel, by unfold regexReplace; rw [hw]; exact congrArg some hout⟩

theorem spans_last (hm : m.Fits) (k : Nat) {pos : Nat} (hpos : pos ≤ src.length)
    (h : (src.length, src.length) ∈ spans m src k pos) :
    (spans m src k pos).getLast? = some (src.length, src.length) := by
  induction k generalizing pos with
  | zero => simp [spans] at h
  | succ k ih =>
    cases hr : m (src.drop pos) with
    | none =>
      rw [spans_none hr] at h
      simp at h
    | some r =>
      obtain ⟨hle, hend⟩ := hm.span hpos hr
      by_cases he : (pos + r.so, pos + r.eo) = (src.length, src.length)
      · rw [spans_atEnd hr he]
        rfl
      · obtain ⟨hspans, -⟩ := spans_some_next hr hle hend he
        obtain ⟨-, hnext⟩ := nextPos_le (s := pos + r.so) hend
        rw [hspans, List.mem_cons] at h
        have hlast := ih hnext (h.resolve_left fun h => he h.symm)
        rw [hspans, List.getLast?_cons, hlast]
        rfl

theorem spliced_last {repl : Bytes} {l : List (Nat × Nat)}
    (h : l.getLast? = some (src.length, src.length)) (pos : Nat) (l' : List (Nat × Nat)) :
    spliced src repl pos (l ++ l') = spliced src repl pos l ++ spliced src repl src.length l' := by
  induction l generalizing pos with
  | nil => simp at h
  | cons span rest ih =>
    obtain ⟨s, e⟩ := span
    cases rest with
    | nil =>
      simp only [List.getLast?_singleton, Option.some.injEq, Prod.mk.injEq] at h
      obtain ⟨rfl, rfl⟩ := h
      simp [spliced]
    | cons next rest =>
      rw [List.getLast?_cons_cons] at h
      have hrest := ih h e
      rw [List.cons_append, spliced_cons, spliced_cons, hrest]
      simp only [List.append_assoc]

/-- What the turns at the end of the text add. -/
theorem spliced_atEnd (repl : Bytes) (k : Nat) :
    spliced src repl src.length (List.replicate k (src.length, src.length)) =
      (List.replicate k repl).flatten := by
  induction k with
  | zero => simp [spliced]
  | succ k ih =>
    have hslice : slice src src.length src.length = [] := by simp [slice]
    rw [List.replicate_succ, spliced, ih, hslice]
    rfl

theorem flatten_replicate_eq_nil {repl : Bytes} {k : Nat} (hk : 0 < k) :
    (List.replicate k repl).flatten = [] ↔ repl = [] := by
  rw [List.flatten_eq_nil_iff]
  constructor
  · intro h
    exact h _ (List.mem_replicate.mpr ⟨by omega, rfl⟩)
  · intro h x hx
    rw [(List.mem_replicate.mp hx).2, h]

theorem replaces_iff (hm : m.Fits) (repl : Bytes) (count : Int) :
    Replaces m src repl count ↔
      (StaysAtEnd m src → 0 < count ∧ (count ≤ (successive m src).length ∨ repl = [])) := by
  unfold Replaces
  rw [regexReplace_iff_turns hm]
  simp only [turns_iff hm]
  by_cases hstay : StaysAtEnd m src
  · have hlast : (successive m src).getLast? = some (src.length, src.length) :=
      spans_last hm _ (Nat.zero_le _) hstay.1
    have hturns : turnsAtEnd m src count.toNat 0 (successive m src) =
        count.toNat - (successive m src).length := by
      simp only [turnsAtEnd, hstay.1, hstay.2, and_self, if_true, Nat.sub_zero]
    simp only [hstay, true_imp_iff, hturns]
    constructor
    · rintro ⟨l, ⟨h0, rfl⟩, hout⟩
      refine ⟨by omega, ?_⟩
      by_cases hle : count ≤ (successive m src).length
      · exact Or.inl hle
      · have hlim : limited count.toNat (successive m src) = successive m src := by
          rw [limited, if_neg (by omega), List.take_of_length_le (by omega)]
        rw [hlim, spliced_last hlast, spliced_atEnd, List.self_eq_append_right,
          flatten_replicate_eq_nil (by omega)] at hout
        exact Or.inr hout
    · rintro ⟨h0, hcase⟩
      refine ⟨_, ⟨by omega, rfl⟩, ?_⟩
      by_cases hle : count ≤ (successive m src).length
      · rw [show count.toNat - (successive m src).length = 0 by omega]
        simp
      · have hlim : limited count.toNat (successive m src) = successive m src := by
          rw [limited, if_neg (by omega), List.take_of_length_le (by omega)]
        rw [hlim, spliced_last hlast, spliced_atEnd, hcase.resolve_left hle]
        simp
  · have hturns : turnsAtEnd m src count.toNat 0 (successive m src) = 0 := if_neg hstay
    simp only [hstay, false_imp_iff, true_and, hturns, iff_true]
    exact ⟨_, rfl, by simp⟩

/-- The parts and the separators that split cuts the text into, and the position at the end. -/
def cuts (src : Bytes) : Nat → List (Nat × Nat) → List (Bytes × Bytes) × Nat
  | pos, [] => ([], pos)
  | pos, (s, e) :: rest =>
    let behind := cuts src (nextPos src s e) rest
    ((slice src pos s, slice src s e) :: behind.1, behind.2)

theorem splitLoop_eq (hm : m.Fits) {maxsplit fuel pos splits : Nat} (hpos : pos ≤ src.length) :
    splitLoop m src maxsplit fuel pos splits =
      (turns m src maxsplit fuel pos splits).map (cuts src pos) := by
  induction fuel generalizing pos splits with
  | zero => rfl
  | succ fuel ih =>
    unfold splitLoop
    by_cases hd : 0 < maxsplit ∧ maxsplit ≤ splits
    · rw [turns_done hd.1 hd.2]
      simp only [if_pos hd, ite_self]
      rfl
    cases hr : m (src.drop pos) with
    | none =>
      rw [turns_none hr]
      simp only [ite_self]
      rfl
    | some r =>
      obtain ⟨hle, hend⟩ := hm.span hpos hr
      obtain ⟨-, hnext⟩ := nextPos_le (s := pos + r.so) hend
      have hn : (if r.so = r.eo ∧ pos + r.eo < src.length then pos + r.eo + 1 else pos + r.eo) =
          nextPos src (pos + r.so) (pos + r.eo) := by
        simp only [nextPos, Nat.add_left_cancel_iff]
      rw [turns_some hpos (by omega) hr]
      simp only [show ¬src.length < pos by omega, if_false, if_neg hd, hn, ih hnext, Option.map_map]
      rfl

/-- The parts and the separators one behind the other. -/
def joined (src : Bytes) (pos : Nat) (l : List (Nat × Nat)) : Bytes :=
  ((cuts src pos l).1.flatMap fun c => c.1 ++ c.2) ++ src.drop (cuts src pos l).2

theorem joined_cons {pos s e : Nat} (hs : pos ≤ s) (he : s ≤ e) (rest : List (Nat × Nat)) :
    joined src pos ((s, e) :: rest) = slice src pos e ++ joined src (nextPos src s e) rest := by
  simp only [joined, cuts, List.flatMap_cons, List.append_assoc]
  rw [← slice_append hs he, List.append_assoc]

def lostBytes (src : Bytes) (l : List (Nat × Nat)) : Nat :=
  l.countP fun span => span.1 = span.2 ∧ span.2 < src.length

/-- A byte is lost behind each match that is empty and before the end of the text. -/
theorem length_joined (hm : m.Fits) {limit fuel pos done : Nat} {l : List (Nat × Nat)}
    (hpos : pos ≤ src.length) (h : turns m src limit fuel pos done = some l) :
    (joined src pos l).length + lostBytes src l = src.length - pos ∧
      (lostBytes src l = 0 → joined src pos l = src.drop pos) := by
  induction fuel generalizing pos done l with
  | zero => simp [turns] at h
  | succ fuel ih =>
    have hnil : (joined src pos []).length + lostBytes src [] = src.length - pos ∧
        (lostBytes src [] = 0 → joined src pos [] = src.drop pos) := by
      simp [joined, cuts, lostBytes]
    by_cases hd : 0 < limit ∧ limit ≤ done
    · rw [turns_done hd.1 hd.2] at h
      cases h
      exact hnil
    cases hr : m (src.drop pos) with
    | none =>
      rw [turns_none hr] at h
      cases h
      exact hnil
    | some r =>
      obtain ⟨hle, hend⟩ := hm.span hpos hr
      obtain ⟨-, hnext⟩ := nextPos_le (s := pos + r.so) hend
      rw [turns_some hpos (by omega) hr, Option.map_eq_some_iff] at h
      obtain ⟨rest, hrest, rfl⟩ := h
      obtain ⟨hlen, hkept⟩ := ih hnext hrest
      rw [joined_cons (by omega) (by omega), List.length_append, length_slice hend]
      unfold nextPos at hlen hkept hnext ⊢
      by_cases he : pos + r.so = pos + r.eo ∧ pos + r.eo < src.length
      · have hlost : lostBytes src ((pos + r.so, pos + r.eo) :: rest) = lostBytes src rest + 1 := by
          unfold lostBytes
          rw [List.countP_cons, if_pos (by simpa using he)]
        rw [if_pos he] at hlen hkept hnext ⊢
        rw [hlost]
        exact ⟨by omega, fun h => absurd h (Nat.succ_ne_zero _)⟩
      · have hlost : lostBytes src ((pos + r.so, pos + r.eo) :: rest) = lostBytes src rest := by
          unfold lostBytes
          rw [List.countP_cons, if_neg (by simpa using he), Nat.add_zero]
        rw [if_neg he] at hlen hkept hnext ⊢
        rw [hlost]
        refine ⟨by omega, fun h0 => ?_⟩
        rw [hkept h0, slice_drop (by omega)]

theorem splits_iff_turns (hm : m.Fits) (maxsplit : Int) :
    Splits m src maxsplit ↔
      ∃ l, (∃ fuel, turns m src maxsplit.toNat fuel 0 0 = some l) ∧ joined src 0 l = src := by
  unfold Splits
  simp only [splitLoop_eq hm (Nat.zero_le _), Option.map_eq_some_iff]
  constructor
  · rintro ⟨fuel, parts, pos, ⟨l, hl, hcuts⟩, htext⟩
    refine ⟨l, ⟨fuel, hl⟩, ?_⟩
    unfold joined
    rw [hcuts]
    exact htext
  · rintro ⟨l, ⟨fuel, hl⟩, htext⟩
    exact ⟨fuel, (cuts src 0 l).1, (cuts src 0 l).2, ⟨l, hl, rfl⟩, htext⟩

theorem splits_iff (hm : m.Fits) (maxsplit : Int) :
    Splits m src maxsplit ↔
      SplitsBetween m src maxsplit ∧ (StaysAtEnd m src → 0 < maxsplit) := by
  rw [splits_iff_turns hm]
  have hlost : ∀ l k, (∀ span ∈ l, span.2 ≤ src.length) →
      (lostBytes src (l ++ List.replicate k (src.length, src.length)) = 0 ↔
        ∀ span ∈ l, span.1 = span.2 → span.2 = src.length) := by
    intro l k hl
    have hk : (List.replicate k (src.length, src.length)).countP
        (fun span => decide (span.1 = span.2 ∧ span.2 < src.length)) = 0 := by
      rw [List.countP_eq_zero]
      intro span hspan
      simp [(List.mem_replicate.mp hspan).2]
    unfold lostBytes
    rw [List.countP_append, hk, Nat.add_zero, List.countP_eq_zero]
    apply forall₂_congr
    intro span hspan
    have := hl span hspan
    simp only [decide_eq_true_eq, not_and]
    constructor
    · intro h he
      have := h he
      omega
    · intro h he
      have := h he
      omega
  have hend : ∀ span ∈ limited maxsplit.toNat (successive m src), span.2 ≤ src.length := by
    intro span hspan
    rw [← remaining_zero] at hspan
    exact (spans_mem hm (Nat.zero_le _) (remaining_subset hspan)).2.2
  constructor
  · rintro ⟨l, hl, htext⟩
    obtain ⟨fuel, hrun⟩ := hl
    obtain ⟨hstay, rfl⟩ := (turns_iff hm _ _).mp ⟨fuel, hrun⟩
    obtain ⟨hlen, -⟩ := length_joined hm (Nat.zero_le _) hrun
    rw [htext] at hlen
    exact ⟨(hlost _ _ hend).mp (Nat.add_left_cancel (k := 0) hlen),
      fun hs => by have := hstay hs; omega⟩
  · rintro ⟨hbetween, hstay⟩
    obtain ⟨fuel, hrun⟩ := (turns_iff hm maxsplit.toNat _).mpr
      ⟨fun hs => by have := hstay hs; omega, rfl⟩
    obtain ⟨-, hkept⟩ := length_joined hm (Nat.zero_le _) hrun
    exact ⟨_, ⟨fuel, hrun⟩, hkept ((hlost _ _ hend).mpr hbetween)⟩

theorem finditerLoop_none {fuel pos : Nat} (h : m (src.drop pos) = none) :
    finditerLoop m src (fuel + 1) pos = some [] := by
  unfold finditerLoop
  simp only [h, ite_self]

theorem finditerLoop_some {fuel pos : Nat} {r : Match} (hpos : pos ≤ src.length)
    (h : m (src.drop pos) = some r) :
    finditerLoop m src (fuel + 1) pos =
      (if r.so = r.eo then if pos < src.length then finditerLoop m src fuel (pos + 1) else some []
        else finditerLoop m src fuel (pos + r.eo)).map (buildMatchResult src r pos :: ·) := by
  conv_lhs => unfold finditerLoop
  simp only [show ¬src.length < pos by omega, if_false, h]

/-- The loop of finditer comes to its end. -/
theorem finditerLoop_ends (hm : m.Fits) (fuel : Nat) {pos : Nat} (hpos : pos ≤ src.length)
    (hfuel : src.length < pos + fuel) : ∃ results, finditerLoop m src fuel pos = some results := by
  induction fuel generalizing pos with
  | zero => omega
  | succ fuel ih =>
    cases hr : m (src.drop pos) with
    | none => exact ⟨[], finditerLoop_none hr⟩
    | some r =>
      obtain ⟨hle, hend⟩ := hm.span hpos hr
      rw [finditerLoop_some hpos hr]
      by_cases he : r.so = r.eo
      · by_cases hlt : pos < src.length
        · obtain ⟨rest, hrest⟩ := @ih (pos + 1) (by omega) (by omega)
          exact ⟨_, by rw [if_pos he, if_pos hlt, hrest]; rfl⟩
        · exact ⟨_, by rw [if_pos he, if_neg hlt]; rfl⟩
      · obtain ⟨rest, hrest⟩ := @ih (pos + r.eo) hend (by omega)
        exact ⟨_, by rw [if_neg he, hrest]; rfl⟩

/-- The second result lies behind the first. -/
def Behind (a b : MatchResult) : Prop := a.start < b.start ∧ a.finish < b.start

theorem Behind.trans {a b c : MatchResult} (hab : Behind a b) (hbc : Behind b c) : Behind a c := by
  unfold Behind at *
  omega

theorem finditerLoop_head {fuel pos : Nat} {results : List MatchResult} (hpos : pos ≤ src.length)
    (h : finditerLoop m src fuel pos = some results) :
    (m (src.drop pos) = none ∧ results = []) ∨
      ∃ r rest, m (src.drop pos) = some r ∧ results = buildMatchResult src r pos :: rest := by
  cases fuel with
  | zero => simp [finditerLoop] at h
  | succ fuel =>
    cases hr : m (src.drop pos) with
    | none =>
      rw [finditerLoop_none hr] at h
      exact Or.inl ⟨rfl, (Option.some.inj h).symm⟩
    | some r =>
      rw [finditerLoop_some hpos hr, Option.map_eq_some_iff] at h
      obtain ⟨rest, -, rfl⟩ := h
      exact Or.inr ⟨r, rest, rfl, rfl⟩

theorem pairwise_cons_of_head {a : MatchResult} {l : List MatchResult} (hl : l.Pairwise Behind)
    (hhead : ∀ b rest, l = b :: rest → Behind a b) : (a :: l).Pairwise Behind := by
  rw [List.pairwise_cons]
  refine ⟨?_, hl⟩
  cases l with
  | nil => simp
  | cons b rest =>
    have hab := hhead b rest rfl
    intro c hc
    rw [List.mem_cons] at hc
    obtain rfl | hc := hc
    · exact hab
    · exact hab.trans ((List.pairwise_cons.mp hl).1 c hc)

/-- The searches from `pos` on are the one from `pos` and those that the next one leads to. -/
theorem forall_advances {p : Nat → Prop} {pos next : Nat}
    (hnext : ∀ q, Advances m src pos q ↔ q = next) :
    (∀ q, Relation.ReflTransGen (Advances m src) pos q → p q) ↔
      p pos ∧ ∀ q, Relation.ReflTransGen (Advances m src) next q → p q := by
  constructor
  · intro h
    exact ⟨h pos Relation.ReflTransGen.refl, fun q hq => h q (hq.head ((hnext next).mpr rfl))⟩
  · rintro ⟨h0, h⟩ q hq
    obtain rfl | ⟨q', hstep, hrest⟩ := Relation.ReflTransGen.cases_head hq
    · exact h0
    · rw [(hnext q').mp hstep] at hrest
      exact h q hrest

theorem forall_advances_last {p : Nat → Prop} {pos : Nat} (hnext : ∀ q, ¬Advances m src pos q) :
    (∀ q, Relation.ReflTransGen (Advances m src) pos q → p q) ↔ p pos := by
  constructor
  · intro h
    exact h pos Relation.ReflTransGen.refl
  · intro h q hq
    obtain rfl | ⟨q', hstep, -⟩ := Relation.ReflTransGen.cases_head hq
    · exact h
    · exact absurd hstep (hnext q')

theorem advances_iff {pos q : Nat} {r : Match} (hr : m (src.drop pos) = some r) :
    Advances m src pos q ↔
      r.so < r.eo ∧ q = pos + r.eo ∨ r.so = r.eo ∧ pos < src.length ∧ q = pos + 1 := by
  unfold Advances
  simp [hr]

/-- The results from a position on lie one behind the other if and only if no search finds an empty
match again. -/
theorem finditerLoop_pairwise_iff (hm : m.Fits) (fuel : Nat) {pos : Nat} {results : List MatchResult}
    (hpos : pos ≤ src.length) (h : finditerLoop m src fuel pos = some results) :
    results.Pairwise Behind ↔
      ∀ q, Relation.ReflTransGen (Advances m src) pos q → LeavesEmpty m src q := by
  induction fuel generalizing pos results with
  | zero => simp [finditerLoop] at h
  | succ fuel ih =>
    cases hr : m (src.drop pos) with
    | none =>
      rw [finditerLoop_none hr] at h
      cases h
      have hlast : ∀ q, ¬Advances m src pos q := by
        intro q ⟨r, h, _⟩
        rw [hr] at h
        cases h
      rw [forall_advances_last hlast]
      refine iff_of_true List.Pairwise.nil ?_
      intro r r' _ h
      rw [hr] at h
      cases h
    | some r =>
      obtain ⟨hle, hend⟩ := hm.span hpos hr
      rw [finditerLoop_some hpos hr, Option.map_eq_some_iff] at h
      obtain ⟨rest, hrest, rfl⟩ := h
      by_cases he : r.so = r.eo
      · rw [if_pos he] at hrest
        by_cases hlt : pos < src.length
        · rw [if_pos hlt] at hrest
          have hnext : ∀ q, Advances m src pos q ↔ q = pos + 1 := by
            intro q
            rw [advances_iff hr]
            omega
          have hleaves : LeavesEmpty m src pos ↔
              ∀ r', m (src.drop (pos + 1)) = some r' → r.so ≤ r'.so := by
            constructor
            · intro h r' hr'
              exact h r r' hlt hr he hr'
            · intro h r₁ r' _ hr₁ _ hr'
              rw [hr] at hr₁
              cases hr₁
              exact h r' hr'
          rw [forall_advances hnext, ← ih (by omega) hrest, hleaves]
          constructor
          · intro hp
            obtain ⟨hhead, htail⟩ := List.pairwise_cons.mp hp
            refine ⟨?_, htail⟩
            intro r' hr'
            obtain ⟨hnone, -⟩ | ⟨r₁, tail, hr₁, hcons⟩ := finditerLoop_head (by omega) hrest
            · rw [hnone] at hr'
              cases hr'
            · rw [hr₁] at hr'
              obtain rfl := Option.some.inj hr'
              have hb := hhead _ (by rw [hcons]; exact List.mem_cons_self ..)
              have hstart : pos + r.so + 1 < pos + 1 + r₁.so + 1 := hb.1
              omega
          · rintro ⟨hleave, htail⟩
            apply pairwise_cons_of_head htail
            intro b tail hcons
            obtain ⟨-, hnil⟩ | ⟨r₁, tail', hr₁, hcons'⟩ := finditerLoop_head (by omega) hrest
            · rw [hnil] at hcons
              cases hcons
            · rw [hcons'] at hcons
              cases hcons
              have hso := hleave r₁ hr₁
              refine ⟨?_, ?_⟩ <;> simp only [buildMatchResult] <;> omega
        · rw [if_neg hlt] at hrest
          cases hrest
          have hlast : ∀ q, ¬Advances m src pos q := by
            intro q
            rw [advances_iff hr]
            omega
          rw [forall_advances_last hlast]
          exact iff_of_true (List.pairwise_singleton ..) fun r r' h => absurd h hlt
      · rw [if_neg he] at hrest
        have hnext : ∀ q, Advances m src pos q ↔ q = pos + r.eo := by
          intro q
          rw [advances_iff hr]
          omega
        have hleaves : LeavesEmpty m src pos := by
          intro r₁ r' _ h h1
          rw [hr] at h
          cases h
          exact absurd h1 he
        rw [forall_advances hnext, ← ih hend hrest]
        constructor
        · intro hp
          exact ⟨hleaves, (List.pairwise_cons.mp hp).2⟩
        · rintro ⟨-, htail⟩
          apply pairwise_cons_of_head htail
          intro b tail hcons
          obtain ⟨-, hnil⟩ | ⟨r₁, tail', hr₁, hcons'⟩ := finditerLoop_head hend hrest
          · rw [hnil] at hcons
            cases hcons
          · rw [hcons'] at hcons
            cases hcons
            refine ⟨?_, ?_⟩ <;> simp only [buildMatchResult] <;> omega

theorem finds_iff (hm : m.Fits) :
    Finds (finditerLoop m src · 0) ↔
      ∀ q, Relation.ReflTransGen (Advances m src) 0 q → LeavesEmpty m src q := by
  constructor
  · rintro ⟨fuel, results, h, hpairs⟩
    exact (finditerLoop_pairwise_iff hm fuel (Nat.zero_le _) h).mp hpairs
  · intro hleaves
    obtain ⟨results, h⟩ := @finditerLoop_ends m src hm (src.length + 1) 0 (Nat.zero_le _) (by omega)
    exact ⟨_, results, h, (finditerLoop_pairwise_iff hm _ (Nat.zero_le _) h).mpr hleaves⟩

end Scan

/-- The first occurrence of a byte. -/
def byteMatcher (b : UInt8) : Matcher := fun s =>
  if s.idxOf b < s.length then some ⟨s.idxOf b, s.idxOf b + 1, []⟩ else none

theorem byteMatcher_some {b : UInt8} {s : Bytes} {r : Match} (h : byteMatcher b s = some r) :
    r.so < r.eo ∧ r.eo ≤ s.length := by
  unfold byteMatcher at h
  split at h
  next hlt =>
    cases h
    exact ⟨Nat.lt_succ_self _, hlt⟩
  next => cases h

theorem byteMatcher_fits (b : UInt8) : (byteMatcher b).Fits := by
  intro s r h
  obtain ⟨hlt, hend⟩ := byteMatcher_some h
  exact ⟨Nat.le_of_lt hlt, hend⟩

/-- A pattern that matches the empty text everywhere, such as an optional one that is not there. -/
def emptyMatcher : Matcher := fun _ => some ⟨0, 0, []⟩

/-- A pattern that matches the end of the text. -/
def endMatcher : Matcher := fun s => some ⟨s.length, s.length, []⟩

end ToiLang.Regex
