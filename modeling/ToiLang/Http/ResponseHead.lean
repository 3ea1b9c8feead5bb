import ToiLang.Http.Connection
import ToiLang.Http.Locality

namespace ToiLang.Http

/-! The lines of a response head, and what `upsert_response_header` makes of them. -/

/-- The lines of a text, with fuel for each of its bytes. -/
def crlfLinesFrom : Nat → Bytes → List Bytes
  | 0, s => [s]
  | fuel + 1, s =>
    match findCrlf s with
    | none => [s]
    | some n => s.take n :: crlfLinesFrom fuel (s.drop (n + 2))

def crlfLines (s : Bytes) : List Bytes := crlfLinesFrom s.length s

theorem crlfLinesFrom_spec {fuel : Nat} {s : Bytes} (hfuel : s.length ≤ fuel) :
    joinLines (crlfLinesFrom fuel s) = s ++ crlf ∧ ∀ l ∈ crlfLinesFrom fuel s, findCrlf l = none := by
  induction fuel generalizing s with
  | zero =>
    have hnil : s = [] := List.length_eq_zero_iff.mp (by omega)
    subst hnil
    refine ⟨rfl, fun l hl => ?_⟩
    rw [List.mem_singleton.mp hl]
    rfl
  | succ fuel ih =>
    rw [crlfLinesFrom]
    cases hn : findCrlf s with
    | none =>
      refine ⟨by simp [joinLines, crlf], fun l hl => ?_⟩
      rw [List.mem_singleton.mp hl]
      exact hn
    | some n =>
      obtain ⟨hlen, hcut⟩ := findCrlf_some hn
      have hdrop : (s.drop (n + 2)).length ≤ fuel := by
        rw [List.length_drop]
        omega
      obtain ⟨hjoin, hlines⟩ := ih hdrop
      refine ⟨?_, fun l hl => ?_⟩
      · have hcons := joinLines_cons (s.take n) (crlfLinesFrom fuel (s.drop (n + 2))) []
        rw [List.append_nil, List.append_nil, hjoin] at hcons
        rw [hcons]
        conv_rhs => rw [hcut]
        simp
      · rcases List.mem_cons.mp hl with rfl | hl
        · exact findCrlf_take hn
        · exact hlines l hl

theorem crlfLines_join (s : Bytes) : joinLines (crlfLines s) = s ++ crlf :=
  (crlfLinesFrom_spec (Nat.le_refl _)).1

theorem crlfLines_free {s l : Bytes} (h : l ∈ crlfLines s) : findCrlf l = none :=
  (crlfLinesFrom_spec (Nat.le_refl _)).2 l h

theorem crlfLines_of_free {s : Bytes} (h : findCrlf s = none) : crlfLines s = [s] := by
  unfold crlfLines
  cases s with
  | nil => rfl
  | cons c s => rw [List.length_cons, crlfLinesFrom, h]

theorem indexOf_eq {needle s : Bytes} {n : Nat} (hne : needle ≠ []) (hat : needle <+: s.drop n)
    (hfirst : ∀ m < n, ¬needle <+: s.drop m) : indexOf needle s = some n := by
  induction n generalizing s with
  | zero =>
    cases s with
    | nil =>
      rw [List.drop_nil] at hat
      exact absurd (List.prefix_nil.mp hat) hne
    | cons c s =>
      rw [List.drop_zero] at hat
      rw [indexOf, if_pos (List.isPrefixOf_iff_prefix.mpr hat)]
  | succ n ih =>
    cases s with
    | nil =>
      rw [List.drop_nil] at hat
      exact absurd (List.prefix_nil.mp hat) hne
    | cons c s =>
      have h0 : ¬needle <+: c :: s := hfirst 0 (Nat.succ_pos n)
      have hrest := ih hat fun m hm => hfirst (m + 1) (Nat.succ_lt_succ hm)
      rw [indexOf, if_neg (fun hp => h0 (List.isPrefixOf_iff_prefix.mp hp)), hrest, Option.map_some]

theorem indexOf_none {needle s : Bytes} (h : ∀ m, ¬needle <+: s.drop m) :
    indexOf needle s = none := by
  induction s with
  | nil => rfl
  | cons c s ih =>
    have h0 : ¬needle <+: c :: s := h 0
    have hrest := ih fun m => h (m + 1)
    rw [indexOf, if_neg (fun hp => h0 (List.isPrefixOf_iff_prefix.mp hp)), hrest, Option.map_none]

theorem stringTrim_inside (s : Bytes) : stringTrim s <:+: s :=
  (List.rdropWhile_prefix _ _).isInfix.trans (List.dropWhile_suffix _).isInfix

theorem stringTrim_plain {s : Bytes} (hs : ∀ c ∈ s, isBlank c = false) : stringTrim s = s := by
  have hfront : s.dropWhile isBlank = s := by
    cases s with
    | nil => rfl
    | cons c s => exact List.dropWhile_cons_of_neg (by simp [hs c List.mem_cons_self])
  unfold stringTrim
  rw [hfront, List.rdropWhile_eq_self_iff]
  intro hne
  rw [hs _ (List.getLast_mem hne)]
  decide

/-- `strstr` of one character that stands behind others. -/
theorem strstr_char {a : Bytes} {c : UInt8} (ha : ∀ d ∈ a, d ≠ c ∧ d ≠ 0) (hc : c ≠ 0) (b : Bytes) :
    strstr (a ++ c :: b) [c] = some a.length := by
  have hall : ∀ d ∈ a, decide (d ≠ 0) = true := fun d hd => decide_eq_true (ha d hd).2
  rw [strstr, List.takeWhile_append_of_pos hall, List.takeWhile_cons_of_pos (by simpa using hc)]
  refine indexOf_eq (by simp) ?_ fun m hm hat => ?_
  · rw [List.drop_left]
    exact ⟨_, rfl⟩
  · rw [List.drop_append_of_le_length (Nat.le_of_lt hm), List.drop_eq_getElem_cons hm] at hat
    obtain ⟨t, ht⟩ := hat
    obtain ⟨heq, -⟩ := List.cons.inj ht
    exact (ha _ (List.getElem_mem hm)).1 heq.symm

theorem strstr_absent {s : Bytes} {c : UInt8} (hs : ∀ d ∈ s, d ≠ c) : strstr s [c] = none := by
  refine indexOf_none fun m hat => ?_
  obtain ⟨t, ht⟩ := hat
  have hmem : c ∈ (s.takeWhile (· ≠ 0)).drop m := by
    rw [← ht]
    exact List.mem_cons_self
  exact hs c ((List.takeWhile_prefix _).subset (List.mem_of_mem_drop hmem)) rfl

/-- No line break begins inside of a line, nor at its end behind it. -/
theorem not_break_inside {line rest : Bytes} (hline : findCrlf line = none) (hrest : rest.head? ≠ some 10)
    {m : Nat} (hm : m < line.length) : ¬crlf <+: (line ++ rest).drop m := by
  induction line generalizing m with
  | nil => cases hm
  | cons a line ih =>
    cases line with
    | nil =>
      have h0 : m = 0 := Nat.lt_one_iff.mp hm
      subst h0
      rintro ⟨t, ht⟩
      cases rest with
      | nil => cases ht
      | cons b rest =>
        obtain ⟨-, ht⟩ := List.cons.inj ht
        obtain ⟨rfl, -⟩ := List.cons.inj ht
        exact hrest rfl
    | cons b line =>
      have hsplit : ¬(a = 13 ∧ b = 10) := by
        intro he
        rw [findCrlf, if_pos he] at hline
        cases hline
      rw [findCrlf, if_neg hsplit, Option.map_eq_none_iff] at hline
      cases m with
      | zero =>
        rintro ⟨t, ht⟩
        obtain ⟨ha, ht⟩ := List.cons.inj ht
        obtain ⟨hb, -⟩ := List.cons.inj ht
        exact hsplit ⟨ha.symm, hb.symm⟩
      | succ m => exact ih hline (Nat.lt_of_succ_lt_succ hm)

theorem indexOf_crlf {line : Bytes} (hline : findCrlf line = none) (rest : Bytes) :
    indexOf crlf (line ++ crlf ++ rest) = some line.length := by
  refine indexOf_eq (by decide) ?_ fun m hm => ?_
  · rw [List.append_assoc, List.drop_left]
    exact List.prefix_append _ _
  · rw [List.append_assoc]
    exact not_break_inside hline (by simp [crlf]) hm

theorem indexOf_crlf_none {line : Bytes} (hline : findCrlf line = none) : indexOf crlf line = none := by
  refine indexOf_none fun m => ?_
  by_cases hm : m < line.length
  · have h := @not_break_inside line [] hline (by simp) m hm
    rwa [List.append_nil] at h
  · rw [List.drop_eq_nil_of_le (Nat.not_lt.mp hm)]
    intro h
    cases List.prefix_nil.mp h

/-- A line and lines that are not empty, with line breaks between them. -/
def joined (line : Bytes) : List Bytes → Bytes
  | [] => line
  | l :: ls => line ++ crlf ++ joined l ls

theorem joined_crlf (line : Bytes) (ls : List Bytes) (rest : Bytes) :
    joined line ls ++ 13 :: 10 :: rest = line ++ 13 :: 10 :: (joinLines ls ++ rest) := by
  induction ls generalizing line with
  | nil => rfl
  | cons l ls ih =>
    rw [joined, List.append_assoc, ih, joinLines_cons]
    simp [crlf]

theorem intercalate_joined (line : Bytes) (ls : List Bytes) : crlf.intercalate (line :: ls) = joined line ls := by
  induction ls generalizing line with
  | nil => simp [joined]
  | cons l ls ih => rw [List.intercalate_cons_cons, ih, joined]

theorem joined_length (line : Bytes) (ls : List Bytes) : ls.length ≤ (joined line ls).length := by
  induction ls generalizing line with
  | nil => exact Nat.zero_le _
  | cons l ls ih =>
    have h := ih l
    simp only [joined, List.length_append, List.length_cons, crlf, List.length_nil]
    omega

/-- The first empty line of a text is the one behind its lines. -/
theorem blank_behind {line rest : Bytes} {ls : List Bytes} (hline : findCrlf line = none)
    (hls : ∀ l ∈ ls, HeadLine l) {m : Nat}
    (h : crlf ++ crlf <+: (joined line ls ++ 13 :: 10 :: 13 :: 10 :: rest).drop m) :
    (joined line ls).length ≤ m := by
  induction ls generalizing line m with
  | nil =>
    by_contra hm
    have hcrlf : crlf <+: (line ++ 13 :: 10 :: 13 :: 10 :: rest).drop m := (List.prefix_append _ _).trans h
    exact not_break_inside hline (by simp) (Nat.not_le.mp hm) hcrlf
  | cons l ls ih =>
    obtain ⟨hne, hl⟩ := hls l List.mem_cons_self
    have hrest : ∀ l' ∈ ls, HeadLine l' := fun l' hl' => hls l' (List.mem_cons_of_mem _ hl')
    have hcut : joined line (l :: ls) ++ 13 :: 10 :: 13 :: 10 :: rest =
        line ++ 13 :: 10 :: (joined l ls ++ 13 :: 10 :: 13 :: 10 :: rest) := by
      simp [joined, crlf]
    rw [hcut] at h
    have hcrlf := (List.prefix_append crlf crlf).trans h
    have hpast : line.length ≤ m := by
      by_contra hm
      exact not_break_inside hline (by simp) (Nat.not_le.mp hm) hcrlf
    obtain ⟨k, rfl⟩ := Nat.exists_eq_add_of_le hpast
    rw [← List.drop_drop, List.drop_left] at h
    cases k with
    | zero =>
      -- behind the break of the line stands the next line, which is not empty
      have hnext : crlf <+: joined l ls ++ 13 :: 10 :: 13 :: 10 :: rest := by
        obtain ⟨t, ht⟩ := h
        exact ⟨t, (List.cons.inj (List.cons.inj ht).2).2⟩
      rw [joined_crlf] at hnext
      exact absurd hnext (not_break_inside hl (by simp) (List.length_pos_iff.mpr hne))
    | succ k =>
      cases k with
      | zero =>
        obtain ⟨t, ht⟩ := h
        exact absurd (List.cons.inj ht).1 (by decide)
      | succ k =>
        have hle := ih hl hrest h
        simp only [joined, List.length_append, crlf, List.length_cons, List.length_nil]
        omega

variable {line rest : Bytes} {ls : List Bytes}

theorem indexOf_blank (hline : findCrlf line = none) (hls : ∀ l ∈ ls, HeadLine l) (rest : Bytes) :
    indexOf (crlf ++ crlf) (joined line ls ++ 13 :: 10 :: 13 :: 10 :: rest) =
      some (joined line ls).length := by
  refine indexOf_eq (by decide) ?_ fun m hm h => ?_
  · rw [List.drop_left]
    exact ⟨rest, rfl⟩
  · have hle := blank_behind hline hls h
    omega

theorem takeWhile_no_zero {s : Bytes} (h : (0 : UInt8) ∉ s) : s.takeWhile (· ≠ 0) = s := by
  refine List.takeWhile_eq_self_iff.mpr fun c hc => ?_
  have hne : c ≠ 0 := fun h0 => h (h0 ▸ hc)
  simpa using hne

/-- The end of the head is found if no zero byte stands in front of it. -/
theorem strstr_blank (hline : findCrlf line = none) (hls : ∀ l ∈ ls, HeadLine l) (rest : Bytes) :
    strstr (joined line ls ++ 13 :: 10 :: 13 :: 10 :: rest) (crlf ++ crlf) =
      if (0 : UInt8) ∈ joined line ls then none else some (joined line ls).length := by
  unfold strstr
  split_ifs with h0
  · obtain ⟨a, b, hab, ha⟩ := List.eq_append_cons_of_mem h0
    have hcut : (joined line ls ++ 13 :: 10 :: 13 :: 10 :: rest).takeWhile (· ≠ 0) = a := by
      have hall : ∀ c ∈ a, decide (c ≠ 0) = true := by
        intro c hc
        have hne : c ≠ 0 := fun he => ha (he ▸ hc)
        simpa using hne
      rw [hab, List.append_assoc, List.takeWhile_append_of_pos hall]
      simp
    rw [hcut]
    refine indexOf_none fun m hm => ?_
    have hlong : crlf ++ crlf <+: (joined line ls ++ 13 :: 10 :: 13 :: 10 :: rest).drop m := by
      rw [hab, List.append_assoc, List.drop_append]
      exact hm.trans (List.prefix_append _ _)
    have hle := blank_behind hline hls hlong
    have hlen := hm.length_le
    rw [hab, List.length_append, List.length_cons] at hle
    simp only [List.length_append, List.length_drop, crlf, List.length_cons, List.length_nil] at hlen
    omega
  · have hcut : (joined line ls ++ 13 :: 10 :: 13 :: 10 :: rest).takeWhile (· ≠ 0) =
        joined line ls ++ 13 :: 10 :: 13 :: 10 :: rest.takeWhile (· ≠ 0) := by
      have hall : ∀ c ∈ joined line ls, decide (c ≠ 0) = true := by
        intro c hc
        have hne : c ≠ 0 := fun he => h0 (he ▸ hc)
        simpa using hne
      rw [List.takeWhile_append_of_pos hall]
      simp
    rw [hcut, indexOf_blank hline hls]

theorem splitWith_joined (hline : findCrlf line = none) (hls : ∀ l ∈ ls, HeadLine l)
    (h0 : (0 : UInt8) ∉ joined line ls) {fuel : Nat} (hfuel : ls.length < fuel) :
    splitWith crlf fuel (joined line ls) = line :: ls := by
  induction ls generalizing line fuel with
  | nil =>
    obtain ⟨fuel, rfl⟩ := Nat.exists_eq_succ_of_ne_zero (Nat.ne_of_gt hfuel)
    rw [joined] at h0
    rw [splitWith, joined, strstr, takeWhile_no_zero h0, indexOf_crlf_none hline]
  | cons l ls ih =>
    obtain ⟨fuel, rfl⟩ := Nat.exists_eq_succ_of_ne_zero (Nat.ne_of_gt (Nat.lt_of_le_of_lt (Nat.zero_le _) hfuel))
    obtain ⟨-, hl⟩ := hls l List.mem_cons_self
    have hrest := ih hl (fun l' hl' => hls l' (List.mem_cons_of_mem _ hl'))
      (fun hmem => h0 (by rw [joined]; exact List.mem_append_right _ hmem))
      (show ls.length < fuel by rw [List.length_cons] at hfuel; omega)
    have hdrop : (line ++ crlf ++ joined l ls).drop (line.length + crlf.length) = joined l ls := by
      rw [← List.length_append, List.drop_left]
    rw [splitWith, strstr, takeWhile_no_zero h0, joined, indexOf_crlf hline]
    dsimp only
    rw [hdrop, hrest, List.append_assoc, List.take_left]

/-- `upsert_response_header` on a text with a line and headers: it goes over the headers, if no zero
byte stands in front of their end. -/
theorem upsertResponseHeader_head (hline : findCrlf line = none) (hls : ∀ l ∈ ls, HeadLine l)
    (key value rest : Bytes) :
    upsertResponseHeader (line ++ 13 :: 10 :: (joinLines ls ++ 13 :: 10 :: rest)) key value =
      if (0 : UInt8) ∈ joined line ls then line ++ 13 :: 10 :: (joinLines ls ++ 13 :: 10 :: rest)
      else line ++ 13 :: 10 :: (joinLines (upsertLines (key.map toLower) (key ++ [58, 32] ++ value) false ls) ++
        13 :: 10 :: rest) := by
  rw [upsertResponseHeader, ← joined_crlf, strstr_blank hline hls]
  split_ifs with h0
  · rfl
  · have hlen := joined_length line ls
    have htake : (joined line ls ++ 13 :: 10 :: 13 :: 10 :: rest).take (joined line ls).length = joined line ls :=
      List.take_left
    have hdrop : (joined line ls ++ 13 :: 10 :: 13 :: 10 :: rest).drop ((joined line ls).length + 4) = rest := by
      rw [← List.drop_drop, List.drop_left]
      rfl
    dsimp only
    rw [htake, splitWith_joined hline hls h0 (by omega), hdrop]
    dsimp only
    rw [intercalate_joined, ← joined_crlf]
    simp [crlf]

/-- Only lines that name the header are taken out, and only one is put in. -/
theorem mem_upsertLines {target entry : Bytes} {replaced : Bool} {l : Bytes}
    (h : l ∈ upsertLines target entry replaced ls) : l ∈ ls ∨ l = entry := by
  induction ls generalizing replaced with
  | nil =>
    cases replaced with
    | true => cases h
    | false => exact .inr (List.mem_singleton.mp h)
  | cons l' ls ih =>
    have hcons : ∀ {r : Bool} {x : Bytes}, x ∈ [l', entry] → l ∈ x :: upsertLines target entry r ls →
        l ∈ l' :: ls ∨ l = entry := by
      intro r x hx hmem
      rcases List.mem_cons.mp hmem with rfl | hmem
      · rcases List.mem_cons.mp hx with rfl | hx
        · exact .inl List.mem_cons_self
        · exact .inr (List.mem_singleton.mp hx)
      · exact (ih hmem).imp_left (List.mem_cons_of_mem _)
    rw [upsertLines] at h
    split at h
    · split_ifs at h
      · exact (ih h).imp_left (List.mem_cons_of_mem _)
      · exact hcons (by simp) h
      · exact hcons (by simp) h
    · exact hcons (by simp) h

/-- A line with another name stays. -/
theorem mem_upsertLines_of {target entry : Bytes} {replaced : Bool} {l : Bytes} (hl : l ∈ ls)
    (hother : ∀ n, strstr l [58] = some (n + 1) → (stringTrim (l.take (n + 1))).map toLower ≠ target) :
    l ∈ upsertLines target entry replaced ls := by
  induction ls generalizing replaced with
  | nil => cases hl
  | cons l' ls ih =>
    rw [upsertLines]
    rcases List.mem_cons.mp hl with rfl | hl
    · split
      next n hn =>
        rw [if_neg (hother n hn)]
        exact List.mem_cons_self
      next => exact List.mem_cons_self
    · split
      · split_ifs
        · exact ih hl
        · exact List.mem_cons_of_mem _ (ih hl)
        · exact List.mem_cons_of_mem _ (ih hl)
      · exact List.mem_cons_of_mem _ (ih hl)

end ToiLang.Http
