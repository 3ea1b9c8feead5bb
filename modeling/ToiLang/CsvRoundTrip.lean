import ToiLang.Csv

namespace ToiLang.Csv

/-- No field holds a zero byte. -/
def NoZero (rows : List (List Bytes)) : Prop := ∀ r ∈ rows, ∀ f ∈ r, (0 : UInt8) ∉ f

theorem NoZero.append {rows : List (List Bytes)} {row : List Bytes} (h : NoZero rows)
    (hr : ∀ f ∈ row, (0 : UInt8) ∉ f) : NoZero (rows ++ [row]) := by
  intro r hm
  rcases List.mem_append.mp hm with hm | hm
  · exact h r hm
  · rw [List.mem_singleton.mp hm]
    exact hr

theorem emitField_noZero {row : Option (List Bytes)} {field : Bytes} {r : List Bytes}
    (hfield : (0 : UInt8) ∉ field) (hrow : ∀ r, row = some r → ∀ f ∈ r, (0 : UInt8) ∉ f)
    (h : emitField row field = some r) : ∀ f ∈ r, (0 : UInt8) ∉ f := by
  obtain ⟨r', hr', rfl⟩ := Option.map_eq_some_iff.mp h
  intro f hf
  rcases List.mem_append.mp hf with hf | hf
  · exact hrow r' hr' f hf
  · rw [List.mem_singleton.mp hf]
    exact hfield

theorem csvLoop_noZero {d : UInt8} {state : CsvParseState} {field : Bytes}
    {row : Option (List Bytes)} {rows : List (List Bytes)} {input : Bytes} {out : List (List Bytes)}
    (h : csvLoop d state field row rows input = some out) (hfield : (0 : UInt8) ∉ field)
    (hrow : ∀ r, row = some r → ∀ f ∈ r, (0 : UInt8) ∉ f) (hrows : NoZero rows) : NoZero out := by
  have hnil : (0 : UInt8) ∉ ([] : Bytes) := List.not_mem_nil
  have hempty : ∀ r, some ([] : List Bytes) = some r → ∀ f ∈ r, (0 : UInt8) ∉ f := by
    intro r hr f hf
    rw [← Option.some.inj hr] at hf
    cases hf
  have hensure : ∀ rest r, ensureRow rest = some r → ∀ f ∈ r, (0 : UInt8) ∉ f := by
    intro rest r hr
    unfold ensureRow at hr
    split at hr
    · cases hr
    · exact hempty r hr
  have hadd : ∀ {s : Bytes} {c : UInt8}, (0 : UInt8) ∉ s → c ≠ 0 → (0 : UInt8) ∉ s ++ [c] := by
    intro s c hs hc hm
    rcases List.mem_append.mp hm with hm | hm
    · exact hs hm
    · exact hc (List.mem_singleton.mp hm).symm
  fun_induction csvLoop d state field row rows input with
  | case1 => cases h
  | case2 =>
    obtain ⟨r, -, rfl⟩ := Option.map_eq_some_iff.mp h
    exact hrows
  | case3 =>
    obtain ⟨r, hr, rfl⟩ := Option.map_eq_some_iff.mp h
    exact hrows.append (emitField_noZero hfield hrow hr)
  | case4 => cases h
  | case5 _ _ _ _ ih => exact ih h hfield hrow hrows
  | case6 _ _ _ _ _ ih => exact ih h (hadd hfield (by decide)) hrow hrows
  | case7 _ _ _ _ _ _ _ ih => exact ih h hfield hrow hrows
  | case8 _ _ _ _ _ hc _ ih => exact ih h (hadd hfield hc) hrow hrows
  | case9 _ _ _ _ _ _ _ _ ih => exact ih h hfield hrow hrows
  | case10 => cases h
  | case11 => cases h
  | case12 _ _ _ _ _ _ r hr _ _ ih =>
    refine ih h hnil (fun r' hr' => ?_) hrows
    rw [← Option.some.inj hr']
    exact emitField_noZero hfield hrow hr
  | case13 => cases h
  | case14 =>
    cases Option.some.inj h
    exact hrows.append (emitField_noZero hfield hrow ‹_›)
  | case15 =>
    rename_i ih
    exact ih h hnil (by simp) (hrows.append (emitField_noZero hfield hrow ‹_›))
  | case16 =>
    rename_i ih
    exact ih h hnil (hensure _) (hrows.append (emitField_noZero hfield hrow ‹_›))
  | case17 =>
    rename_i ih
    exact ih h hnil hempty (hrows.append (emitField_noZero hfield hrow ‹_›))
  | case18 => cases h
  | case19 =>
    rename_i hbreak _ ih
    exact ih h (hadd hfield fun hc => hbreak (.inr (.inr hc))) hrow hrows

/-- What `csv.stringify` writes for a string. -/
def WrittenField (d : UInt8) (f t : Bytes) : Prop := (0 : UInt8) ∉ f ∧ t = appendEscapedField d f

theorem WrittenField.text {d : UInt8} {f t : Bytes} (h : WrittenField d f t) : FieldText d f t := by
  obtain ⟨hzero, rfl⟩ := h
  have hne : ∀ c ∈ f, c ≠ 0 := fun c hc h0 => hzero (h0 ▸ hc)
  unfold appendEscapedField
  split_ifs with hq
  · exact .quoted f hne
  · refine .plain f fun c hc => ?_
    exact ⟨fun h => hq ⟨c, hc, .inl h⟩, fun h => hq ⟨c, hc, .inr (.inl h)⟩,
      fun h => hq ⟨c, hc, .inr (.inr (.inl h))⟩, fun h => hq ⟨c, hc, .inr (.inr (.inr h))⟩, hne c hc⟩

theorem appendEscapedField_nil {d : UInt8} {f : Bytes} : appendEscapedField d f = [] ↔ f = [] := by
  unfold appendEscapedField
  split_ifs with hq
  · obtain ⟨c, hc, -⟩ := hq
    have hne := List.ne_nil_of_mem hc
    simp [hne]
  · rfl

theorem RowText.ne_nil {F : Bytes → Bytes → Prop} {d : UInt8} {fs : List Bytes} {t : Bytes}
    (h : RowText F d fs t) : fs ≠ [] := by
  cases h with
  | single => simp
  | cons => simp

/-- Only a row of one empty field is written as nothing. -/
theorem writtenRow_nil {d : UInt8} {fs : List Bytes} {t : Bytes} (h : RowText (WrittenField d) d fs t) :
    t = [] ↔ fs = [[]] := by
  cases h with
  | @single f t hf =>
    rw [hf.2, appendEscapedField_nil]
    simp
  | @cons f t fs ts _ hfs =>
    have hne := hfs.ne_nil
    simp [hne]

theorem stringifyRow_strings (d : UInt8) {fs : List Bytes} (hne : fs ≠ []) :
    ∃ t, stringifyRow d (fs.map .string) = some t ∧
      ((∀ f ∈ fs, (0 : UInt8) ∉ f) → RowText (WrittenField d) d fs t) := by
  induction fs with
  | nil => exact absurd rfl hne
  | cons f fs ih =>
    cases fs with
    | nil => exact ⟨_, rfl, fun hz => .single ⟨hz f List.mem_cons_self, rfl⟩⟩
    | cons g fs =>
      obtain ⟨t, ht, hrow⟩ := ih (by simp)
      refine ⟨appendEscapedField d f ++ d :: t, ?_, fun hz => ?_⟩
      · rw [List.map_cons] at ht ⊢
        rw [List.map_cons, stringifyRow, ht]
        · rfl
        · simp
      · exact .cons ⟨hz f List.mem_cons_self, rfl⟩ (hrow fun f hf => hz f (List.mem_cons_of_mem _ hf))

theorem csvStringify_strings (d : UInt8) {rows : List (List Bytes)} (hne : rows ≠ [])
    (hrows : ∀ r ∈ rows, r ≠ []) :
    ∃ t, csvStringify d (rows.map (List.map .string)) = some t ∧
      (NoZero rows → FileText (RowText (WrittenField d) d) [10] rows t) := by
  induction rows with
  | nil => exact absurd rfl hne
  | cons r rows ih =>
    obtain ⟨s, hs, hrow⟩ := stringifyRow_strings d (hrows r List.mem_cons_self)
    cases rows with
    | nil => exact ⟨s, hs, fun hz => .single (hrow (hz r List.mem_cons_self))⟩
    | cons r' rows =>
      obtain ⟨t, ht, hfile⟩ := ih (by simp) fun r hr => hrows r (List.mem_cons_of_mem _ hr)
      refine ⟨s ++ 10 :: t, ?_, fun hz => ?_⟩
      · rw [List.map_cons] at ht ⊢
        rw [List.map_cons, csvStringify, hs, ht]
        · rfl
        · simp
      · exact .cons (hrow (hz r List.mem_cons_self)) (hfile fun r hr => hz r (List.mem_cons_of_mem _ hr))

theorem csvParse_noZero {d : UInt8} {input : Bytes} {rows : List (List Bytes)}
    (h : csvParse input d = some rows) : NoZero rows := by
  unfold csvParse at h
  split_ifs at h
  · cases Option.some.inj h
    intro r hr
    cases hr
  · refine csvLoop_noZero h List.not_mem_nil (fun r hr f hf => ?_) fun r hr => ?_
    · rw [← Option.some.inj hr] at hf
      cases hf
    · cases hr

/-- The rows come back exactly where the separator is not the zero byte, no field holds one and the
last row is not a single empty field. -/
theorem csv_round_trip_iff {d : UInt8} {rows : List (List Bytes)} (h34 : d ≠ 34) (h10 : d ≠ 10)
    (h13 : d ≠ 13) (hne : rows ≠ []) (hrows : ∀ r ∈ rows, r ≠ []) :
    ∃ text, csvStringify d (rows.map (List.map .string)) = some text ∧
      (csvParse text d = some rows ↔ d ≠ 0 ∧ NoZero rows ∧ rows.getLast? ≠ some [[]]) := by
  obtain ⟨text, ht, hfile⟩ := csvStringify_strings d hne hrows
  refine ⟨text, ht, ?_⟩
  by_cases hz : NoZero rows
  · obtain ⟨init, last, lastText, rfl, hlast, hiff, hparse⟩ :=
      csvParse_file h34 h10 h13 (.inl rfl) (fun r t hr => hr.mono fun _ _ => WrittenField.text) (hfile hz)
    have hempty : text = [] ∨ text.getLast? = some 10 ↔ last = [[]] :=
      hiff.symm.trans (writtenRow_nil hlast)
    have hlen : init ≠ init ++ [last] := fun h => by simpa using congrArg List.length h
    have hlast? : (init ++ [last]).getLast? ≠ some [[]] ↔ ¬(text = [] ∨ text.getLast? = some 10) := by
      rw [List.getLast?_concat, hempty, ne_eq, Option.some.injEq]
    rw [hparse, hlast?]
    split_ifs with hnil hlf hd
    · simp [hnil]
    · simp [hlf]
    · simp [hd]
    · simp [hnil, hlf, hd, hz]
  · refine iff_of_false (fun h => hz (csvParse_noZero h)) fun h => hz h.2.1

/-- TEXTDATA of RFC 4180. -/
def TextData (c : UInt8) : Prop := 32 ≤ c ∧ c ≤ 126 ∧ c ≠ 34 ∧ c ≠ 44

inductive RfcField : Bytes → Bytes → Prop
  | nonEscaped (f : Bytes) : (∀ c ∈ f, TextData c) → RfcField f f
  | escaped (f : Bytes) : (∀ c ∈ f, TextData c ∨ c = 44 ∨ c = 13 ∨ c = 10 ∨ c = 34) →
    RfcField f (34 :: (doubleQuotes f ++ [34]))

/-- The records of a file, of which the last one may have a line break behind it. -/
inductive RfcText : List (List Bytes) → Bytes → Prop
  | noBreak {rs : List (List Bytes)} {t : Bytes} : FileText (RowText RfcField 44) [13, 10] rs t → RfcText rs t
  | finalBreak {rs : List (List Bytes)} {t : Bytes} :
    FileText (RowText RfcField 44) [13, 10] rs t → RfcText rs (t ++ [13, 10])

theorem RfcField.text {f t : Bytes} (h : RfcField f t) : FieldText 44 f t := by
  cases h with
  | nonEscaped hf =>
    refine .plain f fun c hc => ?_
    obtain ⟨hlow, -, h34, h44⟩ := hf c hc
    refine ⟨h44, h34, ?_, ?_, ?_⟩
    all_goals
      rintro rfl
      exact absurd hlow (by decide)
  | escaped hf =>
    refine .quoted f fun c hc => ?_
    rintro rfl
    rcases hf 0 hc with ⟨hlow, -⟩ | h | h | h | h
    · exact absurd hlow (by decide)
    all_goals exact absurd h (by decide)

theorem FileText.concat {R : List Bytes → Bytes → Prop} {brk : Bytes} {rs : List (List Bytes)} {t : Bytes}
    (h : FileText R brk rs t) {r : List Bytes} {s : Bytes} (hr : R r s) :
    FileText R brk (rs ++ [r]) (t ++ (brk ++ s)) := by
  induction h with
  | single h0 => exact .cons h0 (.single hr)
  | cons h0 _ ih =>
    rw [List.append_assoc, List.append_assoc]
    exact .cons h0 ih

/-- An RFC 4180 text is accepted with its records exactly where it is not empty and does not end with
a line break. -/
theorem csv_accepts_rfc_iff {rs : List (List Bytes)} {t : Bytes} (h : RfcText rs t) :
    csvParse t 44 = some rs ↔ t ≠ [] ∧ t.getLast? ≠ some 10 := by
  have hR : ∀ r t, RowText RfcField 44 r t → RowText (FieldText 44) 44 r t :=
    fun r t hr => hr.mono fun _ _ => RfcField.text
  cases h with
  | noBreak hf =>
    obtain ⟨init, last, lastText, rfl, -, -, hparse⟩ :=
      csvParse_file (by decide) (by decide) (by decide) (.inr rfl) hR hf
    rw [hparse]
    split_ifs with hnil hlf hd
    · simp [hnil]
    · simp [hlf]
    · exact absurd hd (by decide)
    · simp [hnil, hlf]
  | @finalBreak t hf =>
    have hempty : RowText RfcField 44 [[]] [] := .single (.nonEscaped [] (by simp))
    obtain ⟨init, last, lastText, -, -, -, hparse⟩ :=
      csvParse_file (by decide) (by decide) (by decide) (.inr rfl) hR (hf.concat hempty)
    have hlf : (t ++ ([13, 10] ++ [])).getLast? = some 10 := by simp
    have hne : t ++ ([13, 10] ++ []) ≠ [] := by simp
    rw [if_neg hne, if_pos hlf, List.append_nil] at hparse
    rw [hparse]
    simp

end ToiLang.Csv
