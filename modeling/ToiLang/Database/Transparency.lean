import ToiLang.Database.Runs

namespace ToiLang.Database

variable {st : TableState}

/-- The rows that match a query, as if the table had no index. -/
def scan (q : Query) (st : TableState) : Option (List Row) := selectRows q (allRows st)

/-- The ranges of keys that an index goes through for a condition. -/
def scannedRanges (op : Bytes) (expected : Expected) : List (Option Bytes × Option Bytes) :=
  if op = ascii "eq" then [(some expected.secondaryMin, some expected.secondaryMax)]
  else if op = ascii "in" then
    (expected.elements.getD []).map fun v => (some (secondaryMin v), some (secondaryMax v))
  else if op = ascii "gte" then [(some expected.secondaryMin, none)]
  else if op = ascii "gt" then [(some expected.secondaryMax, none)]
  else if op = ascii "lte" then [(none, some expected.secondaryMax)]
  else if op = ascii "lt" then [(none, some expected.secondaryMin)]
  else
    match expected with
    | .value (.string s) => [(some (ascii "s:" ++ s), some (ascii "s:" ++ s ++ hi))]
    | _ => []

/-- The row has a key in one of the ranges that an index goes through for the condition. -/
def Covered (idx : IndexState) (c : Condition) (row : Row) : Prop :=
  row idx.field ≠ .nil ∧
    ∃ range ∈ scannedRanges c.op c.expected,
      keyInRange range.1 range.2 (secondaryKeyOf idx row) = true

/-- The operand is of the kind that its operator takes. -/
def Condition.WellTyped (c : Condition) : Prop :=
  (c.op = ascii "in" → c.expected.elements.isSome) ∧
    (c.op = ascii "startswith" → ∃ s, c.expected = .value (.string s))

/-- Each row that matches the query has a key in a range that is gone through for each condition
with an index. -/
def CoversMatches (st : TableState) (q : Query) : Prop :=
  q.grouped = false → ∀ c ∈ q.conditions, ∀ idx, indexFor st c = some idx →
    ∀ row ∈ allRows st, rowMatchesQuery row q = some true → Covered idx c row

theorem selectRows_some {q : Query} {rows out : List Row} (h : selectRows q rows = some out) :
    (∀ row ∈ rows, ∃ b, rowMatchesQuery row q = some b) ∧
      ∀ row, row ∈ out ↔ row ∈ rows ∧ rowMatchesQuery row q = some true := by
  induction rows generalizing out with
  | nil =>
    cases h
    simp
  | cons row rest ih =>
    unfold selectRows at h
    cases hb : rowMatchesQuery row q with
    | none => simp [hb] at h
    | some b =>
      cases hr : selectRows q rest with
      | none => simp [hb, hr] at h
      | some found =>
        obtain ⟨hall, hmem⟩ := ih hr
        simp only [hb, hr, Option.bind_eq_bind, Option.bind_some, Option.pure_def,
          Option.some.injEq] at h
        refine ⟨List.forall_mem_cons.mpr ⟨⟨b, hb⟩, hall⟩, fun r => ?_⟩
        subst h
        cases b with
        | true =>
          simp only [if_true, List.mem_cons, hmem]
          constructor
          · rintro (rfl | hr)
            · exact ⟨.inl rfl, hb⟩
            · exact ⟨.inr hr.1, hr.2⟩
          · rintro ⟨rfl | hr, htrue⟩
            · exact .inl rfl
            · exact .inr ⟨hr, htrue⟩
        | false =>
          simp only [Bool.false_eq_true, if_false, List.mem_cons, hmem]
          constructor
          · rintro ⟨hr, htrue⟩
            exact ⟨.inr hr, htrue⟩
          · rintro ⟨rfl | hr, htrue⟩
            · rw [hb] at htrue
              cases htrue
            · exact ⟨hr, htrue⟩

theorem selectRows_defined {q : Query} {rows : List Row}
    (h : ∀ row ∈ rows, ∃ b, rowMatchesQuery row q = some b) : ∃ out, selectRows q rows = some out := by
  induction rows with
  | nil => exact ⟨[], rfl⟩
  | cons row rest ih =>
    obtain ⟨⟨b, hb⟩, hrest⟩ := List.forall_mem_cons.mp h
    obtain ⟨out, hout⟩ := ih hrest
    exact ⟨if b then row :: out else out, by simp [selectRows, hb, hout]⟩

section Rows

/-- Rows of a list are found again by their ids. -/
theorem hasId_iff (h : Consistent st) {rows : List Row} (hrows : ∀ r ∈ rows, r ∈ allRows st) {row : Row}
    (hrow : row ∈ allRows st) : hasId rows (row primaryKey) = true ↔ row ∈ rows := by
  unfold hasId
  rw [List.any_eq_true]
  constructor
  · rintro ⟨r, hr, hid⟩
    rw [← h.row_eq (hrows r hr) hrow hid]
    exact hr
  · intro hmem
    obtain ⟨pk, hpk⟩ := h.key hrow
    exact ⟨row, hmem, (FieldValue.equal_iff_rank hpk hpk).mpr rfl⟩

theorem mem_addRows (h : Consistent st) {out rows : List Row} (hout : ∀ r ∈ out, r ∈ allRows st)
    (hrows : ∀ r ∈ rows, r ∈ allRows st) (row : Row) :
    row ∈ addRows out rows ↔ row ∈ out ∨ row ∈ rows := by
  induction rows generalizing out with
  | nil => simp [addRows]
  | cons r rest ih =>
    obtain ⟨hr, hrest⟩ := List.forall_mem_cons.mp hrows
    unfold addRows
    by_cases hid : hasId out (r primaryKey) = true
    · rw [if_pos hid, ih hout hrest, List.mem_cons]
      have hmem := (hasId_iff h hout hr).mp hid
      constructor
      · rintro (ho | hm)
        · exact .inl ho
        · exact .inr (.inr hm)
      · rintro (ho | rfl | hm)
        · exact .inl ho
        · exact .inl hmem
        · exact .inr hm
    · have hout' : ∀ r' ∈ out ++ [r], r' ∈ allRows st := by
        intro r' hr'
        rw [List.mem_append, List.mem_singleton] at hr'
        obtain ho | rfl := hr'
        · exact hout r' ho
        · exact hr
      rw [if_neg hid, ih hout' hrest, List.mem_append, List.mem_singleton, List.mem_cons, or_assoc]

theorem mem_unionRows (h : Consistent st) {left : Option (List Row)} {right : List Row}
    (hleft : ∀ l, left = some l → ∀ r ∈ l, r ∈ allRows st) (hright : ∀ r ∈ right, r ∈ allRows st)
    (row : Row) : row ∈ unionRows left right ↔ row ∈ left.getD [] ∨ row ∈ right := by
  cases left with
  | none => simp [unionRows]
  | some left => exact mem_addRows h (hleft left rfl) hright row

/-- The rows that an index finds in a range. -/
theorem mem_loadByIndexRange (h : Consistent st) {idx : IndexState} (hidx : idx ∈ st.indexes)
    (min max : Option Bytes) (row : Row) :
    row ∈ loadByIndexRange st idx min max ↔
      row ∈ allRows st ∧ row idx.field ≠ .nil ∧
        keyInRange min max (secondaryKeyOf idx row) = true := by
  unfold loadByIndexRange Tree.range
  simp only [List.mem_filterMap, List.mem_filter]
  constructor
  · rintro ⟨e, ⟨hmem, hrange⟩, hget⟩
    obtain ⟨other, hother, hf, hkey, hvalue⟩ := (h.entries idx hidx e).mp hmem
    have hsame := h.get_iff.mpr ⟨hother, e.value, hvalue, rfl⟩
    rw [hget] at hsame
    cases hsame
    rw [hkey] at hrange
    exact ⟨hother, hf, hrange⟩
  · rintro ⟨hrow, hf, hrange⟩
    obtain ⟨pk, hpk⟩ := h.key hrow
    exact ⟨⟨secondaryKeyOf idx row, pk⟩,
      ⟨(h.entries idx hidx _).mpr ⟨row, hrow, hf, rfl, hpk⟩, hrange⟩,
      h.get_iff.mpr ⟨hrow, pk, hpk, rfl⟩⟩

theorem mem_unionOverValues (h : Consistent st) {idx : IndexState} (hidx : idx ∈ st.indexes)
    {unioned : Option (List Row)} (hu : ∀ l, unioned = some l → ∀ r ∈ l, r ∈ allRows st)
    (vs : List FieldValue) (row : Row) :
    row ∈ (unionOverValues st idx unioned vs).getD [] ↔
      row ∈ unioned.getD [] ∨
        ∃ v ∈ vs, row ∈ loadByIndexRange st idx (some (secondaryMin v)) (some (secondaryMax v)) := by
  induction vs generalizing unioned with
  | nil => simp [unionOverValues]
  | cons v vs ih =>
    have hload : ∀ r ∈ loadByIndexValue st idx (.value v), r ∈ allRows st := fun r hr =>
      ((mem_loadByIndexRange h hidx _ _ r).mp hr).1
    unfold unionOverValues
    rw [ih]
    · simp only [Option.getD_some, mem_unionRows h hu hload, List.exists_mem_cons_iff, or_assoc]
      rfl
    · intro l hl r hr
      cases hl
      obtain hr | hr := (mem_unionRows h hu hload r).mp hr
      · cases unioned with
        | none => simp at hr
        | some l => exact hu l rfl r hr
      · exact hload r hr

/-- The rows that an index finds for a condition are those that it covers. -/
theorem indexRows_spec (h : Consistent st) {idx : IndexState} (hidx : idx ∈ st.indexes) {c : Condition}
    (htyped : c.WellTyped) (huse : canUseIndexForCondition c.op c.expected = true) :
    ∃ rows, indexRowsForCondition st idx c.op c.expected = some rows ∧
      ∀ row, row ∈ rows ↔ row ∈ allRows st ∧ Covered idx c row := by
  have hone {min max : Option Bytes} (hranges : scannedRanges c.op c.expected = [(min, max)])
      (row : Row) : row ∈ loadByIndexRange st idx min max ↔ row ∈ allRows st ∧ Covered idx c row := by
    rw [mem_loadByIndexRange h hidx, Covered, hranges]
    simp
  unfold indexRowsForCondition
  by_cases heq : c.op = ascii "eq"
  · rw [if_pos heq]
    exact ⟨_, rfl, hone (by simp [scannedRanges, heq])⟩
  rw [if_neg heq]
  by_cases hin : c.op = ascii "in"
  · rw [if_pos hin]
    obtain ⟨vs, hvs⟩ := Option.isSome_iff_exists.mp (htyped.1 hin)
    refine ⟨_, by rw [hvs]; rfl, fun row => ?_⟩
    rw [mem_unionOverValues h hidx (fun l hl => by cases hl)]
    have hranges : scannedRanges c.op c.expected =
        vs.map fun v => (some (secondaryMin v), some (secondaryMax v)) := by
      unfold scannedRanges
      rw [if_neg heq, if_pos hin, hvs]
      rfl
    rw [Covered, hranges]
    simp only [Option.getD_none, List.not_mem_nil, false_or, mem_loadByIndexRange h hidx]
    constructor
    · rintro ⟨v, hv, hrow, hf, hrange⟩
      exact ⟨hrow, hf, _, List.mem_map_of_mem hv, hrange⟩
    · rintro ⟨hrow, hf, range, hmem, hrange⟩
      obtain ⟨v, hv, rfl⟩ := List.mem_map.mp hmem
      exact ⟨v, hv, hrow, hf, hrange⟩
  rw [if_neg hin]
  by_cases hgte : c.op = ascii "gte"
  · rw [if_pos hgte]
    refine ⟨_, rfl, hone ?_⟩
    unfold scannedRanges
    rw [if_neg heq, if_neg hin, if_pos hgte]
  rw [if_neg hgte]
  by_cases hgt : c.op = ascii "gt"
  · rw [if_pos hgt]
    refine ⟨_, rfl, hone ?_⟩
    unfold scannedRanges
    rw [if_neg heq, if_neg hin, if_neg hgte, if_pos hgt]
  rw [if_neg hgt]
  by_cases hlte : c.op = ascii "lte"
  · rw [if_pos hlte]
    refine ⟨_, rfl, hone ?_⟩
    unfold scannedRanges
    rw [if_neg heq, if_neg hin, if_neg hgte, if_neg hgt, if_pos hlte]
  rw [if_neg hlte]
  by_cases hlt : c.op = ascii "lt"
  · rw [if_pos hlt]
    refine ⟨_, rfl, hone ?_⟩
    unfold scannedRanges
    rw [if_neg heq, if_neg hin, if_neg hgte, if_neg hgt, if_neg hlte, if_pos hlt]
  rw [if_neg hlt]
  have hstarts : c.op = ascii "startswith" := by
    unfold canUseIndexForCondition indexedOps at huse
    simp only [Bool.and_eq_true, List.contains_iff_mem, List.mem_cons, List.not_mem_nil,
      or_false] at huse
    tauto
  obtain ⟨s, hs⟩ := htyped.2 hstarts
  rw [hs]
  refine ⟨_, rfl, hone ?_⟩
  unfold scannedRanges
  rw [if_neg heq, if_neg hin, if_neg hgte, if_neg hgt, if_neg hlte, if_neg hlt, hs]

theorem indexFor_some {c : Condition} {idx : IndexState} (h : indexFor st c = some idx) :
    idx ∈ st.indexes ∧ canUseIndexForCondition c.op c.expected = true := by
  unfold indexFor at h
  split at h
  next =>
    split at h
    next idx' hfield =>
      split at h
      next huse =>
        cases h
        refine ⟨?_, huse⟩
        unfold getIndexForField at hfield
        split at hfield
        next idx' hname =>
          cases hfield
          exact List.mem_of_find?_eq_some hname
        next => exact List.mem_of_find?_eq_some hfield
      next => cases h
    next => cases h
  next => cases h

/-- The candidates are the rows that all indexes of the conditions cover. -/
theorem pickFrom_spec (h : Consistent st) {conditions : List Condition}
    (htyped : ∀ c ∈ conditions, c.WellTyped) {candidates : Option (List Row)}
    (hc : ∀ l, candidates = some l → ∀ r ∈ l, r ∈ allRows st) :
    ∃ picked, pickFrom st candidates conditions = some picked ∧
      ∀ row, row ∈ picked.getD (allRows st) ↔ row ∈ candidates.getD (allRows st) ∧
        ∀ c ∈ conditions, ∀ idx, indexFor st c = some idx → Covered idx c row := by
  induction conditions generalizing candidates with
  | nil => exact ⟨candidates, rfl, by simp⟩
  | cons c rest ih =>
    obtain ⟨hct, hrest⟩ := List.forall_mem_cons.mp htyped
    unfold pickFrom
    simp only [List.forall_mem_cons]
    cases hidx : indexFor st c with
    | none =>
      obtain ⟨picked, hpicked, hmem⟩ := ih hrest hc
      refine ⟨picked, hpicked, fun row => ?_⟩
      rw [hmem]
      simp
    | some idx =>
      obtain ⟨hin, huse⟩ := indexFor_some hidx
      obtain ⟨rows, hrows, hspec⟩ := indexRows_spec h hin hct huse
      have hsub : ∀ r ∈ rows, r ∈ allRows st := fun r hr => ((hspec r).mp hr).1
      have hboth : ∀ row, row ∈ intersectRows candidates rows ↔
          row ∈ candidates.getD (allRows st) ∧ Covered idx c row := by
        intro row
        cases candidates with
        | none => exact hspec row
        | some left =>
          unfold intersectRows
          rw [List.mem_filter, Option.getD_some]
          refine and_congr_right fun hleft => ?_
          rw [hasId_iff h hsub (hc left rfl row hleft), hspec]
          exact and_iff_right (hc left rfl row hleft)
      obtain ⟨picked, hpicked, hmem⟩ := @ih hrest (some (intersectRows candidates rows))
        (by
          intro l hl r hr
          cases hl
          have := ((hboth r).mp hr).1
          cases candidates with
          | none => exact this
          | some left => exact hc left rfl r this)
      refine ⟨picked, by simp only [hrows, Option.bind_eq_bind, Option.bind_some, hpicked], ?_⟩
      intro row
      rw [hmem, Option.getD_some, hboth]
      simp [and_assoc]

end Rows

theorem filter_agrees_iff (h : Consistent st) {q : Query} (htyped : ∀ c ∈ q.conditions, c.WellTyped)
    {rows : List Row} (hscan : scan q st = some rows) :
    (∃ found, filter q some st = some found ∧ ∀ row, row ∈ found ↔ row ∈ rows) ↔
      CoversMatches st q := by
  obtain ⟨hall, hrows⟩ := selectRows_some hscan
  unfold filter pickIndexCandidates CoversMatches
  cases hgrouped : q.grouped with
  | true =>
    simp only [if_true, Option.bind_eq_bind, Option.bind_some, Option.getD_none]
    refine iff_of_true ⟨rows, ?_, fun row => Iff.rfl⟩ fun hfalse => by cases hfalse
    unfold scan at hscan
    rw [hscan]
    rfl
  | false =>
    obtain ⟨picked, hpicked, hmem⟩ := @pickFrom_spec st h _ htyped none
      (fun l hl => by cases hl)
    simp only [Bool.false_eq_true, if_false, hpicked, Option.bind_eq_bind, Option.bind_some,
      true_imp_iff]
    obtain ⟨found, hfound⟩ := selectRows_defined (q := q)
      fun row hrow => hall row ((hmem row).mp hrow).1
    obtain ⟨-, hin⟩ := selectRows_some hfound
    rw [hfound]
    simp only [Option.bind_some, Option.some.injEq, exists_eq_left']
    simp only [hin, hrows, hmem, Option.getD_none]
    constructor
    · intro hsame c hc idx hidx row hrow hmatch
      exact ((hsame row).mpr ⟨hrow, hmatch⟩).1.2 c hc idx hidx
    · intro hcovers row
      constructor
      · rintro ⟨⟨hrow, -⟩, hmatch⟩
        exact ⟨hrow, hmatch⟩
      · rintro ⟨hrow, hmatch⟩
        exact ⟨⟨hrow, fun c hc idx hidx => hcovers c hc idx hidx row hrow hmatch⟩, hmatch⟩

namespace Sample

/-- The query with a condition on the team. -/
def teamQuery (key : String) (v : FieldValue) : Query := .mk [⟨ascii key, .value v⟩] none none

theorem one_scan {id : Bytes} {value : FieldValue} {q : Query}
    (h : rowMatchesQuery (member id value) q = some true) :
    scan q (one false id value) = some [member id value] := by
  have hrows : allRows (one false id value) = [member id value] := rfl
  unfold scan
  rw [hrows]
  simp [selectRows, h]

theorem one_indexFor {id : Bytes} {value : FieldValue} {c : Condition}
    (hcond : isConditionKey c.key = true) (hfield : c.field = team)
    (huse : canUseIndexForCondition c.op c.expected = true) :
    indexFor (one false id value) c =
      some (addEntry (member id value) (.string id) ⟨team, team, false, []⟩) := by
  have hindexes : (one false id value).indexes =
      [addEntry (member id value) (.string id) ⟨team, team, false, []⟩] := rfl
  simp [indexFor, getIndexForField, hindexes, hcond, hfield, huse]

/-- `9` and `10` -/
def nine : Double := 0x4022000000000000
def ten : Double := 0x4024000000000000

/-- A query that a row matches whose key lies outside of the range. -/
theorem one_missed {id : Bytes} {value : FieldValue} {key : String} {v : FieldValue}
    (hmatch : rowMatchesQuery (member id value) (teamQuery key v) = some true)
    (htyped : (⟨ascii key, .value v⟩ : Condition).WellTyped)
    (hcond : isConditionKey (ascii key) = true)
    (hfield : (⟨ascii key, .value v⟩ : Condition).field = team)
    (huse : canUseIndexForCondition (⟨ascii key, .value v⟩ : Condition).op (.value v) = true)
    (hout : (scannedRanges (⟨ascii key, .value v⟩ : Condition).op (.value v)).any (fun range =>
      keyInRange range.1 range.2 (.string (secondaryKey value (.string id)))) = false) :
    ¬∃ found, filter (teamQuery key v) some (one false id value) = some found ∧
      ∀ row, row ∈ found ↔ row ∈ [member id value] := by
  rw [filter_agrees_iff (one_consistent false id value) (fun c hc => ?_) (one_scan hmatch)]
  · intro hcovers
    obtain ⟨-, range, hrange, hin⟩ := hcovers rfl _ (List.mem_singleton.mpr rfl) _
      (one_indexFor hcond hfield huse) _ (mem_one.mpr rfl) hmatch
    have hvalue : member id value team = value := by
      simp [member, show team ≠ primaryKey by decide]
    unfold secondaryKeyOf at hin
    rw [addEntry_field, hvalue] at hin
    rw [List.any_eq_false] at hout
    exact hout range hrange hin
  · rw [teamQuery, Query.conditions, List.mem_singleton] at hc
    subst hc
    exact htyped

end Sample

end ToiLang.Database
