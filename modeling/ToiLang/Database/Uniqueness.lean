import ToiLang.Database.Runs

namespace ToiLang.Database

variable {check : Row → Option Row} {st : TableState}

/-- The put raises a violation of a unique index. -/
def RaisesUnique (check : Row → Option Row) (refusals : Refusals) (row : Row) (st : TableState) :
    Prop :=
  ∃ index st', put check refusals row st = .raised (.unique index) st'

/-- A row with another id has the value of the row in the field of a unique index. -/
def Duplicate (st : TableState) (row : Row) : Prop :=
  ∃ idx ∈ st.indexes, idx.unique = true ∧ row idx.field ≠ .nil ∧
    ∃ other ∈ allRows st, ¬(other primaryKey).equal (row primaryKey) ∧
      (other idx.field).equal (row idx.field)

/-- No two rows have one value in the field of a unique index. -/
def NoTwoAgree (st : TableState) : Prop :=
  ∀ idx ∈ st.indexes, idx.unique = true → ∀ row ∈ allRows st, ∀ row' ∈ allRows st,
    row idx.field ≠ .nil → (row idx.field).equal (row' idx.field) → row = row'

/-- In the fields of the unique indexes the keys between the least and the greatest one of the row's
value are those of the rows with that value. -/
def Unaliased (st : TableState) (row : Row) : Prop :=
  ∀ idx ∈ st.indexes, idx.unique = true → row idx.field ≠ .nil →
    ∀ other ∈ allRows st, other idx.field ≠ .nil → ¬(other primaryKey).equal (row primaryKey) →
      (keyInRange (some (secondaryMin (row idx.field))) (some (secondaryMax (row idx.field)))
        (secondaryKeyOf idx other) = true ↔ (other idx.field).equal (row idx.field) = true)

theorem FieldValue.equal_comm (v w : FieldValue) : v.equal w = w.equal v := by
  have heq (x y : Double) : Double.eq x y = Double.eq y x := by
    have hd : decide (x.order = y.order) = decide (y.order = x.order) := decide_eq_decide.mpr eq_comm
    unfold Double.eq
    rw [hd, Bool.and_comm (!x.isNaN)]
  cases v <;> cases w <;> simp [FieldValue.equal, heq, Bool.beq_comm, beq_eq_decide]

theorem FieldValue.ne_nil_of_equal {v w : FieldValue} (h : v.equal w = true) (hw : w ≠ .nil) :
    v ≠ .nil := by
  rintro rfl
  cases w with
  | nil => exact hw rfl
  | bool b => cases h
  | number x => cases h
  | string s => cases h

/-- Of entries that stand for different rows at most one is left out of the first two. -/
theorem any_take_two {α : Type} {p : α → Bool} {l : List α} (hnodup : l.Nodup)
    (hone : ∀ a ∈ l, ∀ b ∈ l, p a = false → p b = false → a = b) : (l.take 2).any p = l.any p := by
  match l with
  | [] => rfl
  | [a] => rfl
  | a :: b :: rest =>
    have hab : p a = true ∨ p b = true := by
      by_contra hn
      simp only [not_or, Bool.not_eq_true] at hn
      have heq := hone a (List.mem_cons_self ..) b (by simp) hn.1 hn.2
      subst heq
      simp at hnodup
    obtain h | h := hab
    · simp [h]
    · simp [h]

theorem sorted_nodup {α : Type} {t : Tree α} (h : SortedMap.Sorted Binding.rank t) : t.Nodup :=
  List.Pairwise.imp (fun hlt he => absurd hlt (by rw [he]; exact lt_irrefl _)) h

/-- The check of a unique index finds the rows with another id whose keys lie in the range. -/
theorem takenBy_iff (h : Consistent st) {idx : IndexState} (hidx : idx ∈ st.indexes) {id : FieldValue}
    {pk : BTreeAtom} (hpk : id.key? = some pk) (value : FieldValue) :
    takenBy id idx value = true ↔
      ∃ other ∈ allRows st, other idx.field ≠ .nil ∧
        keyInRange (some (secondaryMin value)) (some (secondaryMax value))
          (secondaryKeyOf idx other) = true ∧ ¬(other primaryKey).equal id := by
  unfold takenBy Tree.range
  rw [any_take_two ((sorted_nodup (h.indexSorted idx hidx)).filter _)]
  · simp only [List.any_eq_true, List.mem_filter, Bool.not_eq_true', Bool.not_eq_true]
    constructor
    · rintro ⟨e, ⟨hmem, hrange⟩, hid⟩
      obtain ⟨other, hother, hf, hkey, hvalue⟩ := (h.entries idx hidx e).mp hmem
      rw [FieldValue.key?_eq_some hvalue] at hid
      rw [hkey] at hrange
      exact ⟨other, hother, hf, hrange, hid⟩
    · rintro ⟨other, hother, hf, hrange, hid⟩
      obtain ⟨key, hkey⟩ := h.key hother
      refine ⟨⟨secondaryKeyOf idx other, key⟩,
        ⟨(h.entries idx hidx _).mpr ⟨other, hother, hf, rfl, hkey⟩, hrange⟩, ?_⟩
      rw [FieldValue.key?_eq_some hkey]
      exact hid
  · intro a ha b hb hpa hpb
    obtain ⟨row, hrow, hf, hkey, hvalue⟩ := (h.entries idx hidx a).mp (List.mem_filter.mp ha).1
    obtain ⟨row', hrow', hf', hkey', hvalue'⟩ := (h.entries idx hidx b).mp (List.mem_filter.mp hb).1
    simp only [Bool.not_eq_false'] at hpa hpb
    rw [FieldValue.key?_eq_some hvalue] at hpa
    rw [FieldValue.key?_eq_some hvalue'] at hpb
    have hrank := (FieldValue.equal_iff_rank hvalue hpk).mp hpa
    have hrank' := (FieldValue.equal_iff_rank hvalue' hpk).mp hpb
    have hsame := h.row_eq hrow hrow'
      ((FieldValue.equal_iff_rank hvalue hvalue').mpr (hrank.trans hrank'.symm))
    subst hsame
    rw [hvalue] at hvalue'
    cases a
    cases b
    simp only at hkey hkey' hvalue'
    rw [hkey, hkey', Option.some.inj hvalue']

/-- A put of a row that passes the check raises a violation where the check of an index finds one. -/
theorem raisesUnique_iff {refusals : Refusals} {row checked : Row} {pk : BTreeAtom}
    (hcheck : check row = some checked) (hkey : (sanitizeRow checked primaryKey).key? = some pk) :
    RaisesUnique check refusals row st ↔
      ∃ idx ∈ st.indexes, idx.unique = true ∧ sanitizeRow checked idx.field ≠ .nil ∧
        takenBy (sanitizeRow checked primaryKey) idx (sanitizeRow checked idx.field) = true := by
  have henforce : (∃ idx ∈ st.indexes, idx.unique = true ∧ sanitizeRow checked idx.field ≠ .nil ∧
        takenBy (sanitizeRow checked primaryKey) idx (sanitizeRow checked idx.field) = true) ↔
      (enforceUniqueIndexes (sanitizeRow checked) (sanitizeRow checked primaryKey)
        st.indexes).isSome := by
    unfold enforceUniqueIndexes
    simp [List.find?_isSome, and_assoc]
  rw [henforce]
  constructor
  · rintro ⟨index, st', hr⟩
    have hstep := put_step check refusals row st
    rw [hr] at hstep
    cases hstep with
    | unique hcheck' hkey' hunique =>
      rw [hcheck] at hcheck'
      cases hcheck'
      rw [hunique]
      rfl
  · intro hsome
    obtain ⟨idx, hunique⟩ := Option.isSome_iff_exists.mp hsome
    exact ⟨idx.name, st, by simp only [put, hcheck, hkey, hunique]⟩

/-- Where no key is taken for that of another value, the violations are the duplicates. -/
theorem raisesUnique_iff_duplicate (h : Consistent st) {refusals : Refusals} {row checked : Row}
    {pk : BTreeAtom} (hcheck : check row = some checked)
    (hkey : (sanitizeRow checked primaryKey).key? = some pk)
    (halias : Unaliased st (sanitizeRow checked)) :
    RaisesUnique check refusals row st ↔ Duplicate st (sanitizeRow checked) := by
  rw [raisesUnique_iff hcheck hkey]
  unfold Duplicate
  refine exists_congr fun idx => and_congr_right fun hidx => and_congr_right fun hunique =>
    and_congr_right fun hf => ?_
  rw [takenBy_iff h hidx hkey]
  constructor
  · rintro ⟨other, hother, hf', hrange, hid⟩
    exact ⟨other, hother, hid, (halias idx hidx hunique hf other hother hf' hid).mp hrange⟩
  · rintro ⟨other, hother, hid, hequal⟩
    have hf' := FieldValue.ne_nil_of_equal hequal hf
    exact ⟨other, hother, hf', (halias idx hidx hunique hf other hother hf' hid).mpr hequal, hid⟩

/-- The row that is put shares no key with a row that has another id, and no key is taken for that
of another value. -/
def Distinguished (check : Row → Option Row) (refusals : Refusals) (row : Row) (st : TableState) :
    Prop :=
  Apart check refusals row st ∧
    ∀ checked, check row = some checked → Unaliased st (sanitizeRow checked)

theorem noTwoAgree_sub {st' : TableState} (h : NoTwoAgree st)
    (hrows : ∀ row ∈ allRows st', row ∈ allRows st)
    (hindexes : ∀ idx ∈ st'.indexes, ∃ idx₀ ∈ st.indexes, idx.field = idx₀.field ∧
      idx.unique = idx₀.unique) : NoTwoAgree st' := by
  intro idx hidx hunique row hrow row' hrow' hf hequal
  obtain ⟨idx₀, hidx₀, hfield, hunique₀⟩ := hindexes idx hidx
  rw [hfield] at hf hequal
  rw [hunique₀] at hunique
  exact h idx₀ hidx₀ hunique row (hrows row hrow) row' (hrows row' hrow') hf hequal

theorem delete_noTwoAgree (hc : Consistent st) (h : NoTwoAgree st) (key : FieldValue) :
    NoTwoAgree (delete key st).state := by
  unfold delete
  cases hkey : key.key? with
  | none => exact h
  | some pk =>
    cases hold : st.primary.get pk with
    | none =>
      simp only [hold]
      exact h
    | some old =>
      simp only [hold]
      refine noTwoAgree_sub h (fun row hrow => ((hc.mem_delete hold _).mp hrow).1) ?_
      intro _ hmap
      obtain ⟨idx, hidx, rfl⟩ := List.mem_map.mp hmap
      refine ⟨idx, hidx, ?_⟩
      split <;> exact ⟨rfl, rfl⟩

theorem put_noTwoAgree (hc : Consistent st) (h : NoTwoAgree st) {refusals : Refusals} {row : Row}
    (hd : Distinguished check refusals row st) (hh : Harmless check refusals row st) :
    NoTwoAgree (put check refusals row st).state := by
  cases hr : put check refusals row st with
  | raised why st' =>
    rw [Outcome.state, put_raised hh hr]
    exact h
  | returned a st' =>
    have hstep := put_step check refusals row st
    rw [hr] at hstep
    cases hstep with
    | @returned checked pk saved hcheck hkey hunique haccepted hsaved =>
      have hnone : ¬Duplicate st (sanitizeRow checked) := by
        rw [← raisesUnique_iff_duplicate hc hcheck hkey (hd.2 _ hcheck)]
        rintro ⟨index, st', hraised⟩
        rw [hr] at hraised
        cases hraised
      intro idx hidx hu r hrow r' hrow' hf hequal
      simp only [Outcome.state] at hidx hrow hrow'
      rw [save_done hsaved] at hidx
      obtain ⟨idx₁, hidx₁, rfl⟩ := List.mem_map.mp hidx
      obtain ⟨idx₀, hidx₀, hfield, -, hunique₀⟩ := mem_cleared hidx₁
      rw [addEntry_field, hfield] at hf hequal
      rw [addEntry_unique, hunique₀] at hu
      obtain rfl | ⟨hmem, hid⟩ := (hc.mem_put hkey _).mp hrow
      · obtain rfl | ⟨hmem', hid'⟩ := (hc.mem_put hkey _).mp hrow'
        · rfl
        · rw [FieldValue.equal_comm] at hequal
          exact absurd ⟨idx₀, hidx₀, hu, hf, r', hmem', hid', hequal⟩ hnone
      · obtain rfl | ⟨hmem', hid'⟩ := (hc.mem_put hkey _).mp hrow'
        · have hf' : sanitizeRow checked idx₀.field ≠ .nil := by
            rw [FieldValue.equal_comm] at hequal
            exact FieldValue.ne_nil_of_equal hequal hf
          exact absurd ⟨idx₀, hidx₀, hu, hf', r, hmem, hid, hequal⟩ hnone
        · exact h idx₀ hidx₀ hu r hmem r' hmem' hf hequal

namespace Sample

theorem one_takenBy_iff {id : Bytes} {value : FieldValue} {idx : IndexState}
    (hidx : idx ∈ (one true id value).indexes) (hvalue : value ≠ .nil) (newId : Bytes)
    (newValue : FieldValue) :
    takenBy (.string newId) idx newValue = true ↔
      keyInRange (some (secondaryMin newValue)) (some (secondaryMax newValue))
        (.string (secondaryKey value (.string id))) = true ∧ newId ≠ id := by
  rw [takenBy_iff (one_consistent true id value) hidx rfl]
  simp only [mem_one, exists_eq_left]
  have hfield := (one_index hidx).1
  have hf : member id value idx.field = value := by
    rw [hfield]
    simp [member, show team ≠ primaryKey by decide]
  have hid : member id value primaryKey = .string id := rfl
  have heq : (FieldValue.string id).equal (.string newId) = true ↔ id = newId := by
    simp [FieldValue.equal]
  unfold secondaryKeyOf
  rw [hf, hid, heq]
  simp only [ne_eq, hvalue, not_false_eq_true, true_and]
  exact and_congr_right fun _ => not_congr eq_comm

theorem one_raises_iff {id newId : Bytes} {value newValue : FieldValue} (hvalue : value ≠ .nil)
    (hnew : newValue ≠ .nil) (hid : newId ≠ id) :
    RaisesUnique some accepting (member newId newValue) (one true id value) ↔
      keyInRange (some (secondaryMin newValue)) (some (secondaryMax newValue))
        (.string (secondaryKey value (.string id))) = true := by
  have hkey : (sanitizeRow (member newId newValue) primaryKey).key? = some (.string newId) := by
    rw [sanitize_member]
    rfl
  rw [raisesUnique_iff rfl hkey, sanitize_member]
  have hfield : member newId newValue team = newValue := by
    simp [member, show team ≠ primaryKey by decide]
  constructor
  · rintro ⟨idx, hidx, -, -, htaken⟩
    rw [(one_index hidx).1, hfield] at htaken
    exact ((one_takenBy_iff hidx hvalue newId newValue).mp htaken).1
  · intro hrange
    obtain ⟨idx, hidx, hf, hunique⟩ := one_indexes
    refine ⟨idx, hidx, hunique, by rw [hf, hfield]; exact hnew, ?_⟩
    rw [hf, hfield]
    exact (one_takenBy_iff hidx hvalue newId newValue).mpr ⟨hrange, hid⟩

theorem one_duplicate_iff {id newId : Bytes} {value newValue : FieldValue} (hnew : newValue ≠ .nil)
    (hid : newId ≠ id) :
    Duplicate (one true id value) (member newId newValue) ↔ value.equal newValue = true := by
  have hfield (id : Bytes) (value : FieldValue) : member id value team = value := by
    simp [member, show team ≠ primaryKey by decide]
  constructor
  · rintro ⟨idx, hidx, -, -, other, hother, -, hequal⟩
    rw [mem_one.mp hother, (one_index hidx).1, hfield, hfield] at hequal
    exact hequal
  · intro hequal
    obtain ⟨idx, hidx, hf, hunique⟩ := one_indexes
    refine ⟨idx, hidx, hunique, by rw [hf, hfield]; exact hnew, _, mem_one.mpr rfl, ?_, ?_⟩
    · have : ¬id = newId := fun h => hid h.symm
      simpa [member, FieldValue.equal] using this
    · rw [hf, hfield, hfield]
      exact hequal

theorem one_distinguished (id : Bytes) (value : FieldValue) :
    DbRun some (Distinguished some) (teams true) (one true id value) :=
  join .created (enforce_empty _ _ _)
    ⟨empty_apart _, fun checked _ idx _ _ _ other hother => by simp [allRows, createTable] at hother⟩

theorem one_unaliased {id newId : Bytes} {value newValue : FieldValue}
    (h : keyInRange (some (secondaryMin newValue)) (some (secondaryMax newValue))
      (.string (secondaryKey value (.string id))) = true ↔ value.equal newValue = true) :
    Unaliased (one true id value) (member newId newValue) := by
  intro idx hidx _ _ other hother _ _
  rw [mem_one.mp hother]
  have hfield (id : Bytes) (value : FieldValue) : member id value team = value := by
    simp [member, show team ≠ primaryKey by decide]
  unfold secondaryKeyOf
  rw [(one_index hidx).1, hfield, hfield]
  exact h

/-- `0.3` and `0.1 + 0.2`. -/
def threeTenths : Double := 0x3FD3333333333333
def sumTenths : Double := 0x3FD3333333333334

end Sample

end ToiLang.Database
