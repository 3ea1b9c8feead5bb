import ToiLang.Database.Table

namespace ToiLang.Database

theorem string_rank_inj {s : Bytes} {a : BTreeAtom} (h : a.rank = (BTreeAtom.string s).rank) :
    a = .string s := by
  cases a with
  | number x => exact absurd h (by simp [BTreeAtom.rank])
  | string t =>
    have hmap : t.map UInt8.toNat = s.map UInt8.toNat := by simpa [BTreeAtom.rank] using h
    rw [(List.map_injective_iff.mpr fun a b h => UInt8.toNat_inj.mp h) hmap]

namespace FieldValue

/-- Two ids are equal where their keys share a place. -/
theorem equal_iff_rank {v w : FieldValue} {a b : BTreeAtom} (hv : v.key? = some a)
    (hw : w.key? = some b) : v.equal w = true ↔ a.rank = b.rank := by
  cases v with
  | nil => cases hv
  | bool _ => cases hv
  | number x =>
    simp only [key?] at hv
    split at hv
    next => cases hv
    next hx =>
      cases hv
      cases w with
      | nil => cases hw
      | bool _ => cases hw
      | number y =>
        simp only [key?] at hw
        split at hw
        next => cases hw
        next hy =>
          cases hw
          simp [equal, Double.eq, hx, hy, BTreeAtom.rank]
      | string t =>
        cases hw
        simp [equal, BTreeAtom.rank]
  | string s =>
    cases hv
    cases w with
    | nil => cases hw
    | bool _ => cases hw
    | number y =>
      simp only [key?] at hw
      split at hw
      next => cases hw
      next =>
        cases hw
        simp [equal, BTreeAtom.rank]
    | string t =>
      cases hw
      have h : (BTreeAtom.string s).rank = (BTreeAtom.string t).rank ↔ s = t := by
        constructor
        · intro h
          exact BTreeAtom.string.inj (string_rank_inj h)
        · rintro rfl
          rfl
      simp [equal, h]

end FieldValue

namespace Tree

variable {α : Type} {t : Tree α} {b : Binding α}

theorem get_eq_some (hs : SortedMap.Sorted Binding.rank t) {key : BTreeAtom} {value : α} :
    t.get key = some value ↔ ∃ b ∈ t, b.rank = key.rank ∧ b.value = value := by
  unfold get
  rw [Option.map_eq_some_iff]
  constructor
  · rintro ⟨b, hfind, rfl⟩
    obtain ⟨hmem, hrank⟩ := (SortedMap.find_eq_some hs).mp hfind
    exact ⟨b, hmem, hrank, rfl⟩
  · rintro ⟨b, hmem, hrank, rfl⟩
    exact ⟨b, (SortedMap.find_eq_some hs).mpr ⟨hmem, hrank⟩, rfl⟩

theorem get_eq_none {key : BTreeAtom} : t.get key = none ↔ ∀ b ∈ t, b.rank ≠ key.rank := by
  unfold get
  rw [Option.map_eq_none_iff]
  exact SortedMap.find_eq_none

theorem putKey_rank (t : Tree α) (key : BTreeAtom) :
    (((SortedMap.find Binding.rank key.rank t).map Binding.key).getD key).rank = key.rank := by
  cases h : SortedMap.find Binding.rank key.rank t with
  | none => rfl
  | some b => exact show b.rank = key.rank from SortedMap.find_key h

theorem sorted_put (hs : SortedMap.Sorted Binding.rank t) (key : BTreeAtom) (value : α) :
    SortedMap.Sorted Binding.rank (t.put key value) := hs.bind _

theorem sorted_delete (hs : SortedMap.Sorted Binding.rank t) (key : BTreeAtom) :
    SortedMap.Sorted Binding.rank (t.delete key) := hs.unbind _

theorem mem_put {key : BTreeAtom} {value : α} :
    b ∈ t.put key value ↔
      b = ⟨((SortedMap.find Binding.rank key.rank t).map Binding.key).getD key, value⟩ ∨
        b ∈ t ∧ b.rank ≠ key.rank := by
  unfold put
  rw [SortedMap.mem_bind]
  have hrank := putKey_rank t key
  simp only [Binding.rank] at hrank ⊢
  rw [hrank]

theorem mem_put_string {s : Bytes} {value : α} :
    b ∈ t.put (.string s) value ↔ b = ⟨.string s, value⟩ ∨ b ∈ t ∧ b.key ≠ .string s := by
  rw [mem_put, string_rank_inj (putKey_rank t (.string s))]
  have hne : b.rank ≠ (BTreeAtom.string s).rank ↔ b.key ≠ .string s := by
    constructor
    · intro h he
      exact h (by rw [Binding.rank, he])
    · intro h he
      exact h (string_rank_inj he)
  rw [hne]

theorem mem_delete {key : BTreeAtom} : b ∈ t.delete key ↔ b ∈ t ∧ b.rank ≠ key.rank :=
  SortedMap.mem_unbind

theorem mem_delete_string {s : Bytes} : b ∈ t.delete (.string s) ↔ b ∈ t ∧ b.key ≠ .string s := by
  rw [mem_delete]
  constructor
  · rintro ⟨hmem, hne⟩
    exact ⟨hmem, fun he => hne (by rw [Binding.rank, he])⟩
  · rintro ⟨hmem, hne⟩
    exact ⟨hmem, fun he => hne (string_rank_inj he)⟩

end Tree

/-- An index without the entry of a row. -/
def dropEntry (row : Row) (idx : IndexState) : IndexState :=
  if row idx.field ≠ .nil then { idx with tree := idx.tree.delete (secondaryKeyOf idx row) } else idx

/-- An index with the entry of a row. -/
def addEntry (row : Row) (pk : BTreeAtom) (idx : IndexState) : IndexState :=
  if row idx.field ≠ .nil then { idx with tree := idx.tree.put (secondaryKeyOf idx row) pk } else idx

section Entry

variable {row : Row} {pk : BTreeAtom} {idx : IndexState}

@[simp] theorem dropEntry_name : (dropEntry row idx).name = idx.name := by
  unfold dropEntry; split <;> rfl

@[simp] theorem dropEntry_field : (dropEntry row idx).field = idx.field := by
  unfold dropEntry; split <;> rfl

@[simp] theorem dropEntry_unique : (dropEntry row idx).unique = idx.unique := by
  unfold dropEntry; split <;> rfl

@[simp] theorem addEntry_name : (addEntry row pk idx).name = idx.name := by
  unfold addEntry; split <;> rfl

@[simp] theorem addEntry_field : (addEntry row pk idx).field = idx.field := by
  unfold addEntry; split <;> rfl

@[simp] theorem addEntry_unique : (addEntry row pk idx).unique = idx.unique := by
  unfold addEntry; split <;> rfl

@[simp] theorem secondaryKeyOf_dropEntry (other : Row) :
    secondaryKeyOf (dropEntry row idx) other = secondaryKeyOf idx other := by
  simp [secondaryKeyOf]

@[simp] theorem secondaryKeyOf_addEntry (other : Row) :
    secondaryKeyOf (addEntry row pk idx) other = secondaryKeyOf idx other := by
  simp [secondaryKeyOf]

theorem mem_dropEntry {e : Binding BTreeAtom} :
    e ∈ (dropEntry row idx).tree ↔
      e ∈ idx.tree ∧ (row idx.field ≠ .nil → e.key ≠ secondaryKeyOf idx row) := by
  unfold dropEntry
  split
  next h => simp [h, secondaryKeyOf, Tree.mem_delete_string]
  next h => simp [h]

theorem mem_addEntry {e : Binding BTreeAtom} :
    e ∈ (addEntry row pk idx).tree ↔
      row idx.field ≠ .nil ∧ e = ⟨secondaryKeyOf idx row, pk⟩ ∨
        e ∈ idx.tree ∧ (row idx.field ≠ .nil → e.key ≠ secondaryKeyOf idx row) := by
  unfold addEntry
  split
  next h => simp [h, secondaryKeyOf, Tree.mem_put_string]
  next h => simp [h]

theorem sorted_dropEntry (hs : SortedMap.Sorted Binding.rank idx.tree) :
    SortedMap.Sorted Binding.rank (dropEntry row idx).tree := by
  unfold dropEntry
  split
  next => exact Tree.sorted_delete hs _
  next => exact hs

theorem sorted_addEntry (hs : SortedMap.Sorted Binding.rank idx.tree) :
    SortedMap.Sorted Binding.rank (addEntry row pk idx).tree := by
  unfold addEntry
  split
  next => exact Tree.sorted_put hs _ _
  next => exact hs

end Entry

theorem cleared_some {st : TableState} {pk : BTreeAtom} {old : Row}
    (h : st.primary.get pk = some old) : cleared st pk = st.indexes.map (dropEntry old) := by
  unfold cleared
  rw [h]
  rfl

theorem cleared_none {st : TableState} {pk : BTreeAtom} (h : st.primary.get pk = none) :
    cleared st pk = st.indexes := by
  unfold cleared
  rw [h]

/-- What a put can do. -/
inductive PutStep (check : Row → Option Row) (refusals : Refusals) (row : Row) (st : TableState) :
    Outcome Row → Prop
  | check (h : check row = none) : PutStep check refusals row st (.raised .check st)
  | key {checked : Row} (h : check row = some checked)
      (hkey : (sanitizeRow checked primaryKey).key? = none) :
      PutStep check refusals row st (.raised .key st)
  | unique {checked : Row} {pk : BTreeAtom} {idx : IndexState} (h : check row = some checked)
      (hkey : (sanitizeRow checked primaryKey).key? = some pk)
      (hunique : enforceUniqueIndexes (sanitizeRow checked) (sanitizeRow checked primaryKey) st.indexes
        = some idx) :
      PutStep check refusals row st (.raised (.unique idx.name) st)
  | refused {checked : Row} {pk : BTreeAtom} (h : check row = some checked)
      (hkey : (sanitizeRow checked primaryKey).key? = some pk)
      (hunique : enforceUniqueIndexes (sanitizeRow checked) (sanitizeRow checked primaryKey) st.indexes
        = none)
      (hrefused : refusals.primary = true) :
      PutStep check refusals row st (.raised .refused ⟨st.primary, cleared st pk⟩)
  | partly {checked : Row} {pk : BTreeAtom} {saved : List IndexState} (h : check row = some checked)
      (hkey : (sanitizeRow checked primaryKey).key? = some pk)
      (hunique : enforceUniqueIndexes (sanitizeRow checked) (sanitizeRow checked primaryKey) st.indexes
        = none)
      (haccepted : refusals.primary = false)
      (hsaved : saveSecondaryIndexes refusals (sanitizeRow checked) pk (cleared st pk) = (saved, false)) :
      PutStep check refusals row st (.raised .refused ⟨st.primary.put pk (sanitizeRow checked), saved⟩)
  | returned {checked : Row} {pk : BTreeAtom} {saved : List IndexState} (h : check row = some checked)
      (hkey : (sanitizeRow checked primaryKey).key? = some pk)
      (hunique : enforceUniqueIndexes (sanitizeRow checked) (sanitizeRow checked primaryKey) st.indexes
        = none)
      (haccepted : refusals.primary = false)
      (hsaved : saveSecondaryIndexes refusals (sanitizeRow checked) pk (cleared st pk) = (saved, true)) :
      PutStep check refusals row st
        (.returned (sanitizeRow checked) ⟨st.primary.put pk (sanitizeRow checked), saved⟩)

theorem put_step (check : Row → Option Row) (refusals : Refusals) (row : Row) (st : TableState) :
    PutStep check refusals row st (put check refusals row st) := by
  unfold put
  cases h : check row with
  | none => exact .check h
  | some checked =>
    simp only
    cases hkey : (sanitizeRow checked primaryKey).key? with
    | none => exact .key h hkey
    | some pk =>
      simp only
      cases hunique : enforceUniqueIndexes (sanitizeRow checked) (sanitizeRow checked primaryKey)
          st.indexes with
      | some idx => exact .unique h hkey hunique
      | none =>
        simp only
        cases hp : refusals.primary with
        | true => exact .refused h hkey hunique hp
        | false =>
          simp only [Bool.false_eq_true, if_false]
          cases hsaved : saveSecondaryIndexes refusals (sanitizeRow checked) pk (cleared st pk) with
          | mk saved done =>
            cases done with
            | true => exact .returned h hkey hunique hp hsaved
            | false => exact .partly h hkey hunique hp hsaved

theorem save_done {refusals : Refusals} {row : Row} {pk : BTreeAtom} {indexes saved : List IndexState}
    (h : saveSecondaryIndexes refusals row pk indexes = (saved, true)) :
    saved = indexes.map (addEntry row pk) := by
  induction indexes generalizing saved with
  | nil =>
    cases h
    rfl
  | cons idx rest ih =>
    unfold saveSecondaryIndexes at h
    rw [List.map_cons, addEntry]
    split at h
    next hf =>
      split at h
      next => cases h
      next =>
        obtain ⟨h1, h2⟩ := Prod.mk.inj h
        rw [if_pos hf, ← h1]
        exact congrArg (List.cons _) (ih (Prod.ext rfl h2))
    next hf =>
      obtain ⟨h1, h2⟩ := Prod.mk.inj h
      rw [if_neg hf, ← h1]
      exact congrArg (List.cons _) (ih (Prod.ext rfl h2))

/-- Each index has one entry for each row that is there and has the field, under the key of the
field and the id of the row, and no other one. -/
structure Consistent (st : TableState) : Prop where
  sorted : SortedMap.Sorted Binding.rank st.primary
  ids : ∀ b ∈ st.primary, ∃ pk, (b.value primaryKey).key? = some pk ∧ pk.rank = b.rank
  indexSorted : ∀ idx ∈ st.indexes, SortedMap.Sorted Binding.rank idx.tree
  entries : ∀ idx ∈ st.indexes, ∀ e, e ∈ idx.tree ↔
    ∃ row ∈ allRows st, row idx.field ≠ .nil ∧ e.key = secondaryKeyOf idx row ∧
      (row primaryKey).key? = some e.value
  apart : ∀ idx ∈ st.indexes, ∀ row ∈ allRows st, ∀ row' ∈ allRows st,
    row idx.field ≠ .nil → row' idx.field ≠ .nil →
      secondaryKeyOf idx row = secondaryKeyOf idx row' → row = row'

theorem createTable_consistent (specs : List (Bytes × Bytes × Bool)) :
    Consistent (createTable specs) where
  sorted := List.Pairwise.nil
  ids := fun b hb => by cases hb
  indexSorted := by
    intro idx hidx
    obtain ⟨spec, -, rfl⟩ := List.mem_map.mp hidx
    exact List.Pairwise.nil
  entries := by
    intro idx hidx e
    obtain ⟨spec, -, rfl⟩ := List.mem_map.mp hidx
    simp [allRows, createTable]
  apart := by
    intro idx _ row hrow
    simp [allRows, createTable] at hrow

section Rows

variable {st : TableState}

theorem mem_allRows {row : Row} : row ∈ allRows st ↔ ∃ b ∈ st.primary, b.value = row := by
  simp [allRows]

theorem Consistent.unique (h : Consistent st) {b b' : Binding Row} (hb : b ∈ st.primary)
    (hb' : b' ∈ st.primary) (hrank : b.rank = b'.rank) : b = b' := by
  have h1 := (SortedMap.find_eq_some h.sorted).mpr ⟨hb, hrank⟩
  have h2 := (SortedMap.find_eq_some h.sorted).mpr ⟨hb', rfl⟩
  rw [h1] at h2
  exact Option.some.inj h2

/-- The id of a row says where it is. -/
theorem Consistent.rank_eq (h : Consistent st) {b b' : Binding Row} (hb : b ∈ st.primary)
    (hb' : b' ∈ st.primary) (hvalue : b.value = b'.value) : b.rank = b'.rank := by
  obtain ⟨pk, hpk, hrank⟩ := h.ids b hb
  obtain ⟨pk', hpk', hrank'⟩ := h.ids b' hb'
  rw [hvalue, hpk'] at hpk
  cases hpk
  rw [← hrank, ← hrank']

theorem Consistent.key (h : Consistent st) {row : Row} (hrow : row ∈ allRows st) :
    ∃ pk, (row primaryKey).key? = some pk := by
  obtain ⟨b, hb, rfl⟩ := mem_allRows.mp hrow
  obtain ⟨pk, hpk, -⟩ := h.ids b hb
  exact ⟨pk, hpk⟩

theorem Consistent.get_iff (h : Consistent st) {row : Row} {pk : BTreeAtom} :
    st.primary.get pk = some row ↔
      row ∈ allRows st ∧ ∃ key, (row primaryKey).key? = some key ∧ key.rank = pk.rank := by
  rw [Tree.get_eq_some h.sorted, mem_allRows]
  constructor
  · rintro ⟨b, hb, hrank, rfl⟩
    obtain ⟨key, hkey, hkrank⟩ := h.ids b hb
    exact ⟨⟨b, hb, rfl⟩, key, hkey, hkrank.trans hrank⟩
  · rintro ⟨⟨b, hb, rfl⟩, key, hkey, hkrank⟩
    obtain ⟨key', hkey', hrank⟩ := h.ids b hb
    rw [hkey] at hkey'
    cases hkey'
    exact ⟨b, hb, hrank.symm.trans hkrank, rfl⟩

/-- Two rows with one id are the same row. -/
theorem Consistent.row_eq (h : Consistent st) {row row' : Row} (hrow : row ∈ allRows st)
    (hrow' : row' ∈ allRows st) (hid : (row primaryKey).equal (row' primaryKey)) : row = row' := by
  obtain ⟨pk, hpk⟩ := h.key hrow
  obtain ⟨pk', hpk'⟩ := h.key hrow'
  have hrank := (FieldValue.equal_iff_rank hpk hpk').mp hid
  have h1 := h.get_iff.mpr ⟨hrow, pk, hpk, hrank⟩
  have h2 := h.get_iff.mpr ⟨hrow', pk', hpk', rfl⟩
  rw [h1] at h2
  exact Option.some.inj h2

theorem Consistent.mem_delete (h : Consistent st) {row old : Row} {pk : BTreeAtom}
    (hold : st.primary.get pk = some old) (indexes : List IndexState) :
    row ∈ allRows ⟨st.primary.delete pk, indexes⟩ ↔ row ∈ allRows st ∧ row ≠ old := by
  obtain ⟨b₀, hb₀, hrank₀, hvalue₀⟩ := (Tree.get_eq_some h.sorted).mp hold
  rw [mem_allRows, mem_allRows]
  constructor
  · rintro ⟨b, hb, rfl⟩
    obtain ⟨hmem, hne⟩ := Tree.mem_delete.mp hb
    refine ⟨⟨b, hmem, rfl⟩, ?_⟩
    intro he
    exact hne ((h.rank_eq hmem hb₀ (he.trans hvalue₀.symm)).trans hrank₀)
  · rintro ⟨⟨b, hb, rfl⟩, hne⟩
    refine ⟨b, Tree.mem_delete.mpr ⟨hb, ?_⟩, rfl⟩
    intro hrank
    have heq := h.unique hb hb₀ (hrank.trans hrank₀.symm)
    exact hne (by rw [heq, hvalue₀])

theorem Tree.delete_of_get_none {pk : BTreeAtom} (hold : st.primary.get pk = none) :
    st.primary.delete pk = st.primary := SortedMap.unbind_eq_self (Tree.get_eq_none.mp hold)

/-- Without a row and its entries. -/
theorem Consistent.delete (h : Consistent st) (pk : BTreeAtom) :
    Consistent ⟨st.primary.delete pk, cleared st pk⟩ := by
  cases hold : st.primary.get pk with
  | none =>
    rw [Tree.delete_of_get_none hold, cleared_none hold]
    exact h
  | some old =>
    rw [cleared_some hold]
    have hmem {row : Row} (indexes : List IndexState) :
        row ∈ allRows ⟨st.primary.delete pk, indexes⟩ ↔ row ∈ allRows st ∧ row ≠ old :=
      h.mem_delete hold indexes
    have hold' := (h.get_iff.mp hold).1
    refine ⟨Tree.sorted_delete h.sorted pk, ?_, ?_, ?_, ?_⟩
    · intro b hb
      exact h.ids b (Tree.mem_delete.mp hb).1
    · intro _ hmap
      obtain ⟨idx, hidx, rfl⟩ := List.mem_map.mp hmap
      exact sorted_dropEntry (h.indexSorted idx hidx)
    · intro _ hmap e
      obtain ⟨idx, hidx, rfl⟩ := List.mem_map.mp hmap
      simp only [mem_dropEntry, h.entries idx hidx, hmem, dropEntry_field, secondaryKeyOf_dropEntry]
      constructor
      · rintro ⟨⟨row, hrow, hf, hkey, hvalue⟩, hne⟩
        refine ⟨row, ⟨hrow, ?_⟩, hf, hkey, hvalue⟩
        rintro rfl
        exact hne hf hkey
      · rintro ⟨row, ⟨hrow, hne⟩, hf, hkey, hvalue⟩
        refine ⟨⟨row, hrow, hf, hkey, hvalue⟩, ?_⟩
        intro hf' he
        exact hne (h.apart idx hidx row hrow old hold' hf hf' (hkey.symm.trans he))
    · intro _ hmap row hrow row' hrow' hf hf' hkey
      obtain ⟨idx, hidx, rfl⟩ := List.mem_map.mp hmap
      simp only [dropEntry_field, secondaryKeyOf_dropEntry] at hf hf' hkey
      exact h.apart idx hidx row ((hmem _).mp hrow).1 row' ((hmem _).mp hrow').1 hf hf' hkey

/-- With a new row and its entries. -/
theorem Consistent.insert (h : Consistent st) {primary : Tree Row} {row : Row} {pk : BTreeAtom}
    (hsorted : SortedMap.Sorted Binding.rank primary)
    (hids : ∀ b ∈ primary, ∃ pk, (b.value primaryKey).key? = some pk ∧ pk.rank = b.rank)
    (hrows : ∀ r, r ∈ allRows ⟨primary, st.indexes⟩ ↔ r = row ∨ r ∈ allRows st)
    (hpk : (row primaryKey).key? = some pk)
    (hapart : ∀ idx ∈ st.indexes, row idx.field ≠ .nil → ∀ other ∈ allRows st,
      other idx.field ≠ .nil → secondaryKeyOf idx other ≠ secondaryKeyOf idx row) :
    Consistent ⟨primary, st.indexes.map (addEntry row pk)⟩ := by
  have hmem {r : Row} (indexes : List IndexState) :
      r ∈ allRows ⟨primary, indexes⟩ ↔ r = row ∨ r ∈ allRows st := hrows r
  refine ⟨hsorted, hids, ?_, ?_, ?_⟩
  · intro _ hmap
    obtain ⟨idx, hidx, rfl⟩ := List.mem_map.mp hmap
    exact sorted_addEntry (h.indexSorted idx hidx)
  · intro _ hmap e
    obtain ⟨idx, hidx, rfl⟩ := List.mem_map.mp hmap
    simp only [mem_addEntry, h.entries idx hidx, hmem, addEntry_field, secondaryKeyOf_addEntry]
    constructor
    · rintro (⟨hf, rfl⟩ | ⟨⟨other, hother, hf, hkey, hvalue⟩, -⟩)
      · exact ⟨row, .inl rfl, hf, rfl, hpk⟩
      · exact ⟨other, .inr hother, hf, hkey, hvalue⟩
    · rintro ⟨r, rfl | hother, hf, hkey, hvalue⟩
      · rw [hpk] at hvalue
        cases hvalue
        exact .inl ⟨hf, by rw [← hkey]⟩
      · refine .inr ⟨⟨r, hother, hf, hkey, hvalue⟩, ?_⟩
        intro hf' he
        exact hapart idx hidx hf' r hother hf (hkey.symm.trans he)
  · intro _ hmap r hr r' hr' hf hf' hkey
    obtain ⟨idx, hidx, rfl⟩ := List.mem_map.mp hmap
    simp only [addEntry_field, secondaryKeyOf_addEntry] at hf hf' hkey
    obtain rfl | hold := (hmem _).mp hr
    · obtain rfl | hold' := (hmem _).mp hr'
      · rfl
      · exact absurd hkey.symm (hapart idx hidx hf r' hold' hf')
    · obtain rfl | hold' := (hmem _).mp hr'
      · exact absurd hkey (hapart idx hidx hf' r hold hf)
      · exact h.apart idx hidx r hold r' hold' hf hf' hkey

theorem mem_cleared {idx : IndexState} {pk : BTreeAtom} (h : idx ∈ cleared st pk) :
    ∃ idx₀ ∈ st.indexes, idx.field = idx₀.field ∧ idx.name = idx₀.name ∧ idx.unique = idx₀.unique := by
  cases hold : st.primary.get pk with
  | none =>
    rw [cleared_none hold] at h
    exact ⟨idx, h, rfl, rfl, rfl⟩
  | some old =>
    rw [cleared_some hold] at h
    obtain ⟨idx₀, hidx₀, rfl⟩ := List.mem_map.mp h
    exact ⟨idx₀, hidx₀, by simp⟩

/-- The row shares no key of an index with a row that has another id. -/
def KeepsApart (st : TableState) (row : Row) : Prop :=
  ∀ idx ∈ st.indexes, row idx.field ≠ .nil → ∀ other ∈ allRows st, other idx.field ≠ .nil →
    secondaryKeyOf idx other = secondaryKeyOf idx row → (other primaryKey).equal (row primaryKey)

theorem put_rows {row r : Row} {pk : BTreeAtom} (indexes indexes' : List IndexState) :
    r ∈ allRows ⟨st.primary.put pk row, indexes⟩ ↔
      r = row ∨ r ∈ allRows ⟨st.primary.delete pk, indexes'⟩ := by
  simp only [mem_allRows]
  constructor
  · rintro ⟨b, hb, rfl⟩
    obtain rfl | ⟨hmem, hne⟩ := Tree.mem_put.mp hb
    · exact .inl rfl
    · exact .inr ⟨b, Tree.mem_delete.mpr ⟨hmem, hne⟩, rfl⟩
  · rintro (rfl | ⟨b, hb, rfl⟩)
    · exact ⟨_, Tree.mem_put.mpr (.inl rfl), rfl⟩
    · exact ⟨b, Tree.mem_put.mpr (.inr (Tree.mem_delete.mp hb)), rfl⟩

theorem Consistent.mem_put (h : Consistent st) {row r : Row} {pk : BTreeAtom}
    (hpk : (row primaryKey).key? = some pk) (indexes : List IndexState) :
    r ∈ allRows ⟨st.primary.put pk row, indexes⟩ ↔
      r = row ∨ r ∈ allRows st ∧ ¬(r primaryKey).equal (row primaryKey) := by
  rw [put_rows indexes indexes]
  apply or_congr_right
  cases hold : st.primary.get pk with
  | none =>
    rw [Tree.delete_of_get_none hold]
    refine ⟨fun hr => ⟨hr, ?_⟩, And.left⟩
    intro hid
    obtain ⟨key, hkey⟩ := h.key hr
    have hget := h.get_iff.mpr ⟨hr, key, hkey, (FieldValue.equal_iff_rank hkey hpk).mp hid⟩
    rw [hold] at hget
    cases hget
  | some old =>
    rw [h.mem_delete hold]
    obtain ⟨hrow, key, hkey, hrank⟩ := h.get_iff.mp hold
    have hid := (FieldValue.equal_iff_rank hkey hpk).mpr hrank
    refine and_congr_right fun hr => not_congr ?_
    constructor
    · rintro rfl
      exact hid
    · intro hid'
      obtain ⟨key', hkey'⟩ := h.key hr
      have hget := h.get_iff.mpr ⟨hr, key', hkey', (FieldValue.equal_iff_rank hkey' hpk).mp hid'⟩
      rw [hold] at hget
      exact (Option.some.inj hget).symm

/-- With a row in the place of the one with its id. -/
theorem Consistent.put (h : Consistent st) {row : Row} {pk : BTreeAtom}
    (hpk : (row primaryKey).key? = some pk) (hapart : KeepsApart st row) :
    Consistent ⟨st.primary.put pk row, (cleared st pk).map (addEntry row pk)⟩ := by
  apply (h.delete pk).insert (Tree.sorted_put h.sorted pk row)
  · intro b hb
    obtain rfl | ⟨hmem, -⟩ := Tree.mem_put.mp hb
    · exact ⟨pk, hpk, (Tree.putKey_rank _ _).symm⟩
    · exact h.ids b hmem
  · intro r
    exact put_rows _ _
  · exact hpk
  · intro idx hidx hf other hother hf' hkey
    obtain ⟨idx₀, hidx₀, hfield, -⟩ := mem_cleared hidx
    have hmem := (@put_rows st row _ pk st.indexes (cleared st pk)).mpr (.inr hother)
    rw [hfield] at hf hf'
    have hkey' : secondaryKeyOf idx₀ other = secondaryKeyOf idx₀ row := by
      simpa [secondaryKeyOf, hfield] using hkey
    obtain rfl | ⟨hother', hid⟩ := (h.mem_put hpk st.indexes).mp hmem
    · obtain ⟨b, hb, hvalue⟩ := mem_allRows.mp hother
      obtain ⟨hb', hne⟩ := Tree.mem_delete.mp hb
      obtain ⟨key, hk, hrank⟩ := h.ids b hb'
      rw [hvalue, hpk] at hk
      cases hk
      exact hne hrank.symm
    · exact hid (hapart idx₀ hidx₀ hf other hother' hf' hkey')

end Rows

end ToiLang.Database
