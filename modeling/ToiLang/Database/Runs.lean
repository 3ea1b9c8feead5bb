import ToiLang.Database.Consistency

namespace ToiLang.Database

/-- The calls that change a table, with the refusals that their writes meet. -/
inductive Call
  | put (refusals : Refusals) (row : Row)
  | delete (key : FieldValue)
  | updateWhere (refusals : Nat → Refusals) (q : Query) (arrange : List Row → Option (List Row))
    (patch : Patch)
  | deleteWhere (q : Query) (arrange : List Row → Option (List Row))

def Outcome.done {α : Type} : Outcome α → Outcome Unit
  | returned _ st => .returned () st
  | raised why st => .raised why st

@[simp] theorem Outcome.state_done {α : Type} (o : Outcome α) : o.done.state = o.state := by
  cases o <;> rfl

section Calls

variable (check : Row → Option Row)

def Call.run : Call → TableState → Outcome Unit
  | put refusals row, st => (Database.put check refusals row st).done
  | delete key, st => (Database.delete key st).done
  | updateWhere refusals q arrange patch, st =>
    (Database.updateWhere check refusals q arrange patch st).done
  | deleteWhere q arrange, st => (Database.deleteWhere q arrange st).done

variable (C : Refusals → Row → TableState → Prop)

/-- A condition on each of the puts that an update makes. -/
def updateEach (refusals : Nat → Refusals) (patch : Patch) : Nat → List Row → TableState → Prop
  | _, [], _ => True
  | updated, row :: rest, st =>
    match patch row with
    | none => True
    | some none => updateEach refusals patch updated rest st
    | some (some delta) =>
      C (refusals updated) (patched row delta) st ∧
        match put check (refusals updated) (patched row delta) st with
        | .returned _ st' => updateEach refusals patch (updated + 1) rest st'
        | .raised _ _ => True

/-- A condition on each of the puts that a call makes. -/
def Call.Each : Call → TableState → Prop
  | put refusals row, st => C refusals row st
  | updateWhere refusals q arrange patch, st =>
    ∀ rows, filter q arrange st = some rows → updateEach check C refusals patch 0 rows st
  | delete _, _ => True
  | deleteWhere _ _, _ => True

/-- The row that is put shares no key of an index with a row that has another id. -/
def Apart (_ : Refusals) (row : Row) (st : TableState) : Prop :=
  ∀ checked, check row = some checked → KeepsApart st (sanitizeRow checked)

/-- No write is refused once an entry of an index has been removed or the row has been written. -/
def Harmless (refusals : Refusals) (row : Row) (st : TableState) : Prop :=
  ∀ checked pk, check row = some checked → (sanitizeRow checked primaryKey).key? = some pk →
    enforceUniqueIndexes (sanitizeRow checked) (sanitizeRow checked primaryKey) st.indexes = none →
      (refusals.primary = true → ∀ old, st.primary.get pk = some old →
        ∀ idx ∈ st.indexes, old idx.field = .nil) ∧
      (refusals.primary = false → ∀ idx ∈ st.indexes, sanitizeRow checked idx.field ≠ .nil →
        refusals.index idx.name = false)

/-- A run of calls on a new table, each of whose puts meets a condition, and with none of them that
raises an error halfway. -/
inductive DbRun (specs : List (Bytes × Bytes × Bool)) : TableState → Prop
  | created : DbRun specs (createTable specs)
  | returned {call : Call} {st st' : TableState} (h : DbRun specs st) (hc : call.Each check C st)
      (hr : call.run check st = .returned () st') : DbRun specs st'
  | raised {call : Call} {st st' : TableState} {why : Failure} (h : DbRun specs st)
      (hc : call.Each check C st) (hh : call.Each check (Harmless check) st)
      (hr : call.run check st = .raised why st') : DbRun specs st'

end Calls

variable {check : Row → Option Row} {C D : Refusals → Row → TableState → Prop} {st : TableState}

theorem save_done_iff {refusals : Refusals} {row : Row} {pk : BTreeAtom} {indexes : List IndexState} :
    (saveSecondaryIndexes refusals row pk indexes).2 = true ↔
      ∀ idx ∈ indexes, row idx.field ≠ .nil → refusals.index idx.name = false := by
  induction indexes with
  | nil => simp [saveSecondaryIndexes]
  | cons idx rest ih =>
    unfold saveSecondaryIndexes
    rw [List.forall_mem_cons, ← ih]
    by_cases hf : row idx.field ≠ .nil
    · rw [if_pos hf]
      cases hrefused : refusals.index idx.name with
      | true => simp [hf]
      | false => simp
    · rw [if_neg hf]
      simp [hf]

theorem mem_indexes_cleared {idx : IndexState} (pk : BTreeAtom) (h : idx ∈ st.indexes) :
    ∃ idx' ∈ cleared st pk, idx'.field = idx.field ∧ idx'.name = idx.name ∧
      idx'.unique = idx.unique := by
  cases hold : st.primary.get pk with
  | none =>
    rw [cleared_none hold]
    exact ⟨idx, h, rfl, rfl, rfl⟩
  | some old =>
    rw [cleared_some hold]
    exact ⟨dropEntry old idx, List.mem_map_of_mem h, by simp⟩

/-- Whether all entries of the row are written after the old ones are removed. -/
theorem save_cleared_iff {refusals : Refusals} {row : Row} {pk : BTreeAtom} :
    (saveSecondaryIndexes refusals row pk (cleared st pk)).2 = true ↔
      ∀ idx ∈ st.indexes, row idx.field ≠ .nil → refusals.index idx.name = false := by
  rw [save_done_iff]
  constructor
  · intro h idx hidx hf
    obtain ⟨idx', hidx', hfield, hname, -⟩ := mem_indexes_cleared pk hidx
    rw [← hname]
    exact h idx' hidx' (by rwa [hfield])
  · intro h idx hidx hf
    obtain ⟨idx₀, hidx₀, hfield, hname, -⟩ := mem_cleared hidx
    rw [hname]
    exact h idx₀ hidx₀ (by rwa [← hfield])

theorem cleared_eq_self {pk : BTreeAtom}
    (h : ∀ old, st.primary.get pk = some old → ∀ idx ∈ st.indexes, old idx.field = .nil) :
    cleared st pk = st.indexes := by
  cases hold : st.primary.get pk with
  | none => exact cleared_none hold
  | some old =>
    rw [cleared_some hold]
    have hid : ∀ idx ∈ st.indexes, dropEntry old idx = idx := by
      intro idx hidx
      unfold dropEntry
      rw [if_neg (not_not.mpr (h old hold idx hidx))]
    rw [List.map_congr_left hid, List.map_id']

/-- A put that returns met no refusal. -/
theorem harmless_of_returned {refusals : Refusals} {row : Row} {a : Row} {st' : TableState}
    (h : put check refusals row st = .returned a st') : Harmless check refusals row st := by
  have hstep := put_step check refusals row st
  rw [h] at hstep
  cases hstep with
  | returned hcheck hkey hunique haccepted hsaved =>
    intro checked pk hcheck' hkey' _
    rw [hcheck] at hcheck'
    cases hcheck'
    rw [hkey] at hkey'
    cases hkey'
    refine ⟨fun hp => ?_, fun _ => save_cleared_iff.mp (by rw [hsaved])⟩
    rw [haccepted] at hp
    cases hp

/-- A put that raises an error before it has changed a tree has changed nothing. -/
theorem put_raised {refusals : Refusals} {row : Row} {why : Failure} {st' : TableState}
    (hh : Harmless check refusals row st) (h : put check refusals row st = .raised why st') :
    st' = st := by
  have hstep := put_step check refusals row st
  rw [h] at hstep
  cases hstep with
  | check => rfl
  | key => rfl
  | unique => rfl
  | refused hcheck hkey hunique hrefused =>
    have hold := (hh _ _ hcheck hkey hunique).1 hrefused
    rw [cleared_eq_self hold]
  | @partly checked pk saved hcheck hkey hunique haccepted hsaved =>
    have hdone : (saveSecondaryIndexes refusals (sanitizeRow checked) pk (cleared st pk)).2 = true :=
      save_cleared_iff.mpr ((hh _ _ hcheck hkey hunique).2 haccepted)
    rw [hsaved] at hdone
    cases hdone

theorem put_consistent (h : Consistent st) {refusals : Refusals} {row a : Row} {st' : TableState}
    (hapart : Apart check refusals row st) (hr : put check refusals row st = .returned a st') :
    Consistent st' := by
  have hstep := put_step check refusals row st
  rw [hr] at hstep
  cases hstep with
  | returned hcheck hkey hunique haccepted hsaved =>
    rw [save_done hsaved]
    exact h.put hkey (hapart _ hcheck)

theorem delete_consistent (h : Consistent st) (key : FieldValue) :
    Consistent (delete key st).state := by
  unfold delete
  cases hkey : key.key? with
  | none => exact h
  | some pk =>
    cases hold : st.primary.get pk with
    | none =>
      simp only [hold]
      exact h
    | some old =>
      have hdelete := h.delete pk
      unfold cleared at hdelete
      rw [hold] at hdelete
      simp only [hold]
      exact hdelete

theorem updateEach_and {refusals : Nat → Refusals} {patch : Patch} {updated : Nat} {rows : List Row} :
    updateEach check (fun r row st => C r row st ∧ D r row st) refusals patch updated rows st ↔
      updateEach check C refusals patch updated rows st ∧
        updateEach check D refusals patch updated rows st := by
  induction rows generalizing updated st with
  | nil => simp [updateEach]
  | cons row rest ih =>
    unfold updateEach
    cases patch row with
    | none => simp
    | some delta =>
      cases delta with
      | none => exact ih
      | some delta =>
        cases hput : put check (refusals updated) (patched row delta) st with
        | returned a st' =>
          simp only [hput, ih]
          exact and_and_and_comm
        | raised why st' => simp only [hput, and_true]

theorem Call.each_and {call : Call} :
    call.Each check (fun r row st => C r row st ∧ D r row st) st ↔
      call.Each check C st ∧ call.Each check D st := by
  cases call with
  | put refusals row => exact Iff.rfl
  | delete key => simp [Each]
  | deleteWhere q arrange => simp [Each]
  | updateWhere refusals q arrange patch =>
    simp only [Each, updateEach_and]
    exact ⟨fun h => ⟨fun rows hr => (h rows hr).1, fun rows hr => (h rows hr).2⟩,
      fun h rows hr => ⟨h.1 rows hr, h.2 rows hr⟩⟩

theorem updateEach_harmless {refusals : Nat → Refusals} {patch : Patch} {updated n : Nat}
    {rows : List Row} {st' : TableState}
    (h : updateRows check refusals patch updated rows st = .returned n st') :
    updateEach check (Harmless check) refusals patch updated rows st := by
  induction rows generalizing updated st with
  | nil => trivial
  | cons row rest ih =>
    unfold updateRows at h
    unfold updateEach
    cases hpatch : patch row with
    | none => trivial
    | some delta =>
      rw [hpatch] at h
      cases delta with
      | none => exact ih h
      | some delta =>
        simp only at h ⊢
        cases hput : put check (refusals updated) (patched row delta) st with
        | returned a st₁ =>
          rw [hput] at h
          exact ⟨harmless_of_returned hput, ih h⟩
        | raised why st₁ =>
          rw [hput] at h
          cases h

theorem Call.each_harmless {call : Call} {st' : TableState}
    (h : call.run check st = .returned () st') : call.Each check (Harmless check) st := by
  cases call with
  | put refusals row =>
    simp only [run] at h
    cases hput : Database.put check refusals row st with
    | returned a st₁ => exact harmless_of_returned hput
    | raised why st₁ =>
      rw [hput] at h
      cases h
  | delete key => trivial
  | deleteWhere q arrange => trivial
  | updateWhere refusals q arrange patch =>
    intro rows hrows
    simp only [run, Database.updateWhere, hrows] at h
    cases hupdate : updateRows check refusals patch 0 rows st with
    | returned n st₁ => exact updateEach_harmless hupdate
    | raised why st₁ =>
      simp only [hupdate] at h
      cases h

section Keeps

variable {P : TableState → Prop}

theorem updateRows_keeps
    (hput : ∀ refusals row st, P st → C refusals row st → P (put check refusals row st).state)
    {refusals : Nat → Refusals} {patch : Patch} {updated : Nat} {rows : List Row} (h : P st)
    (hc : updateEach check C refusals patch updated rows st) :
    P (updateRows check refusals patch updated rows st).state := by
  induction rows generalizing updated st with
  | nil => exact h
  | cons row rest ih =>
    unfold updateRows
    unfold updateEach at hc
    cases hpatch : patch row with
    | none => exact h
    | some delta =>
      rw [hpatch] at hc
      cases delta with
      | none => exact ih h hc
      | some delta =>
        simp only at hc ⊢
        have hstep := hput _ _ st h hc.1
        have hrest := hc.2
        cases hr : put check (refusals updated) (patched row delta) st with
        | returned a st' =>
          rw [hr] at hstep hrest
          exact ih hstep hrest
        | raised why st' =>
          rw [hr] at hstep
          exact hstep

theorem deleteRows_keeps (hdelete : ∀ key st, P st → P (delete key st).state) {deleted : Nat}
    {rows : List Row} (h : P st) : P (deleteRows deleted rows st).state := by
  induction rows generalizing deleted st with
  | nil => exact h
  | cons row rest ih =>
    unfold deleteRows
    have hstep := hdelete (row primaryKey) st h
    cases hr : delete (row primaryKey) st with
    | returned a st' =>
      rw [hr] at hstep
      cases a with
      | true => exact ih hstep
      | false => exact ih hstep
    | raised why st' =>
      rw [hr] at hstep
      exact hstep

/-- What each put and each delete keeps a call keeps. -/
theorem Call.run_keeps
    (hput : ∀ refusals row st, P st → C refusals row st → P (Database.put check refusals row st).state)
    (hdelete : ∀ key st, P st → P (Database.delete key st).state) {call : Call} (h : P st)
    (hc : call.Each check C st) : P (call.run check st).state := by
  cases call with
  | put refusals row =>
    simp only [run, Outcome.state_done]
    exact hput refusals row st h hc
  | delete key =>
    simp only [run, Outcome.state_done]
    exact hdelete key st h
  | updateWhere refusals q arrange patch =>
    simp only [run, Database.updateWhere, Outcome.state_done]
    cases hrows : filter q arrange st with
    | none => exact h
    | some rows => exact updateRows_keeps hput h (hc rows hrows)
  | deleteWhere q arrange =>
    simp only [run, Database.deleteWhere, Outcome.state_done]
    cases hrows : filter q arrange st with
    | none => exact h
    | some rows => exact deleteRows_keeps hdelete h

/-- What a new table has and each put and each delete keeps holds along a run. -/
theorem DbRun.keeps {specs : List (Bytes × Bytes × Bool)}
    (hcreated : P (createTable specs))
    (hput : ∀ refusals row st, P st → C refusals row st ∧ Harmless check refusals row st →
      P (Database.put check refusals row st).state)
    (hdelete : ∀ key st, P st → P (Database.delete key st).state)
    (h : DbRun check C specs st) : P st := by
  induction h with
  | created => exact hcreated
  | returned _ hc hr ih =>
    have hkept := Call.run_keeps hput hdelete ih (Call.each_and.mpr ⟨hc, Call.each_harmless hr⟩)
    rw [hr] at hkept
    exact hkept
  | raised _ hc hh hr ih =>
    have hkept := Call.run_keeps hput hdelete ih (Call.each_and.mpr ⟨hc, hh⟩)
    rw [hr] at hkept
    exact hkept

end Keeps

theorem put_keeps_consistent {refusals : Refusals} {row : Row} (h : Consistent st)
    (hapart : Apart check refusals row st) (hh : Harmless check refusals row st) :
    Consistent (put check refusals row st).state := by
  cases hr : put check refusals row st with
  | returned a st' => exact put_consistent h hapart hr
  | raised why st' =>
    rw [Outcome.state, put_raised hh hr]
    exact h

theorem DbRun.consistent {specs : List (Bytes × Bytes × Bool)}
    (hapart : ∀ refusals row st, C refusals row st → Apart check refusals row st)
    (h : DbRun check C specs st) : Consistent st :=
  h.keeps (createTable_consistent specs)
    (fun refusals row st hst hc => put_keeps_consistent hst (hapart refusals row st hc.1) hc.2)
    (fun key _ hst => delete_consistent hst key)

/-- Along a run of calls whose rows share no key of an index with other ones, the indexes have just
the entries of the rows. -/
theorem indexes_consistent (check : Row → Option Row) (specs : List (Bytes × Bytes × Bool))
    (st : TableState) (h : DbRun check (Apart check) specs st) : Consistent st :=
  h.consistent fun _ _ _ hapart => hapart

theorem put_returns {refusals : Refusals} {row checked : Row} {pk : BTreeAtom}
    (hcheck : check row = some checked) (hkey : (sanitizeRow checked primaryKey).key? = some pk)
    (hunique : enforceUniqueIndexes (sanitizeRow checked) (sanitizeRow checked primaryKey) st.indexes
      = none)
    (hp : refusals.primary = false) (hi : ∀ idx ∈ st.indexes, refusals.index idx.name = false) :
    put check refusals row st = .returned (sanitizeRow checked)
      ⟨st.primary.put pk (sanitizeRow checked),
        (cleared st pk).map (addEntry (sanitizeRow checked) pk)⟩ := by
  have hdone : (saveSecondaryIndexes refusals (sanitizeRow checked) pk (cleared st pk)).2 = true :=
    save_cleared_iff.mpr fun idx hidx _ => hi idx hidx
  have hsaved := save_done (Prod.ext rfl hdone :
    saveSecondaryIndexes refusals (sanitizeRow checked) pk (cleared st pk) =
      ((saveSecondaryIndexes refusals (sanitizeRow checked) pk (cleared st pk)).1, true))
  simp only [put, hcheck, hkey, hunique, hp, Bool.false_eq_true, if_false]
  split
  next saved hs =>
    rw [hs] at hsaved
    rw [← hsaved]
  next saved hs =>
    rw [hs] at hdone
    cases hdone

theorem enforce_none (row : Row) (id : FieldValue) {indexes : List IndexState}
    (h : ∀ idx ∈ indexes, idx.unique = false) : enforceUniqueIndexes row id indexes = none := by
  unfold enforceUniqueIndexes
  rw [List.find?_eq_none]
  intro idx hidx
  simp [h idx hidx]

theorem enforce_empty (row : Row) (id : FieldValue) (specs : List (Bytes × Bytes × Bool)) :
    enforceUniqueIndexes row id (createTable specs).indexes = none := by
  unfold enforceUniqueIndexes
  rw [List.find?_eq_none]
  intro idx hidx
  obtain ⟨spec, -, rfl⟩ := List.mem_map.mp hidx
  simp [takenBy, Tree.range]

namespace Sample

/-- Refusals that do not come. -/
def accepting : Refusals := ⟨false, fun _ => false⟩

def team : Bytes := ascii "team"

def member (id : Bytes) (value : FieldValue) : Row := fun k =>
  if k = primaryKey then .string id else if k = team then value else .nil

def teams (unique : Bool) : List (Bytes × Bytes × Bool) := [(team, team, unique)]

theorem sanitize_member (id : Bytes) (value : FieldValue) :
    sanitizeRow (member id value) = member id value := by
  funext k
  unfold sanitizeRow
  split
  next h =>
    have hid : k ≠ primaryKey := by
      rintro rfl
      exact absurd h (by decide)
    have hteam : k ≠ team := by
      rintro rfl
      exact absurd h (by decide)
    simp [member, hid, hteam]
  next => rfl

/-- The table with a member put in. -/
def joined (st : TableState) (id : Bytes) (value : FieldValue) : TableState :=
  ⟨st.primary.put (.string id) (member id value),
    (cleared st (.string id)).map (addEntry (member id value) (.string id))⟩

section Join

variable {st : TableState} {id : Bytes} {value : FieldValue} {unique : Bool}

theorem member_joins
    (h : enforceUniqueIndexes (member id value) (.string id) st.indexes = none) :
    (Call.put accepting (member id value)).run some st = .returned () (joined st id value) := by
  have hkey : (sanitizeRow (member id value) primaryKey).key? = some (.string id) := by
    rw [sanitize_member]
    rfl
  have hput := @put_returns some st accepting _ _ _ rfl hkey
    (by rw [sanitize_member]; exact h) rfl (fun _ _ => rfl)
  rw [sanitize_member] at hput
  simp only [Call.run, hput]
  rfl

theorem join (hrun : DbRun some C (teams unique) st)
    (h : enforceUniqueIndexes (member id value) (.string id) st.indexes = none)
    (hc : C accepting (member id value) st) : DbRun some C (teams unique) (joined st id value) :=
  .returned hrun (show (Call.put accepting (member id value)).Each some C st from hc)
    (member_joins h)

theorem empty_apart (row : Row) : Apart some accepting row (createTable (teams unique)) := by
  intro checked _ idx _ _ other hother
  simp [allRows, createTable] at hother

/-- The table with one member. -/
def one (unique : Bool) (id : Bytes) (value : FieldValue) : TableState :=
  joined (createTable (teams unique)) id value

theorem one_joins (unique : Bool) (id : Bytes) (value : FieldValue) :
    DbRun some (Apart some) (teams unique) (one unique id value) :=
  join .created (enforce_empty _ _ _) (empty_apart _)

theorem one_consistent (unique : Bool) (id : Bytes) (value : FieldValue) :
    Consistent (one unique id value) :=
  (one_joins unique id value).consistent fun _ _ _ h => h

theorem mem_one {row : Row} : row ∈ allRows (one unique id value) ↔ row = member id value := by
  unfold one joined
  rw [(createTable_consistent (teams unique)).mem_put rfl]
  simp [allRows, createTable]

theorem mem_joined (h : Consistent st) {row : Row} :
    row ∈ allRows (joined st id value) ↔
      row = member id value ∨ row ∈ allRows st ∧ ¬(row primaryKey).equal (.string id) := by
  unfold joined
  exact h.mem_put rfl _

theorem joined_indexes (h : ∃ idx ∈ st.indexes, idx.field = team ∧ idx.unique = unique) :
    ∃ idx ∈ (joined st id value).indexes, idx.field = team ∧ idx.unique = unique := by
  obtain ⟨idx, hidx, hfield, hunique⟩ := h
  obtain ⟨idx', hidx', hfield', -, hunique'⟩ := mem_indexes_cleared (.string id) hidx
  exact ⟨_, List.mem_map_of_mem hidx', by simp [hfield', hfield], by simp [hunique', hunique]⟩

theorem one_indexes :
    ∃ idx ∈ (one unique id value).indexes, idx.field = team ∧ idx.unique = unique :=
  joined_indexes ⟨_, List.mem_singleton.mpr rfl, rfl, rfl⟩

theorem one_index {idx : IndexState} (h : idx ∈ (one unique id value).indexes) :
    idx.field = team ∧ idx.unique = unique := by
  obtain ⟨idx₁, hidx₁, rfl⟩ := List.mem_map.mp h
  obtain ⟨idx₀, hidx₀, hfield, -, hunique⟩ := mem_cleared hidx₁
  rw [createTable, teams, List.map_cons, List.map_nil, List.mem_singleton] at hidx₀
  subst hidx₀
  rw [addEntry_field, addEntry_unique]
  exact ⟨hfield, hunique⟩

end Join

theorem one_joined_consistent :
    Consistent (one false (ascii "1") (.string (ascii "red"))) :=
  indexes_consistent some (teams false) _ (one_joins false (ascii "1") (.string (ascii "red")))

def around (a b : Bytes) : Bytes := a ++ sep ++ ascii "s:" ++ b

/-- The rows with the team `a␟s:b` and the id `c` and with the team `a` and the id `b␟s:c`. -/
theorem separator_collides :
    ∃ st, DbRun some (fun _ _ _ => True) (teams false) st ∧ ¬Consistent st := by
  let value : FieldValue := .string (around (ascii "a") (ascii "b"))
  let first := one false (ascii "c") value
  have hfirst : Consistent first := one_consistent false (ascii "c") value
  have hunique : ∀ idx ∈ first.indexes, idx.unique = false := fun idx hidx => (one_index hidx).2
  let second := joined first (around (ascii "b") (ascii "c")) (.string (ascii "a"))
  refine ⟨second, join (join .created (enforce_empty _ _ _) trivial) (enforce_none _ _ hunique)
    trivial, ?_⟩
  intro h
  have h1 : member (ascii "c") value ∈ allRows second :=
    (mem_joined hfirst).mpr (.inr ⟨mem_one.mpr rfl, by decide⟩)
  have h2 : member (around (ascii "b") (ascii "c")) (.string (ascii "a")) ∈ allRows second :=
    (mem_joined hfirst).mpr (.inl rfl)
  obtain ⟨idx, hidx, hfield, -⟩ := joined_indexes one_indexes
  have hkey : secondaryKeyOf idx (member (ascii "c") value) =
      secondaryKeyOf idx (member (around (ascii "b") (ascii "c")) (.string (ascii "a"))) := by
    unfold secondaryKeyOf
    rw [hfield]
    decide
  have hrow := h.apart idx hidx _ h1 _ h2 (by rw [hfield]; decide) (by rw [hfield]; decide) hkey
  exact absurd (congrFun hrow primaryKey) (by decide)

end Sample

end ToiLang.Database
