import ToiLang.Database.Runs

namespace ToiLang.Database

variable {check : Row → Option Row} {st : TableState}

/-- A put that raises an error leaves the trees as they were. -/
def Atomic (check : Row → Option Row) (refusals : Refusals) (row : Row) (st : TableState) : Prop :=
  ∀ why st', put check refusals row st = .raised why st' → st' = st

/-- The entry of a row that is there is in its index, and not in the index without it. -/
theorem dropEntry_ne (h : Consistent st) {idx idx' : IndexState} (hidx : idx ∈ st.indexes) {row : Row}
    (hrow : row ∈ allRows st) (hf : row idx.field ≠ .nil) : dropEntry row idx' ≠ idx := by
  rintro rfl
  obtain ⟨pk, hpk⟩ := h.key hrow
  have hmem := (h.entries _ hidx ⟨secondaryKeyOf (dropEntry row idx') row, pk⟩).mpr
    ⟨row, hrow, hf, rfl, hpk⟩
  rw [mem_dropEntry] at hmem
  rw [dropEntry_field] at hf
  exact hmem.2 hf (by simp)

theorem save_refused {refusals : Refusals} {row : Row} {pk : BTreeAtom}
    {indexes saved : List IndexState}
    (h : saveSecondaryIndexes refusals row pk indexes = (saved, false)) :
    ∃ idx ∈ indexes, idx ∈ saved ∧ row idx.field ≠ .nil := by
  induction indexes generalizing saved with
  | nil => cases h
  | cons idx rest ih =>
    unfold saveSecondaryIndexes at h
    split at h
    next hf =>
      split at h
      next =>
        cases h
        exact ⟨idx, List.mem_cons_self .., List.mem_cons_self .., hf⟩
      next =>
        obtain ⟨h1, h2⟩ := Prod.mk.inj h
        obtain ⟨idx', hidx', hsaved, hf'⟩ := ih (Prod.ext rfl h2)
        rw [← h1]
        exact ⟨idx', List.mem_cons_of_mem _ hidx', List.mem_cons_of_mem _ hsaved, hf'⟩
    next =>
      obtain ⟨h1, h2⟩ := Prod.mk.inj h
      obtain ⟨idx', hidx', hsaved, hf'⟩ := ih (Prod.ext rfl h2)
      rw [← h1]
      exact ⟨idx', List.mem_cons_of_mem _ hidx', List.mem_cons_of_mem _ hsaved, hf'⟩

theorem put_of_accepted {refusals : Refusals} {row checked : Row} {pk : BTreeAtom}
    (hcheck : check row = some checked) (hkey : (sanitizeRow checked primaryKey).key? = some pk)
    (hunique : enforceUniqueIndexes (sanitizeRow checked) (sanitizeRow checked primaryKey) st.indexes
      = none) (hp : refusals.primary = false) {saved : List IndexState}
    (hsaved : saveSecondaryIndexes refusals (sanitizeRow checked) pk (cleared st pk) = (saved, false)) :
    put check refusals row st =
      .raised .refused ⟨st.primary.put pk (sanitizeRow checked), saved⟩ := by
  simp only [put, hcheck, hkey, hunique, hp, hsaved, Bool.false_eq_true, if_false]

theorem put_of_refused {refusals : Refusals} {row checked : Row} {pk : BTreeAtom}
    (hcheck : check row = some checked) (hkey : (sanitizeRow checked primaryKey).key? = some pk)
    (hunique : enforceUniqueIndexes (sanitizeRow checked) (sanitizeRow checked primaryKey) st.indexes
      = none) (hp : refusals.primary = true) :
    put check refusals row st = .raised .refused ⟨st.primary, cleared st pk⟩ := by
  simp only [put, hcheck, hkey, hunique, hp, if_true]

/-- A put that raises an error leaves the trees as they were if and only if no write is refused once
an entry has been removed or the row has been written. -/
theorem atomic_iff (h : Consistent st) (refusals : Refusals) (row : Row) :
    Atomic check refusals row st ↔ Harmless check refusals row st := by
  constructor
  · intro hatomic checked pk hcheck hkey hunique
    refine ⟨fun hp old hold idx hidx => ?_, fun hp idx hidx hf => ?_⟩
    · by_contra hf
      have hst := congrArg TableState.indexes
        (hatomic _ _ (put_of_refused hcheck hkey hunique hp))
      simp only [cleared_some hold] at hst
      have hsame : dropEntry old idx = idx := by
        have hmap : st.indexes.map (dropEntry old) = st.indexes.map id := by rw [hst, List.map_id]
        exact List.map_inj_left.mp hmap idx hidx
      exact dropEntry_ne h hidx (h.get_iff.mp hold).1 hf hsame
    · by_contra hrefused
      cases hs : saveSecondaryIndexes refusals (sanitizeRow checked) pk (cleared st pk) with
      | mk saved done =>
        cases done with
        | true =>
          exact hrefused (save_cleared_iff.mp (by rw [hs]) idx hidx hf)
        | false =>
          have hst := hatomic _ _ (put_of_accepted hcheck hkey hunique hp hs)
          have hrows : sanitizeRow checked ∈ allRows st := by
            rw [← hst]
            exact (h.mem_put hkey saved).mpr (.inl rfl)
          have hold : st.primary.get pk = some (sanitizeRow checked) :=
            h.get_iff.mpr ⟨hrows, pk, hkey, rfl⟩
          obtain ⟨idx', hidx', hsaved, hf'⟩ := save_refused hs
          rw [cleared_some hold] at hidx'
          obtain ⟨idx₀, -, hdrop⟩ := List.mem_map.mp hidx'
          have hmem : idx' ∈ st.indexes := by
            rw [← congrArg TableState.indexes hst]
            exact hsaved
          exact dropEntry_ne h hmem hrows hf' hdrop
  · intro hh why st' hr
    exact put_raised hh hr

theorem updateEach_atomic_iff {refusals : Nat → Refusals} {patch : Patch} {updated : Nat}
    {rows : List Row} (h : Consistent st)
    (hapart : updateEach check (Apart check) refusals patch updated rows st) :
    updateEach check (Atomic check) refusals patch updated rows st ↔
      updateEach check (Harmless check) refusals patch updated rows st := by
  induction rows generalizing updated st with
  | nil => simp [updateEach]
  | cons row rest ih =>
    unfold updateEach at hapart ⊢
    cases hpatch : patch row with
    | none => simp
    | some delta =>
      rw [hpatch] at hapart
      cases delta with
      | none => exact ih h hapart
      | some delta =>
        simp only at hapart ⊢
        obtain ⟨hput, hrest⟩ := hapart
        rw [atomic_iff h]
        refine and_congr_right fun _ => ?_
        cases hr : put check (refusals updated) (patched row delta) st with
        | returned a st' =>
          rw [hr] at hrest
          exact ih (put_consistent h hput hr) hrest
        | raised why st' => exact Iff.rfl

namespace Sample

/-- Refusals of records that do not fit. -/
def refusingRecord : Refusals := ⟨true, fun _ => false⟩

/-- Refusals of keys that do not fit in an index. -/
def refusingKey : Refusals := ⟨false, fun _ => true⟩

end Sample

end ToiLang.Database
