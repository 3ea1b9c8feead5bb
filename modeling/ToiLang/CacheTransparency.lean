import ToiLang.InlineCache

namespace ToiLang.InlineCache

variable {hash : Bytes → UInt32} {isSelf : Value → Bool} {s t : State} {o : Table}

/-- A cached value is what a lookup finds, as long as the version is that of the table, and a later table
has no smaller version. -/
def Current (hash : Bytes → UInt32) (o : Table) (version : UInt32) (chars : Bytes) (value : Value) : Prop :=
  version.toNat ≤ o.version.toNat ∧ (version = o.version → tableGet hash o chars = some (some value))

theorem Current.raised {o' : Table} {version : UInt32} {chars : Bytes} {value : Value}
    (h : Current hash o version chars value) (hv : o'.version.toNat = o.version.toNat + 1) :
    Current hash o' version chars value := by
  obtain ⟨hle, -⟩ := h
  refine ⟨by omega, fun he => ?_⟩
  rw [he] at hle
  omega

theorem Current.found {chars : Bytes} {value : Value} (h : tableGet hash o chars = some (some value)) :
    Current hash o o.version chars value := ⟨Nat.le_refl _, fun _ => h⟩

/-- What holds of the caches between two instructions. -/
structure Inv (hash : Bytes → UInt32) (s : State) : Prop where
  globalsVersion : s.globals.version.toNat ≤ s.mutations
  versions : ∀ a t, s.tables a = some t → t.table.version.toNat ≤ s.mutations
  globalIc : ∀ f c off ic, s.functions f = some c → c.globalIc off = some ic →
    ∃ chars, s.strings ic.name = some chars ∧ Current hash s.globals ic.version chars ic.value
  getTableIc : ∀ f c off ic, s.functions f = some c → c.getTableIc off = some ic →
    ∃ t chars, s.tables ic.table = some t ∧ s.strings ic.key = some chars ∧
      Current hash t.table ic.version chars ic.value

theorem Caches.global?_some {c : Caches} {off : Nat} {ic : GlobalIc} (h : c.global? off = some ic) :
    c.globalIc off = some ic := by
  unfold Caches.global? at h
  split_ifs at h
  exact h

theorem Caches.table?_some {c : Caches} {off : Nat} {ic : TableIc} (h : c.table? off = some ic) :
    c.getTableIc off = some ic := by
  unfold Caches.table? at h
  split_ifs at h
  exact h

/-- The lookup of a global gives what it gives without the caches. -/
theorem getGlobal_eq (hi : Inv hash s) (f off name : Nat) :
    (getGlobal hash s f off name).map Prod.snd = getGlobalUncached hash s f name := by
  unfold getGlobal getGlobalUncached
  cases hf : s.functions f with
  | none => rfl
  | some c =>
    cases hn : s.strings name with
    | none => rfl
    | some chars =>
      simp only [Option.bind_eq_bind, Option.bind_some]
      cases hic : (c.global? off).filter fun ic => ic.name = name ∧ ic.version = s.globals.version with
      | none =>
        cases hg : tableGet hash s.globals chars with
        | none => rfl
        | some r =>
          cases r with
          | none => rfl
          | some value => rfl
      | some ic =>
        obtain ⟨hc, hhit⟩ := Option.filter_eq_some_iff.mp hic
        obtain ⟨hname, hver⟩ := of_decide_eq_true hhit
        obtain ⟨chars', hs, -, hcur⟩ := hi.globalIc f c off ic hf (Caches.global?_some hc)
        rw [hname, hn] at hs
        cases Option.some.inj hs
        rw [hcur hver]
        rfl

theorem getTable_eq (hi : Inv hash s) (f off a key obj : Nat) :
    (getTable hash isSelf s f off a key obj).map Prod.snd = getTableUncached hash isSelf s f a key obj := by
  unfold getTable getTableUncached
  cases hf : s.functions f with
  | none => rfl
  | some c =>
    cases ht : s.tables a with
    | none => rfl
    | some t =>
      cases hk : s.strings key with
      | none => rfl
      | some chars =>
        simp only [Option.bind_eq_bind, Option.bind_some]
        cases hic : (c.table? off).filter fun ic =>
            ic.table = a ∧ ic.key = key ∧ ic.version = t.table.version with
        | none =>
          cases hg : tableGet hash t.table chars with
          | none => rfl
          | some r =>
            cases r with
            | none =>
              simp only [Option.bind_some]
              cases getMissing hash isSelf s a t chars obj with
              | none => rfl
              | some r => rfl
            | some value => rfl
        | some ic =>
          obtain ⟨hc, hhit⟩ := Option.filter_eq_some_iff.mp hic
          obtain ⟨htable, hkey, hver⟩ := of_decide_eq_true hhit
          obtain ⟨t', chars', hst, hs, -, hcur⟩ := hi.getTableIc f c off ic hf (Caches.table?_some hc)
          rw [hkey, hk] at hs
          rw [htable, ht] at hst
          cases Option.some.inj hs
          cases Option.some.inj hst
          rw [hcur hver]
          rfl

theorem growTable_version {hash : Bytes → UInt32} {o o' : Table} (h : growTable hash o = some o') :
    o'.version = o.version := by
  unfold growTable at h
  split at h
  · obtain ⟨r, -, hr⟩ := Option.bind_eq_some_iff.mp h
    cases Option.some.inj hr
    rfl
  · cases Option.some.inj h
    rfl

theorem tableSet_version {o o' : Table} {key : Bytes} {value : Value} {isNew : Bool}
    (h : tableSet hash o key value = some (o', isNew)) : o'.version = o.version + 1 := by
  unfold tableSet at h
  obtain ⟨o₁, hgrow, h⟩ := Option.bind_eq_some_iff.mp h
  obtain ⟨i, -, h⟩ := Option.bind_eq_some_iff.mp h
  obtain ⟨entry, -, h⟩ := Option.bind_eq_some_iff.mp h
  cases Option.some.inj h
  rw [← growTable_version hgrow]

theorem tableDelete_version {o o' : Table} {key : Bytes} (h : tableDelete hash o key = some (o', true)) :
    o'.version = o.version + 1 := by
  unfold tableDelete at h
  split at h
  · cases h
  · obtain ⟨i, -, h⟩ := Option.bind_eq_some_iff.mp h
    obtain ⟨entry, -, h⟩ := Option.bind_eq_some_iff.mp h
    split at h
    · cases h
    · cases Option.some.inj h
      rfl

/-- A version that is raised does not wrap, as long as there were fewer mutations than versions. -/
theorem raised_toNat {v : UInt32} {n : Nat} (hv : v.toNat ≤ n) (hn : n + 1 < 2 ^ 32) :
    (v + 1).toNat = v.toNat + 1 := by
  rw [UInt32.toNat_add]
  exact Nat.mod_eq_of_lt (by simp; omega)

theorem Inv.setTable (hi : Inv hash s) {a n : Nat} {u : TableObj} (hn : s.mutations ≤ n)
    (hver : u.table.version.toNat ≤ n)
    (hcur : ∀ t, s.tables a = some t → ∀ version chars value, Current hash t.table version chars value →
      Current hash u.table version chars value) :
    Inv hash { s.setTable a u with mutations := n } where
  globalsVersion := Nat.le_trans hi.globalsVersion hn
  versions b t ht := by
    by_cases hb : b = a
    · simp only [State.setTable, hb, Function.update_self, Option.some.injEq] at ht
      exact ht ▸ hver
    · simp only [State.setTable, Function.update_of_ne hb] at ht
      exact Nat.le_trans (hi.versions b t ht) hn
  globalIc := hi.globalIc
  getTableIc f c off ic hf hc := by
    obtain ⟨t, chars, ht, hs, hcurrent⟩ := hi.getTableIc f c off ic hf hc
    by_cases ha : ic.table = a
    · exact ⟨u, chars, by simp [State.setTable, ha], hs, hcur t (ha ▸ ht) _ _ _ hcurrent⟩
    · exact ⟨t, chars, by simp [State.setTable, ha, ht], hs, hcurrent⟩

/-- The hash part of a table is changed, and its version raised. -/
theorem Inv.mutate (hi : Inv hash s) {a : Nat} {u : TableObj} (hu : s.tables a = some u)
    (hver : o.version = u.table.version + 1) (hm : s.mutations + 1 < 2 ^ 32) :
    Inv hash { s.setTable a { u with table := o } with mutations := s.mutations + 1 } := by
  have hraised : o.version.toNat = u.table.version.toNat + 1 := by
    rw [hver, raised_toNat (hi.versions a u hu) hm]
  refine hi.setTable (Nat.le_succ _) ?_ fun t ht version chars value hcur => ?_
  · exact hraised ▸ Nat.succ_le_succ (hi.versions a u hu)
  · cases Option.some.inj (hu.symm.trans ht)
    exact hcur.raised hraised

theorem Inv.setGlobals (hi : Inv hash s) {globals : Table}
    (hver : globals.version = s.globals.version + 1) (hm : s.mutations + 1 < 2 ^ 32) :
    Inv hash { s with globals, mutations := s.mutations + 1 } where
  globalsVersion := by
    have hraised := raised_toNat hi.globalsVersion hm
    rw [hver, hraised]
    exact Nat.succ_le_succ hi.globalsVersion
  versions a t ht := Nat.le_succ_of_le (hi.versions a t ht)
  globalIc f c off ic hf hc := by
    obtain ⟨chars, hs, hcur⟩ := hi.globalIc f c off ic hf hc
    exact ⟨chars, hs, hcur.raised (by rw [hver, raised_toNat hi.globalsVersion hm])⟩
  getTableIc := hi.getTableIc

/-- The caches of a function are replaced by ones that are in order. -/
theorem Inv.setCaches (hi : Inv hash s) {f : Nat} {c : Caches}
    (hglobal : ∀ off ic, c.globalIc off = some ic →
      ∃ chars, s.strings ic.name = some chars ∧ Current hash s.globals ic.version chars ic.value)
    (htable : ∀ off ic, c.getTableIc off = some ic → ∃ t chars, s.tables ic.table = some t ∧
      s.strings ic.key = some chars ∧ Current hash t.table ic.version chars ic.value) :
    Inv hash { s with functions := Function.update s.functions f (some c) } where
  globalsVersion := hi.globalsVersion
  versions := hi.versions
  globalIc g d off ic hg hd := by
    by_cases hgf : g = f
    · simp only [hgf, Function.update_self, Option.some.injEq] at hg
      exact hglobal off ic (hg ▸ hd)
    · simp only [Function.update_of_ne hgf] at hg
      exact hi.globalIc g d off ic hg hd
  getTableIc g d off ic hg hd := by
    by_cases hgf : g = f
    · simp only [hgf, Function.update_self, Option.some.injEq] at hg
      exact htable off ic (hg ▸ hd)
    · simp only [Function.update_of_ne hgf] at hg
      exact hi.getTableIc g d off ic hg hd

theorem Inv.setGlobalIc (hi : Inv hash s) {f off : Nat} {c : Caches} {ic : GlobalIc} {chars : Bytes}
    (hf : s.functions f = some c) (hs : s.strings ic.name = some chars)
    (hcur : Current hash s.globals ic.version chars ic.value) : Inv hash (s.setGlobalIc f c off ic) := by
  unfold State.setGlobalIc
  split_ifs
  · refine hi.setCaches (fun off' ic' hic => ?_) fun off' ic' hic => hi.getTableIc f c off' ic' hf hic
    by_cases hoff : off' = off
    · simp only [hoff, Function.update_self, Option.some.injEq] at hic
      exact ⟨chars, hic ▸ hs, hic ▸ hcur⟩
    · simp only [Function.update_of_ne hoff] at hic
      exact hi.globalIc f c off' ic' hf hic
  · exact hi

theorem Inv.setTableIc (hi : Inv hash s) {f off : Nat} {c : Caches} {ic : TableIc} {u : TableObj}
    {chars : Bytes} (hf : s.functions f = some c) (hu : s.tables ic.table = some u)
    (hs : s.strings ic.key = some chars) (hcur : Current hash u.table ic.version chars ic.value) :
    Inv hash (s.setTableIc f c off ic) := by
  unfold State.setTableIc
  split_ifs
  · refine hi.setCaches (fun off' ic' hic => hi.globalIc f c off' ic' hf hic) fun off' ic' hic => ?_
    by_cases hoff : off' = off
    · simp only [hoff, Function.update_self, Option.some.injEq] at hic
      exact ⟨u, chars, hic ▸ hu, hic ▸ hs, hic ▸ hcur⟩
    · simp only [Function.update_of_ne hoff] at hic
      exact hi.getTableIc f c off' ic' hf hic
  · exact hi

@[simp] theorem setGlobalIc_mutations (f : Nat) (c : Caches) (off : Nat) (ic : GlobalIc) :
    (s.setGlobalIc f c off ic).mutations = s.mutations := by
  unfold State.setGlobalIc
  split_ifs
  · rfl
  · rfl

@[simp] theorem setTableIc_mutations (f : Nat) (c : Caches) (off : Nat) (ic : TableIc) :
    (s.setTableIc f c off ic).mutations = s.mutations := by
  unfold State.setTableIc
  split_ifs
  · rfl
  · rfl

/-- What a lookup of a global leaves: the state, or the state with a cache that is in order. -/
theorem getGlobal_state {f off name : Nat} {r : Result} (h : getGlobal hash s f off name = some (t, r)) :
    t = s ∨ ∃ c ic chars, t = s.setGlobalIc f c off ic ∧ s.functions f = some c ∧
      s.strings ic.name = some chars ∧ Current hash s.globals ic.version chars ic.value := by
  unfold getGlobal at h
  obtain ⟨c, hf, h⟩ := Option.bind_eq_some_iff.mp h
  obtain ⟨chars, hn, h⟩ := Option.bind_eq_some_iff.mp h
  split at h
  · cases Option.some.inj h
    exact .inl rfl
  · obtain ⟨g, hg, h⟩ := Option.bind_eq_some_iff.mp h
    cases g with
    | none =>
      cases Option.some.inj h
      exact .inl rfl
    | some value =>
      cases Option.some.inj h
      exact .inr ⟨c, _, chars, rfl, hf, hn, .found hg⟩

theorem getTable_state {f off a key obj : Nat} {r : Result}
    (h : getTable hash isSelf s f off a key obj = some (t, r)) :
    t = s ∨ ∃ c ic u chars, t = s.setTableIc f c off ic ∧ s.functions f = some c ∧
      s.tables ic.table = some u ∧ s.strings ic.key = some chars ∧
      Current hash u.table ic.version chars ic.value := by
  unfold getTable at h
  obtain ⟨c, hf, h⟩ := Option.bind_eq_some_iff.mp h
  obtain ⟨u, hu, h⟩ := Option.bind_eq_some_iff.mp h
  obtain ⟨chars, hn, h⟩ := Option.bind_eq_some_iff.mp h
  split at h
  · cases Option.some.inj h
    exact .inl rfl
  · obtain ⟨g, hg, h⟩ := Option.bind_eq_some_iff.mp h
    cases g with
    | none =>
      obtain ⟨r', -, h⟩ := Option.bind_eq_some_iff.mp h
      cases Option.some.inj h
      exact .inl rfl
    | some value =>
      cases Option.some.inj h
      split_ifs
      · exact .inl rfl
      · exact .inr ⟨c, _, u, chars, rfl, hf, hu, hn, .found hg⟩

/-- A step keeps the caches in order. -/
theorem step_inv {i : Op} (hi : Inv hash s) (hok : MarksCaches i s) (h : step hash isSelf i s = some t)
    (hm : t.mutations < 2 ^ 32) : Inv hash t := by
  cases i with
  | newTable a =>
    simp only [step] at h
    split_ifs at h with hfree
    cases Option.some.inj h
    refine hi.setTable (Nat.le_refl _) (Nat.zero_le _) fun t ht => ?_
    rw [hfree] at ht
    cases ht
  | newString r chars =>
    simp only [step] at h
    split_ifs at h with hfree
    cases Option.some.inj h
    have hkeep : ∀ r' chars', s.strings r' = some chars' →
        Function.update s.strings r (some chars) r' = some chars' := by
      intro r' chars' hs
      rwa [Function.update_of_ne]
      rintro rfl
      rw [hfree] at hs
      cases hs
    refine ⟨hi.globalsVersion, hi.versions, fun f c off ic hf hc => ?_, fun f c off ic hf hc => ?_⟩
    · obtain ⟨chars', hs, hcur⟩ := hi.globalIc f c off ic hf hc
      exact ⟨chars', hkeep _ _ hs, hcur⟩
    · obtain ⟨u, chars', hu, hs, hcur⟩ := hi.getTableIc f c off ic hf hc
      exact ⟨u, chars', hu, hkeep _ _ hs, hcur⟩
  | newFunction f capacity =>
    simp only [step] at h
    split_ifs at h with hfree
    cases Option.some.inj h
    exact hi.setCaches (fun off ic hic => by cases hic) fun off ic hic => by cases hic
  | tableSet a key value =>
    obtain ⟨u, hu, h⟩ := Option.bind_eq_some_iff.mp h
    obtain ⟨⟨o, isNew⟩, hset, h⟩ := Option.bind_eq_some_iff.mp h
    cases Option.some.inj h
    exact hi.mutate hu (tableSet_version hset) hm
  | tableDelete a key =>
    obtain ⟨u, hu, h⟩ := Option.bind_eq_some_iff.mp h
    obtain ⟨⟨o, found⟩, hdelete, h⟩ := Option.bind_eq_some_iff.mp h
    cases found with
    | false =>
      cases Option.some.inj h
      exact hi
    | true =>
      cases Option.some.inj h
      exact hi.mutate hu (tableDelete_version hdelete) hm
  | setArray a array arrayMax =>
    obtain ⟨u, hu, h⟩ := Option.bind_eq_some_iff.mp h
    cases Option.some.inj h
    refine hi.setTable (Nat.le_refl _) (hi.versions a u hu) fun t ht version chars value hcur => ?_
    cases Option.some.inj (hu.symm.trans ht)
    exact hcur
  | setMetatable a metatable =>
    obtain ⟨u, hu, h⟩ := Option.bind_eq_some_iff.mp h
    cases Option.some.inj h
    refine hi.setTable (Nat.le_refl _) (hi.versions a u hu) fun t ht version chars value hcur => ?_
    cases Option.some.inj (hu.symm.trans ht)
    exact hcur
  | setModule a isModule =>
    obtain ⟨u, hu, h⟩ := Option.bind_eq_some_iff.mp h
    cases Option.some.inj h
    refine hi.setTable (Nat.le_refl _) (hi.versions a u hu) fun t ht version chars value hcur => ?_
    cases Option.some.inj (hu.symm.trans ht)
    exact hcur
  | setGlobal key value =>
    obtain ⟨⟨o, isNew⟩, hset, h⟩ := Option.bind_eq_some_iff.mp h
    cases Option.some.inj h
    exact hi.setGlobals (tableSet_version hset) hm
  | deleteGlobal key =>
    obtain ⟨⟨o, found⟩, hdelete, h⟩ := Option.bind_eq_some_iff.mp h
    cases found with
    | false =>
      cases Option.some.inj h
      exact hi
    | true =>
      cases Option.some.inj h
      exact hi.setGlobals (tableDelete_version hdelete) hm
  | optimizeChunk f capacity =>
    obtain ⟨c, hc, h⟩ := Option.bind_eq_some_iff.mp h
    cases Option.some.inj h
    exact hi.setCaches (fun off ic hic => by cases hic) fun off ic hic => by cases hic
  | collect kept =>
    cases Option.some.inj h
    have hfun : ∀ f c, (if kept f then s.functions f else none) = some c →
        kept f = true ∧ s.functions f = some c := by
      intro f c hf
      split_ifs at hf with hk
      exact ⟨hk, hf⟩
    refine ⟨hi.globalsVersion, fun a u hu => ?_, fun f c off ic hf hc => ?_, fun f c off ic hf hc => ?_⟩
    · simp only at hu
      split_ifs at hu
      exact hi.versions a u hu
    · obtain ⟨hk, hf⟩ := hfun f c hf
      obtain ⟨chars, hs, hcur⟩ := hi.globalIc f c off ic hf hc
      exact ⟨chars, by simp [(hok f c off hk hf).1 ic hc, hs], hcur⟩
    · obtain ⟨hk, hf⟩ := hfun f c hf
      obtain ⟨u, chars, hu, hs, hcur⟩ := hi.getTableIc f c off ic hf hc
      obtain ⟨htable, hkey⟩ := (hok f c off hk hf).2 ic hc
      exact ⟨u, chars, by simp [htable, hu], by simp [hkey, hs], hcur⟩
  | getGlobal f off name =>
    obtain ⟨⟨u, r⟩, hg, rfl⟩ := Option.map_eq_some_iff.mp h
    rcases getGlobal_state hg with rfl | ⟨c, ic, chars, rfl, hf, hs, hcur⟩
    · exact hi
    · exact hi.setGlobalIc hf hs hcur
  | getTable f off a key obj =>
    obtain ⟨⟨u, r⟩, hg, rfl⟩ := Option.map_eq_some_iff.mp h
    rcases getTable_state hg with rfl | ⟨c, ic, u, chars, rfl, hf, hu, hs, hcur⟩
    · exact hi
    · exact hi.setTableIc hf hu hs hcur

theorem initial_inv : Inv hash .initial where
  globalsVersion := Nat.le_refl _
  versions _ _ h := by cases h
  globalIc _ _ _ _ h _ := by cases h
  getTableIc _ _ _ _ h _ := by cases h

theorem step_mutations {i : Op} (h : step hash isSelf i s = some t) : s.mutations ≤ t.mutations := by
  cases i with
  | newTable a =>
    simp only [step] at h
    split_ifs at h
    cases Option.some.inj h
    exact Nat.le_refl _
  | newString r chars =>
    simp only [step] at h
    split_ifs at h
    cases Option.some.inj h
    exact Nat.le_refl _
  | newFunction f capacity =>
    simp only [step] at h
    split_ifs at h
    cases Option.some.inj h
    exact Nat.le_refl _
  | tableSet a key value =>
    obtain ⟨u, -, h⟩ := Option.bind_eq_some_iff.mp h
    obtain ⟨r, -, h⟩ := Option.bind_eq_some_iff.mp h
    cases Option.some.inj h
    exact Nat.le_succ _
  | tableDelete a key =>
    obtain ⟨u, -, h⟩ := Option.bind_eq_some_iff.mp h
    obtain ⟨⟨o, found⟩, -, h⟩ := Option.bind_eq_some_iff.mp h
    cases found with
    | false =>
      cases Option.some.inj h
      exact Nat.le_refl _
    | true =>
      cases Option.some.inj h
      exact Nat.le_succ _
  | setArray a array arrayMax =>
    obtain ⟨u, -, h⟩ := Option.bind_eq_some_iff.mp h
    cases Option.some.inj h
    exact Nat.le_refl _
  | setMetatable a metatable =>
    obtain ⟨u, -, h⟩ := Option.bind_eq_some_iff.mp h
    cases Option.some.inj h
    exact Nat.le_refl _
  | setModule a isModule =>
    obtain ⟨u, -, h⟩ := Option.bind_eq_some_iff.mp h
    cases Option.some.inj h
    exact Nat.le_refl _
  | setGlobal key value =>
    obtain ⟨r, -, h⟩ := Option.bind_eq_some_iff.mp h
    cases Option.some.inj h
    exact Nat.le_succ _
  | deleteGlobal key =>
    obtain ⟨⟨o, found⟩, -, h⟩ := Option.bind_eq_some_iff.mp h
    cases found with
    | false =>
      cases Option.some.inj h
      exact Nat.le_refl _
    | true =>
      cases Option.some.inj h
      exact Nat.le_succ _
  | optimizeChunk f capacity =>
    obtain ⟨c, -, h⟩ := Option.bind_eq_some_iff.mp h
    cases Option.some.inj h
    exact Nat.le_refl _
  | collect kept =>
    cases Option.some.inj h
    exact Nat.le_refl _
  | getGlobal f off name =>
    obtain ⟨⟨u, r⟩, hg, rfl⟩ := Option.map_eq_some_iff.mp h
    rcases getGlobal_state hg with rfl | ⟨c, ic, chars, rfl, -⟩
    · exact Nat.le_refl _
    · exact Nat.le_of_eq (setGlobalIc_mutations ..).symm
  | getTable f off a key obj =>
    obtain ⟨⟨u, r⟩, hg, rfl⟩ := Option.map_eq_some_iff.mp h
    rcases getTable_state hg with rfl | ⟨c, ic, u, chars, rfl, -⟩
    · exact Nat.le_refl _
    · exact Nat.le_of_eq (setTableIc_mutations ..).symm

/-- In a run with fewer than 2^32 mutations, `OP_GET_GLOBAL` and `OP_GET_TABLE` do what they do without the
caches. -/
theorem caches_transparent (h : Transition.Reachable (step hash isSelf) MarksCaches .initial s)
    (hm : s.mutations < 2 ^ 32) :
    (∀ f off name, (getGlobal hash s f off name).map Prod.snd = getGlobalUncached hash s f name) ∧
      ∀ f off a key obj, (getTable hash isSelf s f off a key obj).map Prod.snd =
        getTableUncached hash isSelf s f a key obj := by
  have hi : s.mutations < 2 ^ 32 → Inv hash s := by
    induction h with
    | start => exact fun _ => initial_inv
    | step _ hok hstep ih =>
      intro hm
      have hm' := Nat.lt_of_le_of_lt (step_mutations hstep) hm
      exact step_inv (ih hm' hm') hok hstep hm
  exact ⟨getGlobal_eq (hi hm), getTable_eq (hi hm)⟩

/-- A field of a table (0) and a global are read twice at one place each, with a write and a collection in
between. -/
def sampleOps : List Op :=
  [.newTable 0, .newString 1 [120], .newFunction 2 8, .tableSet 0 [120] (.bool true), .setGlobal [120] .nil,
    .getTable 2 3 0 1 9, .getGlobal 2 5 1, .collect fun _ => true, .tableSet 0 [120] (.bool false),
    .getTable 2 3 0 1 9]

def sampleState : State :=
  (Transition.run (step (fun _ => 0) fun _ => false) sampleOps .initial).getD .initial

theorem sampleState_reachable :
    Transition.Reachable (step (fun _ => 0) fun _ => false) MarksCaches .initial sampleState := by
  refine Transition.run_reachable ?_ (Transition.run_getD (by decide))
  simp [sampleOps, MarksCaches]

theorem sample_reads :
    (getGlobal (fun _ => 0) sampleState 2 5 1).map Prod.snd = some (.value .nil) ∧
      (getTable (fun _ => 0) (fun _ => false) sampleState 2 3 0 1 9).map Prod.snd =
        some (.value (.bool false)) := by
  obtain ⟨hglobal, htable⟩ := caches_transparent sampleState_reachable (by decide)
  rw [hglobal, htable]
  exact ⟨by decide, by decide⟩

end ToiLang.InlineCache
