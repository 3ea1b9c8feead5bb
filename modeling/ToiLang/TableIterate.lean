import ToiLang.TableAccess

namespace ToiLang

open OpenAddressing

/-- The scan of the array part for a value, `n` places from an index on. -/
def nextArray (t : Table) : Nat → Nat → Option (Nat × Value)
  | 0, _ => none
  | n + 1, i =>
    match tableGetArray t i with
    | some value => some (i, value)
    | none => nextArray t n (i + 1)

/-- The scan of the entries for the first key, or for the one behind the current key. -/
def nextEntry (current : Option Bytes) : Bool → List Entry → Option (Bytes × Value)
  | _, [] => none
  | foundCurrent, entry :: entries =>
    match entry.key with
    | none => nextEntry current foundCurrent entries
    | some key =>
      if foundCurrent then some (key, entry.value)
      else nextEntry current (decide (current = some key)) entries

def nextHash (t : Table) (current : Option Bytes) (foundCurrent : Bool) : Value × Value :=
  match nextEntry current foundCurrent t.entries with
  | some (key, value) => (.string key, value)
  | none => (.nil, .nil)

/-- The index behind a number that is one. -/
def indexAfter (num : Double) : Nat :=
  match num.int? with
  | some i => if 1 ≤ i then i.toNat + 1 else 1
  | none => 1

/-- The array part from an index on; the hash part starts over behind it. -/
def nextFrom (t : Table) (n i : Nat) : Value × Value :=
  match nextArray t n i with
  | some (i, value) => (.number (Double.ofNat i), value)
  | none => nextHash t none true

def nextTable (t : Table) : Value → Value × Value
  | .nil => nextFrom t t.arrayCapacity 1
  | .number num => nextFrom t (t.arrayCapacity + 1 - indexAfter num) (indexAfter num)
  | .string s => nextHash t (some s) false
  | _ => nextHash t none false

def nextString (str : Bytes) (index : Nat) : Value × Value :=
  match str[index - 1]? with
  | some c => (.number (Double.ofNat index), .string [c])
  | none => (.nil, .nil)

/-- `next_native`; `tables` are the table objects by their addresses. -/
def nextNative (tables : Nat → Table) (state currentKey : Value) : Except String (Value × Value) :=
  match state, currentKey with
  | .table a, _ => .ok (nextTable (tables a) currentKey)
  | .string str, .number num => .ok (nextString str (indexAfter num))
  | .string str, .nil => .ok (nextString str 1)
  | .string _, _ => .error "next() string control must be number or nil."
  | _, _ => .error "next expects table or string as first argument."

def isCallableValue : Value → Bool
  | .closure .. => true
  | .native _ => true
  | _ => false

/-- The string `__next`. -/
def mmNext : Bytes := [95, 95, 110, 101, 120, 116]

/-- `get_iterator_next_function_local` for a table without metatable. -/
def getIteratorNextFunction (hash : Bytes → UInt32) (t : Table) : Option (Option Value) := do
  let next ← tableGet hash t mmNext
  return next.filter isCallableValue

/-- `vm_handle_op_iter_prep` on a table without metatable: the function that it pushes before the
table and nil. -/
def iterPrep (hash : Bytes → UInt32) (globals t : Table) : Option (Except String Value) := do
  match ← getIteratorNextFunction hash t with
  | some next => return .ok next
  | none =>
    match ← tableGet hash globals [110, 101, 120, 116] with
    | none => return .error "Global 'next' not found for implicit iteration."
    | some next =>
      return if isCallableValue next then .ok next else .error "Global 'next' is not a function."

/-- The keys and values that a loop visits until the key is nil; none when an iterator fails or
the calls go on. -/
def forIn (next : Value → Except String (Value × Value)) : Nat → Value →
    Option (List (Value × Value))
  | 0, _ => none
  | fuel + 1, control =>
    match next control with
    | .ok (key, value) =>
      if key = .nil then some [] else (forIn next fuel key).map ((key, value) :: ·)
    | .error _ => none

theorem nextNative_table (tables : Nat → Table) (a : Nat) (key : Value) :
    nextNative tables (.table a) key = .ok (nextTable (tables a) key) := rfl

theorem forIn_done {next : Value → Except String (Value × Value)} {control v : Value}
    (fuel : Nat) (h : next control = .ok (.nil, v)) : forIn next (fuel + 1) control = some [] := by
  unfold ToiLang.forIn
  rw [h]
  exact if_pos rfl

theorem forIn_more {next : Value → Except String (Value × Value)} {control key value : Value}
    {fuel : Nat} {vs : List (Value × Value)} (h : next control = .ok (key, value))
    (hk : key ≠ .nil) (hvs : forIn next fuel key = some vs) :
    forIn next (fuel + 1) control = some ((key, value) :: vs) := by
  unfold ToiLang.forIn
  rw [h]
  dsimp only
  rw [if_neg hk, hvs, Option.map_some]

theorem forIn_unique {next : Value → Except String (Value × Value)} {fuel fuel' : Nat}
    {control : Value} {vs vs' : List (Value × Value)} (h : forIn next fuel control = some vs)
    (h' : forIn next fuel' control = some vs') : vs = vs' := by
  induction fuel generalizing fuel' control vs vs' with
  | zero => cases h
  | succ fuel ih =>
    cases fuel' with
    | zero => cases h'
    | succ fuel' =>
      unfold forIn at h h'
      split at h
      next key value hn =>
        rw [hn] at h'
        dsimp only at h'
        split at h
        next hk =>
          rw [if_pos hk] at h'
          exact (Option.some.inj h).symm.trans (Option.some.inj h')
        next hk =>
          rw [if_neg hk] at h'
          obtain ⟨ws, hws, rfl⟩ := Option.map_eq_some_iff.mp h
          obtain ⟨ws', hws', rfl⟩ := Option.map_eq_some_iff.mp h'
          rw [ih hws hws']
      next => cases h

/-- The pairs of the array part, `n` places from an index on. -/
def arrayItems (t : Table) : Nat → Nat → List (Value × Value)
  | 0, _ => []
  | n + 1, i =>
    match tableGetArray t i with
    | some value => (.number (Double.ofNat i), value) :: arrayItems t n (i + 1)
    | none => arrayItems t n (i + 1)

def hashItems (entries : List Entry) : List (Value × Value) :=
  entries.filterMap fun entry => entry.key.map fun key => (.string key, entry.value)

@[simp] theorem hashItems_free {entry : Entry} {entries : List Entry} (h : entry.key = none) :
    hashItems (entry :: entries) = hashItems entries := by
  simp [hashItems, h]

@[simp] theorem hashItems_key {entry : Entry} {entries : List Entry} {key : Bytes}
    (h : entry.key = some key) :
    hashItems (entry :: entries) = (.string key, entry.value) :: hashItems entries := by
  simp [hashItems, h]

theorem nextEntry_other {key : Bytes} {before entries : List Entry}
    (hb : ∀ e ∈ before, e.key ≠ some key) :
    nextEntry (some key) false (before ++ entries) = nextEntry (some key) false entries := by
  induction before with
  | nil => rfl
  | cons e before ih =>
    have he := hb e List.mem_cons_self
    have ih := ih fun e he => hb e (List.mem_cons_of_mem _ he)
    cases hk : e.key with
    | none =>
      simp only [List.cons_append, nextEntry, hk]
      exact ih
    | some k =>
      rw [hk] at he
      have hd : decide (some key = some k) = false := decide_eq_false (Ne.symm he)
      simp only [List.cons_append, nextEntry, hk, hd, Bool.false_eq_true, ↓reduceIte]
      exact ih

section Enumerate

variable {H : Host} {t : Table} {h : Bytes → Option Value}

/-- A table as the operations leave it: a map in the hash part, and `int` indices. -/
structure Iterable (H : Host) (t : Table) (h : Bytes → Option Value) : Prop where
  represents : t.Represents H.hash h
  placed : ∀ i, t.slot i ≠ .nil → i + 1 < 2 ^ 31

/-- No key is in two entries. -/
def Unrepeated (entries : List Entry) : Prop :=
  ∀ before after key value, entries = before ++ ⟨some key, value⟩ :: after →
    (∀ e ∈ before, e.key ≠ some key) ∧ ∀ e ∈ after, e.key ≠ some key

theorem Table.Represents.unrepeated (hr : t.Represents H.hash h) : Unrepeated t.entries := by
  intro before after key value hsplit
  have hmid : (slots t.entries)[before.length]? = some (Slot.used key value) := by
    rw [slots_getElem?, hsplit, List.getElem?_append_right (Nat.le_refl _), Nat.sub_self]
    rfl
  have hkey {e : Entry} (hk : e.key = some key) : e.slot = .used key e.value := by
    simp [Entry.slot, hk]
  refine ⟨fun e he hk => ?_, fun e he hk => ?_⟩
  · obtain ⟨i, hi⟩ := List.mem_iff_getElem?.mp he
    have hlt : i < before.length := (List.getElem?_eq_some_iff.mp hi).1
    have hslot : (slots t.entries)[i]? = some (Slot.used key e.value) := by
      rw [slots_getElem?, hsplit, List.getElem?_append_left hlt, hi, Option.map_some, hkey hk]
    have := hr.valid.unique _ _ _ _ _ hslot hmid
    omega
  · obtain ⟨i, hi⟩ := List.mem_iff_getElem?.mp he
    have hslot : (slots t.entries)[before.length + 1 + i]? = some (Slot.used key e.value) := by
      rw [slots_getElem?, hsplit, List.getElem?_append_right (by omega),
        show before.length + 1 + i - before.length = i + 1 by omega, List.getElem?_cons_succ, hi,
        Option.map_some, hkey hk]
    have := hr.valid.unique _ _ _ _ _ hslot hmid
    omega

/-- From a control value that stands before the entries `rest`, the loop visits them. -/
theorem forIn_hash {tables : Nat → Table} {a : Nat} (ht : tables a = t)
    (hu : Unrepeated t.entries) {rest seen : List Entry} {control : Value} {fuel : Nat}
    (hsplit : t.entries = seen ++ rest)
    (hnext : ∃ current, nextTable t control =
      match nextEntry current true rest with
      | some (key, value) => (.string key, value)
      | none => (.nil, .nil))
    (hfuel : rest.length < fuel) :
    forIn (nextNative tables (.table a)) fuel control = some (hashItems rest) := by
  induction rest generalizing seen control fuel with
  | nil =>
    obtain ⟨current, hnext⟩ := hnext
    obtain ⟨fuel, rfl⟩ := Nat.exists_eq_add_one.mpr hfuel
    apply forIn_done (v := .nil)
    rw [nextNative_table, ht, hnext]
    rfl
  | cons e rest ih =>
    obtain ⟨current, hnext⟩ := hnext
    rw [List.length_cons] at hfuel
    cases hk : e.key with
    | none =>
      rw [hashItems_free hk]
      refine ih (show t.entries = seen ++ [e] ++ rest by simp [hsplit]) ⟨current, ?_⟩ (by omega)
      rw [hnext]
      simp only [nextEntry, hk]
    | some key =>
      obtain ⟨fuel, rfl⟩ : ∃ n, fuel = n + 1 := ⟨fuel - 1, by omega⟩
      have hentry : e = ⟨some key, e.value⟩ := by rw [← hk]
      have hbefore := (hu seen rest key e.value (by rw [hsplit, ← hentry])).1
      have hrest : forIn (nextNative tables (.table a)) fuel (.string key) =
          some (hashItems rest) :=
        ih (show t.entries = seen ++ [e] ++ rest by simp [hsplit]) ⟨some key, by
          have hscan : nextEntry (some key) false t.entries = nextEntry (some key) true rest := by
            rw [hsplit, nextEntry_other hbefore]
            simp [nextEntry, hk]
          simp only [nextTable, nextHash, hscan]⟩ (by omega)
      have hkey : nextTable t control = (.string key, e.value) := by
        rw [hnext]
        simp [nextEntry, hk]
      rw [hashItems_key hk]
      refine forIn_more ?_ (fun hn => nomatch hn) hrest
      rw [nextNative_table, ht, hkey]

/-- From a control value that stands before an index, the loop visits the array part from there
on and then the hash part. -/
theorem forIn_array {tables : Nat → Table} {a : Nat} (ht : tables a = t) (hi : Iterable H t h)
    {n i : Nat} {control : Value} {fuel : Nat} (h0 : i ≠ 0) (hn : i + n = t.arrayCapacity + 1)
    (hnext : nextTable t control = nextFrom t n i) (hfuel : n + t.entries.length < fuel) :
    forIn (nextNative tables (.table a)) fuel control =
      some (arrayItems t n i ++ hashItems t.entries) := by
  induction n generalizing i control fuel with
  | zero =>
    refine forIn_hash ht hi.represents.unrepeated (List.nil_append _).symm ⟨none, ?_⟩ (by omega)
    rw [hnext]
    rfl
  | succ n ih =>
    cases hg : tableGetArray t i with
    | none =>
      have hskip : nextFrom t (n + 1) i = nextFrom t n (i + 1) := by
        simp only [nextFrom, nextArray, hg]
      rw [hskip] at hnext
      simp only [arrayItems, hg]
      exact ih (by omega) (by omega) hnext (by omega)
    | some value =>
      obtain ⟨fuel, rfl⟩ : ∃ n, fuel = n + 1 := ⟨fuel - 1, by omega⟩
      have hlt : i < 2 ^ 31 := by
        rw [tableGetArray_eq] at hg
        split at hg
        next hpos =>
          have := hi.placed _ hpos.2
          omega
        next => cases hg
      have hafter : indexAfter (Double.ofNat i) = i + 1 := by
        unfold indexAfter
        rw [Double.int?_ofNat h0 hlt]
        dsimp only
        rw [if_pos (by omega)]
        rfl
      have hrest : forIn (nextNative tables (.table a)) fuel (.number (Double.ofNat i)) =
          some (arrayItems t n (i + 1) ++ hashItems t.entries) :=
        ih (by omega) (by omega) (by
          simp only [nextTable, hafter]
          rw [show t.arrayCapacity + 1 - (i + 1) = n by omega]) (by omega)
      have hkey : nextTable t control = (.number (Double.ofNat i), value) := by
        rw [hnext]
        simp only [nextFrom, nextArray, hg]
      have hitems : arrayItems t (n + 1) i =
          (.number (Double.ofNat i), value) :: arrayItems t n (i + 1) := by
        simp only [arrayItems, hg]
      rw [hitems]
      refine forIn_more ?_ (fun hn => nomatch hn) hrest
      rw [nextNative_table, ht, hkey]

theorem mem_arrayItems {n i : Nat} {k v : Value} :
    (k, v) ∈ arrayItems t n i ↔
      ∃ j, i ≤ j ∧ j < i + n ∧ tableGetArray t j = some v ∧ k = .number (Double.ofNat j) := by
  induction n generalizing i with
  | zero =>
    simp only [arrayItems, List.not_mem_nil, false_iff]
    rintro ⟨j, h₁, h₂, -⟩
    omega
  | succ n ih =>
    unfold arrayItems
    constructor
    · intro hmem
      split at hmem
      next value hg =>
        obtain hmem | hmem := List.mem_cons.mp hmem
        · cases hmem
          exact ⟨i, Nat.le_refl i, by omega, hg, rfl⟩
        · obtain ⟨j, h₁, h₂, hj⟩ := ih.mp hmem
          exact ⟨j, by omega, by omega, hj⟩
      next =>
        obtain ⟨j, h₁, h₂, hj⟩ := ih.mp hmem
        exact ⟨j, by omega, by omega, hj⟩
    · rintro ⟨j, h₁, h₂, hg, hk⟩
      rcases Nat.eq_or_lt_of_le h₁ with rfl | hlt
      · rw [hg, hk]
        exact List.mem_cons_self
      · have hrest := (ih (i := i + 1)).mpr ⟨j, by omega, by omega, hg, hk⟩
        split
        next => exact List.mem_cons_of_mem _ hrest
        next => exact hrest

theorem mem_hashItems {entries : List Entry} {k v : Value} :
    (k, v) ∈ hashItems entries ↔ ∃ s, k = .string s ∧ (⟨some s, v⟩ : Entry) ∈ entries := by
  unfold hashItems
  rw [List.mem_filterMap]
  constructor
  · rintro ⟨e, he, hek⟩
    obtain ⟨s, hs, hkv⟩ := Option.map_eq_some_iff.mp hek
    cases hkv
    exact ⟨s, rfl, by rwa [← hs]⟩
  · rintro ⟨s, rfl, he⟩
    exact ⟨_, he, rfl⟩

theorem Iterable.getArray_lt (hi : Iterable H t h) {j : Nat} {v : Value}
    (hg : tableGetArray t j = some v) : j ≠ 0 ∧ j < 2 ^ 31 ∧ j ≤ t.arrayCapacity ∧
      t.slot (j - 1) = v ∧ v ≠ .nil := by
  rw [tableGetArray_eq] at hg
  split at hg
  next hpos =>
    have hj : ((j : Int) - 1).toNat = j - 1 := by omega
    rw [hj] at hg hpos
    have hlt := hi.placed _ hpos.2
    refine ⟨by omega, by omega, ?_, Option.some.inj hg, (Option.some.inj hg) ▸ hpos.2⟩
    by_contra hcap
    apply hpos.2
    unfold Table.slot
    rw [List.getD_eq_getElem?_getD, List.getElem?_eq_none]
    · rfl
    · unfold Table.arrayCapacity at hcap
      omega
  next => cases hg

theorem ofNat_inj {i j : Nat} (hi : i ≠ 0) (hi' : i < 2 ^ 31) (hj : j ≠ 0) (hj' : j < 2 ^ 31)
    (h : Double.ofNat i = Double.ofNat j) : i = j := by
  have hint := Double.int?_ofNat hi hi'
  rw [h, Double.int?_ofNat hj hj'] at hint
  exact_mod_cast (Option.some.inj hint).symm

theorem Iterable.arrayItems_nodup (hi : Iterable H t h) (n i : Nat) :
    ((arrayItems t n i).map Prod.fst).Nodup := by
  induction n generalizing i with
  | zero => exact List.nodup_nil
  | succ n ih =>
    unfold arrayItems
    split
    next value hg =>
      rw [List.map_cons, List.nodup_cons]
      refine ⟨fun hmem => ?_, ih (i + 1)⟩
      obtain ⟨⟨k, v⟩, hkv, hk⟩ := List.mem_map.mp hmem
      obtain ⟨j, h₁, h₂, hj, rfl⟩ := mem_arrayItems.mp hkv
      obtain ⟨hi0, hi1, -⟩ := hi.getArray_lt hg
      obtain ⟨hj0, hj1, -⟩ := hi.getArray_lt hj
      have heq := ofNat_inj hj0 hj1 hi0 hi1 (Value.number.inj hk)
      omega
    next => exact ih (i + 1)

theorem Unrepeated.tail {e : Entry} {entries : List Entry} (hu : Unrepeated (e :: entries)) :
    Unrepeated entries := by
  intro before after key value hsplit
  obtain ⟨hb, ha⟩ := hu (e :: before) after key value (by rw [hsplit, List.cons_append])
  exact ⟨fun x hx => hb x (List.mem_cons_of_mem e hx), ha⟩

theorem Unrepeated.nodup {entries : List Entry} (hu : Unrepeated entries) :
    ((hashItems entries).map Prod.fst).Nodup := by
  induction entries with
  | nil => exact List.nodup_nil
  | cons e entries ih =>
    cases hk : e.key with
    | none =>
      rw [hashItems_free hk]
      exact ih hu.tail
    | some key =>
      rw [hashItems_key hk, List.map_cons, List.nodup_cons]
      refine ⟨fun hmem => ?_, ih hu.tail⟩
      obtain ⟨⟨k, v⟩, hkv, hks⟩ := List.mem_map.mp hmem
      obtain ⟨s, rfl, hs⟩ := mem_hashItems.mp hkv
      cases hks
      exact (hu [] entries key e.value (by rw [← hk]; rfl)).2 _ hs rfl

theorem Table.Represents.mem_entries_iff {hash : Bytes → UInt32} (hr : t.Represents hash h)
    {s : Bytes} {v : Value} :
    (⟨some s, v⟩ : Entry) ∈ t.entries ↔ h s = some v := by
  rw [hr.holds s v, List.mem_iff_getElem?]
  refine exists_congr fun i => ?_
  rw [slots_getElem?]
  constructor
  · intro hi
    rw [hi]
    rfl
  · intro hi
    obtain ⟨e, he, hes⟩ := Option.map_eq_some_iff.mp hi
    rw [he, Entry.slot_eq_used hes]

/-- What a loop visits: the values of the array part under their indices, and the entries of the
hash part under their strings, nil or not. -/
def Item (t : Table) (h : Bytes → Option Value) (k v : Value) : Prop :=
  (∃ i, k = .number (Double.ofNat (i + 1)) ∧ t.slot i = v ∧ v ≠ .nil) ∨
    ∃ s, k = .string s ∧ h s = some v

theorem forIn_spec (tables : Nat → Table) (a : Nat) (ht : tables a = t) (hi : Iterable H t h) :
    ∃ fuel visited, forIn (nextNative tables (.table a)) fuel .nil = some visited ∧
      (visited.map Prod.fst).Nodup ∧ ∀ k v, (k, v) ∈ visited ↔ Item t h k v := by
  refine ⟨_, _, forIn_array ht hi Nat.one_ne_zero (Nat.add_comm 1 _) rfl (Nat.lt_succ_self _), ?_,
    fun k v => ?_⟩
  · rw [List.map_append, List.nodup_append]
    refine ⟨hi.arrayItems_nodup _ _, hi.represents.unrepeated.nodup, ?_⟩
    intro x hx y hy hxy
    obtain ⟨⟨k, v⟩, hkv, rfl⟩ := List.mem_map.mp hx
    obtain ⟨⟨k', v'⟩, hkv', rfl⟩ := List.mem_map.mp hy
    obtain ⟨j, -, -, -, rfl⟩ := mem_arrayItems.mp hkv
    obtain ⟨s, rfl, -⟩ := mem_hashItems.mp hkv'
    cases hxy
  · rw [List.mem_append, mem_arrayItems, mem_hashItems]
    constructor
    · rintro (⟨j, -, -, hg, rfl⟩ | ⟨s, rfl, hs⟩)
      · obtain ⟨h0, -, -, hv, hne⟩ := hi.getArray_lt hg
        refine .inl ⟨j - 1, ?_, hv, hne⟩
        rw [Nat.sub_add_cancel (Nat.pos_of_ne_zero h0)]
      · exact .inr ⟨s, rfl, hi.represents.mem_entries_iff.mp hs⟩
    · rintro (⟨i, rfl, hv, hne⟩ | ⟨s, rfl, hs⟩)
      · have hg : tableGetArray t ((i + 1 : Nat) : Int) = some v := by
          rw [tableGetArray_eq, show (((i + 1 : Nat) : Int) - 1).toNat = i by omega, hv,
            if_pos ⟨by omega, hne⟩]
        obtain ⟨-, -, hcap, -⟩ := hi.getArray_lt hg
        exact .inl ⟨i + 1, by omega, by omega, hg, rfl⟩
      · exact .inr ⟨s, rfl, hi.represents.mem_entries_iff.mpr hs⟩

/-- The function that the loop calls: one of the table's own, or the global `next`. -/
theorem iterPrep_eq {globals : Table} {next : Value} (hr : t.Represents H.hash h)
    (hg : tableGet H.hash globals [110, 101, 120, 116] = some (some next))
    (hc : isCallableValue next = true) :
    iterPrep H.hash globals t = some (.ok (((h mmNext).filter isCallableValue).getD next)) := by
  unfold iterPrep getIteratorNextFunction
  rw [tableGet_eq hr, hg]
  cases hf : (h mmNext).filter isCallableValue with
  | none => simp [hf, hc]
  | some v => simp [hf]

end Enumerate

def KeyId.value : KeyId → Value
  | string s => .string s
  | number x => .number x

/-- A value that a read gives as it is, not as a bound method. -/
def Host.Plain (H : Host) (v : Value) : Prop := H.isModule = true ∨ H.isSelfCallable v = false

/-- `for k, v in t` by the global `next`: every key that has a value is visited once, as itself and
with the value that a read gives, nothing else is, and the loop ends. -/
structure Visits (H : Host) (globals : Table) (next : Value) (t : Table) (m : KeyId → Value) :
    Prop where
  prep : iterPrep H.hash globals t = some (.ok next)
  pairs : ∀ (tables : Nat → Table) (a : Nat), tables a = t →
    ∃ fuel visited, forIn (nextNative tables (.table a)) fuel .nil = some visited ∧
      (visited.map Prod.fst).Nodup ∧
      ∀ k v, (k, v) ∈ visited ↔ ∃ id : KeyId, k = id.value ∧ m id = v ∧ v ≠ .nil
  reads : ∀ key : Key, key.NonNegative → m (key.id H) ≠ .nil → ∀ site obj,
    ∃ o, H.getTable ⟨t, fun _ => none⟩ site key obj = some (o, m (key.id H))

/-- What leaves the loop right: a number is written to the array part, a string gets a value other
than nil and no iterator under `__next`, no value is a method of the table, and no number is
deleted that is a string in the hash part. -/
def TableOp.KeepsVisits (H : Host) (next : Value) (o : TableObject) (m : KeyId → Value) :
    TableOp → Prop
  | get .. => True
  | set (.string obj) value =>
    value ≠ .nil ∧ H.Plain value ∧
      (H.chars obj = mmNext → isCallableValue value = true → value = next)
  | set (.number num) value => (Key.number num).inArray o.table = true ∧ H.Plain value
  | delete (.string _) => True
  | delete (.number num) =>
    o.table.arrayValue ((Key.number num).id H) ≠ .nil ∨
      m (.string (H.numberKeyString num)) = .nil

section Run

variable {H : Host} {o o' : TableObject} {t t' : Table} {m : KeyId → Value}
  {h : Bytes → Option Value} {next : Value}

/-- The strings are in the hash part, the numbers in the array part. -/
structure Listed (H : Host) (next : Value) (t : Table) (m : KeyId → Value)
    (h : Bytes → Option Value) : Prop where
  iterable : Iterable H t h
  strings : ∀ s v, h s = some v ↔ m (.string s) = v ∧ v ≠ .nil
  numbers : ∀ x, m (.number x) = t.arrayValue (.number x)
  plain : ∀ k, H.Plain (m k)
  iterator : isCallableValue (m (.string mmNext)) = true → m (.string mmNext) = next

theorem Host.Plain.maybeBindSelf {v : Value} (hp : H.Plain v) (obj : Nat) :
    H.maybeBindSelf obj v = v := by
  unfold Host.maybeBindSelf
  split
  next => rfl
  next hb =>
    obtain hp | hp := hp
    · exact absurd (.inr hp) hb
    · rw [hp]
      rfl

theorem Host.plain_of_maybeBindSelf {v : Value} {obj : Nat} (hb : H.maybeBindSelf obj v = v) :
    H.Plain v := by
  unfold Host.maybeBindSelf at hb
  split at hb
  next hs =>
    obtain hs | hs := hs
    · right
      cases v with
      | boundMethod a r f => rfl
      | _ => cases hs
    · exact .inl hs
  next =>
    cases hf : H.isSelfCallable v with
    | false => exact .inr hf
    | true =>
      rw [hf, if_pos rfl] at hb
      rw [← hb] at hf
      cases hf

theorem place_of_int? {i : Nat} {x : Double} (h : x.int? = some ((i + 1 : Nat) : Int)) :
    (KeyId.number x).place = some i := by
  have hpos : (1 : Int) ≤ ((i + 1 : Nat) : Int) := by omega
  have hi : (((i + 1 : Nat) : Int) - 1).toNat = i := by omega
  simp only [KeyId.place, h, hpos, hi, ↓reduceIte]

theorem place_ofNat {i : Nat} (h : i + 1 < 2 ^ 31) :
    (KeyId.number (Double.ofNat (i + 1))).place = some i :=
  place_of_int? (Double.int?_ofNat (Nat.add_one_ne_zero i) h)

/-- The key of a place in the array part. -/
theorem KeyId.eq_ofNat {k : KeyId} {i : Nat} (h : k.place = some i) :
    i + 1 < 2 ^ 31 ∧ k = .number (Double.ofNat (i + 1)) := by
  have hlt : i + 1 < 2 ^ 31 := by
    unfold KeyId.place at h
    split at h
    next => cases h
    next x =>
      split at h
      next j hj =>
        split at h
        next h1 =>
          have hij := Option.some.inj h
          obtain ⟨n, -, hn⟩ := Option.bind_eq_some_iff.mp hj
          split at hn
          next hrange =>
            have := Option.some.inj hn
            omega
          next => cases hn
        next => cases h
      next => cases h
  exact ⟨hlt, KeyId.place_inj h (place_ofNat hlt)⟩

theorem arrayValue_ne_nil_iff {k : KeyId} :
    t.arrayValue k ≠ .nil ↔ ∃ i, k.place = some i ∧ t.slot i ≠ .nil := by
  unfold Table.arrayValue
  constructor
  · intro hv
    split at hv
    next i hp => exact ⟨i, hp, hv⟩
    next => exact absurd rfl hv
  · rintro ⟨i, hp, hv⟩
    rw [hp]
    exact hv

theorem Listed.item_iff (hl : Listed H next t m h) (k v : Value) :
    Item t h k v ↔ ∃ id : KeyId, k = id.value ∧ m id = v ∧ v ≠ .nil := by
  constructor
  · rintro (⟨i, rfl, rfl, hne⟩ | ⟨s, rfl, hs⟩)
    · refine ⟨.number (Double.ofNat (i + 1)), rfl, ?_, hne⟩
      rw [hl.numbers, Table.arrayValue, place_ofNat (hl.iterable.placed i hne)]
    · obtain ⟨hm, hne⟩ := (hl.strings s v).mp hs
      exact ⟨.string s, rfl, hm, hne⟩
  · rintro ⟨id, rfl, hm, hne⟩
    cases id with
    | string s => exact .inr ⟨s, rfl, (hl.strings s v).mpr ⟨hm, hne⟩⟩
    | number x =>
      rw [hl.numbers] at hm
      obtain ⟨i, hp, hslot⟩ := arrayValue_ne_nil_iff.mp (hm ▸ hne)
      obtain ⟨hlt, hx⟩ := KeyId.eq_ofNat hp
      cases hx
      refine .inl ⟨i, rfl, ?_, hne⟩
      rw [← hm, Table.arrayValue, hp]

theorem Listed.visits {globals : Table} (hl : Listed H next t m h)
    (hg : tableGet H.hash globals [110, 101, 120, 116] = some (some next))
    (hc : isCallableValue next = true) : Visits H globals next t m := by
  constructor
  · rw [iterPrep_eq hl.iterable.represents hg hc]
    cases hf : (h mmNext).filter isCallableValue with
    | none => rfl
    | some v =>
      obtain ⟨hv, hcall⟩ := Option.filter_eq_some_iff.mp hf
      obtain ⟨hm, -⟩ := (hl.strings _ _).mp hv
      have := hl.iterator (hm ▸ hcall)
      rw [Option.getD_some, ← hm, this]
  · intro tables a ht
    obtain ⟨fuel, visited, hv, hnd, hmem⟩ := forIn_spec tables a ht hl.iterable
    exact ⟨fuel, visited, hv, hnd, fun k v => (hmem k v).trans (hl.item_iff k v)⟩
  · intro key hn hm site obj
    obtain ⟨o', ho'⟩ := getTable_uncached (o := ⟨t, fun _ => none⟩)
      hl.iterable.represents site obj hn rfl
    refine ⟨o', ?_⟩
    have hcontent : t.content H h (key.id H) = m (key.id H) := by
      unfold Table.content
      cases key with
      | string key =>
        have := (hl.strings (H.chars key) (m (.string (H.chars key)))).mpr ⟨rfl, hm⟩
        simp only [Key.id, arrayValue_string, ↓reduceIte, KeyId.text, this, Option.getD_some]
      | number num =>
        have hnum := hl.numbers num.normalize
        change m ((Key.number num).id H) = t.arrayValue ((Key.number num).id H) at hnum
        rw [hnum] at hm ⊢
        rw [if_neg hm]
    rw [ho', hcontent, (hl.plain _).maybeBindSelf]

theorem Visits.item_iff {globals : Table} (hv : Visits H globals next t m)
    (hi : Iterable H t h) (k v : Value) :
    Item t h k v ↔ ∃ id : KeyId, k = id.value ∧ m id = v ∧ v ≠ .nil := by
  obtain ⟨fuel, visited, hf, -, hmem⟩ := hv.pairs (fun _ => t) 0 rfl
  obtain ⟨fuel', visited', hf', -, hmem'⟩ := forIn_spec (fun _ => t) 0 rfl hi
  rw [forIn_unique hf hf'] at hmem
  exact (hmem' k v).symm.trans (hmem k v)

theorem Iterable.writeArray {k : KeyId} {i : Nat} {v : Value} (hi : Iterable H t h)
    (hr : t'.Represents H.hash h) (hp : k.place = some i)
    (hslot : ∀ j, t'.slot j = Function.update t.slot i v j) : Iterable H t' h := by
  refine ⟨hr, fun j hj => ?_⟩
  by_cases hji : j = i
  · exact hji ▸ (KeyId.eq_ofNat hp).1
  · rw [hslot, Function.update_of_ne hji] at hj
    exact hi.placed j hj

theorem Iterable.writeHash {h' : Bytes → Option Value} (hi : Iterable H t h)
    (hr : t'.Represents H.hash h') (harr : t'.array = t.array) : Iterable H t' h' := by
  refine ⟨hr, fun j hj => hi.placed j ?_⟩
  simpa only [Table.slot, harr] using hj

theorem plain_nil : H.Plain .nil := .inr rfl

/-- A key whose read is right has no method for its value. -/
theorem Visits.plain {globals : Table} (hv : Visits H globals next t m)
    (hr : t.Represents H.hash h) {key : Key} (hn : key.NonNegative)
    (hc : t.content H h (key.id H) = m (key.id H)) : H.Plain (m (key.id H)) := by
  by_cases hm : m (key.id H) = .nil
  · rw [hm]
    exact plain_nil
  · obtain ⟨o₁, ho₁⟩ := hv.reads key hn hm 0 0
    obtain ⟨o₂, ho₂⟩ := getTable_uncached (o := ⟨t, fun _ => none⟩) hr 0 0 hn rfl
    rw [ho₁, hc] at ho₂
    have hbind := congrArg Prod.snd (Option.some.inj ho₂)
    exact Host.plain_of_maybeBindSelf hbind.symm

theorem Listed.writeArray {x : Double} {i : Nat} {v : Value} (hl : Listed H next t m h)
    (hr : t'.Represents H.hash h) (hp : (KeyId.number x).place = some i)
    (hslot : ∀ j, t'.slot j = Function.update t.slot i v j) (hv : H.Plain v) :
    Listed H next t' (Function.update m (.number x) v) h := by
  constructor
  · exact hl.iterable.writeArray hr hp hslot
  · intro s w
    rw [Function.update_of_ne (by simp)]
    exact hl.strings s w
  · intro y
    rw [arrayValue_update hp hslot]
    by_cases hy : KeyId.number y = .number x
    · rw [hy, Function.update_self, Function.update_self]
    · rw [Function.update_of_ne hy, Function.update_of_ne hy]
      exact hl.numbers y
  · intro k
    by_cases hk : k = .number x
    · rwa [hk, Function.update_self]
    · rw [Function.update_of_ne hk]
      exact hl.plain k
  · rw [Function.update_of_ne (by simp)]
    exact hl.iterator

/-- A change of the hash part in one string, to a value or to none. -/
theorem Listed.writeHash {s : Bytes} {w : Option Value} (hl : Listed H next t m h)
    (hr : t'.Represents H.hash (Function.update h s w)) (harr : t'.array = t.array)
    (hw : w ≠ some .nil) (hp : H.Plain (w.getD .nil))
    (hnext : s = mmNext → isCallableValue (w.getD .nil) = true → w.getD .nil = next) :
    Listed H next t' (Function.update m (.string s) (w.getD .nil)) (Function.update h s w) := by
  have hval (k : KeyId) : t'.arrayValue k = t.arrayValue k := by
    simp only [Table.arrayValue, Table.slot, harr]
  constructor
  · exact hl.iterable.writeHash hr harr
  · intro s' v
    by_cases hs : s' = s
    · subst hs
      rw [Function.update_self, Function.update_self]
      cases w with
      | none =>
        constructor
        · intro hv
          cases hv
        · rintro ⟨rfl, hne⟩
          exact absurd rfl hne
      | some w =>
        constructor
        · intro hv
          cases Option.some.inj hv
          exact ⟨rfl, fun hn => hw (congrArg some hn)⟩
        · rintro ⟨rfl, -⟩
          rfl
    · have hk : KeyId.string s' ≠ .string s := fun hk => hs (KeyId.string.inj hk)
      rw [Function.update_of_ne hs, Function.update_of_ne hk]
      exact hl.strings s' v
  · intro x
    rw [Function.update_of_ne (by simp), hval]
    exact hl.numbers x
  · intro k
    by_cases hk : k = .string s
    · rwa [hk, Function.update_self]
    · rw [Function.update_of_ne hk]
      exact hl.plain k
  · by_cases hs : mmNext = s
    · rw [← hs, Function.update_self]
      exact hnext hs.symm
    · have hk : KeyId.string mmNext ≠ .string s := fun hk => hs (KeyId.string.inj hk)
      rw [Function.update_of_ne hk]
      exact hl.iterator

/-- A number in the hash part is visited as a string, or not at all. -/
theorem Listed.number_hidden {globals : Table} {x : Double} {v : Value} (hl : Listed H next t m h)
    (hr : t'.Represents H.hash (Function.update h (H.numberKeyString x) (some v)))
    (harr : t'.array = t.array) (hnil : t.arrayValue (.number x) = .nil) :
    ¬ Visits H globals next t' (Function.update m (.number x) v) := by
  intro hv
  have hi := hl.iterable.writeHash hr harr
  obtain ⟨id, hid, -, hne⟩ := (hv.item_iff hi (.string (H.numberKeyString x)) v).mp
    (.inr ⟨_, rfl, Function.update_self ..⟩)
  obtain ⟨i, hx, hslot, -⟩ | ⟨s, hs, -⟩ := (hv.item_iff hi (.number x) v).mpr
    ⟨.number x, rfl, Function.update_self .., hne⟩
  · cases hx
    have hslot' : t.slot i = v := by simpa only [Table.slot, harr] using hslot
    have hlt := hl.iterable.placed i (hslot' ▸ hne)
    rw [Table.arrayValue, place_ofNat hlt] at hnil
    exact hne (hslot'.symm.trans hnil)
  · cases hs

theorem setTable_listed {globals : Table} (hl : Listed H next o.table m h) {key : Key} {v : Value}
    (hn : key.NonNegative) (hg : tableGet H.hash globals [110, 101, 120, 116] = some (some next))
    (hc : isCallableValue next = true) :
    ∃ o', H.setTable o key v = some o' ∧
      ((TableOp.set key v).KeepsVisits H next o m →
        ∃ h', Listed H next o'.table (Function.update m (key.id H) v) h') ∧
      (Visits H globals next o'.table (Function.update m (key.id H) v) →
        (TableOp.set key v).KeepsVisits H next o m) := by
  have hr := hl.iterable.represents
  cases hin : key.inArray o.table with
  | true =>
    obtain ⟨t', i, ht', hr', -, -, -, hp, hslot⟩ := setTable_array hr hn hin v
    cases key with
    | string key => cases hin
    | number num =>
      refine ⟨_, ht', fun hk => ⟨h, hl.writeArray hr' hp hslot hk.2⟩, fun hv => ⟨hin, ?_⟩⟩
      by_cases hnil : v = .nil
      · rw [hnil]
        exact plain_nil
      · have hcontent : t'.content H h ((Key.number num).id H) = v := by
          rw [Table.content, arrayValue_update hp hslot, Function.update_self, if_neg hnil]
        have hplain := hv.plain hr' hn (by rw [hcontent, Function.update_self])
        rwa [Function.update_self] at hplain
  | false =>
    obtain ⟨hset, hnil⟩ := setTable_hash (H := H) hn hin v
    obtain ⟨t', ht', hr', -, harr, -⟩ := tableSet_spec hr ((key.id H).text H) v
    refine ⟨{ o with table := t' }, by rw [hset]; simp [Host.setHash, ht'], ?_⟩
    cases key with
    | string key =>
      have hi := hl.iterable.writeHash hr' harr
      refine ⟨fun hk => ⟨_, hl.writeHash (w := some v) hr' harr ?_ hk.2.1 hk.2.2⟩,
        fun hv => ⟨?_, ?_, ?_⟩⟩
      · exact fun hnv => hk.1 (Option.some.inj hnv)
      · obtain ⟨id, -, -, hne⟩ := (hv.item_iff hi (.string (H.chars key)) v).mp
          (.inr ⟨_, rfl, Function.update_self ..⟩)
        exact hne
      · have hplain := hv.plain hr' hn (by
          simp only [Table.content, Key.id, arrayValue_string, KeyId.text, ↓reduceIte,
            Function.update_self, Option.getD_some])
        rwa [Function.update_self] at hplain
      · intro hs hcall
        have hprep := hv.prep
        rw [iterPrep_eq hr' hg hc] at hprep
        have hmm : Function.update h ((Key.string key).id H |>.text H) (some v) mmNext = some v := by
          rw [← hs]
          exact Function.update_self ..
        rw [hmm, Option.filter_some, if_pos hcall, Option.getD_some] at hprep
        cases hprep
        rfl
    | number num =>
      rw [text_eq] at hr'
      rw [← numberKeyString_normalize] at hr'
      refine ⟨fun hk => ?_, fun hv => ?_⟩
      · rw [hk.1] at hin
        cases hin
      · exact absurd hv (hl.number_hidden hr' harr hnil)

theorem deleteTable_listed (globals : Table) (hl : Listed H next o.table m h) {key : Key}
    (hn : key.NonNegative) :
    ∃ o' found, H.deleteTable o key = some (o', found) ∧
      ((TableOp.delete key).KeepsVisits H next o m →
        ∃ h', Listed H next o'.table (Function.update m (key.id H) .nil) h') ∧
      (Visits H globals next o'.table (Function.update m (key.id H) .nil) →
        (TableOp.delete key).KeepsVisits H next o m) := by
  have hr := hl.iterable.represents
  by_cases hnil : o.table.arrayValue (key.id H) = .nil
  · obtain ⟨t', ht', hr', harr, -⟩ := tableDelete_spec hr ((key.id H).text H)
    refine ⟨{ o with table := t' }, _, by rw [deleteTable_hash o hn hnil]; simp [Host.deleteHash, ht']; rfl, ?_⟩
    cases key with
    | string key =>
      refine ⟨fun _ => ⟨_, hl.writeHash (w := none) hr' harr (by simp) plain_nil ?_⟩,
        fun _ => trivial⟩
      intro hs hcall
      cases hcall
    | number num =>
      have hi := hl.iterable.writeHash hr' harr
      have hm : m ((Key.number num).id H) = .nil := (hl.numbers _).trans hnil
      have hsame : Function.update m ((Key.number num).id H) .nil = m := by
        rw [← hm, Function.update_eq_self]
      rw [hsame]
      rw [text_eq] at hr' hi
      refine ⟨fun hk => ?_, fun hv => .inr ?_⟩
      · obtain hk | hk := hk
        · exact absurd hnil hk
        · have hkey := hl.writeHash (w := none) hr' harr (by simp) plain_nil fun _ hcall => by
            cases hcall
          rw [Option.getD_none, ← hk, Function.update_eq_self] at hkey
          exact ⟨_, hkey⟩
      · by_contra hm'
        obtain ⟨i, hi', -⟩ | ⟨s, hs, hv'⟩ := (hv.item_iff hi (.string (H.numberKeyString num)) _).mpr
          ⟨.string _, rfl, rfl, hm'⟩
        · cases hi'
        · cases hs
          rw [Function.update_self] at hv'
          cases hv'
  · obtain ⟨t', i, ht', hr', -, -, -, hp, hslot⟩ := deleteTable_array hr hn hnil
    cases key with
    | string key => exact absurd rfl hnil
    | number num =>
      exact ⟨_, true, ht', fun _ => ⟨h, hl.writeArray hr' hp hslot plain_nil⟩, fun _ => .inl hnil⟩

theorem newTable_listed : Listed H next newTable.table (fun _ => .nil) fun _ => none where
  iterable := ⟨initTable_represents, fun i hi => absurd rfl hi⟩
  strings := by
    intro s v
    constructor
    · intro hs
      cases hs
    · rintro ⟨rfl, hne⟩
      exact absurd rfl hne
  numbers := by
    intro x
    by_contra hne
    obtain ⟨i, -, hslot⟩ := arrayValue_ne_nil_iff.mp (Ne.symm hne)
    exact hslot rfl
  plain := fun _ => plain_nil
  iterator := by
    intro hcall
    cases hcall

/-- One operation: the loop visits the live keys after it if and only if the operation keeps the
numbers in the array part and the nils out of the hash part. -/
theorem exec_listed {globals : Table} (hl : Listed H next o.table m h) {op : TableOp}
    (hn : op.key.NonNegative)
    (hg : tableGet H.hash globals [110, 101, 120, 116] = some (some next))
    (hc : isCallableValue next = true) :
    ∃ o' v, H.exec o op = some (o', v) ∧
      (op.KeepsVisits H next o m → ∃ h', Listed H next o'.table (op.record H m) h') ∧
      (Visits H globals next o'.table (op.record H m) → op.KeepsVisits H next o m) := by
  cases op with
  | get site key obj =>
    obtain ⟨o', v, ho', ht⟩ := getTable_leaves hl.iterable.represents site key obj
    exact ⟨o', v, ho', fun _ => ⟨h, ht ▸ hl⟩, fun _ => trivial⟩
  | set key value =>
    change key.NonNegative at hn
    obtain ⟨o', ho', hrest⟩ := setTable_listed (v := value) hl hn hg hc
    exact ⟨o', value, by simp [Host.exec, ho'], hrest⟩
  | delete key =>
    change key.NonNegative at hn
    obtain ⟨o', found, ho', hrest⟩ := deleteTable_listed globals hl hn
    exact ⟨o', .nil, by simp [Host.exec, ho'], hrest⟩

/-- The runs of such operations on a new table, with the map of the latest writes. -/
def VisitRun (H : Host) (next : Value) : TableObject → (KeyId → Value) → Prop :=
  OpRun H fun o m op => op.KeepsVisits H next o m

theorem VisitRun.listed {globals : Table} (hr : VisitRun H next o m)
    (hg : tableGet H.hash globals [110, 101, 120, 116] = some (some next))
    (hc : isCallableValue next = true) : ∃ h, Listed H next o.table m h := by
  induction hr with
  | start => exact ⟨_, newTable_listed⟩
  | step hr hn hk he ih =>
    obtain ⟨h, ih⟩ := ih
    obtain ⟨o₁, v₁, ho₁, hkeep, -⟩ := exec_listed ih hn hg hc
    rw [ho₁] at he
    cases he
    exact hkeep hk

/-- In every run of operations that keep the loop right it visits the live keys; it visits them
after the next operation if and only if that operation keeps it right as well. -/
theorem iteration_visits_live {globals : Table} {next : Nat} (hr : VisitRun H (.native next) o m)
    (hg : tableGet H.hash globals [110, 101, 120, 116] = some (some (.native next))) :
    Visits H globals (.native next) o.table m ∧
    ∀ op : TableOp, op.key.NonNegative →
      ∃ o' v, H.exec o op = some (o', v) ∧
        (Visits H globals (.native next) o'.table (op.record H m) ↔
          op.KeepsVisits H (.native next) o m) := by
  obtain ⟨h, hl⟩ := hr.listed hg rfl
  refine ⟨hl.visits hg rfl, fun op hn => ?_⟩
  obtain ⟨o', v, ho', hkeep, hback⟩ := exec_listed hl hn hg rfl
  refine ⟨o', v, ho', hback, fun hk => ?_⟩
  obtain ⟨h', hl'⟩ := hkeep hk
  exact hl'.visits hg rfl

end Run

namespace SampleTable

/-- `t[5] = 5` on a new table: the loop gives the key as the string "\x1Fn5". -/
theorem number_visited_as_string :
    ∃ o m, host.execAll [.set (.number five) (.number five)] = some (o, m) ∧
      m (.number five) = .number five ∧ m (.string [0x1F, 110, 53]) = .nil ∧
      forIn (nextNative (fun _ => o.table) (.table 0)) 3 .nil =
        some [(.string [0x1F, 110, 53], .number five)] := by
  exact ⟨_, _, rfl, by decide, by decide, by decide⟩

/-- The globals with the native function `next`. -/
def globals : Table :=
  ⟨1, List.replicate 4 ⟨none, .nil⟩ ++ ⟨some [110, 101, 120, 116], .native 7⟩ ::
    List.replicate 3 ⟨none, .nil⟩, 1, [], 0⟩

/-- `t["a"] = 1`: the loop visits the one key. -/
theorem iteration_visits_live_one :
    ∃ o, host.exec newTable (.set (.string 97) (.number one)) = some (o, .number one) ∧
      Visits host globals (.native 7) o.table
        (Function.update (fun _ => .nil) (.string [97]) (.number one)) := by
  have hk : (TableOp.set (.string 97) (.number one)).KeepsVisits host (.native 7) newTable
      fun _ => .nil := ⟨(fun hv => nomatch hv), .inr rfl, (fun hs => nomatch hs)⟩
  have hr : VisitRun host (.native 7) _ _ :=
    @OpRun.step host _ _ _ _ (.set (.string 97) (.number one)) _ .start trivial hk rfl
  exact ⟨_, rfl, (iteration_visits_live hr rfl).1⟩

end SampleTable

end ToiLang
