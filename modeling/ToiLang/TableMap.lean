import ToiLang.Table

namespace ToiLang

open OpenAddressing

def Entry.slot (e : Entry) : Slot Bytes Value :=
  match e.key with
  | some key => .used key e.value
  | none => if e.value = .nil then .empty else .deleted

def slots (entries : List Entry) : List (Slot Bytes Value) := entries.map Entry.slot

@[simp] theorem slots_length (entries : List Entry) : (slots entries).length = entries.length := by
  simp [slots]

@[simp] theorem slots_getElem? (entries : List Entry) (i : Nat) :
    (slots entries)[i]? = (entries[i]?).map Entry.slot := by
  simp [slots]

@[simp] theorem slots_set (entries : List Entry) (i : Nat) (e : Entry) :
    slots (entries.set i e) = (slots entries).set i e.slot := by
  simp [slots, List.map_set]

@[simp] theorem Entry.slot_used (key : Bytes) (value : Value) :
    Entry.slot ⟨some key, value⟩ = .used key value := rfl

@[simp] theorem Entry.slot_tombstone : Entry.slot ⟨none, .bool true⟩ = .deleted := rfl

theorem Entry.slot_eq_used {e : Entry} {key : Bytes} {value : Value}
    (h : e.slot = .used key value) : e = ⟨some key, value⟩ := by
  obtain ⟨k, v⟩ := e
  cases k with
  | some k =>
    cases h
    rfl
  | none =>
    simp only [Entry.slot] at h
    split at h <;> cases h

theorem Entry.slot_eq_empty {e : Entry} (h : e.slot = .empty) : e = ⟨none, .nil⟩ := by
  obtain ⟨k, v⟩ := e
  cases k with
  | some k => cases h
  | none =>
    simp only [Entry.slot] at h
    split at h
    next hv => rw [hv]
    next => cases h

theorem Entry.slot_free {e : Entry} (h : e.slot = .empty ∨ e.slot = .deleted) : e.key = none := by
  obtain ⟨k, v⟩ := e
  cases k with
  | some k => obtain h | h := h <;> cases h
  | none => rfl

section Hash

variable {hash : Bytes → UInt32} {entries : List Entry} {key : Bytes}

/-- The slot that the probes for a key start at. -/
def start (hash : Bytes → UInt32) (capacity : Nat) (key : Bytes) : Nat :=
  (hash key).toNat % capacity

theorem sameString_iff {k : Bytes} : sameString hash k key (hash key) = true ↔ k = key := by
  constructor
  · intro h
    simp only [sameString, Bool.and_eq_true, beq_iff_eq] at h
    exact h.2
  · rintro rfl
    simp [sameString]

theorem findEntryFrom_eq_search (fuel index : Nat) (tombstone : Option Nat) :
    findEntryFrom hash entries key fuel index tombstone =
      search (slots entries) key fuel index tombstone := by
  induction fuel generalizing index tombstone with
  | zero => rfl
  | succ fuel ih =>
    simp only [findEntryFrom, search, slots_getElem?, slots_length]
    cases hentry : entries[index]? with
    | none => rfl
    | some entry =>
      obtain ⟨k, v⟩ := entry
      cases k with
      | some k => simp [sameString_iff, ih]
      | none =>
        by_cases hv : v = .nil
        · simp [Entry.slot, hv]
        · simp [Entry.slot, hv, ih]

/-- The loop of `find_entry` ends when a slot is empty and not a tombstone. -/
theorem findEntry_spec (key : Bytes) (hv : Valid (start hash entries.length) (slots entries))
    (hempty : Slot.empty ∈ slots entries) :
    ∃ i, findEntry hash entries key = some i ∧
      Found (start hash entries.length) (slots entries) key i := by
  have hpos : 0 < entries.length := by
    have h := List.length_pos_of_mem hempty
    rwa [slots_length] at h
  have hlt : start hash entries.length key < (slots entries).length := by
    rw [slots_length]
    exact Nat.mod_lt _ hpos
  obtain ⟨i, hi, hf⟩ := search_spec hv hempty hlt
  refine ⟨i, ?_, hf⟩
  rw [findEntry, findEntryFrom_eq_search, ← hi, slots_length]
  rfl

/-- The entry at the slot that `find_entry` returned. -/
theorem Found.entry {n i : Nat} {m : Bytes → Option Value} (hm : Holds (slots entries) m)
    (hf : Found (start hash n) (slots entries) key i) :
    ∃ entry, entries[i]? = some entry ∧
      (entry = ⟨some key, entry.value⟩ ∧ m key = some entry.value ∨
        entry.key = none ∧ m key = none) := by
  have hlt : i < entries.length := by
    have h := hf.lt
    rwa [slots_length] at h
  have hget := List.getElem?_eq_getElem hlt
  refine ⟨entries[i], hget, ?_⟩
  cases hf with
  | present v h =>
    rw [slots_getElem?, hget] at h
    have he := Entry.slot_eq_used (Option.some.inj h)
    refine .inl ⟨by rw [he], ?_⟩
    rw [he]
    exact hm.get (by rw [slots_getElem?, hget]; exact h)
  | absent hp h =>
    refine .inr ⟨Entry.slot_free ?_, hm.get_absent h⟩
    have hfree := hp.free
    rw [slots_getElem?, hget] at hfree
    exact hfree.imp Option.some.inj Option.some.inj

/-- `table_find_string` probes as `find_entry` does. -/
theorem findStringFrom_eq (hash : Bytes → UInt32) (key : Bytes) (fuel index : Nat)
    (tombstone : Option Nat)
    (ht : ∀ i, tombstone = some i → ∃ e, entries[i]? = some e ∧ e.key = none) :
    findStringFrom hash entries key (hash key) fuel index = (do
      let i ← findEntryFrom hash entries key fuel index tombstone
      let e ← entries[i]?
      return e.key) := by
  induction fuel generalizing index tombstone with
  | zero => rfl
  | succ fuel ih =>
    simp only [findStringFrom, findEntryFrom]
    cases hentry : entries[index]? with
    | none => rfl
    | some entry =>
      obtain ⟨k, v⟩ := entry
      cases k with
      | some k =>
        dsimp only
        split
        next => simp [hentry]
        next => exact ih _ tombstone ht
      | none =>
        dsimp only
        split
        next =>
          cases tombstone with
          | none => simp [hentry]
          | some i =>
            obtain ⟨e, he, hek⟩ := ht i rfl
            simp [he, hek]
        next =>
          apply ih
          intro i hi
          cases tombstone with
          | none =>
            cases Option.some.inj hi
            exact ⟨_, hentry, rfl⟩
          | some j => exact ht i hi

/-- The hash part holds a map. The load factor is what leaves a slot empty. -/
structure Table.Represents (hash : Bytes → UInt32) (t : Table) (m : Bytes → Option Value) : Prop where
  valid : Valid (start hash t.capacity) (slots t.entries)
  holds : Holds (slots t.entries) m
  count : t.count = filled (slots t.entries)
  load : 4 * t.count ≤ 3 * t.capacity

variable {t t' : Table} {m : Bytes → Option Value}

theorem Table.Represents.empty_mem (h : t.Represents hash m) (hc : 0 < t.capacity) :
    Slot.empty ∈ slots t.entries := by
  have hcount := h.count
  have hload := h.load
  refine exists_empty ?_
  rw [slots_length, ← hcount]
  change t.count < t.capacity
  omega

theorem Table.Represents.find (h : t.Represents hash m) (hc : 0 < t.capacity) (key : Bytes) :
    ∃ i entry, findEntry hash t.entries key = some i ∧ t.entries[i]? = some entry ∧
      Found (start hash t.capacity) (slots t.entries) key i ∧
      (entry = ⟨some key, entry.value⟩ ∧ m key = some entry.value ∨
        entry.key = none ∧ m key = none) := by
  obtain ⟨i, hi, hf⟩ := findEntry_spec key h.valid (h.empty_mem hc)
  obtain ⟨entry, he, hm⟩ := Found.entry h.holds hf
  exact ⟨i, entry, hi, he, hf, hm⟩

theorem Table.Represents.capacity_pos (h : t.Represents hash m) (hc : t.count ≠ 0) :
    0 < t.capacity := by
  have hload := h.load
  omega

theorem Table.Represents.get_eq_none (h : t.Represents hash m) (hc : t.count = 0) (key : Bytes) :
    m key = none := by
  have hcount := h.count
  refine h.holds.get_absent fun j v hj => ?_
  have hpos : 0 < filled (slots t.entries) :=
    List.countP_pos_iff.mpr ⟨_, List.mem_of_getElem? hj, rfl⟩
  omega

theorem initTable_represents : initTable.Represents hash fun _ => none where
  valid := valid_replicate 0
  holds := holds_replicate 0
  count := rfl
  load := Nat.le_refl _

theorem tableGet_eq (h : t.Represents hash m) (key : Bytes) :
    tableGet hash t key = some (m key) := by
  unfold tableGet
  split
  next hc => rw [h.get_eq_none hc]
  next hc =>
    obtain ⟨i, entry, hi, he, hf, hm | hm⟩ := h.find (h.capacity_pos hc) key
    · obtain ⟨hentry, hmk⟩ := hm
      rw [hentry] at he
      simp [hi, he, hmk]
    · simp [hi, he, hm.1, hm.2]

theorem tableFindString_eq (h : t.Represents hash m) (key : Bytes) :
    tableFindString hash t key (hash key) =
      some (if (m key).isSome then some key else none) := by
  unfold tableFindString
  split
  next hc => simp [h.get_eq_none hc]
  next hc =>
    obtain ⟨i, entry, hi, he, hf, hm⟩ := h.find (h.capacity_pos hc) key
    have hnone : ∀ j, (none : Option Nat) = some j → ∃ e, t.entries[j]? = some e ∧ e.key = none := by
      intro j hj
      cases hj
    have hfind := findStringFrom_eq hash key t.capacity
      ((hash key).toNat % t.capacity) none hnone
    have hi' : findEntryFrom hash t.entries key t.capacity ((hash key).toNat % t.capacity) none =
        some i := hi
    rw [hfind, hi']
    obtain ⟨hentry, hmk⟩ | ⟨hentry, hmk⟩ := hm
    · rw [hentry] at he
      simp [he, hmk]
    · simp [he, hentry, hmk]

/-- What the new array holds when the entries `done` have been put into it. -/
structure Rehashed (hash : Bytes → UInt32) (capacity : Nat) (done : List Entry)
    (dest : List Entry × Nat) : Prop where
  length : dest.1.length = capacity
  valid : Valid (start hash capacity) (slots dest.1)
  clean : Slot.deleted ∉ slots dest.1
  count : dest.2 = filled (slots dest.1)
  bound : dest.2 ≤ filled (slots done)
  holds : ∃ m, Holds (slots dest.1) m ∧ Holds (slots done) m

theorem holds_iff_mem {ss : List (Slot Bytes Value)} {m : Bytes → Option Value} :
    Holds ss m ↔ ∀ k v, m k = some v ↔ Slot.used k v ∈ ss := by
  simp [Holds, List.mem_iff_getElem?]

theorem filled_append_singleton (done : List Entry) (e : Entry) :
    filled (slots (done ++ [e])) = filled (slots done) + if e.slot.isFilled then 1 else 0 := by
  simp [filled, slots, List.countP_append, List.countP_cons]

/-- Entries with different keys, as an array has them. -/
def DistinctKeys (ss : List (Slot Bytes Value)) : Prop :=
  ∀ (i j : Nat) (k : Bytes) (v w : Value), ss[i]? = some (Slot.used k v) →
    ss[j]? = some (Slot.used k w) → i = j

theorem DistinctKeys.absent {done : List Entry} {rest : List Entry} {key : Bytes} {value : Value}
    (h : DistinctKeys (slots (done ++ ⟨some key, value⟩ :: rest))) : Absent (slots done) key := by
  intro j v hj
  have hlt : j < done.length := by
    have := (List.getElem?_eq_some_iff.mp hj).1
    rwa [slots_length] at this
  have hj' : (slots (done ++ ⟨some key, value⟩ :: rest))[j]? = some (Slot.used key v) := by
    rw [slots_getElem?, List.getElem?_append_left hlt, ← slots_getElem?, hj]
  have hnew : (slots (done ++ ⟨some key, value⟩ :: rest))[done.length]? =
      some (Slot.used key value) := by
    rw [slots_getElem?, List.getElem?_append_right (Nat.le_refl _)]
    simp
  have := h j done.length key v value hj' hnew
  omega

/-- The bindings of the entries so far, with one more. -/
theorem holds_append {done : List Entry} {key : Bytes} {value : Value}
    {m : Bytes → Option Value} (hm : Holds (slots done) m) (habs : Absent (slots done) key) :
    Holds (slots (done ++ [⟨some key, value⟩])) (Function.update m key (some value)) := by
  rw [holds_iff_mem] at hm ⊢
  intro k v
  have hmem : Slot.used k v ∈ slots (done ++ [⟨some key, value⟩]) ↔
      Slot.used k v ∈ slots done ∨ k = key ∧ v = value := by
    simp [slots]
  rw [hmem]
  by_cases hk : k = key
  · subst hk
    rw [Function.update_self]
    constructor
    · intro h
      exact .inr ⟨rfl, (Option.some.inj h).symm⟩
    · rintro (h | ⟨-, rfl⟩)
      · obtain ⟨j, hj⟩ := List.mem_iff_getElem?.mp h
        exact absurd hj (habs j v)
      · rfl
  · rw [Function.update_of_ne hk, hm k v]
    constructor
    · exact .inl
    · rintro (h | ⟨h, -⟩)
      · exact h
      · exact absurd h hk

theorem holds_append_free {done : List Entry} {e : Entry} {m : Bytes → Option Value}
    (hm : Holds (slots done) m) (he : e.key = none) : Holds (slots (done ++ [e])) m := by
  rw [holds_iff_mem] at hm ⊢
  intro k v
  rw [hm k v]
  obtain ⟨ek, ev⟩ := e
  cases he
  by_cases hv : ev = .nil <;> simp [slots, Entry.slot, hv]

theorem Rehashed.entry {capacity : Nat} {done rest : List Entry} {dest : List Entry × Nat}
    {e : Entry} (h : Rehashed hash capacity done dest)
    (hd : DistinctKeys (slots (done ++ e :: rest)))
    (hc : filled (slots (done ++ e :: rest)) < capacity) :
    ∃ dest', rehashEntry hash dest e = some dest' ∧ Rehashed hash capacity (done ++ [e]) dest' := by
  obtain ⟨ek, ev⟩ := e
  obtain ⟨m, hm, hmd⟩ := h.holds
  have hbound := h.bound
  cases ek with
  | none =>
    refine ⟨dest, rfl, h.length, h.valid, h.clean, h.count, ?_, m, hm, holds_append_free hmd rfl⟩
    rw [filled_append_singleton]
    omega
  | some key =>
    have hlen := h.length
    have hcount := h.count
    have habs := hd.absent
    have hfilled : filled (slots (done ++ ⟨some key, ev⟩ :: rest)) =
        filled (slots done) + (filled (slots rest) + 1) := by
      simp [filled, slots, List.countP_append, List.countP_cons, Slot.isFilled]
    have hempty : Slot.empty ∈ slots dest.1 := exists_empty (by rw [slots_length]; omega)
    have hvalid := h.valid
    rw [← hlen] at hvalid
    obtain ⟨i, hi, hf⟩ := findEntry_spec key hvalid hempty
    obtain ⟨entry, he, hcase⟩ := Found.entry hm hf
    have hmk : m key = none := hmd.get_absent habs
    have hplace : (slots dest.1)[i]? = some Slot.empty := by
      cases hf with
      | present v hv =>
        rw [hm.get hv] at hmk
        cases hmk
      | absent hp _ =>
        obtain hfree | hfree := hp.free
        · exact hfree
        · exact absurd (List.mem_of_getElem? hfree) h.clean
    refine ⟨(dest.1.set i ⟨some key, ev⟩, dest.2 + 1), by simp [rehashEntry, hi], ?_⟩
    constructor
    · simpa using hlen
    · rw [slots_set, Entry.slot_used, ← hlen]
      exact hvalid.put hf ev
    · rw [slots_set, Entry.slot_used]
      intro hmem
      obtain hmem | hmem := List.mem_or_eq_of_mem_set hmem
      · exact h.clean hmem
      · cases hmem
    · have hset := filled_set (t := Slot.used key ev) hplace
      simp only [Slot.isFilled, Bool.false_eq_true, ↓reduceIte] at hset
      rw [slots_set, Entry.slot_used]
      dsimp only
      omega
    · rw [filled_append_singleton]
      simp only [Entry.slot_used, Slot.isFilled, ↓reduceIte]
      omega
    · refine ⟨Function.update m key (some ev), ?_, holds_append hmd habs⟩
      rw [slots_set, Entry.slot_used]
      exact hm.put hvalid hf ev

theorem Rehashed.all {capacity : Nat} {done rest : List Entry} {dest : List Entry × Nat}
    (h : Rehashed hash capacity done dest) (hd : DistinctKeys (slots (done ++ rest)))
    (hc : filled (slots (done ++ rest)) < capacity) :
    ∃ dest', rest.foldlM (rehashEntry hash) dest = some dest' ∧
      Rehashed hash capacity (done ++ rest) dest' := by
  induction rest generalizing done dest with
  | nil => exact ⟨dest, rfl, by rwa [List.append_nil]⟩
  | cons e rest ih =>
    obtain ⟨dest₁, h₁, hr₁⟩ := h.entry hd hc
    have happend : done ++ e :: rest = done ++ [e] ++ rest := by simp
    rw [happend] at hd hc
    obtain ⟨dest₂, h₂, hr₂⟩ := ih hr₁ hd hc
    exact ⟨dest₂, by simp [List.foldlM_cons, h₁, h₂], by rwa [happend]⟩

theorem adjustCapacity_spec (capacity : Nat) (h : t.Represents hash m)
    (hc : t.count < capacity) :
    ∃ t', adjustCapacity hash t capacity = some t' ∧ t'.count ≤ t.count ∧
      t'.capacity = capacity ∧ t'.version = t.version ∧ t'.array = t.array ∧
      t'.arrayMax = t.arrayMax ∧ Valid (start hash capacity) (slots t'.entries) ∧
      Holds (slots t'.entries) m ∧ t'.count = filled (slots t'.entries) := by
  have hslots : slots (List.replicate capacity ⟨none, .nil⟩) =
      List.replicate capacity (Slot.empty : Slot Bytes Value) := by
    simp [slots, Entry.slot]
  have h0 : Rehashed hash capacity [] (List.replicate capacity ⟨none, .nil⟩, 0) := by
    constructor
    · simp
    · rw [hslots]
      exact valid_replicate capacity
    · simp [hslots]
    · rw [hslots, filled_replicate]
    · exact Nat.zero_le _
    · refine ⟨fun _ => none, ?_, holds_replicate 0⟩
      rw [hslots]
      exact holds_replicate capacity
  have hd : DistinctKeys (slots ([] ++ t.entries)) := h.valid.unique
  have hcount := h.count
  obtain ⟨⟨entries, count⟩, hr, hre⟩ := h0.all hd (by rw [List.nil_append]; omega)
  obtain ⟨m', hm', hmd⟩ := hre.holds
  have hmm : m' = m := by
    funext key
    apply Option.ext
    intro v
    rw [hmd key v]
    exact (h.holds key v).symm
  refine ⟨{ t with entries, count }, by simp [adjustCapacity, hr], ?_, hre.length, rfl, rfl, rfl,
    hre.valid, hmm ▸ hm', hre.count⟩
  have hbound := hre.bound
  rw [List.nil_append] at hbound
  dsimp only at hbound ⊢
  omega

theorem growTable_spec (h : t.Represents hash m) :
    ∃ t', growTable hash t = some t' ∧ t'.Represents hash m ∧ 0 < t'.capacity ∧
      4 * (t'.count + 1) ≤ 3 * t'.capacity ∧ t'.version = t.version ∧ t'.array = t.array ∧
      t'.arrayMax = t.arrayMax := by
  have hload := h.load
  unfold growTable
  split
  next hgrow =>
    obtain ⟨t', ht', hle, hcap, hver, harr, hmax, hv, hh, hcount⟩ :=
      adjustCapacity_spec (if t.capacity < 8 then 8 else t.capacity * 2) h
        (by split <;> omega)
    have hroom : 4 * (t'.count + 1) ≤ 3 * t'.capacity := by
      rw [hcap]
      split <;> omega
    refine ⟨t', ht', ⟨hcap ▸ hv, hh, hcount, by omega⟩, by omega, hroom, hver, harr, hmax⟩
  next hgrow => exact ⟨t, rfl, h, by omega, by omega, rfl, rfl, rfl⟩

theorem tableSet_spec (h : t.Represents hash m) (key : Bytes) (value : Value) :
    ∃ t', tableSet hash t key value = some (t', (m key).isNone) ∧
      t'.Represents hash (Function.update m key (some value)) ∧
      t'.version = t.version + 1 ∧ t'.array = t.array ∧ t'.arrayMax = t.arrayMax := by
  obtain ⟨t₁, ht₁, h₁, hpos, hroom, hver, harr, hmax⟩ := growTable_spec h
  obtain ⟨i, entry, hi, he, hf, hcase⟩ := h₁.find hpos key
  have hload := h₁.load
  have hslot : (slots t₁.entries)[i]? = some entry.slot := by rw [slots_getElem?, he]; rfl
  have hfilled := filled_set (t := Slot.used key value) hslot
  have hcount := h₁.count
  have hvalid := h₁.valid.put hf value
  have hholds := h₁.holds.put h₁.valid hf value
  rw [← Entry.slot_used, ← slots_set] at hfilled hvalid hholds
  have hcap : (t₁.entries.set i ⟨some key, value⟩).length = t₁.capacity := by
    rw [List.length_set]
    rfl
  let count := if entry.key = none ∧ entry.value = .nil then t₁.count + 1 else t₁.count
  have hcount' : count = filled (slots (t₁.entries.set i ⟨some key, value⟩)) ∧
      count ≤ t₁.count + 1 := by
    obtain ⟨ek, ev⟩ := entry
    cases ek with
    | some k =>
      simp only [Entry.slot_used, Slot.isFilled, ↓reduceIte] at hfilled
      simp only [count, reduceCtorEq, false_and, ↓reduceIte]
      omega
    | none =>
      by_cases hv : ev = .nil
      · simp only [hv, Entry.slot, Slot.isFilled, Bool.false_eq_true, ↓reduceIte] at hfilled
        simp only [count, hv, and_self, ↓reduceIte]
        omega
      · simp only [hv, Entry.slot, Slot.isFilled, ↓reduceIte] at hfilled
        simp only [count, hv, and_false, ↓reduceIte]
        omega
  have hnew : decide (entry.key = none) = (m key).isNone := by
    obtain ⟨hentry, hmk⟩ | ⟨hentry, hmk⟩ := hcase
    · rw [hentry]
      simp [hmk]
    · simp [hentry, hmk]
  refine ⟨{ t₁ with
      count
      entries := t₁.entries.set i ⟨some key, value⟩
      version := t₁.version + 1 }, ?_, ?_, ?_, harr, hmax⟩
  · simp [tableSet, ht₁, hi, he, hnew, count]
  · refine ⟨?_, hholds, hcount'.1, ?_⟩
    · rw [Table.capacity, hcap]
      exact hvalid
    · rw [Table.capacity, hcap]
      dsimp only
      omega
  · rw [hver]

theorem tableDelete_spec (h : t.Represents hash m) (key : Bytes) :
    ∃ t', tableDelete hash t key = some (t', (m key).isSome) ∧
      t'.Represents hash (Function.update m key none) ∧ t'.array = t.array ∧
      t'.arrayMax = t.arrayMax ∧ (t' = t ∧ m key = none ∨ t'.version = t.version + 1) := by
  have hsame (hmk : m key = none) : Function.update m key none = m := by
    rw [← hmk, Function.update_eq_self]
  unfold tableDelete
  split
  next hc =>
    have hmk := h.get_eq_none hc key
    exact ⟨t, by rw [hmk]; rfl, (hsame hmk).symm ▸ h, rfl, rfl, .inl ⟨rfl, hmk⟩⟩
  next hc =>
    obtain ⟨i, entry, hi, he, hf, hcase⟩ := h.find (h.capacity_pos hc) key
    obtain ⟨hentry, hmk⟩ | ⟨hentry, hmk⟩ := hcase
    · have hslot : (slots t.entries)[i]? = some (Slot.used key entry.value) := by
        rw [slots_getElem?, he, hentry]
        rfl
      have hfilled := filled_set (t := (Slot.deleted : Slot Bytes Value)) hslot
      have hvalid := h.valid.remove (i := i)
      have hholds := h.holds.remove h.valid hslot
      rw [← Entry.slot_tombstone, ← slots_set] at hfilled hvalid hholds
      have hcap : (t.entries.set i ⟨none, .bool true⟩).length = t.capacity := by
        rw [List.length_set]
        rfl
      have hcount := h.count
      have hload := h.load
      refine ⟨{ t with
          entries := t.entries.set i ⟨none, .bool true⟩
          version := t.version + 1 }, ?_, ⟨?_, hholds, ?_, ?_⟩, rfl, rfl, .inr rfl⟩
      · rw [hentry] at he
        simp [hi, he, hmk]
      · rw [Table.capacity, hcap]
        exact hvalid
      · simp only [Entry.slot_tombstone, Slot.isFilled, ↓reduceIte] at hfilled ⊢
        rw [hcount]
        simpa using hfilled.symm
      · rw [Table.capacity, hcap]
        exact hload
    · exact ⟨t, by simp [hi, he, hentry, hmk], (hsame hmk).symm ▸ h, rfl, rfl, .inl ⟨rfl, hmk⟩⟩

/-- No slot of the hash part is a tombstone. -/
def Table.Clean (t : Table) : Prop := Slot.deleted ∉ slots t.entries

theorem clean_set {es : List Entry} {key : Bytes} {value : Value} {i : Nat}
    (h : Slot.deleted ∉ slots es) : Slot.deleted ∉ slots (es.set i ⟨some key, value⟩) := by
  rw [slots_set, Entry.slot_used]
  intro hmem
  obtain hmem | hmem := List.mem_or_eq_of_mem_set hmem
  · exact h hmem
  · cases hmem

theorem rehashEntry_clean {dest dest' : List Entry × Nat} {e : Entry}
    (h : Slot.deleted ∉ slots dest.1) (hr : rehashEntry hash dest e = some dest') :
    Slot.deleted ∉ slots dest'.1 := by
  unfold rehashEntry at hr
  split at hr
  next =>
    cases Option.some.inj hr
    exact h
  next key hkey =>
    obtain ⟨i, hi, hr⟩ := Option.bind_eq_some_iff.mp hr
    cases Option.some.inj hr
    exact clean_set h

theorem rehash_clean {es : List Entry} {dest dest' : List Entry × Nat}
    (h : Slot.deleted ∉ slots dest.1) (hr : es.foldlM (rehashEntry hash) dest = some dest') :
    Slot.deleted ∉ slots dest'.1 := by
  induction es generalizing dest with
  | nil =>
    cases Option.some.inj hr
    exact h
  | cons e es ih =>
    obtain ⟨d, hd, hr⟩ := Option.bind_eq_some_iff.mp hr
    exact ih (rehashEntry_clean h hd) hr

theorem growTable_clean (hc : t.Clean) (hg : growTable hash t = some t') : t'.Clean := by
  unfold growTable at hg
  split at hg
  next =>
    obtain ⟨⟨entries, count⟩, hr, hg⟩ := Option.bind_eq_some_iff.mp hg
    cases Option.some.inj hg
    refine rehash_clean ?_ hr
    simp [slots, Entry.slot]
  next =>
    cases Option.some.inj hg
    exact hc

/-- A write makes no tombstone. -/
theorem tableSet_clean {value : Value} {isNewKey : Bool} (hc : t.Clean)
    (hs : tableSet hash t key value = some (t', isNewKey)) : t'.Clean := by
  obtain ⟨t₁, hg, hs⟩ := Option.bind_eq_some_iff.mp hs
  obtain ⟨i, hi, hs⟩ := Option.bind_eq_some_iff.mp hs
  obtain ⟨e, he, hs⟩ := Option.bind_eq_some_iff.mp hs
  cases Option.some.inj hs
  exact clean_set (growTable_clean hc hg)

/-- Without tombstones `count` is the number of keys. -/
theorem Table.Represents.count_eq_encard (h : t.Represents hash m) (hc : t.Clean) :
    (t.count : ℕ∞) = {key | m key ≠ none}.encard := by
  rw [h.count]
  exact h.valid.filled_eq_encard h.holds hc

/-- A deletion leaves `count`. -/
theorem tableDelete_count {found : Bool} (hs : tableDelete hash t key = some (t', found)) :
    t'.count = t.count := by
  unfold tableDelete at hs
  split at hs
  next =>
    cases Option.some.inj hs
    rfl
  next =>
    obtain ⟨i, hi, hs⟩ := Option.bind_eq_some_iff.mp hs
    obtain ⟨e, he, hs⟩ := Option.bind_eq_some_iff.mp hs
    have hs := Option.some.inj hs
    split at hs
    · cases hs
      rfl
    · cases hs
      rfl

theorem tableDelete_missing (h : t.Represents hash m) (hk : m key = none) :
    tableDelete hash t key = some (t, false) := by
  unfold tableDelete
  split
  next => rfl
  next hc =>
    obtain ⟨i, entry, hi, he, -, ⟨-, hmk⟩ | ⟨hentry, -⟩⟩ := h.find (h.capacity_pos hc) key
    · rw [hk] at hmk
      cases hmk
    · simp [hi, he, hentry]

/-- The bindings of one table over those of another. -/
def override (m n : Bytes → Option Value) (key : Bytes) : Option Value := m key <|> n key

theorem addEntry_spec {done : List Entry} {e : Entry} {rest : List Entry}
    {md : Bytes → Option Value} (hd : DistinctKeys (slots (done ++ e :: rest)))
    (hmd : Holds (slots done) md) (h : t.Represents hash (override md m)) :
    ∃ t' md', addEntry hash t e = some t' ∧ Holds (slots (done ++ [e])) md' ∧
      t'.Represents hash (override md' m) := by
  obtain ⟨ek, ev⟩ := e
  cases ek with
  | none => exact ⟨t, md, rfl, holds_append_free hmd rfl, h⟩
  | some key =>
    obtain ⟨t', ht', h', -⟩ := tableSet_spec h key ev
    refine ⟨t', Function.update md key (some ev), by simp [addEntry, ht'],
      holds_append hmd hd.absent, ?_⟩
    have heq : override (Function.update md key (some ev)) m =
        Function.update (override md m) key (some ev) := by
      funext k
      by_cases hk : k = key
      · subst hk
        simp [override]
      · simp [override, hk]
    rw [heq]
    exact h'

theorem addEntries_spec {done rest : List Entry} {md : Bytes → Option Value}
    (hd : DistinctKeys (slots (done ++ rest))) (hmd : Holds (slots done) md)
    (h : t.Represents hash (override md m)) :
    ∃ t' md', rest.foldlM (addEntry hash) t = some t' ∧ Holds (slots (done ++ rest)) md' ∧
      t'.Represents hash (override md' m) := by
  induction rest generalizing done t md with
  | nil => exact ⟨t, md, rfl, by rwa [List.append_nil], h⟩
  | cons e rest ih =>
    obtain ⟨t₁, md₁, h₁, hmd₁, hr₁⟩ := addEntry_spec hd hmd h
    have happend : done ++ e :: rest = done ++ [e] ++ rest := by simp
    rw [happend] at hd
    obtain ⟨t₂, md₂, h₂, hmd₂, hr₂⟩ := ih hd hmd₁ hr₁
    exact ⟨t₂, md₂, by simp [List.foldlM_cons, h₁, h₂], by rwa [happend], hr₂⟩

theorem tableAddAll_spec {f : Table} {mf : Bytes → Option Value} (hf : f.Represents hash mf)
    (h : t.Represents hash m) :
    ∃ t', tableAddAll hash f t = some t' ∧ t'.Represents hash (override mf m) := by
  have hd : DistinctKeys (slots ([] ++ f.entries)) := hf.valid.unique
  have h0 : t.Represents hash (override (fun _ => none) m) := h
  obtain ⟨t', md, ht', hmd, hr⟩ := addEntries_spec hd (holds_replicate 0) h0
  have hmm : md = mf := by
    funext key
    apply Option.ext
    intro v
    rw [hmd key v]
    exact (hf.holds key v).symm
  exact ⟨t', ht', hmm ▸ hr⟩

/-- The tables that `init_table` and any sequence of `table_set`, `table_delete` and
`table_add_all` lead to, with the bindings made so. -/
inductive Built (hash : Bytes → UInt32) : Table → (Bytes → Option Value) → Prop
  | init : Built hash initTable fun _ => none
  | set {t t' : Table} {m : Bytes → Option Value} {key : Bytes} {value : Value} {isNewKey : Bool}
      (h : Built hash t m) (hs : tableSet hash t key value = some (t', isNewKey)) :
      Built hash t' (Function.update m key (some value))
  | delete {t t' : Table} {m : Bytes → Option Value} {key : Bytes} {found : Bool}
      (h : Built hash t m) (hs : tableDelete hash t key = some (t', found)) :
      Built hash t' (Function.update m key none)
  | addAll {f t t' : Table} {mf m : Bytes → Option Value} (hf : Built hash f mf)
      (h : Built hash t m) (hs : tableAddAll hash f t = some t') : Built hash t' (override mf m)

theorem Built.represents (h : Built hash t m) : t.Represents hash m := by
  induction h with
  | init => exact initTable_represents
  | @set t t' m key value isNewKey h hs ih =>
    obtain ⟨t₁, ht₁, h₁, -⟩ := tableSet_spec ih key value
    rw [ht₁] at hs
    cases hs
    exact h₁
  | @delete t t' m key found h hs ih =>
    obtain ⟨t₁, ht₁, h₁, -⟩ := tableDelete_spec ih key
    rw [ht₁] at hs
    cases hs
    exact h₁
  | addAll hf h hs ihf ih =>
    obtain ⟨t₁, ht₁, h₁⟩ := tableAddAll_spec ihf ih
    rw [ht₁] at hs
    cases hs
    exact h₁

/-- A reachable table is a finite map from strings to values, and its probe loops end. -/
theorem built_refines_map (h : Built hash t m) :
    (∀ key, tableGet hash t key = some (m key)) ∧
    (∀ key, tableFindString hash t key (hash key) =
      some (if (m key).isSome then some key else none)) ∧
    (∀ key value, ∃ t', tableSet hash t key value = some (t', (m key).isNone)) ∧
    (∀ key, ∃ t', tableDelete hash t key = some (t', (m key).isSome)) ∧
    (∀ f mf, Built hash f mf → ∃ t', tableAddAll hash f t = some t') ∧
    (0 < t.capacity → (∃ i : Nat, t.entries[i]? = some ⟨none, .nil⟩) ∧
      ∀ key, ∃ i, findEntry hash t.entries key = some i ∧ i < t.capacity) := by
  have hr := h.represents
  refine ⟨tableGet_eq hr, tableFindString_eq hr, fun key value => ?_, fun key => ?_,
    fun f mf hf => ?_, fun hc => ⟨?_, fun key => ?_⟩⟩
  · obtain ⟨t', ht', -⟩ := tableSet_spec hr key value
    exact ⟨t', ht'⟩
  · obtain ⟨t', ht', -⟩ := tableDelete_spec hr key
    exact ⟨t', ht'⟩
  · obtain ⟨t', ht', -⟩ := tableAddAll_spec hf.represents hr
    exact ⟨t', ht'⟩
  · obtain ⟨i, hi⟩ := List.mem_iff_getElem?.mp (hr.empty_mem hc)
    rw [slots_getElem?] at hi
    obtain ⟨e, he, hes⟩ := Option.map_eq_some_iff.mp hi
    exact ⟨i, by rw [he, Entry.slot_eq_empty hes]⟩
  · obtain ⟨i, entry, hi, he, -⟩ := hr.find hc key
    exact ⟨i, hi, (List.getElem?_eq_some_iff.mp he).1⟩

end Hash

/-- Two keys of one hash value: the second keeps its slot when the first is deleted. -/
theorem built_refines_map_collision :
    let t : Table := ⟨2, List.replicate 3 ⟨none, .nil⟩ ++ ⟨none, .bool true⟩ ::
      ⟨some [98], .bool false⟩ :: List.replicate 3 ⟨none, .nil⟩, 4, [], 0⟩
    tableGet (fun _ => 3) t [98] = some (some (.bool false)) ∧
      tableFindString (fun _ => 3) t [97] 3 = some none := by
  have h₁ := Built.set Built.init
    (show tableSet (fun _ => 3) initTable [97] (.bool true) = some (_, _) from rfl)
  have h₂ := Built.set h₁ (show tableSet (fun _ => 3) _ [98] .nil = some (_, _) from rfl)
  have h₃ := Built.delete h₂ (show tableDelete (fun _ => 3) _ [97] = some (_, _) from rfl)
  have h₄ := Built.set h₃ (show tableSet (fun _ => 3) _ [98] (.bool false) = some (_, _) from rfl)
  have h := built_refines_map h₄
  exact ⟨h.1 [98], h.2.1 [97]⟩

end ToiLang
