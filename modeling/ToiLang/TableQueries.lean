import ToiLang.Operators
import ToiLang.Strings.Split
import ToiLang.TableIterate

namespace ToiLang

open Strings (elementsFrom joinElements concatElements elementsFrom_eq)

/-! The functions that go over a whole table, and when they show what was written to it. -/

/-- The table that the loops of `table.keys` and `table.values` fill. -/
def arrayOf (values : List Value) : Table :=
  (values.foldl (fun (acc : Table × Nat) value =>
    ((tableSetArray acc.1 (acc.2 : Int) value).getD acc.1, acc.2 + 1)) (initTable, 1)).1

/-- The pairs that the two loops of `table.keys` and `table.values` meet. -/
def queryItems (t : Table) : List (Value × Value) :=
  (hashItems t.entries).filter (fun item => item.2 ≠ .nil) ++
    (concatElements t).zipIdx.map fun item => (.number (Double.ofNat (item.2 + 1)), item.1)

def tableKeys (t : Table) : Table := arrayOf ((queryItems t).map Prod.fst)

def tableValues (t : Table) : Table := arrayOf ((queryItems t).map Prod.snd)

/-- The loop of `table.find_index` over the elements from index `i` on; a lookup gives nothing when
it raises. -/
def findIn (lookup : Value → Option Value) (needle : Value) : List Value → Nat → Option Nat
  | [], _ => some 0
  | value :: values, i => do
    let candidate ← lookup value
    if valuesEqualSimple candidate needle then some i else findIn lookup needle values (i + 1)

/-- The elements that `table.find_index` meets from an index on. -/
def findElements (t : Table) (start : Nat) : List Value := elementsFrom (tableGetArray t) t.arrayCapacity start

/-- `table.find_index`: 0 when nothing is found, and a start below 1 is 1. -/
def tableFindIndex (t : Table) (needle : Value) (start : Int) (lookup : Option (Value → Option Value)) :
    Option Nat :=
  let start := (max 1 start).toNat
  findIn (lookup.getD some) needle (findElements t start) start

namespace Host

variable (H : Host)

/-- The key that an operation means: a negative index counts from the end. -/
def meant (t : Table) : Key → KeyId
  | .string key => .string (H.chars key)
  | .number num =>
    match arrayIndex t num with
    | some index => if 1 ≤ index then .number (Double.ofNat index.toNat) else .number num.normalize
    | none => .number num.normalize

end Host

/-- The map after an operation on a table. -/
def TableOp.recordMeant (H : Host) (t : Table) (m : KeyId → Value) : TableOp → KeyId → Value
  | get .. => m
  | set key value => Function.update m (H.meant t key) value
  | delete key => Function.update m (H.meant t key) .nil

/-- The string that the hash part has for an index. -/
def indexString (i : Nat) : KeyId := .string (numberKeyString (Double.ofInt64 (i : Int)))

/-- What leaves the queries right on a sequence of `n` elements: a string gets a value other than nil and
is not the hidden form of the next index, a number is written to the array part without a hole in the
sequence, and no number is deleted that is a string in the hash part. -/
def TableOp.KeepsQueries (H : Host) (t : Table) (m : KeyId → Value) : TableOp → Prop
  | get .. => True
  | set (.string obj) value => value ≠ .nil ∧ .string (H.chars obj) ≠ indexString (t.sequenceLength + 1)
  | set (.number num) value =>
    ∃ i : Nat, Host.arrayIndex t num = some ((i + 1 : Nat) : Int) ∧ t.takes ((i + 1 : Nat) : Int) = true ∧
      if value = .nil then
        t.sequenceLength ≤ i ∨ i + 1 = t.sequenceLength ∧ m (indexString t.sequenceLength) = .nil
      else
        i < t.sequenceLength ∨ i = t.sequenceLength ∧ m (indexString (t.sequenceLength + 2)) = .nil
  | delete (.string _) => True
  | delete (.number num) =>
    match (Host.arrayIndex t num).filter fun index => (tableGetArray t index).isSome with
    | some index => index = t.sequenceLength ∧ m (indexString t.sequenceLength) = .nil
    | none => m (.string (H.numberKeyString num)) = .nil

/-- The runs of such operations on a new table, with the map of the latest writes. -/
inductive QueryRun (H : Host) : TableObject → (KeyId → Value) → Prop
  | start : QueryRun H newTable fun _ => .nil
  | step {o o' : TableObject} {m : KeyId → Value} {op : TableOp} {v : Value}
      (hr : QueryRun H o m) (hk : op.KeepsQueries H o.table m) (he : H.exec o op = some (o', v)) :
      QueryRun H o' (op.recordMeant H o.table m)

/-- The elements at 1, 2, … up to the first that is nil. -/
structure IsSequence (m : KeyId → Value) (values : List Value) : Prop where
  at_index : ∀ i, i ≤ values.length → m (.number (Double.ofNat (i + 1))) = values.getD i .nil
  ne_nil : ∀ v ∈ values, v ≠ .nil

/-- The queries show a map: `table.keys` and `table.values` its keys and values, `has` and `in` its values,
`table.concat`, `string.join` and `table.find_index` its sequence. -/
structure ShowsMap (hash : Bytes → UInt32) (t : Table) (m : KeyId → Value) : Prop where
  keys : ∃ ids : List KeyId, ids.Nodup ∧ (∀ id, id ∈ ids ↔ m id ≠ .nil) ∧
    (tableKeys t).Lists (ids.map KeyId.value) ∧ (tableValues t).Lists (ids.map m)
  has : ∀ (method : Value → Value) (tables : Nat → Table) (a : Nat) (v : Value), tables a = t →
    method (.table a) = .nil → method v = .nil →
    ∃ b, vmHandleOpHas method tables (.table a) v = .value b ∧ vmHandleOpIn method tables v (.table a) = .value b ∧
      (b = true ↔ ∃ id, m id ≠ .nil ∧ valuesEqualSimple (m id) v = true)
  elements : ∃ values, IsSequence m values ∧ concatElements t = values ∧ joinElements hash t = values ∧
    ∀ i, findElements t (i + 1) = values.drop i

section Array

variable {t : Table} {values : List Value}

theorem arrayOf_fold {rest done : List Value} {r : Table} (hr : r.Lists done) (hb : r.Bounded)
    (hdone : ∀ v ∈ done, v ≠ .nil) (hrest : ∀ v ∈ rest, v ≠ .nil) :
    (rest.foldl (fun (acc : Table × Nat) value =>
      ((tableSetArray acc.1 (acc.2 : Int) value).getD acc.1, acc.2 + 1)) (r, done.length + 1)).1.Lists
        (done ++ rest) := by
  induction rest generalizing done r with
  | nil =>
    rw [List.append_nil]
    exact hr
  | cons v rest ih =>
    have hv := hrest v List.mem_cons_self
    obtain ⟨u, hu, hlists, hbu⟩ := hr.setArray hb hdone hv
    have hdone' : ∀ x ∈ done ++ [v], x ≠ .nil := by
      intro x hx
      rcases List.mem_append.mp hx with hx | hx
      · exact hdone x hx
      · rwa [List.mem_singleton.mp hx]
    have hnext := ih hlists hbu hdone' fun x hx => hrest x (List.mem_cons_of_mem _ hx)
    rw [List.length_append, List.length_singleton, List.append_assoc] at hnext
    rw [List.foldl_cons]
    dsimp only
    rw [hu, Option.getD_some]
    exact hnext

theorem arrayOf_lists (h : ∀ v ∈ values, v ≠ .nil) : (arrayOf values).Lists values := by
  have hbounded : initTable.Bounded := fun i hi => absurd rfl hi
  exact @arrayOf_fold values [] initTable initTable_lists hbounded (fun v hv => nomatch hv) h

/-- The elements in front of the first place without a value. -/
def sequenceOf (t : Table) : List Value := (List.range t.sequenceLength).map t.slot

theorem sequenceOf_length : (sequenceOf t).length = t.sequenceLength := by
  rw [sequenceOf, List.length_map, List.length_range]

theorem sequenceOf_getElem? (i : Nat) :
    (sequenceOf t)[i]? = if i < t.sequenceLength then some (t.slot i) else none := by
  unfold sequenceOf
  rw [List.getElem?_map]
  split_ifs with hi
  · rw [List.getElem?_range hi, Option.map_some]
  · rw [List.getElem?_eq_none (by rw [List.length_range]; omega), Option.map_none]

theorem sequenceOf_ne_nil : ∀ v ∈ sequenceOf t, v ≠ .nil := by
  intro v hv
  obtain ⟨i, hi, rfl⟩ := List.mem_map.mp hv
  exact (sequenceLength_spec t).2.1 i (List.mem_range.mp hi)

end Array

section Kept

variable {H : Host} {o o' : TableObject} {t t' : Table} {m : KeyId → Value} {h : Bytes → Option Value}
  {values : List Value}

/-- The strings are in the hash part, the numbers in the array part in front of its first hole, and the
hash part has nothing in the place of the next number. -/
structure Kept (H : Host) (t : Table) (m : KeyId → Value) (h : Bytes → Option Value) : Prop where
  iterable : Iterable H t h
  bounded : t.Bounded
  strings : ∀ s v, h s = some v ↔ m (.string s) = v ∧ v ≠ .nil
  numbers : ∀ x, m (.number x) = t.arrayValue (.number x)
  dense : ∀ i, t.sequenceLength ≤ i → t.slot i = .nil
  unhidden : m (indexString (t.sequenceLength + 1)) = .nil

theorem sequenceLength_unique {n : Nat} (hvalues : ∀ i < n, t.slot i ≠ .nil) (hend : t.slot n = .nil) :
    t.sequenceLength = n := by
  obtain ⟨-, hv, hfree⟩ := sequenceLength_spec t
  rcases Nat.lt_trichotomy t.sequenceLength n with hlt | heq | hgt
  · exact absurd hfree (hvalues _ hlt)
  · exact heq
  · exact absurd hend (hv n hgt)

theorem sequenceLength_of_slot (hslot : ∀ i, t'.slot i = t.slot i) : t'.sequenceLength = t.sequenceLength := by
  obtain ⟨-, hv, hfree⟩ := sequenceLength_spec t
  refine sequenceLength_unique (fun i hi => ?_) ?_
  · rw [hslot]
    exact hv i hi
  · rw [hslot]
    exact hfree

/-- A place behind the integers of a key has no value. -/
theorem Iterable.arrayValue_ofNat (hi : Iterable H t h) {i : Nat} (hlt : i + 1 < 2 ^ 53) :
    t.arrayValue (.number (Double.ofNat (i + 1))) = t.slot i := by
  by_cases hsmall : i + 1 < 2 ^ 31
  · rw [Table.arrayValue, place_ofNat hsmall]
  · have hslot : t.slot i = .nil := by
      by_contra hne
      exact hsmall (hi.placed i hne)
    rw [hslot]
    by_contra hne
    obtain ⟨j, hp, -⟩ := arrayValue_ne_nil_iff.mp hne
    obtain ⟨hj, heq⟩ := KeyId.eq_ofNat hp
    have htrunc := congrArg Double.truncate (KeyId.number.inj heq)
    rw [Double.truncate_ofNat (by omega) hlt, Double.truncate_ofNat (by omega) (by omega)] at htrunc
    omega

theorem Kept.length_lt (hk : Kept H t m h) : t.sequenceLength < 2 ^ 31 := by
  cases hn : t.sequenceLength with
  | zero => decide
  | succ n =>
    have hlast := (sequenceLength_spec t).2.1 n (by omega)
    exact hk.iterable.placed n hlast

theorem Kept.slot_iff (hk : Kept H t m h) (i : Nat) : t.slot i ≠ .nil ↔ i < t.sequenceLength := by
  constructor
  · intro hne
    by_contra hle
    exact hne (hk.dense i (by omega))
  · exact (sequenceLength_spec t).2.1 i

theorem Kept.getArray (hk : Kept H t m h) (i : Nat) :
    tableGetArray t ((i + 1 : Nat) : Int) = (sequenceOf t)[i]? := by
  rw [tableGetArray_succ, sequenceOf_getElem?]
  by_cases hi : i < t.sequenceLength
  · rw [if_pos hi, if_pos ((hk.slot_iff i).mpr hi)]
  · rw [if_neg hi, if_neg fun hne => hi ((hk.slot_iff i).mp hne)]

theorem sequenceLength_le : t.sequenceLength ≤ t.arrayCapacity := by
  by_contra hlt
  have hlast := (sequenceLength_spec t).2.1 (t.sequenceLength - 1) (by omega)
  exact hlast (slot_behind (by omega))

theorem Kept.findElements_eq (hk : Kept H t m h) (i : Nat) : findElements t (i + 1) = (sequenceOf t).drop i := by
  have hlen := @sequenceLength_le t
  have hfuel : (sequenceOf t).length ≤ t.arrayCapacity + i := by
    rw [sequenceOf_length]
    omega
  exact elementsFrom_eq hk.getArray hfuel

theorem Kept.concatElements_eq (hk : Kept H t m h) : concatElements t = sequenceOf t := by
  have hall := hk.findElements_eq 0
  rwa [List.drop_zero] at hall

/-- The hash part is not asked for an element, and has none behind the last. -/
theorem Kept.sliceElement_eq (hk : Kept H t m h) (i : Nat) (hi : i ≤ t.sequenceLength) :
    sliceElement H.hash t ((i + 1 : Nat) : Int) = (sequenceOf t)[i]? := by
  have h1 : ((i + 1 : Nat) : Int) ≥ 1 := by omega
  rw [sliceElement, if_pos h1, hk.getArray]
  cases hv : (sequenceOf t)[i]? with
  | some v => rfl
  | none =>
    have hlast : i = t.sequenceLength := by
      have hlen := List.getElem?_eq_none_iff.mp hv
      rw [sequenceOf_length] at hlen
      omega
    subst hlast
    have hnone : h (numberKeyString (Double.ofInt64 ((t.sequenceLength + 1 : Nat) : Int))) = none := by
      cases hw : h (numberKeyString (Double.ofInt64 ((t.sequenceLength + 1 : Nat) : Int))) with
      | none => rfl
      | some w =>
        obtain ⟨hm, hne⟩ := (hk.strings _ w).mp hw
        exact absurd (hm.symm.trans hk.unhidden) hne
    dsimp only
    rw [tableGet_eq hk.iterable.represents, hnone]

theorem elementsFrom_upTo {get : Int → Option Value} {fuel i : Nat}
    (hget : ∀ j ≤ values.length, get ((j + 1 : Nat) : Int) = values[j]?) (hfuel : values.length ≤ fuel + i)
    (hi : i ≤ values.length) : elementsFrom get fuel ((i + 1 : Nat) : Int) = values.drop i := by
  induction fuel generalizing i with
  | zero =>
    rw [List.drop_eq_nil_of_le (by omega)]
    rfl
  | succ fuel ih =>
    rw [elementsFrom, hget i hi]
    cases hv : values[i]? with
    | none => rw [List.drop_eq_nil_of_le (List.getElem?_eq_none_iff.mp hv)]
    | some v =>
      obtain ⟨hlt, rfl⟩ := List.getElem?_eq_some_iff.mp hv
      rw [List.drop_eq_getElem_cons hlt]
      exact congrArg (values[i] :: ·) (ih (by omega) (by omega))

theorem Kept.joinElements_eq (hk : Kept H t m h) : joinElements H.hash t = sequenceOf t := by
  have hlen := @sequenceLength_le t
  have hall : elementsFrom (sliceElement H.hash t) (t.arrayCapacity + t.capacity) ((0 + 1 : Nat) : Int) =
      (sequenceOf t).drop 0 := by
    refine elementsFrom_upTo (fun j hj => ?_) ?_ (Nat.zero_le _)
    · rw [sequenceOf_length] at hj
      exact hk.sliceElement_eq j hj
    · rw [sequenceOf_length]
      omega
  rwa [List.drop_zero] at hall

theorem Kept.isSequence (hk : Kept H t m h) : IsSequence m (sequenceOf t) := by
  have hlt := hk.length_lt
  refine ⟨fun i hi => ?_, sequenceOf_ne_nil⟩
  rw [sequenceOf_length] at hi
  rw [hk.numbers, hk.iterable.arrayValue_ofNat (by omega), List.getD_eq_getElem?_getD, sequenceOf_getElem?]
  split_ifs with hin
  · rfl
  · exact hk.dense i (by omega)

theorem mem_sequenceItems (k v : Value) :
    (k, v) ∈ (sequenceOf t).zipIdx.map (fun item => (Value.number (Double.ofNat (item.2 + 1)), item.1)) ↔
      ∃ i < t.sequenceLength, k = .number (Double.ofNat (i + 1)) ∧ t.slot i = v := by
  rw [List.mem_map]
  constructor
  · rintro ⟨⟨w, i⟩, hw, heq⟩
    rw [List.mem_zipIdx_iff_getElem?, sequenceOf_getElem?] at hw
    cases heq
    split_ifs at hw with hi
    exact ⟨i, hi, rfl, Option.some.inj hw⟩
  · rintro ⟨i, hi, rfl, rfl⟩
    refine ⟨(t.slot i, i), ?_, rfl⟩
    rw [List.mem_zipIdx_iff_getElem?, sequenceOf_getElem?, if_pos hi]

/-- The pairs that the loops meet are those of the map. -/
theorem Kept.mem_queryItems (hk : Kept H t m h) (k v : Value) :
    (k, v) ∈ queryItems t ↔ ∃ id : KeyId, k = id.value ∧ m id = v ∧ v ≠ .nil := by
  have hlt := hk.length_lt
  rw [queryItems, List.mem_append, List.mem_filter, mem_hashItems, hk.concatElements_eq, mem_sequenceItems]
  constructor
  · rintro (⟨⟨s, rfl, hs⟩, hne⟩ | ⟨i, hi, rfl, rfl⟩)
    · obtain ⟨hm, hv⟩ := (hk.strings s v).mp (hk.iterable.represents.mem_entries_iff.mp hs)
      exact ⟨.string s, rfl, hm, hv⟩
    · refine ⟨.number (Double.ofNat (i + 1)), rfl, ?_, (hk.slot_iff i).mpr hi⟩
      rw [hk.numbers, hk.iterable.arrayValue_ofNat (by omega)]
  · rintro ⟨id, rfl, hm, hne⟩
    cases id with
    | string s =>
      exact .inl ⟨⟨s, rfl, hk.iterable.represents.mem_entries_iff.mpr ((hk.strings s v).mpr ⟨hm, hne⟩)⟩, by simpa using hne⟩
    | number x =>
      rw [hk.numbers] at hm
      obtain ⟨i, hp, hslot⟩ := arrayValue_ne_nil_iff.mp (hm ▸ hne)
      obtain ⟨-, hx⟩ := KeyId.eq_ofNat hp
      cases hx
      refine .inr ⟨i, (hk.slot_iff i).mp hslot, rfl, ?_⟩
      rw [← hm, Table.arrayValue, hp]

theorem Kept.keys_nodup (hk : Kept H t m h) : ((queryItems t).map Prod.fst).Nodup := by
  rw [queryItems, List.map_append, List.nodup_append]
  refine ⟨?_, ?_, ?_⟩
  · exact hk.iterable.represents.unrepeated.nodup.sublist (List.filter_sublist.map Prod.fst)
  · have hlt := hk.length_lt
    have hnumbers : ((sequenceOf t).zipIdx.map fun item => (Value.number (Double.ofNat (item.2 + 1)), item.1)).map Prod.fst =
        ((sequenceOf t).zipIdx.map Prod.snd).map fun i => Value.number (Double.ofNat (i + 1)) := by
      rw [List.map_map, List.map_map]
      rfl
    rw [hk.concatElements_eq, hnumbers, List.zipIdx_map_snd, sequenceOf_length]
    refine List.Nodup.map_on (fun i hi j hj hij => ?_) List.nodup_range'
    have hi := (List.mem_range'_1.mp hi).2
    have hj := (List.mem_range'_1.mp hj).2
    have heq := ofNat_inj (by omega) (by omega) (by omega) (by omega) (Value.number.inj hij)
    omega
  · intro x hx y hy hxy
    obtain ⟨⟨k, v⟩, hkv, rfl⟩ := List.mem_map.mp hx
    obtain ⟨⟨k', v'⟩, hkv', rfl⟩ := List.mem_map.mp hy
    obtain ⟨s, rfl, -⟩ := mem_hashItems.mp (List.mem_filter.mp hkv).1
    obtain ⟨⟨w, i⟩, -, heq⟩ := List.mem_map.mp hkv'
    cases heq
    cases hxy

theorem tableContains_iff (hk : Kept H t m h) (v : Value) :
    tableContains t v = true ↔ ∃ id, m id ≠ .nil ∧ valuesEqualSimple (m id) v = true := by
  unfold tableContains
  rw [Bool.or_eq_true, List.any_eq_true, List.any_eq_true]
  constructor
  · rintro (⟨x, hx, hp⟩ | ⟨e, he, hp⟩)
    · obtain ⟨hne, heq⟩ := Bool.and_eq_true_iff.mp hp
      have hne := of_decide_eq_true hne
      obtain ⟨i, hi⟩ := List.mem_iff_getElem?.mp (List.mem_of_mem_take hx)
      have hslot : t.slot i = x := by
        rw [Table.slot, List.getD_eq_getElem?_getD, hi, Option.getD_some]
      have hplace := hk.iterable.placed i (hslot ▸ hne)
      refine ⟨.number (Double.ofNat (i + 1)), ?_, ?_⟩
      · rw [hk.numbers, hk.iterable.arrayValue_ofNat (by omega), hslot]
        exact hne
      · rw [hk.numbers, hk.iterable.arrayValue_ofNat (by omega), hslot]
        exact heq
    · obtain ⟨hkey, heq⟩ := Bool.and_eq_true_iff.mp hp
      obtain ⟨s, hs⟩ := Option.isSome_iff_exists.mp hkey
      have hmem : (⟨some s, e.value⟩ : Entry) ∈ t.entries := by
        rw [← hs]
        exact he
      obtain ⟨hm, hne⟩ := (hk.strings s _).mp (hk.iterable.represents.mem_entries_iff.mp hmem)
      exact ⟨.string s, by rwa [hm], by rwa [hm]⟩
  · rintro ⟨id, hne, heq⟩
    cases id with
    | string s =>
      have hmem := hk.iterable.represents.mem_entries_iff.mpr ((hk.strings s _).mpr ⟨rfl, hne⟩)
      exact .inr ⟨_, hmem, by simpa using heq⟩
    | number x =>
      rw [hk.numbers] at hne heq
      obtain ⟨i, hp, hslot⟩ := arrayValue_ne_nil_iff.mp hne
      have hval : t.arrayValue (.number x) = t.slot i := arrayValue_place hp
      have hmax := hk.bounded i hslot
      have hcap : i < t.arrayCapacity := by
        by_contra hle
        exact hslot (slot_behind (by omega))
      have hget : t.array[i]? = some (t.slot i) := by
        rw [Table.slot, List.getD_eq_getElem?_getD, List.getElem?_eq_getElem hcap, Option.getD_some]
      have hmem : t.slot i ∈ t.array.take (min t.arrayMax t.arrayCapacity) := by
        refine List.mem_of_getElem? (i := i) ?_
        rw [List.getElem?_take_of_lt (by omega), hget]
      refine .inl ⟨_, hmem, ?_⟩
      rw [hval] at heq
      exact Bool.and_eq_true_iff.mpr ⟨decide_eq_true hslot, heq⟩

/-- The key that a value of the loops is. -/
def keyOf : Value → KeyId
  | .string s => .string s
  | .number x => .number x
  | _ => .string []

theorem keyOf_value (id : KeyId) : keyOf id.value = id := by
  cases id with
  | string s => rfl
  | number x => rfl

theorem Kept.item_keyOf (hk : Kept H t m h) {item : Value × Value} (hitem : item ∈ queryItems t) :
    (keyOf item.1).value = item.1 ∧ m (keyOf item.1) = item.2 ∧ item.2 ≠ .nil := by
  obtain ⟨id, hid, hm, hne⟩ := (hk.mem_queryItems item.1 item.2).mp hitem
  rw [hid, keyOf_value]
  exact ⟨rfl, hm, hne⟩

theorem Kept.showsKeys (hk : Kept H t m h) : ∃ ids : List KeyId, ids.Nodup ∧ (∀ id, id ∈ ids ↔ m id ≠ .nil) ∧
    (tableKeys t).Lists (ids.map KeyId.value) ∧ (tableValues t).Lists (ids.map m) := by
  have hkeys : ((queryItems t).map fun item => keyOf item.1).map KeyId.value = (queryItems t).map Prod.fst := by
    rw [List.map_map]
    exact List.map_congr_left fun item hitem => (hk.item_keyOf hitem).1
  have hvalues : ((queryItems t).map fun item => keyOf item.1).map m = (queryItems t).map Prod.snd := by
    rw [List.map_map]
    exact List.map_congr_left fun item hitem => (hk.item_keyOf hitem).2.1
  refine ⟨(queryItems t).map fun item => keyOf item.1, ?_, fun id => ?_, ?_, ?_⟩
  · refine List.Nodup.of_map KeyId.value ?_
    rw [hkeys]
    exact hk.keys_nodup
  · rw [List.mem_map]
    constructor
    · rintro ⟨item, hitem, rfl⟩
      obtain ⟨-, hm, hne⟩ := hk.item_keyOf hitem
      rwa [hm]
    · intro hne
      exact ⟨(id.value, m id), (hk.mem_queryItems _ _).mpr ⟨id, rfl, rfl, hne⟩, keyOf_value id⟩
  · rw [hkeys]
    refine arrayOf_lists fun v hv => ?_
    obtain ⟨item, hitem, rfl⟩ := List.mem_map.mp hv
    rw [← (hk.item_keyOf hitem).1]
    cases keyOf item.1 with
    | string s => exact Value.noConfusion
    | number x => exact Value.noConfusion
  · rw [hvalues]
    refine arrayOf_lists fun v hv => ?_
    obtain ⟨item, hitem, rfl⟩ := List.mem_map.mp hv
    exact (hk.item_keyOf hitem).2.2

theorem Kept.showsMap (hk : Kept H t m h) : ShowsMap H.hash t m where
  keys := hk.showsKeys
  has := by
    intro method tables a v ht hmethod hv
    refine ⟨tableContains t v, ?_, ?_, tableContains_iff hk v⟩
    · rw [vmHandleOpHas, containsOperator]
      simp only [methodOf, hmethod, hv, ht, ↓reduceIte, ne_eq, not_true_eq_false]
    · rw [vmHandleOpIn, containsOperator]
      simp only [methodOf, hmethod, hv, ht, ↓reduceIte, ne_eq, not_true_eq_false]
  elements := ⟨sequenceOf t, hk.isSequence, hk.concatElements_eq, hk.joinElements_eq, hk.findElements_eq⟩

theorem newTable_kept : Kept H newTable.table (fun _ => .nil) fun _ => none where
  iterable := ⟨initTable_represents, fun i hi => absurd rfl hi⟩
  bounded := fun i hi => absurd rfl hi
  strings := by
    intro s v
    constructor
    · intro hs
      cases hs
    · rintro ⟨rfl, hne⟩
      exact absurd rfl hne
  numbers := by
    intro x
    by_contra hne
    obtain ⟨i, -, hslot⟩ := arrayValue_ne_nil_iff.mp (Ne.symm hne)
    exact hslot rfl
  dense := fun i hi => rfl
  unhidden := rfl

/-- A change of the hash part in one string, to a value or to none. -/
theorem Kept.writeHash {s : Bytes} {w : Option Value} (hk : Kept H t m h)
    (hr : t'.Represents H.hash (Function.update h s w)) (harr : t'.array = t.array) (hmax : t'.arrayMax = t.arrayMax)
    (hw : w ≠ some .nil) (hs : w ≠ none → KeyId.string s ≠ indexString (t.sequenceLength + 1)) :
    Kept H t' (Function.update m (.string s) (w.getD .nil)) (Function.update h s w) := by
  have hslot : ∀ i, t'.slot i = t.slot i := fun i => by rw [slot_of_array harr]
  have hlen := sequenceLength_of_slot hslot
  have hval (k : KeyId) : t'.arrayValue k = t.arrayValue k := by
    simp only [Table.arrayValue, hslot]
  refine ⟨hk.iterable.writeHash hr harr, fun i hi => ?_, fun s' v => ?_, fun x => ?_, fun i hi => ?_, ?_⟩
  · rw [hmax]
    exact hk.bounded i (by rwa [hslot] at hi)
  · by_cases hss : s' = s
    · subst hss
      rw [Function.update_self, Function.update_self]
      cases w with
      | none =>
        constructor
        · intro hv
          cases hv
        · rintro ⟨rfl, hne⟩
          exact absurd rfl hne
      | some w =>
        constructor
        · intro hv
          cases Option.some.inj hv
          exact ⟨rfl, fun hn => hw (congrArg some hn)⟩
        · rintro ⟨rfl, -⟩
          rfl
    · have hkey : KeyId.string s' ≠ .string s := fun hkey => hss (KeyId.string.inj hkey)
      rw [Function.update_of_ne hss, Function.update_of_ne hkey]
      exact hk.strings s' v
  · rw [Function.update_of_ne (by simp), hval]
    exact hk.numbers x
  · rw [hlen] at hi
    rw [hslot]
    exact hk.dense i hi
  · rw [hlen]
    by_cases hkey : indexString (t.sequenceLength + 1) = .string s
    · rw [hkey, Function.update_self]
      cases w with
      | none => rfl
      | some w => exact absurd hkey.symm (hs (by simp))
    · rw [Function.update_of_ne hkey]
      exact hk.unhidden

/-- A write to the array part that leaves `n` elements in front of nothing. -/
theorem Kept.writeArray {i n : Nat} {v : Value} (hk : Kept H t m h) (hr : t'.Represents H.hash h)
    (hb : t'.Bounded) (hlt : i + 1 < 2 ^ 31) (hslot : ∀ j, t'.slot j = Function.update t.slot i v j)
    (hvalues : ∀ j < n, t'.slot j ≠ .nil) (hdense : ∀ j, n ≤ j → t'.slot j = .nil)
    (hhidden : m (indexString (n + 1)) = .nil) :
    Kept H t' (Function.update m (.number (Double.ofNat (i + 1))) v) h := by
  have hp := place_ofNat hlt
  have hlen := sequenceLength_unique hvalues (hdense n (Nat.le_refl n))
  refine ⟨hk.iterable.writeArray hr hp hslot, hb, fun s w => ?_, fun y => ?_, ?_, ?_⟩
  · rw [Function.update_of_ne (by simp)]
    exact hk.strings s w
  · rw [arrayValue_update hp hslot]
    by_cases hy : KeyId.number y = .number (Double.ofNat (i + 1))
    · rw [hy, Function.update_self, Function.update_self]
    · rw [Function.update_of_ne hy, Function.update_of_ne hy]
      exact hk.numbers y
  · rw [hlen]
    exact hdense
  · rw [hlen, indexString, Function.update_of_ne (by simp)]
    exact hhidden

/-- A value in the sequence or behind it, or nil at its end. -/
theorem Kept.writeIndex {i : Nat} {v : Value} (hk : Kept H t m h) (hr : t'.Represents H.hash h) (hb : t'.Bounded)
    (hlt : i + 1 < 2 ^ 31) (hslot : ∀ j, t'.slot j = Function.update t.slot i v j)
    (hkeep : if v = .nil then t.sequenceLength ≤ i ∨ i + 1 = t.sequenceLength ∧ m (indexString t.sequenceLength) = .nil
      else i < t.sequenceLength ∨ i = t.sequenceLength ∧ m (indexString (t.sequenceLength + 2)) = .nil) :
    Kept H t' (Function.update m (.number (Double.ofNat (i + 1))) v) h := by
  have hsame : ∀ j, j ≠ i → t'.slot j = t.slot j := fun j hj => by rw [hslot, Function.update_of_ne hj]
  have hat : t'.slot i = v := by rw [hslot, Function.update_self]
  split_ifs at hkeep with hv
  · subst hv
    rcases hkeep with hle | ⟨hlast, hhidden⟩
    · have hall : ∀ j, t'.slot j = t.slot j := by
        intro j
        by_cases hj : j = i
        · rw [hj, hat, hk.dense i hle]
        · exact hsame j hj
      refine hk.writeArray hr hb hlt hslot (fun j hj => ?_) (fun j hj => ?_) hk.unhidden
      · rw [hall]
        exact (hk.slot_iff j).mpr hj
      · rw [hall]
        exact hk.dense j hj
    · rw [← hlast] at hhidden
      refine hk.writeArray hr hb hlt hslot (fun j hj => ?_) (fun j hj => ?_) hhidden
      · rw [hsame j (by omega)]
        exact (hk.slot_iff j).mpr (by omega)
      · by_cases hji : j = i
        · rw [hji, hat]
        · rw [hsame j hji]
          exact hk.dense j (by omega)
  · rcases hkeep with hin | ⟨hend, hhidden⟩
    · refine hk.writeArray hr hb hlt hslot (fun j hj => ?_) (fun j hj => ?_) hk.unhidden
      · by_cases hji : j = i
        · rwa [hji, hat]
        · rw [hsame j hji]
          exact (hk.slot_iff j).mpr hj
      · rw [hsame j (by omega)]
        exact hk.dense j hj
    · subst hend
      refine hk.writeArray hr hb hlt hslot (fun j hj => ?_) (fun j hj => ?_) hhidden
      · by_cases hji : j = t.sequenceLength
        · rwa [hji, hat]
        · rw [hsame j hji]
          exact (hk.slot_iff j).mpr (by omega)
      · rw [hsame j (by omega)]
        exact hk.dense j (by omega)

/-- The index of a number is an `int`. -/
theorem arrayIndex_lt (hi : Iterable H t h) {num : Double} {i : Nat}
    (hindex : Host.arrayIndex t num = some ((i + 1 : Nat) : Int)) : i + 1 < 2 ^ 31 := by
  obtain ⟨k, hint, hk⟩ := Option.map_eq_some_iff.mp hindex
  split_ifs at hk with hneg
  · -- a negative number counts from the end of the values that the array part begins with
    have hlt : i < (t.array.takeWhile fun v => v ≠ .nil).length := by
      unfold Host.arrayLength at hk
      omega
    have hpre := List.takeWhile_prefix (l := t.array) fun v => decide (v ≠ Value.nil)
    have hget : t.array[i]? = some (t.array.takeWhile fun v => v ≠ .nil)[i] :=
      (List.prefix_iff_getElem?.mp hpre) i hlt
    have hne := List.mem_takeWhile_imp (List.getElem_mem hlt)
    refine hi.placed i ?_
    rw [Table.slot, List.getD_eq_getElem?_getD, hget, Option.getD_some]
    exact of_decide_eq_true hne
  · rw [hk] at hint
    exact (KeyId.eq_ofNat (place_of_int? hint)).1

theorem meant_of_index {num : Double} {i : Nat} (hindex : Host.arrayIndex t num = some ((i + 1 : Nat) : Int)) :
    H.meant t (.number num) = .number (Double.ofNat (i + 1)) := by
  have h1 : (1 : Int) ≤ ((i + 1 : Nat) : Int) := by omega
  unfold Host.meant
  simp only [hindex, h1, ↓reduceIte, Int.toNat_natCast]

theorem setTable_kept (hk : Kept H o.table m h) {key : Key} {v : Value} (he : H.setTable o key v = some o')
    (hkeep : (TableOp.set key v).KeepsQueries H o.table m) :
    ∃ h', Kept H o'.table (Function.update m (H.meant o.table key) v) h' := by
  have hr := hk.iterable.represents
  cases key with
  | string key =>
    obtain ⟨hv, hs⟩ := hkeep
    obtain ⟨t', ht', hr', -, harr, hmax⟩ := tableSet_spec hr (H.chars key) v
    have hset : H.setTable o (.string key) v = some { o with table := t' } := by
      simp [Host.setTable, Host.setHash, ht']
    rw [hset] at he
    cases he
    exact ⟨_, hk.writeHash hr' harr hmax (fun hn => hv (Option.some.inj hn)) fun _ => hs⟩
  | number num =>
    obtain ⟨i, hindex, htakes, hkeep⟩ := hkeep
    obtain ⟨t', ht', hcount, hentries, -, hslot⟩ := tableSetArray_takes v htakes
    have hset : H.setTable o (.number num) v = some { o with table := t' } := by
      simp only [Host.setTable, hindex, Option.bind_some, ht']
    rw [hset] at he
    cases he
    have hslot' : ∀ j, t'.slot j = Function.update o.table.slot i v j := by
      intro j
      have hi : (((i + 1 : Nat) : Int) - 1).toNat = i := by omega
      rw [hslot j, hi, Function.update_apply]
    rw [meant_of_index hindex]
    exact ⟨h, hk.writeIndex (hr.of_hash hcount hentries) (hk.bounded.setArray ht')
      (arrayIndex_lt hk.iterable hindex) hslot' hkeep⟩

/-- A number that has no element is bound to nothing. -/
theorem Kept.meant_nil (hk : Kept H t m h) {num : Double}
    (hnone : (Host.arrayIndex t num).filter (fun index => (tableGetArray t index).isSome) = none) :
    m (H.meant t (.number num)) = .nil := by
  have hplace : ∀ k, num.int? = some k → k < 1 → m (.number num.normalize) = .nil := by
    intro k hint hlt
    rw [hk.numbers, Table.arrayValue]
    have hp : (KeyId.number num.normalize).place = none := by
      have hnot : ¬1 ≤ k := by omega
      simp only [KeyId.place, int?_normalize, hint, hnot, ↓reduceIte]
    rw [hp]
  cases hindex : Host.arrayIndex t num with
  | none =>
    have hint : num.int? = none := by
      unfold Host.arrayIndex at hindex
      exact Option.map_eq_none_iff.mp hindex
    have hp : (KeyId.number num.normalize).place = none := by
      simp only [KeyId.place, int?_normalize, hint]
    simp only [Host.meant, hindex]
    rw [hk.numbers, Table.arrayValue, hp]
  | some index =>
    simp only [Host.meant, hindex]
    split_ifs with h1
    · obtain ⟨i, rfl⟩ : ∃ i : Nat, index = ((i + 1 : Nat) : Int) := ⟨(index - 1).toNat, by omega⟩
      have hlt := arrayIndex_lt hk.iterable hindex
      rw [hindex] at hnone
      have hget : tableGetArray t ((i + 1 : Nat) : Int) = none := by
        cases hg : tableGetArray t ((i + 1 : Nat) : Int) with
        | none => rfl
        | some v =>
          rw [Option.filter_some, hg] at hnone
          cases hnone
      have hfree : t.slot i = .nil := by
        by_contra hne
        rw [tableGetArray_succ, if_pos hne] at hget
        cases hget
      rw [Int.toNat_natCast, hk.numbers, hk.iterable.arrayValue_ofNat (by omega), hfree]
    · obtain ⟨k, hint, hk'⟩ := Option.map_eq_some_iff.mp hindex
      split_ifs at hk' with hneg
      · exact hplace k hint (by omega)
      · exact hplace k hint (by omega)

theorem deleteTable_kept (hk : Kept H o.table m h) {key : Key} {found : Bool}
    (he : H.deleteTable o key = some (o', found)) (hkeep : (TableOp.delete key).KeepsQueries H o.table m) :
    ∃ h', Kept H o'.table (Function.update m (H.meant o.table key) .nil) h' := by
  have hr := hk.iterable.represents
  cases key with
  | string key =>
    obtain ⟨t', ht', hr', harr, hmax, -⟩ := tableDelete_spec hr (H.chars key)
    have hdel : H.deleteTable o (.string key) = some ({ o with table := t' }, (h (H.chars key)).isSome) := by
      simp [Host.deleteTable, Host.deleteHash, ht']
    rw [hdel] at he
    cases he
    exact ⟨_, hk.writeHash hr' harr hmax (by simp) fun hn => absurd rfl hn⟩
  | number num =>
    simp only [TableOp.KeepsQueries] at hkeep
    cases hf : (Host.arrayIndex o.table num).filter fun index => (tableGetArray o.table index).isSome with
    | some index =>
      rw [hf] at hkeep
      obtain ⟨hlast, hhidden⟩ := hkeep
      obtain ⟨hindex, hsome⟩ := Option.filter_eq_some_iff.mp hf
      obtain ⟨v, hget⟩ := Option.isSome_iff_exists.mp hsome
      have hvalue := hget
      rw [tableGetArray_eq] at hvalue
      split_ifs at hvalue with hpos
      obtain ⟨h1, hne⟩ := hpos
      obtain ⟨i, rfl⟩ : ∃ i : Nat, index = ((i + 1 : Nat) : Int) := ⟨(index - 1).toNat, by omega⟩
      obtain ⟨t', ht', hcount, hentries, -, hslot⟩ := tableSetArray_takes .nil (takes_of_slot h1 hne)
      have hdel : H.deleteTable o (.number num) = some ({ o with table := t' }, true) := by
        simp only [Host.deleteTable, hf, ht', Option.getD_some]
      rw [hdel] at he
      cases he
      have hslot' : ∀ j, t'.slot j = Function.update o.table.slot i .nil j := by
        intro j
        have hi : (((i + 1 : Nat) : Int) - 1).toNat = i := by omega
        rw [hslot j, hi, Function.update_apply]
      rw [meant_of_index hindex]
      refine ⟨h, hk.writeIndex (hr.of_hash hcount hentries) (hk.bounded.setArray ht')
        (arrayIndex_lt hk.iterable hindex) hslot' ?_⟩
      rw [if_pos rfl]
      exact .inr ⟨by omega, hhidden⟩
    | none =>
      rw [hf] at hkeep
      obtain ⟨t', ht', hr', harr, hmax, -⟩ := tableDelete_spec hr (H.numberKeyString num)
      have hdel : H.deleteTable o (.number num) =
          some ({ o with table := t' }, (h (H.numberKeyString num)).isSome) := by
        simp [Host.deleteTable, hf, Host.deleteHash, ht']
      rw [hdel] at he
      cases he
      have hkept := hk.writeHash hr' harr hmax (by simp) fun hn => absurd rfl hn
      rw [Option.getD_none, ← hkeep, Function.update_eq_self] at hkept
      have hnil := hk.meant_nil hf
      rw [← hnil, Function.update_eq_self]
      exact ⟨_, hkept⟩

/-- An operation that keeps the queries right. -/
theorem exec_kept (hk : Kept H o.table m h) {op : TableOp} {v : Value} (he : H.exec o op = some (o', v))
    (hkeep : op.KeepsQueries H o.table m) : ∃ h', Kept H o'.table (op.recordMeant H o.table m) h' := by
  cases op with
  | get site key obj =>
    obtain ⟨o₁, v₁, ho₁, ht⟩ := getTable_leaves hk.iterable.represents site key obj
    rw [Host.exec, ho₁] at he
    cases he
    exact ⟨h, ht ▸ hk⟩
  | set key value =>
    obtain ⟨o₁, ho₁, heq⟩ := Option.map_eq_some_iff.mp he
    cases heq
    exact setTable_kept hk ho₁ hkeep
  | delete key =>
    obtain ⟨⟨o₁, found⟩, ho₁, heq⟩ := Option.map_eq_some_iff.mp he
    cases heq
    exact deleteTable_kept hk ho₁ hkeep

theorem QueryRun.kept (hr : QueryRun H o m) : ∃ h, Kept H o.table m h := by
  induction hr with
  | start => exact ⟨_, newTable_kept⟩
  | step hr hkeep he ih =>
    obtain ⟨h, hk⟩ := ih
    exact exec_kept hk he hkeep

/-- In every run whose operations keep the queries right, they show the map of the latest writes. -/
theorem queries_show_map (hr : QueryRun H o m) : ShowsMap H.hash o.table m := by
  obtain ⟨h, hk⟩ := hr.kept
  exact hk.showsMap

end Kept

namespace SampleTable

/-- A new table after `t[5] = 5`. -/
def sparse : TableObject := ((host.exec newTable (.set (.number five) (.number five))).getD (newTable, .nil)).1

/-- `t[5] = 5` on a new table: `table.keys` gives the key as the string "\x1Fn5". -/
theorem number_listed_as_string : ¬∀ (H : Host) (o : TableObject) (m : KeyId → Value),
    OpRun H (fun _ _ _ => True) o m → ShowsMap H.hash o.table m := by
  intro hall
  have hr : OpRun host (fun _ _ _ => True) sparse _ :=
    @OpRun.step host _ _ _ _ (.set (.number five) (.number five)) (.number five) .start (.inr rfl) trivial rfl
  obtain ⟨ids, -, hids, hkeys, -⟩ := (hall _ _ _ hr).keys
  have hfive : KeyId.number five ∈ ids := (hids _).mpr (by decide)
  obtain ⟨y, hy⟩ := List.mem_iff_getElem?.mp (List.mem_map_of_mem (f := KeyId.value) hfive)
  have hslot := hkeys.slot y
  rw [List.getD_eq_getElem?_getD, hy, Option.getD_some, Table.slot, List.getD_eq_getElem?_getD] at hslot
  have hother : ∀ v ∈ (tableKeys sparse.table).array, v ≠ .number five := by decide
  cases hget : (tableKeys sparse.table).array[y]? with
  | none =>
    rw [hget] at hslot
    cases hslot
  | some v =>
    rw [hget] at hslot
    exact hother v (List.mem_of_getElem? hget) hslot

/-- `t["a"] = 1`: the queries show the one key. -/
theorem queries_show_map_one : ∃ o, host.exec newTable (.set (.string 97) (.number one)) = some (o, .number one) ∧
    ShowsMap host.hash o.table (Function.update (fun _ => .nil) (.string [97]) (.number one)) := by
  have hkeep : (TableOp.set (.string 97) (.number one)).KeepsQueries host newTable.table fun _ => .nil := by
    refine ⟨Value.noConfusion, fun heq => ?_⟩
    have hhead := (List.cons.inj (KeyId.string.inj heq)).1
    revert hhead
    decide
  have hr : QueryRun host _ _ :=
    @QueryRun.step host _ _ _ (.set (.string 97) (.number one)) _ .start hkeep rfl
  exact ⟨_, rfl, queries_show_map hr⟩

end SampleTable

end ToiLang
