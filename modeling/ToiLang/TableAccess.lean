import ToiLang.Double
import ToiLang.TableMap

namespace ToiLang

/-- What the operations on one table rest on: the string objects by their addresses, the text
that `%.17g` gives a number, which functions take the receiver, and the table's own address. -/
structure Host where
  hash : Bytes → UInt32
  chars : Nat → Bytes
  numberText : Double → Bytes
  isSelf : Value → Bool
  isModule : Bool
  addr : Nat

/-- A key as the operations receive it: a string object or a number. -/
inductive Key
  | string (obj : Nat)
  | number (x : Double)
  deriving DecidableEq, Repr

/-- An entry of a chunk's inline cache that names the table. -/
structure GetTableIc where
  key : Nat
  version : UInt32
  value : Value
  deriving DecidableEq, Repr

/-- A table and the inline caches by the place of their instruction. -/
structure TableObject where
  table : Table
  caches : Nat → Option GetTableIc

def newTable : TableObject := ⟨initTable, fun _ => none⟩

namespace Host

variable (H : Host)

def numberKeyString (num : Double) : Bytes :=
  0x1F :: 110 :: H.numberText (if num.isZero then 0 else num)

def isSelfCallable (v : Value) : Bool :=
  match v with
  | .closure .. | .native _ => H.isSelf v
  | _ => false

def isBoundMethod (v : Value) : Bool :=
  match v with
  | .boundMethod .. => true
  | _ => false

/-- `obj` is the address of the bound method when one is made. -/
def maybeBindSelf (obj : Nat) (result : Value) : Value :=
  if isBoundMethod result ∨ H.isModule then result
  else if H.isSelfCallable result then .boundMethod obj (.table H.addr) result
  else result

/-- How many values the array part begins with. -/
def arrayLength (t : Table) : Nat := (t.array.takeWhile fun v => v ≠ .nil).length

/-- The index that an integer key stands for: a negative one counts from the end. -/
def arrayIndex (t : Table) (num : Double) : Option Int :=
  num.int?.map fun idx => if idx < 0 then arrayLength t + idx + 1 else idx

def getString (o : TableObject) (site key obj : Nat) : Option (TableObject × Value) := do
  match ← tableGet H.hash o.table (H.chars key) with
  | none => return (o, .nil)
  | some result =>
    let ic : GetTableIc := ⟨key, o.table.version, result⟩
    let caches :=
      if H.isSelfCallable result ∨ isBoundMethod result then o.caches
      else Function.update o.caches site (some ic)
    return ({ o with caches }, H.maybeBindSelf obj result)

/-- `vm_handle_op_get_table` on a table without metatable. -/
def getTable (o : TableObject) (site : Nat) (key : Key) (obj : Nat) :
    Option (TableObject × Value) :=
  match key with
  | .string key =>
    match o.caches site with
    | some ic =>
      if ic.key = key ∧ ic.version = o.table.version then some (o, H.maybeBindSelf obj ic.value)
      else H.getString o site key obj
    | none => H.getString o site key obj
  | .number num =>
    match (arrayIndex o.table num).bind (tableGetArray o.table) with
    | some result => some (o, H.maybeBindSelf obj result)
    | none => do
      match ← tableGet H.hash o.table (H.numberKeyString num) with
      | some result => return (o, H.maybeBindSelf obj result)
      | none => return (o, .nil)

def setHash (o : TableObject) (key : Bytes) (value : Value) : Option TableObject := do
  let (table, _) ← tableSet H.hash o.table key value
  return { o with table }

/-- `vm_handle_op_set_table` on a table without metatable. -/
def setTable (o : TableObject) (key : Key) (value : Value) : Option TableObject :=
  match key with
  | .string key => H.setHash o (H.chars key) value
  | .number num =>
    match (arrayIndex o.table num).bind fun idx => tableSetArray o.table idx value with
    | some table => some { o with table }
    | none => H.setHash o (H.numberKeyString num) value

def deleteHash (o : TableObject) (key : Bytes) : Option (TableObject × Bool) := do
  let (table, found) ← tableDelete H.hash o.table key
  return ({ o with table }, found)

/-- `vm_handle_op_delete_table`: the result is false for the error "Key not found.". -/
def deleteTable (o : TableObject) (key : Key) : Option (TableObject × Bool) :=
  match key with
  | .string key => H.deleteHash o (H.chars key)
  | .number num =>
    match (arrayIndex o.table num).filter fun idx => (tableGetArray o.table idx).isSome with
    | some idx => some ({ o with table := (tableSetArray o.table idx .nil).getD o.table }, true)
    | none => H.deleteHash o (H.numberKeyString num)

end Host

/-- The value at a 0-based place of the array part, nil behind its end. -/
def Table.slot (t : Table) (i : Nat) : Value := t.array.getD i .nil

theorem lt_arrayGrowth {rawIndex fuel capacity : Nat} (h : rawIndex < capacity * 2 ^ fuel) :
    rawIndex < arrayGrowth rawIndex fuel capacity := by
  induction fuel generalizing capacity with
  | zero => simpa [arrayGrowth] using h
  | succ fuel ih =>
    unfold arrayGrowth
    split
    next hle =>
      apply ih
      have hpow : capacity * 2 ^ (fuel + 1) = capacity * 2 * 2 ^ fuel := by ring
      omega
    next hlt => omega

theorem getD_append_replicate (array : List Value) (n i : Nat) :
    (array ++ List.replicate n Value.nil).getD i .nil = array.getD i .nil := by
  rw [List.getD_eq_getElem?_getD, List.getD_eq_getElem?_getD]
  rcases Nat.lt_or_ge i array.length with hi | hi
  · rw [List.getElem?_append_left hi]
  · rw [List.getElem?_append_right hi, List.getElem?_eq_none hi, List.getElem?_replicate]
    split_ifs <;> rfl

theorem growArray_spec (array : List Value) (rawIndex : Nat) :
    rawIndex < (growArray array rawIndex).length ∧
      ∀ i, (growArray array rawIndex).getD i .nil = array.getD i .nil := by
  unfold growArray
  split
  next hle =>
    have hroom (capacity : Nat) (hc : 0 < capacity) :
        rawIndex < arrayGrowth rawIndex rawIndex capacity := by
      apply lt_arrayGrowth
      have hpow := Nat.lt_two_pow_self (n := rawIndex)
      have hmul := Nat.le_mul_of_pos_left (2 ^ rawIndex) hc
      omega
    refine ⟨?_, fun i => ?_⟩
    · have h := hroom (if array.length = 0 then 8 else array.length * 2) (by split <;> omega)
      rw [List.length_append, List.length_replicate]
      omega
    · exact getD_append_replicate _ _ _
  next hlt => exact ⟨by omega, fun i => rfl⟩

theorem tableGetArray_eq (t : Table) (index : Int) :
    tableGetArray t index =
      if 1 ≤ index ∧ t.slot (index - 1).toNat ≠ .nil then some (t.slot (index - 1).toNat) else none := by
  unfold tableGetArray Table.slot
  dsimp only
  by_cases h1 : 1 ≤ index
  · by_cases hlt : index - 1 < t.arrayCapacity
    · rw [if_pos ⟨by omega, hlt⟩]
      generalize t.array.getD (index - 1).toNat .nil = v
      by_cases hnil : v = .nil
      · rw [if_neg (fun h => h.2 hnil), hnil]
      · rw [if_pos ⟨h1, hnil⟩]
        split
        next => exact absurd rfl hnil
        next => rfl
    · have hout : t.array.getD (index - 1).toNat .nil = .nil := by
        rw [List.getD_eq_getElem?_getD, List.getElem?_eq_none]
        · rfl
        · unfold Table.arrayCapacity at hlt
          omega
      rw [if_neg (by omega), hout]
      simp
  · rw [if_neg (by omega), if_neg (by omega)]

/-- The array part takes an index within it and the next one. -/
def Table.takes (t : Table) (index : Int) : Bool :=
  decide (1 ≤ index ∧ (index ≤ t.arrayMax + 1 ∨ index ≤ t.arrayCapacity))

theorem tableSetArray_takes {t : Table} {index : Int} (value : Value) (h : t.takes index = true) :
    ∃ t', tableSetArray t index value = some t' ∧ t'.count = t.count ∧ t'.entries = t.entries ∧
      t'.version = t.version ∧
      ∀ i, t'.slot i = if i = (index - 1).toNat then value else t.slot i := by
  obtain ⟨h1, hle⟩ := of_decide_eq_true h
  unfold tableSetArray
  dsimp only
  rw [if_neg (by omega), if_neg (by omega)]
  refine ⟨_, rfl, rfl, rfl, rfl, fun i => ?_⟩
  obtain ⟨hlt, hsame⟩ := growArray_spec t.array (index - 1).toNat
  unfold Table.slot
  dsimp only
  rw [List.getD_eq_getElem?_getD, List.getElem?_set]
  by_cases hi : i = (index - 1).toNat
  · rw [if_pos hi.symm, if_pos hlt, if_pos hi]
    rfl
  · rw [if_neg (Ne.symm hi), if_neg hi, ← List.getD_eq_getElem?_getD, hsame]

theorem arrayMax_set {t : Table} {index : Int} {v : Value} {t' : Table} (hv : v ≠ .nil)
    (hset : tableSetArray t index v = some t') : t'.arrayMax = max t.arrayMax index.toNat := by
  unfold tableSetArray at hset
  dsimp only at hset
  split at hset
  next => cases hset
  next =>
    split at hset
    next => cases hset
    next =>
      cases Option.some.inj hset
      rfl

theorem tableSetArray_leaves {t : Table} {index : Int} (value : Value)
    (h : t.takes index = false) : tableSetArray t index value = none := by
  have hn := of_decide_eq_false h
  unfold tableSetArray
  dsimp only
  by_cases h1 : index - 1 < 0
  · rw [if_pos h1]
  · rw [if_neg h1, if_pos (by omega)]

theorem takes_of_slot {t : Table} {index : Int} (h1 : 1 ≤ index)
    (h : t.slot (index - 1).toNat ≠ .nil) : t.takes index = true := by
  refine decide_eq_true ⟨h1, .inr ?_⟩
  by_contra hlt
  apply h
  unfold Table.slot
  rw [List.getD_eq_getElem?_getD, List.getElem?_eq_none]
  · rfl
  · unfold Table.arrayCapacity at hlt
    omega

/-- A key as a map sees it: the content of the string, or the number with one zero. -/
inductive KeyId
  | string (s : Bytes)
  | number (x : Double)
  deriving DecidableEq, Repr

def Double.normalize (x : Double) : Double := if x.isZero then 0 else x

def Key.id (H : Host) : Key → KeyId
  | string key => .string (H.chars key)
  | number num => .number num.normalize

/-- A string, or a number that is not negative. -/
def Key.NonNegative : Key → Prop
  | string _ => True
  | number num => num.isZero = true ∨ num.negative = false

/-- What the hash part knows a key by. -/
def KeyId.text (H : Host) : KeyId → Bytes
  | string s => s
  | number x => H.numberKeyString x

/-- The place in the array part that is a key's when the array reaches so far. -/
def KeyId.place : KeyId → Option Nat
  | string _ => none
  | number x =>
    match x.int? with
    | some i => if 1 ≤ i then some (i - 1).toNat else none
    | none => none

/-- The value of a key in the array part. -/
def Table.arrayValue (t : Table) (k : KeyId) : Value :=
  match k.place with
  | some i => t.slot i
  | none => .nil

theorem arrayValue_place {t : Table} {k : KeyId} {i : Nat} (hp : k.place = some i) :
    t.arrayValue k = t.slot i := by
  simp only [Table.arrayValue, hp]

theorem KeyId.place_inj {k k' : KeyId} {i : Nat} (h : k.place = some i) (h' : k'.place = some i) :
    k = k' := by
  have hint {k : KeyId} (h : k.place = some i) :
      ∃ x, k = .number x ∧ x.int? = some (i + 1 : Int) := by
    unfold KeyId.place at h
    split at h
    next => cases h
    next x =>
      refine ⟨x, rfl, ?_⟩
      split at h
      next j hj =>
        split at h
        next h1 =>
          have hji := Option.some.inj h
          rw [hj]
          congr 1
          omega
        next => cases h
      next => cases h
  obtain ⟨x, rfl, hx⟩ := hint h
  obtain ⟨y, rfl, hy⟩ := hint h'
  rw [Double.int?_inj (by omega) hx hy]

section Run

variable {H : Host} {o o' : TableObject} {m : KeyId → Value} {h : Bytes → Option Value}

/-- No other key that the hash part would take for this one is bound. -/
def Apart (H : Host) (m : KeyId → Value) (k : KeyId) : Prop :=
  ∀ k', k' ≠ k → k'.text H = k.text H → m k' = .nil

/-- The hash part has no value for a key. -/
def Unbound (H : Host) (t : Table) (k : KeyId) : Prop :=
  tableGet H.hash t (k.text H) = some none ∨ tableGet H.hash t (k.text H) = some (some .nil)

/-- No inline cache has the version that the next write to the hash part makes. -/
def Fresh (o : TableObject) : Prop :=
  ∀ site ic, o.caches site = some ic → ic.version ≠ o.table.version + 1

inductive TableOp
  | get (site : Nat) (key : Key) (obj : Nat)
  | set (key : Key) (value : Value)
  | delete (key : Key)
  deriving DecidableEq, Repr

def TableOp.key : TableOp → Key
  | get _ key _ => key
  | set key _ => key
  | delete key => key

/-- The operation on the table, with the value that a read gives. -/
def Host.exec (H : Host) (o : TableObject) : TableOp → Option (TableObject × Value)
  | .get site key obj => H.getTable o site key obj
  | .set key value => (H.setTable o key value).map fun o' => (o', value)
  | .delete key => (H.deleteTable o key).map fun (o', _) => (o', .nil)

/-- The map after the operation. -/
def TableOp.record (H : Host) (m : KeyId → Value) : TableOp → KeyId → Value
  | get .. => m
  | set key value => Function.update m (key.id H) value
  | delete key => Function.update m (key.id H) .nil

/-- The index of a key that the array part takes on a write. -/
def Key.inArray (t : Table) : Key → Bool
  | string _ => false
  | number num => (num.int?.map t.takes).getD false

/-- What keeps an operation from a value of another time: the hash part has no older value of a
key whose value in the array part goes, and a version is not one of a cache that is still there. -/
def TableOp.Safe (H : Host) (o : TableObject) (m : KeyId → Value) : TableOp → Prop
  | get _ key _ => Apart H m (key.id H)
  | set key value => Apart H m (key.id H) ∧
      if key.inArray o.table then value = .nil → Unbound H o.table (key.id H) else Fresh o
  | delete key => Apart H m (key.id H) ∧
      if o.table.arrayValue (key.id H) ≠ .nil then Unbound H o.table (key.id H) else Fresh o

/-- The sequences of operations on a new table, with the map of the latest writes. -/
inductive TableRun (H : Host) : TableObject → (KeyId → Value) → Prop
  | start : TableRun H newTable fun _ => .nil
  | step {o o' : TableObject} {m : KeyId → Value} {op : TableOp} {v : Value}
      (hr : TableRun H o m) (hn : op.key.NonNegative) (hs : op.Safe H o m)
      (he : H.exec o op = some (o', v)) : TableRun H o' (op.record H m)

/-- The runs on a new table whose operations all meet a condition on the state before them. -/
inductive OpRun (H : Host) (P : TableObject → (KeyId → Value) → TableOp → Prop) :
    TableObject → (KeyId → Value) → Prop
  | start : OpRun H P newTable fun _ => .nil
  | step {o o' : TableObject} {m : KeyId → Value} {op : TableOp} {v : Value}
      (hr : OpRun H P o m) (hn : op.key.NonNegative) (hp : P o m op)
      (he : H.exec o op = some (o', v)) : OpRun H P o' (op.record H m)

/-- How the two parts and the caches make up the map. -/
structure Serves (H : Host) (o : TableObject) (m : KeyId → Value) (h : Bytes → Option Value) :
    Prop where
  represents : o.table.Represents H.hash h
  array : ∀ k, o.table.arrayValue k ≠ .nil → o.table.arrayValue k = m k
  hashed : ∀ k, o.table.arrayValue k = .nil → Apart H m k → (h (k.text H)).getD .nil = m k
  caches : ∀ site ic, o.caches site = some ic → ic.version = o.table.version →
    h (H.chars ic.key) = some ic.value

theorem newTable_serves : Serves H newTable (fun _ => .nil) fun _ => none where
  represents := initTable_represents
  array := by
    intro k hk
    refine absurd ?_ hk
    unfold Table.arrayValue
    split <;> rfl
  hashed := fun k _ _ => rfl
  caches := by
    intro site ic hic
    cases hic

theorem Serves.unbound (hs : Serves H o m h) {k : KeyId} (hu : Unbound H o.table k) :
    (h (k.text H)).getD .nil = .nil := by
  obtain hu | hu := hu
  · rw [tableGet_eq hs.represents] at hu
    rw [Option.some.inj hu]
    rfl
  · rw [tableGet_eq hs.represents] at hu
    rw [Option.some.inj hu]
    rfl

theorem numberKeyString_normalize (num : Double) :
    H.numberKeyString num.normalize = H.numberKeyString num := by
  unfold Host.numberKeyString Double.normalize
  split
  next h => rfl
  next h => rfl

theorem int?_normalize (num : Double) : num.normalize.int? = num.int? := by
  unfold Double.normalize
  split
  next h =>
    have habs : num.natAbs? = some 0 := if_pos h
    have hsign : num.withSign 0 = 0 := by
      unfold Double.withSign
      split <;> rfl
    have hzero : Double.int? 0 = some 0 := by decide
    rw [hzero, Double.int?, habs, Option.bind_eq_bind, Option.bind_some, hsign]
    rfl
  next => rfl

/-- An integer that is not negative is its own index. -/
theorem arrayIndex_eq {t : Table} {num : Double} (hn : (Key.number num).NonNegative) :
    Host.arrayIndex t num = num.int? := by
  unfold Host.arrayIndex
  cases hi : num.int? with
  | none => rfl
  | some i =>
    obtain ⟨n, habs, hi⟩ := Option.bind_eq_some_iff.mp hi
    have hnn : 0 ≤ i := by
      split at hi
      next =>
        have hw := Option.some.inj hi
        unfold Double.withSign at hw
        obtain hz | hz := hn
        · have hzero : num.natAbs? = some 0 := if_pos hz
          rw [habs] at hzero
          cases hzero
          split at hw <;> omega
        · rw [hz] at hw
          simp only [Bool.false_eq_true, ↓reduceIte] at hw
          omega
      next => cases hi
    simp only [Option.map_some]
    rw [if_neg (by omega)]

theorem text_eq {num : Double} : ((Key.number num).id H).text H = H.numberKeyString num :=
  numberKeyString_normalize num

theorem place_eq {num : Double} {i : Int} (hi : num.int? = some i) :
    ((Key.number num).id H).place = if 1 ≤ i then some (i - 1).toNat else none := by
  simp only [Key.id, KeyId.place, int?_normalize, hi]

theorem place_none {num : Double} (hi : num.int? = none) :
    ((Key.number num).id H).place = none := by
  simp only [Key.id, KeyId.place, int?_normalize, hi]

/-- The read of the array part. -/
theorem getArray_eq {num : Double} (hn : (Key.number num).NonNegative) (t : Table) :
    (Host.arrayIndex t num).bind (tableGetArray t) =
      if t.arrayValue ((Key.number num).id H) = .nil then none
      else some (t.arrayValue ((Key.number num).id H)) := by
  rw [arrayIndex_eq hn]
  unfold Table.arrayValue
  cases hi : num.int? with
  | none =>
    rw [place_none hi]
    rfl
  | some i =>
    rw [place_eq hi, Option.bind_some, tableGetArray_eq]
    by_cases h1 : 1 ≤ i
    · simp only [h1, ↓reduceIte, true_and]
      split_ifs <;> simp_all
    · simp [h1]

@[simp] theorem arrayValue_string (t : Table) (s : Bytes) :
    t.arrayValue (KeyId.string s) = .nil := rfl

theorem Table.Represents.of_hash {hash : Bytes → UInt32} {t t' : Table} (hr : t.Represents hash h)
    (hc : t'.count = t.count) (he : t'.entries = t.entries) : t'.Represents hash h := by
  refine ⟨?_, ?_, ?_, ?_⟩
  · rw [Table.capacity, he]
    exact hr.valid
  · rw [he]
    exact hr.holds
  · rw [hc, he]
    exact hr.count
  · rw [hc, Table.capacity, he]
    exact hr.load

theorem arrayValue_update {t t' : Table} {k : KeyId} {i : Nat} {v : Value}
    (hp : k.place = some i) (hslot : ∀ j, t'.slot j = Function.update t.slot i v j) (k' : KeyId) :
    t'.arrayValue k' = Function.update t.arrayValue k v k' := by
  by_cases hk : k' = k
  · subst hk
    simp only [Function.update_self, Table.arrayValue, hp, hslot]
  · rw [Function.update_of_ne hk]
    unfold Table.arrayValue
    split
    next j hj =>
      have hji : j ≠ i := by
        rintro rfl
        exact hk (KeyId.place_inj hj hp)
      rw [hslot, Function.update_of_ne hji]
    next => rfl

/-- A write that the array part takes changes the one place. -/
theorem setTable_array (hr : o.table.Represents H.hash h) {key : Key} (hn : key.NonNegative)
    (hin : key.inArray o.table = true) (v : Value) :
    ∃ t' i, H.setTable o key v = some { o with table := t' } ∧ t'.Represents H.hash h ∧
      t'.count = o.table.count ∧ t'.entries = o.table.entries ∧ t'.version = o.table.version ∧
      (key.id H).place = some i ∧ ∀ j, t'.slot j = Function.update o.table.slot i v j := by
  cases key with
  | string key => cases hin
  | number num =>
    cases hi : num.int? with
    | none =>
      simp only [Key.inArray, hi] at hin
      cases hin
    | some i =>
      simp only [Key.inArray, hi, Option.map_some, Option.getD_some] at hin
      have h1 : 1 ≤ i := (of_decide_eq_true hin).1
      obtain ⟨t', ht', hcount, hentries, hver, hslot⟩ := tableSetArray_takes v hin
      refine ⟨t', (i - 1).toNat, ?_, hr.of_hash hcount hentries, hcount, hentries, hver, ?_,
        fun j => ?_⟩
      · simp only [Host.setTable, arrayIndex_eq hn, hi, Option.bind_some, ht']
      · rw [place_eq hi, if_pos h1]
      · rw [hslot j, Function.update_apply]

/-- A write that the array part leaves goes to the hash part. -/
theorem setTable_hash {key : Key} (hn : key.NonNegative)
    (hin : key.inArray o.table = false) (v : Value) :
    H.setTable o key v = H.setHash o ((key.id H).text H) v ∧
      o.table.arrayValue (key.id H) = .nil := by
  cases key with
  | string key => exact ⟨rfl, rfl⟩
  | number num =>
    cases hi : num.int? with
    | none =>
      refine ⟨?_, ?_⟩
      · simp only [Host.setTable, arrayIndex_eq hn, hi, Option.bind_none, text_eq]
      · simp only [Table.arrayValue, place_none hi]
    | some i =>
      simp only [Key.inArray, hi, Option.map_some, Option.getD_some] at hin
      refine ⟨?_, ?_⟩
      · simp only [Host.setTable, arrayIndex_eq hn, hi, Option.bind_some,
          tableSetArray_leaves v hin, text_eq]
      · unfold Table.arrayValue
        rw [place_eq hi]
        by_cases h1 : 1 ≤ i
        · rw [if_pos h1]
          by_contra hne
          rw [takes_of_slot h1 hne] at hin
          cases hin
        · rw [if_neg h1]

/-- A key that the array part has a value of loses it there. -/
theorem deleteTable_array (hr : o.table.Represents H.hash h) {key : Key} (hn : key.NonNegative)
    (hv : o.table.arrayValue (key.id H) ≠ .nil) :
    ∃ t' i, H.deleteTable o key = some ({ o with table := t' }, true) ∧
      t'.Represents H.hash h ∧ t'.count = o.table.count ∧ t'.entries = o.table.entries ∧
      t'.version = o.table.version ∧ (key.id H).place = some i ∧
      ∀ j, t'.slot j = Function.update o.table.slot i .nil j := by
  cases key with
  | string key => exact absurd rfl hv
  | number num =>
    have hget := getArray_eq (H := H) hn o.table
    rw [arrayIndex_eq hn, if_neg hv] at hget
    obtain ⟨i, hi, hgi⟩ := Option.bind_eq_some_iff.mp hget
    have hfilter : num.int?.filter (fun idx => (tableGetArray o.table idx).isSome) = some i := by
      simp [hi, Option.filter, hgi]
    have hslot := tableGetArray_eq o.table i
    rw [hgi] at hslot
    split at hslot
    next hpos =>
      obtain ⟨h1, hne⟩ := hpos
      obtain ⟨t', ht', hcount, hentries, hver, hslot⟩ :=
        tableSetArray_takes .nil (takes_of_slot h1 hne)
      refine ⟨t', (i - 1).toNat, ?_, hr.of_hash hcount hentries, hcount, hentries, hver, ?_,
        fun j => ?_⟩
      · simp only [Host.deleteTable, arrayIndex_eq hn, hfilter, ht', Option.getD_some]
      · rw [place_eq hi, if_pos h1]
      · rw [hslot j, Function.update_apply]
    next => cases hslot

/-- A key without a value in the array part is deleted from the hash part. -/
theorem deleteTable_hash (o : TableObject) {key : Key} (hn : key.NonNegative)
    (hv : o.table.arrayValue (key.id H) = .nil) :
    H.deleteTable o key = H.deleteHash o ((key.id H).text H) := by
  cases key with
  | string key => rfl
  | number num =>
    have hget := getArray_eq (H := H) hn o.table
    rw [arrayIndex_eq hn, if_pos hv] at hget
    have hfilter : num.int?.filter (fun idx => (tableGetArray o.table idx).isSome) = none := by
      cases hi : num.int? with
      | none => rfl
      | some i =>
        rw [hi, Option.bind_some] at hget
        simp [Option.filter, hget]
    simp only [Host.deleteTable, arrayIndex_eq hn, hfilter, text_eq]

theorem maybeBindSelf_nil (obj : Nat) : H.maybeBindSelf obj .nil = .nil := by
  simp [Host.maybeBindSelf, Host.isBoundMethod, Host.isSelfCallable]

theorem getString_serves (hs : Serves H o m h) (site key obj : Nat)
    (ha : Apart H m ((Key.string key).id H)) :
    ∃ o', H.getString o site key obj = some (o', H.maybeBindSelf obj (m ((Key.string key).id H))) ∧
      Serves H o' m h := by
  have hget := tableGet_eq hs.represents (H.chars key)
  have hm : (h (H.chars key)).getD .nil = m ((Key.string key).id H) := hs.hashed _ rfl ha
  unfold Host.getString
  rw [hget, Option.bind_eq_bind, Option.bind_some]
  cases hv : h (H.chars key) with
  | none =>
    rw [hv] at hm
    rw [← hm]
    exact ⟨o, by rw [Option.getD_none, maybeBindSelf_nil]; rfl, hs⟩
  | some result =>
    rw [hv] at hm
    rw [← hm]
    refine ⟨_, rfl, hs.represents, hs.array, hs.hashed, ?_⟩
    intro site' ic hic hver
    dsimp only at hic hver
    split at hic
    next => exact hs.caches site' ic hic hver
    next =>
      by_cases hsite : site' = site
      · rw [hsite, Function.update_self] at hic
        cases Option.some.inj hic
        exact hv
      · rw [Function.update_of_ne hsite] at hic
        exact hs.caches site' ic hic hver

/-- A read gives the value of the map. -/
theorem getTable_serves (hs : Serves H o m h) (site : Nat) {key : Key} (obj : Nat)
    (hn : key.NonNegative) (ha : Apart H m (key.id H)) :
    ∃ o', H.getTable o site key obj = some (o', H.maybeBindSelf obj (m (key.id H))) ∧
      Serves H o' m h := by
  cases key with
  | string key =>
    unfold Host.getTable
    dsimp only
    cases hic : o.caches site with
    | none => exact getString_serves hs site key obj ha
    | some ic =>
      dsimp only
      split
      next hhit =>
        obtain ⟨hkey, hver⟩ := hhit
        have hval := hs.caches site ic hic hver
        have hm : (h (H.chars key)).getD .nil = m ((Key.string key).id H) := hs.hashed _ rfl ha
        rw [hkey] at hval
        rw [hval] at hm
        exact ⟨o, by rw [← hm]; rfl, hs⟩
      next => exact getString_serves hs site key obj ha
  | number num =>
    unfold Host.getTable
    dsimp only
    rw [getArray_eq hn]
    by_cases hnil : o.table.arrayValue ((Key.number num).id H) = .nil
    · have hm := hs.hashed _ hnil ha
      rw [text_eq] at hm
      rw [if_pos hnil, tableGet_eq hs.represents, Option.bind_eq_bind, Option.bind_some, ← hm]
      refine ⟨o, ?_, hs⟩
      cases h (H.numberKeyString num) with
      | none =>
        rw [Option.getD_none, maybeBindSelf_nil]
        rfl
      | some result => rfl
    · rw [if_neg hnil]
      exact ⟨o, by rw [hs.array _ hnil], hs⟩

/-- A read ends and leaves the table. -/
theorem getTable_leaves (hr : o.table.Represents H.hash h) (site : Nat) (key : Key) (obj : Nat) :
    ∃ o' v, H.getTable o site key obj = some (o', v) ∧ o'.table = o.table := by
  cases key with
  | string key =>
    have hget : ∃ o' v, H.getString o site key obj = some (o', v) ∧ o'.table = o.table := by
      unfold Host.getString
      rw [tableGet_eq hr, Option.bind_eq_bind, Option.bind_some]
      cases h (H.chars key) with
      | none => exact ⟨o, .nil, rfl, rfl⟩
      | some result => exact ⟨_, _, rfl, rfl⟩
    unfold Host.getTable
    dsimp only
    split
    next ic hic =>
      split
      next => exact ⟨o, _, rfl, rfl⟩
      next => exact hget
    next => exact hget
  | number num =>
    unfold Host.getTable
    dsimp only
    split
    next => exact ⟨o, _, rfl, rfl⟩
    next =>
      rw [tableGet_eq hr, Option.bind_eq_bind, Option.bind_some]
      cases h (H.numberKeyString num) with
      | none => exact ⟨o, _, rfl, rfl⟩
      | some result => exact ⟨o, _, rfl, rfl⟩

/-- What the two parts hold for a key. -/
def Table.content (H : Host) (t : Table) (h : Bytes → Option Value) (k : KeyId) : Value :=
  if t.arrayValue k = .nil then (h (k.text H)).getD .nil else t.arrayValue k

/-- A read at a place without a cache. -/
theorem getTable_uncached (hr : o.table.Represents H.hash h) (site : Nat) {key : Key} (obj : Nat)
    (hn : key.NonNegative) (hc : o.caches site = none) :
    ∃ o', H.getTable o site key obj =
      some (o', H.maybeBindSelf obj (o.table.content H h (key.id H))) := by
  cases key with
  | string key =>
    unfold Host.getTable Host.getString
    simp only [hc, tableGet_eq hr, Option.bind_eq_bind, Option.bind_some]
    have hcontent : o.table.content H h ((Key.string key).id H) = (h (H.chars key)).getD .nil := rfl
    rw [hcontent]
    cases h (H.chars key) with
    | none => exact ⟨o, by rw [Option.getD_none, maybeBindSelf_nil]; rfl⟩
    | some result => exact ⟨_, rfl⟩
  | number num =>
    unfold Host.getTable Table.content
    dsimp only
    rw [getArray_eq hn, text_eq]
    by_cases hnil : o.table.arrayValue ((Key.number num).id H) = .nil
    · rw [if_pos hnil, if_pos hnil, tableGet_eq hr, Option.bind_eq_bind, Option.bind_some]
      refine ⟨o, ?_⟩
      cases h (H.numberKeyString num) with
      | none =>
        rw [Option.getD_none, maybeBindSelf_nil]
        rfl
      | some result => rfl
    · rw [if_neg hnil, if_neg hnil]
      exact ⟨o, rfl⟩

/-- Another key is apart after a write as before. -/
theorem Apart.of_update {k k' : KeyId} {v : Value} (ht : k'.text H ≠ k.text H)
    (ha : Apart H (Function.update m k v) k') : Apart H m k' := by
  intro j hj hjt
  have hjk : j ≠ k := by
    rintro rfl
    exact ht hjt.symm
  have := ha j hj hjt
  rwa [Function.update_of_ne hjk] at this

theorem Apart.update {k : KeyId} (ha : Apart H m k) (j : KeyId) (v : Value)
    (hj : j = k ∨ j.text H ≠ k.text H) : Apart H (Function.update m j v) k := by
  intro k' hk ht
  have hne : k' ≠ j := by
    rintro rfl
    obtain hj | hj := hj
    · exact hk hj
    · exact hj ht
  rw [Function.update_of_ne hne]
  exact ha k' hk ht

/-- A key that shares its text with the written one is not bound, nor is the written one. -/
theorem Apart.update_nil {k k' : KeyId} {v : Value} (hk : k' ≠ k) (ht : k'.text H = k.text H)
    (ha : Apart H m k) (ha' : Apart H (Function.update m k v) k') : m k' = .nil ∧ v = .nil := by
  have := ha' k (Ne.symm hk) ht.symm
  rw [Function.update_self] at this
  exact ⟨ha k' hk ht, this⟩

/-- A change of the hash part under the text of one key. -/
theorem Serves.write (hs : Serves H o m h) {k : KeyId} {t' : Table} {w : Option Value}
    (hrep : t'.Represents H.hash (Function.update h (k.text H) w))
    (harr : t'.array = o.table.array) (hnil : o.table.arrayValue k = .nil) (ha : Apart H m k)
    (hc : ∀ site ic, o.caches site = some ic → ic.version = t'.version →
      Function.update h (k.text H) w (H.chars ic.key) = some ic.value) :
    Serves H { o with table := t' } (Function.update m k (w.getD .nil))
      (Function.update h (k.text H) w) := by
  have hsame (k' : KeyId) : t'.arrayValue k' = o.table.arrayValue k' := by
    simp only [Table.arrayValue, Table.slot, harr]
  refine ⟨hrep, ?_, ?_, hc⟩
  · intro k' hk'
    rw [hsame] at hk' ⊢
    have hne : k' ≠ k := by
      rintro rfl
      exact hk' hnil
    rw [Function.update_of_ne hne]
    exact hs.array k' hk'
  · intro k' hk' ha'
    rw [hsame] at hk'
    by_cases hkk : k' = k
    · rw [hkk, Function.update_self, Function.update_self]
    · rw [Function.update_of_ne hkk]
      by_cases ht : k'.text H = k.text H
      · obtain ⟨hm, hw⟩ := ha.update_nil hkk ht ha'
        rw [ht, Function.update_self, hm, hw]
      · rw [Function.update_of_ne ht]
        exact hs.hashed k' hk' (ha'.of_update ht)

theorem Serves.setHash (hs : Serves H o m h) {k : KeyId} (v : Value)
    (hnil : o.table.arrayValue k = .nil) (ha : Apart H m k) (hf : Fresh o) :
    ∃ o' h', H.setHash o (k.text H) v = some o' ∧ Serves H o' (Function.update m k v) h' := by
  obtain ⟨t', ht', hrep, hver, harr, -⟩ := tableSet_spec hs.represents (k.text H) v
  refine ⟨{ o with table := t' }, _, by simp [Host.setHash, ht'], hs.write hrep harr hnil ha ?_⟩
  intro site ic hic hv
  exact absurd (hv.trans hver) (hf site ic hic)

theorem Serves.deleteHash (hs : Serves H o m h) {k : KeyId}
    (hnil : o.table.arrayValue k = .nil) (ha : Apart H m k) (hf : Fresh o) :
    ∃ o' found h', H.deleteHash o (k.text H) = some (o', found) ∧
      Serves H o' (Function.update m k .nil) h' := by
  obtain ⟨t', ht', hrep, harr, -, hver⟩ := tableDelete_spec hs.represents (k.text H)
  have hdel : H.deleteHash o (k.text H) = some ({ o with table := t' }, (h (k.text H)).isSome) := by
    simp [Host.deleteHash, ht']
  refine ⟨_, _, _, hdel, hs.write hrep harr hnil ha ?_⟩
  intro site ic hic hv
  obtain ⟨rfl, hnone⟩ | hver := hver
  · have hh : Function.update h (k.text H) none = h := by
      rw [← hnone, Function.update_eq_self]
    rw [hh]
    exact hs.caches site ic hic hv
  · exact absurd (hv.trans hver) (hf site ic hic)

/-- A change of the array part in the value of one key. -/
theorem Serves.writeArray (hs : Serves H o m h) {k : KeyId} {v : Value} {t' : Table}
    (hrep : t'.Represents H.hash h) (hver : t'.version = o.table.version)
    (hval : ∀ k', t'.arrayValue k' = Function.update o.table.arrayValue k v k')
    (ha : Apart H m k) (hu : v = .nil → Unbound H o.table k) :
    Serves H { o with table := t' } (Function.update m k v) h := by
  refine ⟨hrep, ?_, ?_, ?_⟩
  · intro k' hk'
    dsimp only at hk' ⊢
    rw [hval] at hk' ⊢
    by_cases hkk : k' = k
    · rw [hkk, Function.update_self, Function.update_self]
    · rw [Function.update_of_ne hkk] at hk' ⊢
      rw [Function.update_of_ne hkk]
      exact hs.array k' hk'
  · intro k' hk' ha'
    dsimp only at hk'
    rw [hval] at hk'
    by_cases hkk : k' = k
    · rw [hkk, Function.update_self] at hk'
      rw [hkk, Function.update_self, hk']
      exact hs.unbound (hu hk')
    · rw [Function.update_of_ne hkk] at hk'
      rw [Function.update_of_ne hkk]
      by_cases htext : k'.text H = k.text H
      · obtain ⟨hm, hv⟩ := ha.update_nil hkk htext ha'
        rw [htext, hm]
        exact hs.unbound (hu hv)
      · exact hs.hashed k' hk' (ha'.of_update htext)
  · intro site ic hic hv
    exact hs.caches site ic hic (hv.trans hver)

theorem setTable_serves (hs : Serves H o m h) {key : Key} {v : Value} (hn : key.NonNegative)
    (hsafe : (TableOp.set key v).Safe H o m) :
    ∃ o' h', H.setTable o key v = some o' ∧ Serves H o' (Function.update m (key.id H) v) h' := by
  obtain ⟨ha, hcond⟩ := hsafe
  cases hin : key.inArray o.table with
  | true =>
    rw [hin, if_pos rfl] at hcond
    obtain ⟨t', i, ht', hrep, -, -, hver, hp, hslot⟩ := setTable_array hs.represents hn hin v
    exact ⟨_, h, ht', hs.writeArray hrep hver (arrayValue_update hp hslot) ha hcond⟩
  | false =>
    rw [hin, if_neg (by simp)] at hcond
    obtain ⟨ht', hnil⟩ := setTable_hash hn hin v
    rw [ht']
    exact hs.setHash v hnil ha hcond

theorem deleteTable_serves (hs : Serves H o m h) {key : Key} (hn : key.NonNegative)
    (hsafe : (TableOp.delete key).Safe H o m) :
    ∃ o' found h', H.deleteTable o key = some (o', found) ∧
      Serves H o' (Function.update m (key.id H) .nil) h' := by
  obtain ⟨ha, hcond⟩ := hsafe
  by_cases hnil : o.table.arrayValue (key.id H) = .nil
  · rw [if_neg (not_not.mpr hnil)] at hcond
    rw [deleteTable_hash o hn hnil]
    exact hs.deleteHash hnil ha hcond
  · rw [if_pos hnil] at hcond
    obtain ⟨t', i, ht', hrep, -, -, hver, hp, hslot⟩ := deleteTable_array hs.represents hn hnil
    exact ⟨_, true, h, ht', hs.writeArray hrep hver (arrayValue_update hp hslot) ha fun _ => hcond⟩

/-- One operation: it ends, and table and map go on together. -/
theorem exec_serves (hs : Serves H o m h) {op : TableOp} (hn : op.key.NonNegative)
    (hsafe : op.Safe H o m) :
    ∃ o' v h', H.exec o op = some (o', v) ∧ Serves H o' (op.record H m) h' := by
  cases op with
  | get site key obj =>
    obtain ⟨o', ho', hs'⟩ := getTable_serves hs site obj hn hsafe
    exact ⟨o', _, h, ho', hs'⟩
  | set key value =>
    change key.NonNegative at hn
    obtain ⟨o', h', ho', hs'⟩ := setTable_serves hs hn hsafe
    exact ⟨o', value, h', by simp [Host.exec, ho'], hs'⟩
  | delete key =>
    change key.NonNegative at hn
    obtain ⟨o', found, h', ho', hs'⟩ := deleteTable_serves hs hn hsafe
    exact ⟨o', .nil, h', by simp [Host.exec, ho'], hs'⟩

theorem TableRun.serves (hr : TableRun H o m) : ∃ h, Serves H o m h := by
  induction hr with
  | start => exact ⟨_, newTable_serves⟩
  | step hr hn hs he ih =>
    obtain ⟨h, ih⟩ := ih
    obtain ⟨o₁, v₁, h', ho₁, hs'⟩ := exec_serves ih hn hs
    rw [ho₁] at he
    cases he
    exact ⟨h', hs'⟩

/-- In every run of safe operations a read gives the value of the latest write, bound to the
table when it is a method, and every next safe operation ends. -/
theorem table_serves_map (hr : TableRun H o m) :
    (∀ site key obj, key.NonNegative → Apart H m (key.id H) →
      ∃ o', H.getTable o site key obj = some (o', H.maybeBindSelf obj (m (key.id H)))) ∧
    ∀ op : TableOp, op.key.NonNegative → op.Safe H o m → ∃ o' v, H.exec o op = some (o', v) := by
  obtain ⟨h, hs⟩ := hr.serves
  constructor
  · intro site key obj hn ha
    obtain ⟨o', ho', -⟩ := getTable_serves hs site obj hn ha
    exact ⟨o', ho'⟩
  · intro op hn hsafe
    obtain ⟨o', v, -, ho', -⟩ := exec_serves hs hn hsafe
    exact ⟨o', v, ho'⟩

end Run

/-- The operations in order on a new table, with the map of the latest writes. -/
def Host.execAll (H : Host) (ops : List TableOp) : Option (TableObject × (KeyId → Value)) :=
  ops.foldlM (fun s op => do
    let (o, _) ← H.exec s.1 op
    return (o, op.record H s.2)) (newTable, fun _ => .nil)

namespace SampleTable

/-- A host whose `%.17g` writes the one-digit integers. -/
def host : Host where
  hash s := UInt32.ofNat s.length
  chars obj := [UInt8.ofNat obj]
  numberText num := [UInt8.ofNat (48 + (num.int?.getD 0).toNat)]
  isSelf _ := false
  isModule := false
  addr := 0

def one : Double := 0x3FF0000000000000
def five : Double := 0x4014000000000000

/-- `t[5] = 5; t[1] = 1; t[5] = 1; del t[5]` leaves the 5 of before the array grew to be read. -/
theorem delete_shows_older_value :
    ((host.execAll [.set (.number five) (.number five), .set (.number one) (.number one),
        .set (.number five) (.number one), .delete (.number five)]).bind fun s =>
      (host.getTable s.1 0 (.number five) 1).map fun r => (s.2 ((Key.number five).id host), r.2)) =
      some (.nil, .number five) := by decide

/-- `t[5] = 5; t[1] = 1`: the read of `t[5]` finds it in the hash part. -/
theorem table_serves_map_sparse :
    ((host.execAll [.set (.number five) (.number five), .set (.number one) (.number one)]).bind
      fun s => (host.getTable s.1 0 (.number five) 1).map Prod.snd) = some (.number five) := by
  have hfive : (Key.number five).NonNegative := .inr (by decide)
  have hone : (Key.number one).NonNegative := .inr (by decide)
  have hs₁ : (TableOp.set (.number five) (.number five)).Safe host newTable fun _ => .nil :=
    ⟨fun _ _ _ => rfl, fun site ic hic => by cases hic⟩
  have hr₁ := @TableRun.step host _ _ _ (.set (.number five) (.number five)) _ .start hfive hs₁ rfl
  have hapart : Apart host (fun _ => .nil) ((Key.number one).id host) := fun _ _ _ => rfl
  have ha₁ := hapart.update ((Key.number five).id host) (.number five)
    (.inr (by decide))
  have hr₂ := @TableRun.step host _ _ _ (.set (.number one) (.number one)) _ hr₁ hone
    ⟨ha₁, by rw [if_pos (by decide)]; intro h; cases h⟩ rfl
  have hapart : Apart host (fun _ => .nil) ((Key.number five).id host) := fun _ _ _ => rfl
  have ha₂ := (hapart.update ((Key.number five).id host) (.number five) (.inl rfl)).update
    ((Key.number one).id host) (.number one) (.inr (by decide))
  obtain ⟨o', ho'⟩ := (table_serves_map hr₂).1 0 (.number five) 1 hfive ha₂
  have hread := congrArg (Option.map Prod.snd) ho'
  have hvalue : host.maybeBindSelf 1 (TableOp.record host (TableOp.record host (fun _ => .nil)
      (.set (.number five) (.number five))) (.set (.number one) (.number one))
      ((Key.number five).id host)) = .number five := by decide
  rw [Option.map_some, hvalue] at hread
  exact hread

end SampleTable

end ToiLang
