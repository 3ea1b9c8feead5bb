import ToiLang.Chunk
import ToiLang.OpenAddressing

namespace ToiLang

/-- A key is the bytes of its string object: `length` of them from `chars` on. -/
structure Entry where
  key : Option Bytes
  value : Value
  deriving DecidableEq, Repr

/-- `capacity` is the length of `entries`, `array_capacity` the length of `array`. -/
structure Table where
  count : Nat
  entries : List Entry
  version : UInt32
  array : List Value
  arrayMax : Nat
  deriving DecidableEq, Repr

def Table.capacity (t : Table) : Nat := t.entries.length
def Table.arrayCapacity (t : Table) : Nat := t.array.length

def initTable : Table := ⟨0, [], 0, [], 0⟩

section Hash

variable (hash : Bytes → UInt32)

/-- The comparison of two string objects by `length`, `hash` and `chars`. The object itself is
found by it as well. -/
def sameString (k : Bytes) (chars : Bytes) (h : UInt32) : Bool :=
  k.length == chars.length && hash k == h && k == chars

/-- The loop of `find_entry`, which comes back to where it began after `capacity` turns: none when
it does not end. -/
def findEntryFrom (entries : List Entry) (key : Bytes) : Nat → Nat → Option Nat → Option Nat
  | 0, _, _ => none
  | fuel + 1, index, tombstone =>
    match entries[index]? with
    | none => none
    | some entry =>
      match entry.key with
      | none =>
        if entry.value = .nil then some (tombstone.getD index)
        else findEntryFrom entries key fuel ((index + 1) % entries.length) (tombstone <|> some index)
      | some k =>
        if sameString hash k key (hash key) then some index
        else findEntryFrom entries key fuel ((index + 1) % entries.length) tombstone

def findEntry (entries : List Entry) (key : Bytes) : Option Nat :=
  findEntryFrom hash entries key entries.length ((hash key).toNat % entries.length) none

/-- One turn of the loop that re-hashes the entries into the new array. -/
def rehashEntry (dest : List Entry × Nat) (entry : Entry) : Option (List Entry × Nat) :=
  match entry.key with
  | none => some dest
  | some key => do
    let index ← findEntry hash dest.1 key
    return (dest.1.set index ⟨some key, entry.value⟩, dest.2 + 1)

def adjustCapacity (t : Table) (capacity : Nat) : Option Table := do
  let (entries, count) ← t.entries.foldlM (rehashEntry hash) (List.replicate capacity ⟨none, .nil⟩, 0)
  return { t with entries, count }

def tableGet (t : Table) (key : Bytes) : Option (Option Value) :=
  if t.count = 0 then some none
  else do
    let index ← findEntry hash t.entries key
    let entry ← t.entries[index]?
    return if entry.key = none then none else some entry.value

/-- The table grows when `count + 1` is more than 0.75 of the capacity. -/
def growTable (t : Table) : Option Table :=
  if 4 * (t.count + 1) > 3 * t.capacity then
    adjustCapacity hash t (if t.capacity < 8 then 8 else t.capacity * 2)
  else some t

/-- The table after the call and the result, which says whether the key is new. -/
def tableSet (t : Table) (key : Bytes) (value : Value) : Option (Table × Bool) := do
  let t ← growTable hash t
  let index ← findEntry hash t.entries key
  let entry ← t.entries[index]?
  let isNewKey := decide (entry.key = none)
  let count := if isNewKey ∧ entry.value = .nil then t.count + 1 else t.count
  return ({ t with
    count
    entries := t.entries.set index ⟨some key, value⟩
    version := t.version + 1 }, isNewKey)

def tableDelete (t : Table) (key : Bytes) : Option (Table × Bool) :=
  if t.count = 0 then some (t, false)
  else do
    let index ← findEntry hash t.entries key
    let entry ← t.entries[index]?
    return if entry.key = none then (t, false)
      else ({ t with
        entries := t.entries.set index ⟨none, .bool true⟩
        version := t.version + 1 }, true)

def addEntry (toTable : Table) (entry : Entry) : Option Table :=
  match entry.key with
  | none => some toTable
  | some key => (tableSet hash toTable key entry.value).map Prod.fst

def tableAddAll (fromTable toTable : Table) : Option Table :=
  fromTable.entries.foldlM (addEntry hash) toTable

def findStringFrom (entries : List Entry) (chars : Bytes) (h : UInt32) :
    Nat → Nat → Option (Option Bytes)
  | 0, _ => none
  | fuel + 1, index =>
    match entries[index]? with
    | none => none
    | some entry =>
      match entry.key with
      | none =>
        if entry.value = .nil then some none
        else findStringFrom entries chars h fuel ((index + 1) % entries.length)
      | some k =>
        if sameString hash k chars h then some (some k)
        else findStringFrom entries chars h fuel ((index + 1) % entries.length)

def tableFindString (t : Table) (chars : Bytes) (h : UInt32) : Option (Option Bytes) :=
  if t.count = 0 then some none
  else findStringFrom hash t.entries chars h t.capacity (h.toNat % t.capacity)

end Hash

/-- The value at a 1-based index of the array part, when there is one that is not nil. -/
def tableGetArray (t : Table) (index : Int) : Option Value :=
  let rawIndex := index - 1
  if 0 ≤ rawIndex ∧ rawIndex < t.arrayCapacity then
    match t.array.getD rawIndex.toNat .nil with
    | .nil => none
    | value => some value
  else none

/-- The doubling of `new_capacity` until `raw_index` is below it. -/
def arrayGrowth (rawIndex : Nat) : Nat → Nat → Nat
  | 0, capacity => capacity
  | fuel + 1, capacity =>
    if rawIndex ≥ capacity then arrayGrowth rawIndex fuel (capacity * 2) else capacity

/-- The array with room for an index, the new places nil. -/
def growArray (array : List Value) (rawIndex : Nat) : List Value :=
  if rawIndex ≥ array.length then
    let newCapacity := arrayGrowth rawIndex rawIndex (if array.length = 0 then 8 else array.length * 2)
    array ++ List.replicate (newCapacity - array.length) .nil
  else array

/-- The search for the highest index from `newMax` down with a value that is not nil. -/
def lastIndex (array : List Value) : Nat → Nat
  | 0 => 0
  | newMax + 1 =>
    if newMax < array.length ∧ array[newMax]? = some .nil then lastIndex array newMax else newMax + 1

/-- None is the result 0: the index is left to the hash part, when it is not positive or too far
behind the array. -/
def tableSetArray (t : Table) (index : Int) (value : Value) : Option Table :=
  let rawIndex := index - 1
  if rawIndex < 0 then none
  else if index > t.arrayMax + 1 ∧ index > t.arrayCapacity then none
  else
    let array := (growArray t.array rawIndex.toNat).set rawIndex.toNat value
    let arrayMax :=
      if value ≠ .nil then max t.arrayMax index.toNat
      else if index.toNat = t.arrayMax then lastIndex array (t.arrayMax - 1)
      else t.arrayMax
    some { t with array, arrayMax }

end ToiLang
