import ToiLang.FreshTables
import ToiLang.Struct

namespace ToiLang

namespace Binary

def tagNil : UInt8 := 0
def tagFalse : UInt8 := 1
def tagTrue : UInt8 := 2
def tagNumber : UInt8 := 3
def tagString : UInt8 := 4
def tagTable : UInt8 := 5

def writeU32 (v : Nat) : Bytes := leBytes 4 v
def writeF64 (v : Double) : Bytes := leBytes 8 v.toNat

def isSerializable : Value → Bool
  | .nil | .bool _ | .number _ | .string _ | .table _ => true
  | _ => false

/-- A key that begins as the encoding of a number is that number, or none where the text behind it
is not one. -/
def keyFromEntry (key : Bytes) : Option Value :=
  match key with
  | 0x1F :: 110 :: text =>
    let (num, rest) := strtod text
    if rest = [] then some (.number num) else none
  | _ => some (.string key)

section Serialize

variable (serialize : Value → Option Bytes)

/-- The loop over the array part from the index `i` on, and how many elements it writes. -/
def serializeArray (i : Nat) : List Value → Option (Nat × Bytes)
  | [] => some (0, [])
  | v :: vs =>
    if v = .nil then some (0, [])
    else if !isSerializable v then serializeArray (i + 1) vs
    else do
      let bytes ← serialize v
      let (count, rest) ← serializeArray (i + 1) vs
      return (count + 1, writeU32 i ++ bytes ++ rest)

def serializeHash : List Entry → Option (Nat × Bytes)
  | [] => some (0, [])
  | entry :: entries =>
    match entry.key.bind keyFromEntry with
    | none => serializeHash entries
    | some key =>
      if entry.value = .nil ∨ !isSerializable entry.value then serializeHash entries
      else do
        let keyBytes ← serialize key
        let bytes ← serialize entry.value
        let (count, rest) ← serializeHash entries
        return (count + 1, keyBytes ++ bytes ++ rest)

def serializeTable (t : Table) : Option Bytes := do
  let (arrCount, elements) ← serializeArray serialize 1 t.array
  let (hashCount, entries) ← serializeHash serialize t.entries
  return tagTable :: (writeU32 arrCount ++ elements ++ writeU32 hashCount ++ entries)

end Serialize

/-- `room` is 65 less the depth. -/
def serializeValue (tables : Nat → Table) : Nat → Bool → Value → Option Bytes
  | 0, strictTable, _ => if strictTable then none else some [tagNil]
  | room + 1, strictTable, v =>
    match v with
    | .nil => some [tagNil]
    | .bool b => some [if b then tagTrue else tagFalse]
    | .number x => some (tagNumber :: writeF64 x)
    | .string s => some (tagString :: (writeU32 s.length ++ s))
    | .table a => serializeTable (serializeValue tables room true) (tables a)
    | _ => if strictTable then none else some [tagNil]

def binaryPack (tables : Nat → Table) (v : Value) : Option (Except String Bytes) :=
  match serializeValue tables 65 false v with
  | none => some (.error "binary.pack failed.")
  | some out => (Struct.copyOut out).map .ok

/-- What is left of the bytes, and the heap. -/
structure Reader where
  rest : Bytes
  heap : TableHeap

/-- An error, or none where a search in a table does not end. -/
abbrev Unpack := StateT Reader (ExceptT String Option)

def fail {α : Type} (message : String) : Unpack α := fun _ => some (.error message)

/-- The next `n` bytes. -/
def read (n : Nat) : Unpack Bytes := do
  let r ← get
  if r.rest.length < n then fail "Unexpected end of data."
  else
    set { r with rest := r.rest.drop n }
    return r.rest.take n

def readU8 : Unpack UInt8 := do return (← read 1).headD 0
def readU32 : Unpack Nat := do return leValue 4 (← read 4)
def readF64 : Unpack Double := do return UInt64.ofNat (leValue 8 (← read 8))

def newTable : Unpack Nat := do
  let r ← get
  set { r with heap := r.heap.newTable }
  return r.heap.next

/-- A write to the table at an address. -/
def modifyTable (a : Nat) (f : Table → Option Table) : Unpack Unit := fun r =>
  (f (r.heap.tables a)).map fun t => .ok ((), { r with heap := r.heap.set a t })

section Deserialize

variable (hash : Bytes → UInt32)

def setString (key : Bytes) (value : Value) (t : Table) : Option Table :=
  (tableSet hash t key value).map Prod.fst

def setNumberKey (num : Double) (value : Value) (t : Table) : Option Table :=
  match num.int?.bind fun idx => tableSetArray t idx value with
  | some t => some t
  | none => setString hash (numberKeyString num) value t

/-- The conversion `(int)idx`. -/
def toInt (idx : Nat) : Int := if idx < 2 ^ 31 then idx else idx - 2 ^ 32

/-- An element that the array part refuses is left out. -/
def setElement (idx : Nat) (value : Value) (t : Table) : Option Table :=
  if 0 < idx then some ((tableSetArray t (toInt idx) value).getD t) else some t

def setEntry (key value : Value) (t : Table) : Option Table :=
  match key with
  | .string s => setString hash s value t
  | .number num => setNumberKey hash num value t
  | .bool b => setString hash (if b then ascii "true" else ascii "false") value t
  | _ => some t

variable (deserialize : Unpack Value)

def deserializeArray (a : Nat) : Nat → Unpack Unit
  | 0 => return ()
  | count + 1 => do
    let idx ← readU32
    let value ← deserialize
    modifyTable a (setElement idx value)
    deserializeArray a count

def deserializeHash (a : Nat) : Nat → Unpack Unit
  | 0 => return ()
  | count + 1 => do
    let key ← deserialize
    let value ← deserialize
    modifyTable a (setEntry hash key value)
    deserializeHash a count

def deserializeTable : Unpack Value := do
  let arrCount ← readU32
  let a ← newTable
  deserializeArray deserialize a arrCount
  let hashCount ← readU32
  deserializeHash hash deserialize a hashCount
  return .table a

end Deserialize

/-- `room` is 65 less the depth. -/
def deserializeValue (hash : Bytes → UInt32) (room : Nat) : Unpack Value := do
  let tag ← readU8
  if tag = tagNil then return .nil
  else if tag = tagFalse then return .bool false
  else if tag = tagTrue then return .bool true
  else if tag = tagNumber then return .number (← readF64)
  else if tag = tagString then
    let len ← readU32
    return .string (← read len)
  else if tag = tagTable then
    match room with
    | 0 => fail "Maximum unpack depth exceeded."
    | room + 1 => deserializeTable hash (deserializeValue hash room)
  else fail "Unknown binary tag."

def binaryUnpack (hash : Bytes → UInt32) (bytes : Bytes) (H : TableHeap) :
    Option (Except String (Value × TableHeap)) :=
  match deserializeValue hash 65 ⟨bytes, H⟩ with
  | none => none
  | some (.error message) => some (.error ("binary.unpack failed: " ++ message))
  | some (.ok (v, r)) =>
    if r.rest = [] then some (.ok (v, r.heap))
    else some (.error "binary.unpack failed: trailing data.")

end Binary

end ToiLang
