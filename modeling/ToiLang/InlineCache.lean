import ToiLang.TableAccess
import ToiLang.Transition

namespace ToiLang.InlineCache

/-- The address of an object. -/
abbrev Ref := Nat

/-- An `ObjTable`. -/
structure TableObj where
  table : Table
  metatable : Option Ref
  isModule : Bool

/-- The places of `global_ic_names`, `_versions` and `_values` at one offset, when there is a name. -/
structure GlobalIc where
  name : Ref
  version : UInt32
  value : Value

/-- The places of `get_table_ic_tables`, `_keys`, `_versions` and `_values` at one offset, when there is a
table. -/
structure TableIc where
  table : Ref
  key : Ref
  version : UInt32
  value : Value

/-- The inline caches of a chunk, by the offset of the instruction. -/
structure Caches where
  capacity : Nat
  globalIc : Nat → Option GlobalIc
  getTableIc : Nat → Option TableIc

def Caches.empty (capacity : Nat) : Caches := ⟨capacity, fun _ => none, fun _ => none⟩

/-- The objects in memory as far as the caches go, and how often a version has been raised. -/
structure State where
  tables : Ref → Option TableObj
  strings : Ref → Option Bytes
  functions : Ref → Option Caches
  globals : Table
  mutations : Nat

def State.initial : State := ⟨fun _ => none, fun _ => none, fun _ => none, initTable, 0⟩

/-- What the instruction does: it pushes a value, calls an `__index` metamethod with the table and the key,
or raises "Undefined variable". -/
inductive Result
  | value (v : Value)
  | call (callee table : Value) (key : Bytes)
  | undefinedVariable (name : Bytes)
  deriving DecidableEq

/-- "__index" -/
def mmIndex : Bytes := [95, 95, 105, 110, 100, 101, 120]

section Access

variable (hash : Bytes → UInt32) (isSelf : Value → Bool)

/-- The table `a` as the functions that bind a receiver see it. -/
def host (a : Ref) (t : TableObj) : Host where
  hash := hash
  chars := fun _ => []
  numberText := fun _ => []
  isSelf := isSelf
  isModule := t.isModule
  addr := a

/-- What is read where the caches are not asked. -/
def getGlobalUncached (s : State) (f name : Ref) : Option Result := do
  let _ ← s.functions f
  let chars ← s.strings name
  match ← tableGet hash s.globals chars with
  | some value => return .value value
  | none => return .undefinedVariable chars

/-- The cache at an offset that is inside of the chunk. -/
def Caches.global? (c : Caches) (off : Nat) : Option GlobalIc := if off < c.capacity then c.globalIc off else none

def Caches.table? (c : Caches) (off : Nat) : Option TableIc := if off < c.capacity then c.getTableIc off else none

def State.setGlobalIc (s : State) (f : Ref) (c : Caches) (off : Nat) (ic : GlobalIc) : State :=
  if off < c.capacity then
    let c := { c with globalIc := Function.update c.globalIc off (some ic) }
    { s with functions := Function.update s.functions f (some c) }
  else s

def State.setTableIc (s : State) (f : Ref) (c : Caches) (off : Nat) (ic : TableIc) : State :=
  if off < c.capacity then
    let c := { c with getTableIc := Function.update c.getTableIc off (some ic) }
    { s with functions := Function.update s.functions f (some c) }
  else s

/-- `vm_handle_op_get_global` at an offset of the chunk of the function `f`. -/
def getGlobal (s : State) (f : Ref) (off : Nat) (name : Ref) : Option (State × Result) := do
  let c ← s.functions f
  let chars ← s.strings name
  match (c.global? off).filter fun ic => ic.name = name ∧ ic.version = s.globals.version with
  | some ic => return (s, .value ic.value)
  | none =>
    match ← tableGet hash s.globals chars with
    | none => return (s, .undefinedVariable chars)
    | some value => return (s.setGlobalIc f c off ⟨name, s.globals.version, value⟩, .value value)

/-- `handle_index_metamethod_local` for a string key. -/
def handleIndexMetamethod (s : State) (a : Ref) (m : TableObj) (key : Bytes) : Option Result := do
  match ← tableGet hash m.table mmIndex with
  | none => return .value .nil
  | some idx =>
    match idx with
    | .closure .. | .native _ => return .call idx (.table a) key
    | .table i =>
      let t ← s.tables i
      return .value ((← tableGet hash t.table key).getD .nil)
    | _ => return .value .nil

/-- The result is bound to the table, except that of a call, which is bound when it is there. -/
def bindResult (a : Ref) (t : TableObj) (obj : Ref) : Result → Result
  | .value v => .value ((host hash isSelf a t).maybeBindSelf obj v)
  | r => r

def getMissing (s : State) (a : Ref) (t : TableObj) (key : Bytes) (obj : Ref) : Option Result :=
  match t.metatable with
  | none => some (.value .nil)
  | some m => do
    let m ← s.tables m
    return bindResult hash isSelf a t obj (← handleIndexMetamethod hash s a m key)

def getTableUncached (s : State) (f a key obj : Ref) : Option Result := do
  let _ ← s.functions f
  let t ← s.tables a
  let chars ← s.strings key
  match ← tableGet hash t.table chars with
  | some value => return bindResult hash isSelf a t obj (.value value)
  | none => getMissing hash isSelf s a t chars obj

/-- `vm_handle_op_get_table` on a table with a string key; `obj` is the address of the bound method when
one is made. -/
def getTable (s : State) (f : Ref) (off : Nat) (a key obj : Ref) : Option (State × Result) := do
  let c ← s.functions f
  let t ← s.tables a
  let chars ← s.strings key
  match (c.table? off).filter fun ic => ic.table = a ∧ ic.key = key ∧ ic.version = t.table.version with
  | some ic => return (s, bindResult hash isSelf a t obj (.value ic.value))
  | none =>
    match ← tableGet hash t.table chars with
    | none => return (s, ← getMissing hash isSelf s a t chars obj)
    | some value =>
      let s :=
        if (host hash isSelf a t).isSelfCallable value ∨ Host.isBoundMethod value then s
        else s.setTableIc f c off ⟨a, key, t.table.version, value⟩
      return (s, bindResult hash isSelf a t obj (.value value))

/-- The steps of a run. A write to the array part, as `table_set_array` and the table library make it,
raises no version; the one of `optimize_chunk` is on a chunk whose instructions have moved. -/
inductive Op
  | newTable (a : Ref)
  | newString (r : Ref) (chars : Bytes)
  | newFunction (f : Ref) (capacity : Nat)
  | tableSet (a : Ref) (key : Bytes) (value : Value)
  | tableDelete (a : Ref) (key : Bytes)
  | setArray (a : Ref) (array : List Value) (arrayMax : Nat)
  | setMetatable (a : Ref) (metatable : Option Ref)
  | setModule (a : Ref) (isModule : Bool)
  | setGlobal (key : Bytes) (value : Value)
  | deleteGlobal (key : Bytes)
  | optimizeChunk (f : Ref) (capacity : Nat)
  | collect (kept : Ref → Bool)
  | getGlobal (f : Ref) (off : Nat) (name : Ref)
  | getTable (f : Ref) (off : Nat) (a key obj : Ref)

def State.setTable (s : State) (a : Ref) (t : TableObj) : State :=
  { s with tables := Function.update s.tables a (some t) }

def step : Op → State → Option State
  | .newTable a, s =>
    if s.tables a = none then some (s.setTable a ⟨initTable, none, false⟩) else none
  | .newString r chars, s =>
    if s.strings r = none then some { s with strings := Function.update s.strings r (some chars) } else none
  | .newFunction f capacity, s =>
    if s.functions f = none then
      some { s with functions := Function.update s.functions f (some (.empty capacity)) }
    else none
  | .tableSet a key value, s => do
    let t ← s.tables a
    let (table, _) ← ToiLang.tableSet hash t.table key value
    return { s.setTable a { t with table } with mutations := s.mutations + 1 }
  | .tableDelete a key, s => do
    let t ← s.tables a
    let (table, found) ← ToiLang.tableDelete hash t.table key
    if found then return { s.setTable a { t with table } with mutations := s.mutations + 1 }
    else return s
  | .setArray a array arrayMax, s => do
    let t ← s.tables a
    return s.setTable a { t with table := { t.table with array, arrayMax } }
  | .setMetatable a metatable, s => do
    let t ← s.tables a
    return s.setTable a { t with metatable }
  | .setModule a isModule, s => do
    let t ← s.tables a
    return s.setTable a { t with isModule }
  | .setGlobal key value, s => do
    let (globals, _) ← ToiLang.tableSet hash s.globals key value
    return { s with globals, mutations := s.mutations + 1 }
  | .deleteGlobal key, s => do
    let (globals, found) ← ToiLang.tableDelete hash s.globals key
    if found then return { s with globals, mutations := s.mutations + 1 } else return s
  | .optimizeChunk f capacity, s => do
    let _ ← s.functions f
    return { s with functions := Function.update s.functions f (some (.empty capacity)) }
  | .collect kept, s =>
    some { s with
      tables := fun a => if kept a then s.tables a else none
      strings := fun r => if kept r then s.strings r else none
      functions := fun f => if kept f then s.functions f else none }
  | .getGlobal f off name, s => (getGlobal hash s f off name).map Prod.fst
  | .getTable f off a key obj, s => (getTable hash isSelf s f off a key obj).map Prod.fst

end Access

/-- A collection that keeps a function keeps what its caches name: `mark_object` goes on to it. -/
def MarksCaches : Op → State → Prop
  | .collect kept, s => ∀ f c off, kept f = true → s.functions f = some c →
      (∀ ic, c.globalIc off = some ic → kept ic.name = true) ∧
        ∀ ic, c.getTableIc off = some ic → kept ic.table = true ∧ kept ic.key = true
  | _, _ => True

end ToiLang.InlineCache
