import ToiLang.BTree.Order
import ToiLang.Database.Keys

namespace ToiLang.Database

/-- What a B-tree keeps under a key. -/
structure Binding (α : Type) where
  key : BTreeAtom
  value : α

def Binding.rank {α : Type} (b : Binding α) : Rank := b.key.rank

/-- A B-tree as the sorted map that it stands for. -/
abbrev Tree (α : Type) := List (Binding α)

namespace Tree

variable {α : Type}

def get (t : Tree α) (key : BTreeAtom) : Option α :=
  (SortedMap.find Binding.rank key.rank t).map Binding.value

/-- A key that is there stays as it is. -/
def put (t : Tree α) (key : BTreeAtom) (value : α) : Tree α :=
  SortedMap.bind Binding.rank
    ⟨((SortedMap.find Binding.rank key.rank t).map Binding.key).getD key, value⟩ t

def delete (t : Tree α) (key : BTreeAtom) : Tree α := SortedMap.unbind Binding.rank key.rank t

def range (t : Tree α) (min max : Option Bytes) (limit : Option Nat) : Tree α :=
  let entries := t.filter fun b => keyInRange min max b.key
  match limit with
  | some n => entries.take n
  | none => entries

end Tree

/-- The fields of a row that are not there are nil. -/
abbrev Row := Bytes → FieldValue

def primaryKey : Bytes := ascii "id"

structure IndexState where
  name : Bytes
  field : Bytes
  unique : Bool
  tree : Tree BTreeAtom

/-- The trees of a table. A record is packed in the primary tree, which keeps the row here. -/
structure TableState where
  primary : Tree Row
  indexes : List IndexState

/-- The table that `create_table` makes on new files. -/
def createTable (specs : List (Bytes × Bytes × Bool)) : TableState where
  primary := []
  indexes := specs.map fun (name, field, unique) => ⟨name, field, unique, []⟩

inductive Failure
  | check
  | key
  | unique (index : Bytes)
  | refused
  | query
  deriving DecidableEq

inductive Outcome (α : Type)
  | returned (a : α) (st : TableState)
  | raised (why : Failure) (st : TableState)

def Outcome.state {α : Type} : Outcome α → TableState
  | returned _ st => st
  | raised _ st => st

/-- The writes that the trees refuse because the pages have no room for them. -/
structure Refusals where
  primary : Bool
  index : Bytes → Bool

def sanitizeRow (row : Row) : Row := fun k => if (ascii "__").isPrefixOf k then .nil else row k

def secondaryKeyOf (idx : IndexState) (row : Row) : BTreeAtom :=
  .string (secondaryKey (row idx.field) (row primaryKey))

def removeSecondaryIndexes (row : Row) (indexes : List IndexState) : List IndexState :=
  indexes.map fun idx =>
    if row idx.field ≠ .nil then { idx with tree := idx.tree.delete (secondaryKeyOf idx row) } else idx

/-- The indexes without the entries of the row that is there under a key. -/
def cleared (st : TableState) (pk : BTreeAtom) : List IndexState :=
  match st.primary.get pk with
  | some old => removeSecondaryIndexes old st.indexes
  | none => st.indexes

/-- The indexes with the entries of the row, up to one whose write is refused, and whether none is. -/
def saveSecondaryIndexes (refusals : Refusals) (row : Row) (pk : BTreeAtom) :
    List IndexState → List IndexState × Bool
  | [] => ([], true)
  | idx :: rest =>
    if row idx.field ≠ .nil then
      if refusals.index idx.name then (idx :: rest, false)
      else
        let saved := saveSecondaryIndexes refusals row pk rest
        ({ idx with tree := idx.tree.put (secondaryKeyOf idx row) pk } :: saved.1, saved.2)
    else
      let saved := saveSecondaryIndexes refusals row pk rest
      (idx :: saved.1, saved.2)

/-- Whether one of the first two entries under the value is of another row. -/
def takenBy (excludePk : FieldValue) (idx : IndexState) (value : FieldValue) : Bool :=
  (idx.tree.range (some (secondaryMin value)) (some (secondaryMax value)) (some 2)).any fun entry =>
    !(FieldValue.ofKey entry.value).equal excludePk

/-- The first unique index that the row goes against. -/
def enforceUniqueIndexes (row : Row) (excludePk : FieldValue) (indexes : List IndexState) :
    Option IndexState :=
  indexes.find? fun idx =>
    idx.unique && decide (row idx.field ≠ .nil) && takenBy excludePk idx (row idx.field)

section Proxy

variable (check : Row → Option Row)

def put (refusals : Refusals) (row : Row) (st : TableState) : Outcome Row :=
  match check row with
  | none => .raised .check st
  | some checked =>
    let clean := sanitizeRow checked
    match (clean primaryKey).key? with
    | none => .raised .key st
    | some pk =>
      match enforceUniqueIndexes clean (clean primaryKey) st.indexes with
      | some idx => .raised (.unique idx.name) st
      | none =>
        if refusals.primary then .raised .refused ⟨st.primary, cleared st pk⟩
        else
          match saveSecondaryIndexes refusals clean pk (cleared st pk) with
          | (saved, true) => .returned clean ⟨st.primary.put pk clean, saved⟩
          | (saved, false) => .raised .refused ⟨st.primary.put pk clean, saved⟩

def delete (key : FieldValue) (st : TableState) : Outcome Bool :=
  match key.key? with
  | none => .raised .key st
  | some pk =>
    match st.primary.get pk with
    | none => .returned false st
    | some old => .returned true ⟨st.primary.delete pk, removeSecondaryIndexes old st.indexes⟩

end Proxy

/-- What a condition compares with. -/
inductive Expected
  | value (v : FieldValue)
  | list (vs : List FieldValue)

namespace Expected

def encodeKeyPart : Expected → Bytes
  | value v => Database.encodeKeyPart v
  | list vs =>
    ascii "s:" ++ ascii "\x7b" ++ (ascii ", ").intercalate (vs.map FieldValue.format) ++ ascii "\x7d"

def secondaryMin (e : Expected) : Bytes := e.encodeKeyPart ++ sep
def secondaryMax (e : Expected) : Bytes := e.encodeKeyPart ++ sep ++ hi

/-- What a loop over the operand goes through. -/
def elements : Expected → Option (List FieldValue)
  | list vs => some vs
  | value (.string s) => some (s.map fun c => .string [c])
  | value _ => none

def length : Expected → Option Nat
  | list vs => some vs.length
  | value (.string s) => some s.length
  | value _ => none

end Expected

structure Condition where
  key : Bytes
  expected : Expected

/-- The conditions of a query and its groups. -/
inductive Query
  | mk (conditions : List Condition) (all any : Option (List Query))

def Query.conditions : Query → List Condition
  | mk conditions _ _ => conditions

def Query.grouped : Query → Bool
  | mk _ all any => any.isSome || all.isSome

/-- The field and the operator around the first `__`. -/
def splitAtDunder : Bytes → Option (Bytes × Bytes)
  | 95 :: 95 :: op => some ([], op)
  | 0 :: _ => none
  | c :: rest => (splitAtDunder rest).map fun (field, op) => (c :: field, op)
  | [] => none

def parseConditionKey (key : Bytes) : Bytes × Bytes := (splitAtDunder key).getD (key, ascii "eq")

def cString (s : Bytes) : Bytes := s.takeWhile (· ≠ 0)

/-- Whether `string.find` finds a text, as `strstr` does. -/
def stringFind (s pattern : Bytes) : Bool :=
  decide (s ≠ []) && (cString s).tails.any fun t => (cString pattern).isPrefixOf t

/-- The comparison with an operand that the operators `>` and `<` make. -/
def Expected.compare (f : FieldValue → FieldValue → Bool) (actual : FieldValue) : Expected → Bool
  | value v => f actual v
  | list _ => false

def Expected.isNil : Expected → Bool
  | value .nil => true
  | _ => false

/-- A condition on the value of a field: none where it raises an error. -/
def evalCondition (actual : FieldValue) (op : Bytes) (expected : Expected) : Option Bool :=
  if op = ascii "eq" then some (expected.compare FieldValue.equal actual)
  else if op = ascii "ne" then some (!expected.compare FieldValue.equal actual)
  else if op = ascii "gt" then
    some (decide (actual ≠ .nil) && !expected.isNil && expected.compare FieldValue.greater actual)
  else if op = ascii "gte" then
    some (decide (actual ≠ .nil) && !expected.isNil && !expected.compare FieldValue.less actual)
  else if op = ascii "lt" then
    some (decide (actual ≠ .nil) && !expected.isNil && expected.compare FieldValue.less actual)
  else if op = ascii "lte" then
    some (decide (actual ≠ .nil) && !expected.isNil && !expected.compare FieldValue.greater actual)
  else if op = ascii "startswith" then
    match expected, actual with
    | .value (.string beginning), .string s => some (beginning.isPrefixOf s)
    | .list _, .string _ => some false
    | _, _ => none
  else if op = ascii "contains" then
    match expected, actual with
    | .value (.string pattern), .string s => some (stringFind s pattern)
    | _, _ => none
  else if op = ascii "in" then expected.elements.map fun vs => vs.any fun v => v.equal actual
  else some false

def queryOptionKeys : List Bytes :=
  [ascii "order_by", ascii "limit", ascii "offset", ascii "select"]

/-- Whether a key of the query is a condition. -/
def isConditionKey (k : Bytes) : Bool :=
  decide (k ≠ ascii "all") && decide (k ≠ ascii "any") && !queryOptionKeys.contains k

def Condition.field (c : Condition) : Bytes := (parseConditionKey c.key).1
def Condition.op (c : Condition) : Bytes := (parseConditionKey c.key).2

def rowMatchesConditions (row : Row) : List Condition → Option Bool
  | [] => some true
  | c :: rest =>
    if isConditionKey c.key then do
      if ← evalCondition (row c.field) c.op c.expected then rowMatchesConditions row rest
      else return false
    else rowMatchesConditions row rest

mutual

def rowMatchesQuery (row : Row) : Query → Option Bool
  | .mk conditions all any => do
    if !(← rowMatchesConditions row conditions) then return false
    if !(← matchesAllOf row all) then return false
    matchesAnyOf row any

def matchesAllOf (row : Row) : Option (List Query) → Option Bool
  | none => some true
  | some clauses => matchesAll row clauses

def matchesAnyOf (row : Row) : Option (List Query) → Option Bool
  | none => some true
  | some clauses => matchesAny row clauses

def matchesAll (row : Row) : List Query → Option Bool
  | [] => some true
  | clause :: rest => do
    if ← rowMatchesQuery row clause then matchesAll row rest else return false

def matchesAny (row : Row) : List Query → Option Bool
  | [] => some false
  | clause :: rest => do
    if ← rowMatchesQuery row clause then return true else matchesAny row rest

end

def getIndexForField (indexes : List IndexState) (field : Bytes) : Option IndexState :=
  match indexes.find? fun idx => decide (idx.name = field) with
  | some idx => some idx
  | none => indexes.find? fun idx => decide (idx.field = field)

def loadByIndexRange (st : TableState) (idx : IndexState) (min max : Option Bytes) : List Row :=
  (idx.tree.range min max none).filterMap fun entry => st.primary.get entry.value

def loadByIndexValue (st : TableState) (idx : IndexState) (value : Expected) : List Row :=
  loadByIndexRange st idx (some value.secondaryMin) (some value.secondaryMax)

/-- Whether a row with the id is in a list of rows. -/
def hasId (rows : List Row) (id : FieldValue) : Bool := rows.any fun row => (row primaryKey).equal id

def intersectRows : Option (List Row) → List Row → List Row
  | none, right => right
  | some left, right => left.filter fun row => hasId right (row primaryKey)

/-- The rows on the right that are not in the list yet go behind it. -/
def addRows (out : List Row) : List Row → List Row
  | [] => out
  | row :: rest => if hasId out (row primaryKey) then addRows out rest else addRows (out ++ [row]) rest

def unionRows : Option (List Row) → List Row → List Row
  | none, right => right
  | some left, right => addRows left right

def indexedOps : List Bytes :=
  [ascii "eq", ascii "in", ascii "gte", ascii "gt", ascii "lte", ascii "lt", ascii "startswith"]

def canUseIndexForCondition (op : Bytes) (expected : Expected) : Bool :=
  indexedOps.contains op && !expected.isNil

def unionOverValues (st : TableState) (idx : IndexState) (unioned : Option (List Row)) :
    List FieldValue → Option (List Row)
  | [] => unioned
  | v :: vs =>
    unionOverValues st idx (some (unionRows unioned (loadByIndexValue st idx (.value v)))) vs

/-- The rows that an index finds: none where an error is raised. -/
def indexRowsForCondition (st : TableState) (idx : IndexState) (op : Bytes) (expected : Expected) :
    Option (List Row) :=
  if op = ascii "eq" then some (loadByIndexValue st idx expected)
  else if op = ascii "in" then
    expected.elements.map fun vs => (unionOverValues st idx none vs).getD []
  else if op = ascii "gte" then some (loadByIndexRange st idx (some expected.secondaryMin) none)
  else if op = ascii "gt" then some (loadByIndexRange st idx (some expected.secondaryMax) none)
  else if op = ascii "lte" then some (loadByIndexRange st idx none (some expected.secondaryMax))
  else if op = ascii "lt" then some (loadByIndexRange st idx none (some expected.secondaryMin))
  else
    match expected with
    | .value (.string s) =>
      some (loadByIndexRange st idx (some (ascii "s:" ++ s)) (some (ascii "s:" ++ s ++ hi)))
    | _ => none

/-- The index that is used for a condition. -/
def indexFor (st : TableState) (c : Condition) : Option IndexState :=
  if isConditionKey c.key then
    match getIndexForField st.indexes c.field with
    | some idx => if canUseIndexForCondition c.op c.expected then some idx else none
    | none => none
  else none

def pickFrom (st : TableState) (candidates : Option (List Row)) :
    List Condition → Option (Option (List Row))
  | [] => some candidates
  | c :: rest =>
    match indexFor st c with
    | none => pickFrom st candidates rest
    | some idx => do
      let rows ← indexRowsForCondition st idx c.op c.expected
      pickFrom st (some (intersectRows candidates rows)) rest

def pickIndexCandidates (st : TableState) (q : Query) : Option (Option (List Row)) :=
  if q.grouped then some none else pickFrom st none q.conditions

/-- The rows that the query matches: none where it raises an error. -/
def selectRows (q : Query) : List Row → Option (List Row)
  | [] => some []
  | row :: rest => do
    let isMatch ← rowMatchesQuery row q
    let out ← selectRows q rest
    return if isMatch then row :: out else out

def allRows (st : TableState) : List Row := st.primary.map Binding.value

/-- `filter`, with what `sort_rows`, `apply_offset_limit` and `apply_select` make of the rows. -/
def filter (q : Query) (arrange : List Row → Option (List Row)) (st : TableState) :
    Option (List Row) := do
  let candidates ← pickIndexCandidates st q
  let out ← selectRows q (candidates.getD (allRows st))
  arrange out

def patched (row delta : Row) : Row := fun k =>
  if k = primaryKey then row primaryKey else if delta k ≠ .nil then delta k else row k

section Proxy

variable (check : Row → Option Row)

/-- What a patch makes of a row: none where it raises an error, and some none to leave the row out. -/
abbrev Patch := Row → Option (Option Row)

def updateRows (refusals : Nat → Refusals) (patch : Patch) :
    Nat → List Row → TableState → Outcome Nat
  | updated, [], st => .returned updated st
  | updated, row :: rest, st =>
    match patch row with
    | none => .raised .query st
    | some none => updateRows refusals patch updated rest st
    | some (some delta) =>
      match put check (refusals updated) (patched row delta) st with
      | .returned _ st => updateRows refusals patch (updated + 1) rest st
      | .raised why st => .raised why st

def updateWhere (refusals : Nat → Refusals) (q : Query) (arrange : List Row → Option (List Row))
    (patch : Patch) (st : TableState) : Outcome Nat :=
  match filter q arrange st with
  | none => .raised .query st
  | some rows => updateRows check refusals patch 0 rows st

def deleteRows : Nat → List Row → TableState → Outcome Nat
  | deleted, [], st => .returned deleted st
  | deleted, row :: rest, st =>
    match delete (row primaryKey) st with
    | .returned true st => deleteRows (deleted + 1) rest st
    | .returned false st => deleteRows deleted rest st
    | .raised why st => .raised why st

def deleteWhere (q : Query) (arrange : List Row → Option (List Row)) (st : TableState) :
    Outcome Nat :=
  match filter q arrange st with
  | none => .raised .query st
  | some rows => deleteRows 0 rows st

end Proxy

end ToiLang.Database
