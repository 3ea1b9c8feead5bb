import ToiLang.BTree.Db

namespace ToiLang

/-- The key and the page that a split hands to the parent. -/
structure Promote where
  key : BTreeAtom
  rightPage : UInt32
  deriving DecidableEq, Repr

/-- The loop of `leaf_find_slot`: the place of the key and whether it is there. -/
def leafFindLoop (entries : List LeafEntry) (key : BTreeAtom) : Nat → Nat → Nat → Nat × Bool
  | 0, lo, _ => (lo, false)
  | fuel + 1, lo, hi =>
    if lo < hi then
      let mid := lo + (hi - lo) / 2
      match entries[mid]? with
      | none => (lo, false)
      | some e =>
        match atomCompare key e.key with
        | .eq => (mid, true)
        | .lt => leafFindLoop entries key fuel lo mid
        | .gt => leafFindLoop entries key fuel (mid + 1) hi
    else (lo, false)

def leafFindSlot (entries : List LeafEntry) (key : BTreeAtom) : Nat × Bool :=
  leafFindLoop entries key entries.length 0 entries.length

/-- The loop of `internal_find_route`: the slot and the child that a key is routed to. -/
def findRoute (key : BTreeAtom) (slot : Nat) (child : UInt32) : List InternalEntry → Nat × UInt32
  | [] => (slot, child)
  | e :: entries =>
    if atomCompare key e.key = .lt then (slot, child)
    else findRoute key (slot + 1) e.child entries

def internalFindRoute (leftChild : UInt32) (entries : List InternalEntry) (key : BTreeAtom) :
    Nat × UInt32 := findRoute key 0 leftChild entries

/-- The entries with one more at a position, as both of the `…_build_with_insert` make them. -/
def buildWithInsert {α : Type} (entries : List α) (pos : Nat) (e : α) : List α :=
  entries.take pos ++ e :: entries.drop pos

def setValueAt (entries : List LeafEntry) (pos : Nat) (value : BTreeAtom) : List LeafEntry :=
  entries.modify pos fun e => { e with value }

/-- What is promoted when the page is split, or none. -/
def leafInsert (pageId : UInt32) (entries : List LeafEntry) (key value : BTreeAtom) :
    Io (Option Promote) :=
  let (pos, found) := leafFindSlot entries key
  if found then do
    nodeWriteLeaf pageId (setValueAt entries pos value)
    return none
  else
    let all := buildWithInsert entries pos ⟨key, value⟩
    if nodeFitsLeaf all then do
      nodeWriteLeaf pageId all
      return none
    else
      let mid := all.length / 2
      match all[mid]? with
      | none => Io.fail
      | some e =>
        if mid = 0 then Io.fail
        else do
          let rightPage ← dbAllocPage
          let okLeft ← (nodeWriteLeaf pageId (all.take mid)).attempt
          let okRight ← (nodeWriteLeaf rightPage (all.drop mid)).attempt
          if okLeft ∧ okRight then return some ⟨e.key, rightPage⟩ else Io.fail

/-- The end of `internal_insert`, when the child was split. -/
def internalAdd (pageId leftChild : UInt32) (entries : List InternalEntry) (slot : Nat)
    (promote : Promote) : Io (Option Promote) :=
  let all := buildWithInsert entries slot ⟨promote.key, promote.rightPage⟩
  if nodeFitsInternal all then do
    nodeWriteInternal pageId leftChild all
    return none
  else
    let mid := all.length / 2
    match all[mid]? with
    | none => Io.fail
    | some e =>
      if mid = 0 then Io.fail
      else do
        let rightPage ← dbAllocPage
        let okLeft ← (nodeWriteInternal pageId leftChild (all.take mid)).attempt
        let okRight ← (nodeWriteInternal rightPage e.child (all.drop (mid + 1))).attempt
        if okLeft ∧ okRight then return some ⟨e.key, rightPage⟩ else Io.fail

/-- `fuel` is more than the number of pages on any way down that does not come back to one. -/
def insertRecursive (key value : BTreeAtom) : Nat → UInt32 → Io (Option Promote)
  | 0, _ => Io.undefined
  | fuel + 1, pageId => do
    match ← nodeLoad pageId with
    | .leaf _ entries => leafInsert pageId entries key value
    | .internal leftChild entries =>
      let (slot, child) := internalFindRoute leftChild entries key
      match ← insertRecursive key value fuel child with
      | none => return none
      | some promote => internalAdd pageId leftChild entries slot promote

def btreePut (key value : BTreeAtom) : Io Unit := do
  let db ← Io.getDb
  match ← insertRecursive key value UInt32.size db.rootPage with
  | none => return ()
  | some promote =>
    let newRootPage ← dbAllocPage
    nodeWriteInternal newRootPage db.rootPage [⟨promote.key, promote.rightPage⟩]
    let db ← Io.getDb
    Io.setDb { db with rootPage := newRootPage }
    dbWriteHeader

/-- The descent of `btree_get_value` from a page: none for a key that is absent. -/
def getValue (key : BTreeAtom) : Nat → UInt32 → Io (Option BTreeAtom)
  | 0, _ => Io.undefined
  | fuel + 1, pageId => do
    match ← nodeLoad pageId with
    | .leaf _ entries =>
      let (pos, found) := leafFindSlot entries key
      return if found then (entries[pos]?).map LeafEntry.value else none
    | .internal leftChild entries => getValue key fuel (internalFindRoute leftChild entries key).2

def btreeGetValue (key : BTreeAtom) : Io (Option BTreeAtom) := do
  let db ← Io.getDb
  getValue key UInt32.size db.rootPage

/-- A negative limit is none. `index` is one more than the number of the rows. -/
def limitReached (limit : Int) (rows : List LeafEntry) : Bool :=
  decide (0 ≤ limit ∧ limit ≤ rows.length)

/-- The loop over the entries of a leaf. -/
def collectLeaf (min max : Option BTreeAtom) (limit : Int) :
    List LeafEntry → List LeafEntry → List LeafEntry
  | [], rows => rows
  | e :: entries, rows =>
    if limitReached limit rows then rows
    else if min.any fun min => atomCompare e.key min = .lt then collectLeaf min max limit entries rows
    else if max.any fun max => atomCompare e.key max = .gt then rows
    else collectLeaf min max limit entries (rows ++ [e])

/-- The rows so far and those of a page. -/
def collectRange (min max : Option BTreeAtom) (limit : Int) :
    Nat → UInt32 → List LeafEntry → Io (List LeafEntry)
  | 0, _, _ => Io.undefined
  | fuel + 1, pageId, rows =>
    if limitReached limit rows then pure rows
    else do
      match ← nodeLoad pageId with
      | .leaf _ entries => return collectLeaf min max limit entries rows
      | .internal leftChild entries =>
        let rows ← collectRange min max limit fuel leftChild rows
        entries.foldlM (fun rows e =>
          if limitReached limit rows then pure rows
          else collectRange min max limit fuel e.child rows) rows

def btreeCollectRange (min max : Option BTreeAtom) (limit : Int) : Io (List LeafEntry) := do
  let db ← Io.getDb
  collectRange min max limit UInt32.size db.rootPage []

/-- `min_changed` and `new_min` are the option. -/
structure DeleteResult where
  deleted : Bool
  removeChild : Bool
  replacementChild : UInt32
  newMin : Option BTreeAtom
  deriving DecidableEq, Repr

def DeleteResult.init : DeleteResult := ⟨false, false, 0, none⟩

def subtreeMinKey : Nat → UInt32 → Io BTreeAtom
  | 0, _ => Io.undefined
  | fuel + 1, pageId => do
    match ← nodeLoad pageId with
    | .leaf _ entries =>
      match entries.head? with
      | none => Io.fail
      | some e => return e.key
    | .internal leftChild _ => subtreeMinKey fuel leftChild

/-- Without entries the loops of `internal_remove_slot` begin before the array. -/
def internalRemoveSlot (leftChild : UInt32) (entries : List InternalEntry) (slot : Nat) :
    Io (UInt32 × List InternalEntry) :=
  match entries with
  | [] => Io.undefined
  | e :: rest => if slot = 0 then pure (e.child, rest) else pure (leftChild, entries.eraseIdx (slot - 1))

def deleteLeaf (pageId : UInt32) (entries : List LeafEntry) (key : BTreeAtom) (isRoot : Bool) :
    Io DeleteResult :=
  let (pos, found) := leafFindSlot entries key
  if !found then pure .init
  else
    let removedFirst := decide (pos = 0)
    let rest := entries.eraseIdx pos
    let newMin := if removedFirst then (rest.head?).map LeafEntry.key else none
    if isRoot then do
      nodeWriteLeaf pageId rest
      return { DeleteResult.init with deleted := true, newMin }
    else if rest = [] then do
      dbFreePage pageId
      return { DeleteResult.init with deleted := true, removeChild := true }
    else do
      nodeWriteLeaf pageId rest
      return { DeleteResult.init with deleted := true, newMin }

/-- The entries of a page after the deletion below its child at `slot`. -/
def updateRoute (leftChild : UInt32) (entries : List InternalEntry) (slot : Nat)
    (child : DeleteResult) : Io (UInt32 × List InternalEntry) :=
  if child.removeChild then
    if child.replacementChild ≠ 0 then
      if slot = 0 then pure (child.replacementChild, entries)
      else do
        let min ← subtreeMinKey UInt32.size child.replacementChild
        return (leftChild, entries.modify (slot - 1) fun _ => ⟨min, child.replacementChild⟩)
    else internalRemoveSlot leftChild entries slot
  else
    match child.newMin with
    | some min =>
      if 0 < slot then pure (leftChild, entries.modify (slot - 1) fun e => { e with key := min })
      else pure (leftChild, entries)
    | none => pure (leftChild, entries)

/-- The end of `btree_delete_internal`: the page is written, or its only child takes its place. -/
def finishInternal (pageId leftChild : UInt32) (entries : List InternalEntry) (slot : Nat)
    (isRoot : Bool) : Io DeleteResult :=
  if isRoot then do
    if entries = [] ∧ leftChild ≠ 0 then
      let db ← Io.getDb
      Io.setDb { db with rootPage := leftChild }
      dbWriteHeader
      if pageId ≠ leftChild then dbFreePage pageId
    else nodeWriteInternal pageId leftChild entries
    return { DeleteResult.init with deleted := true }
  else if entries = [] then do
    dbFreePage pageId
    return { DeleteResult.init with
      deleted := true
      removeChild := true
      replacementChild := leftChild }
  else do
    nodeWriteInternal pageId leftChild entries
    if slot = 0 then
      let min ← subtreeMinKey UInt32.size pageId
      return { DeleteResult.init with deleted := true, newMin := some min }
    else return { DeleteResult.init with deleted := true }

def deleteRecursive (key : BTreeAtom) : Nat → UInt32 → Bool → Io DeleteResult
  | 0, _, _ => Io.undefined
  | fuel + 1, pageId, isRoot => do
    match ← nodeLoad pageId with
    | .leaf _ entries => deleteLeaf pageId entries key isRoot
    | .internal leftChild entries =>
      let (slot, childPage) := internalFindRoute leftChild entries key
      let child ← deleteRecursive key fuel childPage false
      if !child.deleted then return .init
      else
        let (leftChild, entries) ← updateRoute leftChild entries slot child
        finishInternal pageId leftChild entries slot isRoot

/-- Whether the key was deleted. -/
def btreeDelete (key : BTreeAtom) : Io Bool := do
  let db ← Io.getDb
  let r ← deleteRecursive key UInt32.size db.rootPage true
  return r.deleted

end ToiLang
