import Mathlib.Logic.Function.Basic
import ToiLang.BTree.Page

namespace ToiLang

/-- An open database with its pages, of the file or of the memory, by their ids. Ids behind the
last page have none. -/
structure BTreeDb where
  pages : UInt32 → Option Bytes
  rootPage : UInt32
  pageCount : UInt32
  freeHead : UInt32

/-- How a function on a database ends: with a result, with the result 0, or not in a defined way,
when it does not return or leaves the bounds of an array. -/
inductive IoResult (α : Type)
  | done (a : α) (db : BTreeDb)
  | failed (db : BTreeDb)
  | undefined

def Io (α : Type) : Type := BTreeDb → IoResult α

namespace Io

variable {α β : Type}

def fail : Io α := fun db => .failed db
def undefined : Io α := fun _ => .undefined
def getDb : Io BTreeDb := fun db => .done db db
def setDb (db : BTreeDb) : Io Unit := fun _ => .done () db

/-- The call with its result as a value. -/
def attempt (x : Io α) : Io Bool := fun db =>
  match x db with
  | .done _ db => .done true db
  | .failed db => .done false db
  | .undefined => .undefined

instance : Monad Io where
  pure a := fun db => .done a db
  bind x f := fun db =>
    match x db with
    | .done a db => f a db
    | .failed db => .failed db
    | .undefined => .undefined

@[simp] theorem pure_apply (a : α) (db : BTreeDb) : (pure a : Io α) db = .done a db := rfl

theorem bind_done {x : Io α} {f : α → Io β} {db db' : BTreeDb} {a : α} (h : x db = .done a db') :
    (x >>= f) db = f a db' := by
  simp only [bind, h]

theorem bind_failed {x : Io α} {f : α → Io β} {db db' : BTreeDb} (h : x db = .failed db') :
    (x >>= f) db = .failed db' := by
  simp only [bind, h]

theorem bind_undefined {x : Io α} {f : α → Io β} {db : BTreeDb} (h : x db = .undefined) :
    (x >>= f) db = .undefined := by
  simp only [bind, h]

end Io

def BTreeDb.writePage (db : BTreeDb) (pageId : UInt32) (page : Bytes) : BTreeDb :=
  { db with pages := Function.update db.pages pageId (some page) }

def headerPage (db : BTreeDb) : Bytes :=
  let page := List.replicate btreePageSize 0
  let page := setBytes page 0 (ascii "PBT2")
  let page := setBytes page 4 [1]
  let page := setBytes page 8 (wrU32 db.rootPage)
  let page := setBytes page 12 (wrU32 db.pageCount)
  setBytes page 16 (wrU32 db.freeHead)

def BTreeDb.writeHeader (db : BTreeDb) : BTreeDb := db.writePage 0 (headerPage db)

def dbReadPage (pageId : UInt32) : Io Bytes := fun db =>
  match db.pages pageId with
  | some page => .done page db
  | none => .failed db

def dbWritePage (pageId : UInt32) (page : Bytes) : Io Unit := fun db =>
  .done () (db.writePage pageId page)

def dbWriteHeader : Io Unit := fun db => .done () db.writeHeader

def nodeLoad (pageId : UInt32) : Io NodeData := do
  let page ← dbReadPage pageId
  match loadNode page with
  | .ok node => return node
  | .error .failed => Io.fail
  | .error .outOfBounds => Io.undefined

def nodeWrite (pageId : UInt32) (node : NodeData) : Io Unit :=
  match nodePage node with
  | some page => dbWritePage pageId page
  | none => Io.fail

def nodeWriteLeaf (pageId : UInt32) (entries : List LeafEntry) : Io Unit :=
  nodeWrite pageId (.leaf 0 entries)

def nodeWriteInternal (pageId leftChild : UInt32) (entries : List InternalEntry) : Io Unit :=
  nodeWrite pageId (.internal leftChild entries)

/-- The first free page, or one behind the last page. -/
def dbAllocPage : Io UInt32 := do
  let db ← Io.getDb
  if db.freeHead ≠ 0 then
    let page ← dbReadPage db.freeHead
    if pageGetType page ≠ pageTypeFree then Io.fail
    else
      Io.setDb { db with freeHead := rdU32 (page.drop 8) }
      dbWriteHeader
      return db.freeHead
  else
    Io.setDb { db with pageCount := db.pageCount + 1 }
    dbWritePage db.pageCount (List.replicate btreePageSize 0)
    dbWriteHeader
    return db.pageCount

def freePage (freeHead : UInt32) : Bytes :=
  setBytes (pageInit pageTypeFree 0) 8 (wrU32 freeHead)

def dbFreePage (pageId : UInt32) : Io Unit := do
  let db ← Io.getDb
  if pageId = 0 ∨ db.pageCount ≤ pageId then Io.fail
  else if pageId = db.rootPage then Io.fail
  else
    dbWritePage pageId (freePage db.freeHead)
    let db ← Io.getDb
    Io.setDb { db with freeHead := pageId }
    dbWriteHeader

/-- `btree_open_memory`, and `btree_open_file` on a new file. -/
def emptyDb : BTreeDb :=
  let db : BTreeDb := ⟨fun _ => none, 1, 2, 0⟩
  db.writeHeader.writePage 1 (pageInit pageTypeLeaf 0)

end ToiLang
