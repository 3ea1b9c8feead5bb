import ToiLang.BTree.Atom
import ToiLang.LittleEndian

namespace ToiLang

def btreePageSize : Nat := 4096
def pageHeaderSize : Nat := 16
def slotSize : Nat := 2

def pageTypeFree : UInt8 := 0
def pageTypeLeaf : UInt8 := 1
def pageTypeInternal : UInt8 := 2

/-- A page without its id. `nkeys` is the number of the entries. -/
inductive NodeData
  | leaf (leftChild : UInt32) (entries : List LeafEntry)
  | internal (leftChild : UInt32) (entries : List InternalEntry)
  deriving DecidableEq, Repr

/-- Why a page gives no node: `node_load` returns 0, or it reads outside of the page. -/
inductive PageError
  | failed
  | outOfBounds
  deriving DecidableEq, Repr

abbrev Reading := Except PageError

/- A pointer into a page is the list of the bytes from there to the end of the page. -/

def rdU16 (p : Bytes) : Nat := leValue 2 p
def rdU32 (p : Bytes) : UInt32 := UInt32.ofNat (leValue 4 p)

def wrU16 (v : Nat) : Bytes := leBytes 2 v
def wrU32 (v : UInt32) : Bytes := leBytes 4 v.toNat

/-- The bytes of a number in memory. -/
def doubleBytes (x : Double) : Bytes := leBytes 8 x.toNat

def rdDouble (p : Bytes) : Double := UInt64.ofNat (leValue 8 p)

/-- `memcpy(page + off, bytes, …)` -/
def setBytes (page : Bytes) (off : Nat) (bytes : Bytes) : Bytes :=
  page.take off ++ bytes ++ page.drop (off + bytes.length)

def atomEncode : BTreeAtom → Bytes
  | .number x => 1 :: doubleBytes x
  | .string s => 2 :: wrU32 (UInt32.ofNat s.length) ++ s

/-- The bytes used and the atom. The sum of 5 and a length is taken in 32 bits. -/
def atomDecode (p : Bytes) (inSize : Nat) : Reading (Nat × BTreeAtom) :=
  if inSize < 1 then .error .failed
  else match p with
  | [] => .error .outOfBounds
  | type :: rest =>
    if type = 1 then
      if inSize < 9 then .error .failed
      else if rest.length < 8 then .error .outOfBounds
      else .ok (9, .number (rdDouble rest))
    else if type = 2 then
      if inSize < 5 then .error .failed
      else if rest.length < 4 then .error .outOfBounds
      else
        let len := (rdU32 rest).toNat
        let used := (5 + len) % 2 ^ 32
        if inSize < used then .error .failed
        else if (rest.drop 4).length < len then .error .outOfBounds
        else .ok (used, .string ((rest.drop 4).take len))
    else .error .failed

def pageGetType (page : Bytes) : UInt8 := page.getD 0 0
def pageGetNkeys (page : Bytes) : Nat := rdU16 (page.drop 2)
def pageGetFreeStart (page : Bytes) : Nat := rdU16 (page.drop 4)
def pageGetFreeEnd (page : Bytes) : Nat := rdU16 (page.drop 6)
def pageGetLeftChild (page : Bytes) : UInt32 := rdU32 (page.drop 8)

def slotOffset (idx : Nat) : Nat := pageHeaderSize + idx * slotSize

def pageSlot (page : Bytes) (idx : Nat) : Reading Nat :=
  if page.length < slotOffset idx + 2 then .error .outOfBounds
  else .ok (rdU16 (page.drop (slotOffset idx)))

def pageSetSlot (page : Bytes) (idx off : Nat) : Bytes := setBytes page (slotOffset idx) (wrU16 off)

def pageInit (type : UInt8) (leftChild : UInt32) : Bytes :=
  let page := List.replicate btreePageSize 0
  let page := setBytes page 0 [type]
  let page := setBytes page 2 (wrU16 0)
  let page := setBytes page 4 (wrU16 pageHeaderSize)
  let page := setBytes page 6 (wrU16 btreePageSize)
  setBytes page 8 (wrU32 leftChild)

/-- The slots from `index` to `n` move up by one. -/
def shiftSlots (page : Bytes) (index : Nat) : Nat → Bytes
  | 0 => page
  | n + 1 =>
    if index < n + 1 then
      shiftSlots (pageSetSlot page (n + 1) (rdU16 (page.drop (slotOffset n)))) index n
    else page

def pageAddRecord (page : Bytes) (index : Nat) (rec : Bytes) : Option Bytes :=
  let n := pageGetNkeys page
  let fs := pageGetFreeStart page
  let fe := pageGetFreeEnd page
  if index > n then none
  else if rec.length + slotSize > fe - fs then none
  else
    let newOff := fe - rec.length
    let page := setBytes page newOff rec
    let page := shiftSlots page index n
    let page := pageSetSlot page index newOff
    let page := setBytes page 2 (wrU16 (n + 1))
    let page := setBytes page 4 (wrU16 (fs + slotSize))
    some (setBytes page 6 (wrU16 newOff))

def loadLeafEntry (page : Bytes) (i : Nat) : Reading LeafEntry := do
  let off ← pageSlot page i
  if off ≥ btreePageSize then .error .failed
  else
    let (used, key) ← atomDecode (page.drop off) (btreePageSize - off)
    let (_, value) ← atomDecode (page.drop (off + used)) (btreePageSize - off - used)
    return ⟨key, value⟩

def loadInternalEntry (page : Bytes) (i : Nat) : Reading InternalEntry := do
  let off ← pageSlot page i
  if off ≥ btreePageSize then .error .failed
  else
    let (used, key) ← atomDecode (page.drop off) (btreePageSize - off)
    if btreePageSize - off - used < 4 then .error .failed
    else if (page.drop (off + used)).length < 4 then .error .outOfBounds
    else return ⟨key, rdU32 (page.drop (off + used))⟩

/-- `node_load` on the bytes of the page. -/
def loadNode (page : Bytes) : Reading NodeData :=
  let type := pageGetType page
  let nkeys := pageGetNkeys page
  let fs := pageGetFreeStart page
  let fe := pageGetFreeEnd page
  if type ≠ pageTypeLeaf ∧ type ≠ pageTypeInternal then .error .failed
  else if fs < pageHeaderSize ∨ fs > btreePageSize then .error .failed
  else if fe > btreePageSize ∨ fe < pageHeaderSize then .error .failed
  else if type = pageTypeLeaf then do
    let entries ← (List.range nkeys).mapM (loadLeafEntry page)
    return .leaf (pageGetLeftChild page) entries
  else do
    let entries ← (List.range nkeys).mapM (loadInternalEntry page)
    return .internal (pageGetLeftChild page) entries

/-- The record has at most 65535 bytes; the sizes are added in 32 bits. -/
def encodeLeafRecord (entry : LeafEntry) : Option Bytes :=
  let ks := atomEncodedSize entry.key
  let vs := atomEncodedSize entry.value
  let rs := (ks + vs) % 2 ^ 32
  if rs > 65535 then none
  else if rs < ks then none
  else if rs - ks < vs then none
  else some (atomEncode entry.key ++ atomEncode entry.value)

def encodeInternalRecord (entry : InternalEntry) : Option Bytes :=
  let ks := atomEncodedSize entry.key
  let rs := (ks + 4) % 2 ^ 32
  if rs > 65535 then none
  else if rs < ks then none
  else some (atomEncode entry.key ++ wrU32 entry.child)

/-- The records go into the page one behind the other. -/
def addRecords (page : Bytes) (recs : List (Option Bytes)) : Option Bytes :=
  recs.zipIdx.foldlM (fun page (rec, i) => do
    let rec ← rec
    pageAddRecord page i rec) page

/-- The page that `node_write` makes of a node, when its records fit. -/
def nodePage : NodeData → Option Bytes
  | .leaf leftChild entries =>
    addRecords (pageInit pageTypeLeaf leftChild) (entries.map encodeLeafRecord)
  | .internal leftChild entries =>
    addRecords (pageInit pageTypeInternal leftChild) (entries.map encodeInternalRecord)

/-- The sum is taken in 32 bits and given up when it is over the size of a page. -/
def fitsFrom (used : Nat) : List Nat → Bool
  | [] => true
  | size :: sizes =>
    let used := (used + size) % 2 ^ 32
    if used > btreePageSize then false else fitsFrom used sizes

def leafRecordSize (e : LeafEntry) : Nat := atomEncodedSize e.key + atomEncodedSize e.value
def internalRecordSize (e : InternalEntry) : Nat := atomEncodedSize e.key + 4

def nodeFitsLeaf (entries : List LeafEntry) : Bool :=
  fitsFrom (pageHeaderSize + entries.length * slotSize) (entries.map leafRecordSize)

def nodeFitsInternal (entries : List InternalEntry) : Bool :=
  fitsFrom (pageHeaderSize + entries.length * slotSize) (entries.map internalRecordSize)

end ToiLang
