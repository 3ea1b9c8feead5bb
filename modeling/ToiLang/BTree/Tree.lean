import ToiLang.BTree.Code
import ToiLang.BTree.Layout
import ToiLang.SortedMap

namespace ToiLang

open SortedMap

/- The tree that the pages of a database make up. A page is known by its id; the children of an
internal page stand between its keys. -/
mutual

inductive BTree
  | leaf (id : UInt32) (entries : List LeafEntry)
  | node (id : UInt32) (children : Chain)

inductive Chain
  | one (t : BTree)
  | cons (t : BTree) (key : BTreeAtom) (rest : Chain)

end

theorem Chain.induction {P : Chain → Prop} (one : ∀ t, P (.one t))
    (cons : ∀ t key rest, P rest → P (.cons t key rest)) (c : Chain) : P c := by
  cases c with
  | one t => exact one t
  | cons t key rest => exact cons t key rest (Chain.induction one cons rest)

def BTree.id : BTree → UInt32
  | leaf id _ => id
  | node id _ => id

def Chain.first : Chain → BTree
  | one t => t
  | cons t _ _ => t

/-- The entries of the page with these children; the first child is its left child. -/
def Chain.entries : Chain → List InternalEntry
  | one _ => []
  | cons _ key rest => ⟨key, rest.first.id⟩ :: rest.entries

def BTree.data : BTree → NodeData
  | leaf _ entries => .leaf 0 entries
  | node _ c => .internal c.first.id c.entries

mutual

/-- The bindings, in order. -/
def BTree.contents : BTree → List LeafEntry
  | .leaf _ entries => entries
  | .node _ c => c.contents

def Chain.contents : Chain → List LeafEntry
  | .one t => t.contents
  | .cons t _ rest => t.contents ++ rest.contents

end

mutual

/-- The pages of the tree. -/
def BTree.ids : BTree → List UInt32
  | .leaf id _ => [id]
  | .node id c => id :: c.ids

def Chain.ids : Chain → List UInt32
  | .one t => t.ids
  | .cons t _ rest => t.ids ++ rest.ids

end

mutual

def BTree.height : BTree → Nat
  | .leaf _ _ => 0
  | .node _ c => c.height + 1

def Chain.height : Chain → Nat
  | .one t => t.height
  | .cons t _ rest => max t.height rest.height

end

mutual

/-- The least key, as `subtree_min_key` finds it. -/
def BTree.minKey : BTree → Option BTreeAtom
  | .leaf _ entries => (entries.head?).map LeafEntry.key
  | .node _ c => c.minKey

def Chain.minKey : Chain → Option BTreeAtom
  | .one t => t.minKey
  | .cons t _ _ => t.minKey

end

mutual

/-- Every page has room for its records. -/
def BTree.Fits : BTree → Prop
  | .leaf _ entries => (NodeData.leaf 0 entries).size ≤ 4096
  | .node _ c => (NodeData.internal c.first.id c.entries).size ≤ 4096 ∧ c.Fits

def Chain.Fits : Chain → Prop
  | .one t => t.Fits
  | .cons t _ rest => t.Fits ∧ rest.Fits

end

abbrev Rank := Int ⊕ₗ List Nat

def LeafEntry.rank (e : LeafEntry) : Rank := e.key.rank

/-- A lower bound, absent at the left edge of the tree. -/
def Above (lo : Option Rank) (x : Rank) : Prop := ∀ l, lo = some l → l ≤ x

/-- An upper bound, absent at the right edge. -/
def Below (hi : Option Rank) (x : Rank) : Prop := ∀ h, hi = some h → x < h

structure LeafOrdered (lo hi : Option Rank) (entries : List LeafEntry) : Prop where
  sorted : Sorted LeafEntry.rank entries
  valid : ∀ e ∈ entries, e.Valid
  above : ∀ e ∈ entries, Above lo e.rank
  below : ∀ e ∈ entries, Below hi e.rank

mutual

/-- The keys of a subtree are in order and in its range, and no leaf is empty. -/
def BTree.Ordered (lo hi : Option Rank) : BTree → Prop
  | .leaf _ entries => entries ≠ [] ∧ LeafOrdered lo hi entries
  | .node _ c => c.Ordered lo hi

def Chain.Ordered (lo hi : Option Rank) : Chain → Prop
  | .one t => t.Ordered lo hi
  | .cons t key rest => key.Valid ∧ t.Ordered lo (some key.rank) ∧ rest.Ordered (some key.rank) hi

end

/-- A leaf that is the root may be empty. -/
def BTree.RootOrdered : BTree → Prop
  | leaf _ entries => LeafOrdered none none entries
  | node _ c => c.Ordered none none

/-- The free list, the number of the pages, and the pages that are in use nowhere. -/
structure Pool where
  free : List UInt32
  count : UInt32
  leaked : List UInt32

def Pool.alloc (pool : Pool) : UInt32 × Pool :=
  match pool.free with
  | p :: free => (p, { pool with free })
  | [] => (pool.count, { pool with count := pool.count + 1 })

def Pool.release (pool : Pool) (p : UInt32) : Pool := { pool with free := p :: pool.free }

def Pool.leak (pool : Pool) (p : UInt32) : Pool := { pool with leaked := p :: pool.leaked }

/-- A subtree after a put: one, or two with the key between them. -/
inductive PutTree
  | done (t : BTree)
  | split (l : BTree) (key : BTreeAtom) (r : BTree)

/-- The children after a put: the child was replaced or it became two. -/
inductive PutChain
  | done (c : Chain)
  | grown (c : Chain)

/-- What a leaf becomes: the value is replaced, the entry is inserted, or the leaf with the entry is
cut in the middle. -/
def leafPut (id : UInt32) (entries : List LeafEntry) (key value : BTreeAtom) (pool : Pool) :
    PutTree × Pool :=
  let (pos, found) := leafFindSlot entries key
  if found then (.done (.leaf id (setValueAt entries pos value)), pool)
  else
    let all := buildWithInsert entries pos ⟨key, value⟩
    let mid := all.length / 2
    match all[mid]? with
    | none => (.done (.leaf id all), pool)
    | some e =>
      if nodeFitsLeaf all ∨ mid = 0 then (.done (.leaf id all), pool)
      else
        let (rightPage, pool) := pool.alloc
        (.split (.leaf id (all.take mid)) e.key (.leaf rightPage (all.drop mid)), pool)

/-- The children before and behind the `n`-th key. -/
def Chain.splitAt : Nat → Chain → Option (Chain × BTreeAtom × Chain)
  | _, one _ => none
  | 0, cons t key rest => some (.one t, key, rest)
  | n + 1, cons t key rest => (rest.splitAt n).map fun (l, k, r) => (.cons t key l, k, r)

/-- The page with its new children, cut at the middle key when they have no room. -/
def chainPut (id : UInt32) (c : Chain) (pool : Pool) : PutTree × Pool :=
  let mid := c.entries.length / 2
  if nodeFitsInternal c.entries ∨ mid = 0 then (.done (.node id c), pool)
  else
    match c.splitAt mid with
    | none => (.done (.node id c), pool)
    | some (l, key, r) =>
      let (rightPage, pool) := pool.alloc
      (.split (.node id l) key (.node rightPage r), pool)

def PutTree.toChain (f : BTree → Chain) (g : BTree → BTreeAtom → BTree → Chain) :
    PutTree → PutChain
  | done t => .done (f t)
  | split l key r => .grown (g l key r)

def PutChain.map (f : Chain → Chain) : PutChain → PutChain
  | done c => .done (f c)
  | grown c => .grown (f c)

mutual

def BTree.put (key value : BTreeAtom) : BTree → Pool → PutTree × Pool
  | .leaf id entries, pool => leafPut id entries key value pool
  | .node id c, pool =>
    match c.put key value pool with
    | (.done c, pool) => (.done (.node id c), pool)
    | (.grown c, pool) => chainPut id c pool

def Chain.put (key value : BTreeAtom) : Chain → Pool → PutChain × Pool
  | .one t, pool =>
    let (r, pool) := t.put key value pool
    (r.toChain .one fun l k r => .cons l k (.one r), pool)
  | .cons t k rest, pool =>
    if atomCompare key k = .lt then
      let (r, pool) := t.put key value pool
      (r.toChain (fun t => .cons t k rest) fun l k' r => .cons l k' (.cons r k rest), pool)
    else
      let (r, pool) := rest.put key value pool
      (r.map (.cons t k), pool)

end

/-- The tree after `btree_put`: a root that was split gets a new root above it. -/
def BTree.rootPut (key value : BTreeAtom) (t : BTree) (pool : Pool) : BTree × Pool :=
  match t.put key value pool with
  | (.done t, pool) => (t, pool)
  | (.split l k r, pool) =>
    let (newRootPage, pool) := pool.alloc
    (.node newRootPage (.cons l k (.one r)), pool)

/-- A subtree after a delete. -/
inductive DelTree
  | absent
  | kept (t : BTree) (newMin : Option BTreeAtom)
  | gone
  | replaced (t : BTree)
  | undefined

/-- The children after a delete. When it was below the first of them, `head` has what becomes of the
key before it; a first child that is gone leaves what came behind it. -/
inductive DelChain
  | absent
  | kept (c : Chain) (head : Option (Option BTreeAtom))
  | headGone (next : Option (BTreeAtom × Chain))
  | undefined

def leafDelete (id : UInt32) (entries : List LeafEntry) (key : BTreeAtom) (pool : Pool) :
    DelTree × Pool :=
  let (pos, found) := leafFindSlot entries key
  if !found then (.absent, pool)
  else
    let rest := entries.eraseIdx pos
    if rest = [] then (.gone, pool.release id)
    else (.kept (.leaf id rest) (if pos = 0 then (rest.head?).map LeafEntry.key else none), pool)

/-- A page with one child left is replaced by it. -/
def chainDelete (id : UInt32) (c : Chain) (atHead : Bool) (pool : Pool) : DelTree × Pool :=
  match c with
  | .one t => (.replaced t, pool.release id)
  | .cons .. => (.kept (.node id c) (if atHead then c.minKey else none), pool)

def DelTree.toChain (f : BTree → Chain) (next : Option (BTreeAtom × Chain)) : DelTree → DelChain
  | absent => .absent
  | kept t newMin => .kept (f t) (some newMin)
  | gone => .headGone next
  | replaced t => .kept (f t) (some t.minKey)
  | undefined => .undefined

mutual

def BTree.delete (key : BTreeAtom) : BTree → Pool → DelTree × Pool
  | .leaf id entries, pool => leafDelete id entries key pool
  | .node id c, pool =>
    match c.delete key pool with
    | (.absent, pool) => (.absent, pool)
    | (.kept c head, pool) => chainDelete id c head.isSome pool
    | (.headGone (some (_, rest)), pool) => chainDelete id rest true pool
    | (.headGone none, pool) => (.undefined, pool)
    | (.undefined, pool) => (.undefined, pool)

def Chain.delete (key : BTreeAtom) : Chain → Pool → DelChain × Pool
  | .one t, pool =>
    let (r, pool) := t.delete key pool
    (r.toChain .one none, pool)
  | .cons t k rest, pool =>
    if atomCompare key k = .lt then
      let (r, pool) := t.delete key pool
      (r.toChain (fun t => .cons t k rest) (some (k, rest)), pool)
    else
      match rest.delete key pool with
      | (.kept c head, pool) => (.kept (.cons t (head.join.getD k) c) none, pool)
      | (.headGone (some (k', c)), pool) => (.kept (.cons t k' c) none, pool)
      | (.headGone none, pool) => (.kept (.one t) none, pool)
      | (.absent, pool) => (.absent, pool)
      | (.undefined, pool) => (.undefined, pool)

end

/-- The tree after `btree_delete` and whether the key was there. -/
def BTree.rootDelete (key : BTreeAtom) (t : BTree) (pool : Pool) : Option (BTree × Bool × Pool) :=
  match t with
  | .leaf id entries =>
    let (pos, found) := leafFindSlot entries key
    some (.leaf id (if found then entries.eraseIdx pos else entries), found, pool)
  | .node .. =>
    match t.delete key pool with
    | (.absent, pool) => some (t, false, pool)
    | (.kept t _, pool) => some (t, true, pool)
    | (.replaced t, pool) => some (t, true, pool)
    | (.gone, _) => none
    | (.undefined, _) => none

/-- The bindings after a put that is reported as done. A key that is there keeps its own form. -/
def bindEntry (key value : BTreeAtom) (entries : List LeafEntry) : List LeafEntry :=
  bind LeafEntry.rank ⟨((find LeafEntry.rank key.rank entries).map LeafEntry.key).getD key, value⟩
    entries

def unbindEntry (key : BTreeAtom) (entries : List LeafEntry) : List LeafEntry :=
  unbind LeafEntry.rank key.rank entries

end ToiLang
