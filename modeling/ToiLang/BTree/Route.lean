import ToiLang.BTree.Store
import ToiLang.BTree.TreeDelete

namespace ToiLang

variable {db : BTreeDb} {key value : BTreeAtom} {lo hi : Option Rank}

/-- The children of two pages on one, with a key between them. -/
def Chain.append : Chain → BTreeAtom → Chain → Chain
  | one t, k, r => .cons t k r
  | cons t k' rest, k, r => .cons t k' (rest.append k r)

@[simp] theorem Chain.first_one (t : BTree) : (Chain.one t).first = t := rfl

@[simp] theorem Chain.first_cons (t : BTree) (k : BTreeAtom) (rest : Chain) :
    (Chain.cons t k rest).first = t := rfl

section Append

variable (l r : Chain) (k : BTreeAtom)

@[simp] theorem Chain.append_first : (l.append k r).first = l.first := by
  cases l <;> rfl

@[simp] theorem Chain.append_entries :
    (l.append k r).entries = l.entries ++ ⟨k, r.first.id⟩ :: r.entries := by
  induction l using Chain.induction with
  | one t => rfl
  | cons t k' rest ih => simp [Chain.append, Chain.entries, ih]

@[simp] theorem Chain.append_ids : (l.append k r).ids = l.ids ++ r.ids := by
  induction l using Chain.induction with
  | one t => rfl
  | cons t k' rest ih => simp [Chain.append, Chain.ids, ih]

@[simp] theorem Chain.append_contents : (l.append k r).contents = l.contents ++ r.contents := by
  induction l using Chain.induction with
  | one t => rfl
  | cons t k' rest ih => simp [Chain.append, Chain.contents, ih]

@[simp] theorem Chain.append_fits : (l.append k r).Fits ↔ l.Fits ∧ r.Fits := by
  induction l using Chain.induction with
  | one t => rfl
  | cons t k' rest ih => simp [Chain.append, Chain.Fits, ih, and_assoc]

@[simp] theorem Chain.append_stored : (l.append k r).Stored db ↔ l.Stored db ∧ r.Stored db := by
  induction l using Chain.induction with
  | one t => rfl
  | cons t k' rest ih => simp [Chain.append, Chain.Stored, ih, and_assoc]

end Append

theorem Chain.splitAt_append {n : Nat} {c l r : Chain} {k : BTreeAtom}
    (h : c.splitAt n = some (l, k, r)) : c = l.append k r ∧ l.entries.length = n := by
  induction n generalizing c l with
  | zero =>
    cases c with
    | one t => cases h
    | cons t k' rest =>
      cases Option.some.inj h
      exact ⟨rfl, rfl⟩
  | succ n ih =>
    cases c with
    | one t => cases h
    | cons t k' rest =>
      obtain ⟨⟨l', k₁, r₁⟩, h', heq⟩ := Option.map_eq_some_iff.mp h
      cases heq
      obtain ⟨hc, hn⟩ := ih h'
      exact ⟨by rw [hc]; rfl, by simp [Chain.entries, hn]⟩

/-- The children of a page around one of them, with the key and the children behind it if it is the
first. -/
inductive Hole
  | here (next : Option (BTreeAtom × Chain))
  | there (t : BTree) (key : BTreeAtom) (h : Hole)

namespace Hole

/-- Children in the place of the one that was left out. -/
def plug : Hole → Chain → Chain
  | here none, c => c
  | here (some (k, rest)), c => c.append k rest
  | there t k h, c => .cons t k (h.plug c)

def slot : Hole → Nat
  | here _ => 0
  | there _ _ h => h.slot + 1

def ids : Hole → List UInt32
  | here none => []
  | here (some (_, rest)) => rest.ids
  | there t _ h => t.ids ++ h.ids

def before : Hole → List LeafEntry
  | here _ => []
  | there t _ h => t.contents ++ h.before

def after : Hole → List LeafEntry
  | here none => []
  | here (some (_, rest)) => rest.contents
  | there _ _ h => h.after

def Fits : Hole → Prop
  | here none => True
  | here (some (_, rest)) => rest.Fits
  | there t _ h => t.Fits ∧ h.Fits

def Stored (db : BTreeDb) : Hole → Prop
  | here none => True
  | here (some (_, rest)) => rest.Stored db
  | there t _ h => t.Stored db ∧ h.Stored db

theorem plug_ids (h : Hole) (c : Chain) : (h.plug c).ids.Perm (c.ids ++ h.ids) := by
  induction h with
  | here next =>
    rcases next with _ | ⟨k, rest⟩
    · simp [plug, ids]
    · simp [plug, ids]
  | there t k h ih =>
    have hperm := (ih.append_left t.ids).trans (List.perm_append_comm_assoc t.ids c.ids h.ids)
    exact hperm

@[simp] theorem plug_contents (h : Hole) (c : Chain) :
    (h.plug c).contents = h.before ++ c.contents ++ h.after := by
  induction h with
  | here next => rcases next with _ | ⟨k, rest⟩ <;> simp [plug, before, after]
  | there t k h ih => simp [plug, before, after, Chain.contents, ih]

@[simp] theorem plug_fits (h : Hole) (c : Chain) : (h.plug c).Fits ↔ c.Fits ∧ h.Fits := by
  induction h with
  | here next => rcases next with _ | ⟨k, rest⟩ <;> simp [plug, Fits]
  | there t k h ih => simp [plug, Fits, Chain.Fits, ih, and_left_comm]

@[simp] theorem plug_stored (h : Hole) (c : Chain) :
    (h.plug c).Stored db ↔ c.Stored db ∧ h.Stored db := by
  induction h with
  | here next => rcases next with _ | ⟨k, rest⟩ <;> simp [plug, Stored]
  | there t k h ih => simp [plug, Stored, Chain.Stored, ih, and_left_comm]

theorem Stored.frame {db db' : BTreeDb} {h : Hole} (hs : h.Stored db)
    (hp : ∀ q ∈ h.ids, db'.pages q = db.pages q) : h.Stored db' := by
  induction h with
  | here next =>
    rcases next with _ | ⟨k, rest⟩
    · trivial
    · exact Chain.Stored.frame (c := rest) hs hp
  | there t k h ih =>
    exact ⟨hs.1.frame fun q hq => hp q (List.mem_append_left _ hq),
      ih hs.2 fun q hq => hp q (List.mem_append_right _ hq)⟩

/-- The entries of the page with other children in the place of one, when the first of them has its
page. -/
theorem plug_entries (h : Hole) {c : Chain} {u : BTree} (hid : c.first.id = u.id) :
    (h.plug c).first.id = (h.plug (.one u)).first.id ∧
      (h.plug c).entries = (h.plug (.one u)).entries.take h.slot ++ c.entries ++
        (h.plug (.one u)).entries.drop h.slot := by
  induction h with
  | here next =>
    rcases next with _ | ⟨k, rest⟩ <;> simp [plug, slot, hid, Chain.entries]
  | there t k h ih =>
    obtain ⟨hfirst, hentries⟩ := ih
    refine ⟨rfl, ?_⟩
    simp [plug, slot, Chain.entries, hfirst, hentries]

theorem plug_one_entries (h : Hole) {t u : BTree} (hid : t.id = u.id) :
    (h.plug (.one t)).first.id = (h.plug (.one u)).first.id ∧
      (h.plug (.one t)).entries = (h.plug (.one u)).entries := by
  obtain ⟨hfirst, hentries⟩ := h.plug_entries (c := .one t) hid
  refine ⟨hfirst, ?_⟩
  rw [hentries, Chain.entries, List.append_nil, List.take_append_drop]

theorem plug_two_entries (h : Hole) {l r u : BTree} {k : BTreeAtom} (hid : l.id = u.id) :
    (h.plug (.cons l k (.one r))).first.id = (h.plug (.one u)).first.id ∧
      (h.plug (.cons l k (.one r))).entries =
        buildWithInsert (h.plug (.one u)).entries h.slot ⟨k, r.id⟩ := by
  obtain ⟨hfirst, hentries⟩ := h.plug_entries (c := .cons l k (.one r)) hid
  refine ⟨hfirst, ?_⟩
  rw [hentries, List.append_assoc]
  rfl

theorem height_le_plug (h : Hole) (u : BTree) : u.height ≤ (h.plug (.one u)).height := by
  induction h with
  | here next =>
    rcases next with _ | ⟨k, rest⟩
    · exact le_rfl
    · exact le_max_left _ _
  | there t k h ih => exact ih.trans (le_max_right _ _)

end Hole

/-- The child that a key is routed to, and the others. -/
def Chain.route (key : BTreeAtom) : Chain → Hole × BTree
  | one t => (.here none, t)
  | cons t k rest =>
    if atomCompare key k = .lt then (.here (some (k, rest)), t)
    else (.there t k (rest.route key).1, (rest.route key).2)

theorem Chain.route_plug (key : BTreeAtom) (c : Chain) :
    (c.route key).1.plug (.one (c.route key).2) = c := by
  induction c using Chain.induction with
  | one t => rfl
  | cons t k rest ih =>
    unfold Chain.route
    split
    · rfl
    · exact congrArg (Chain.cons t k) ih

theorem Chain.put_route (key value : BTreeAtom) (c : Chain) (pool : Pool) :
    c.put key value pool =
      let (r, pool') := (c.route key).2.put key value pool
      (r.toChain (fun t => (c.route key).1.plug (.one t))
        fun l k r => (c.route key).1.plug (.cons l k (.one r)), pool') := by
  induction c using Chain.induction with
  | one t => rfl
  | cons t k rest ih =>
    unfold Chain.put Chain.route
    split
    · rfl
    · rw [ih]
      cases hr : (rest.route key).2.put key value pool with
      | mk r pool' => cases r <;> rfl

/-- The children with one more before those in which the delete was. -/
def DelChain.behind (t : BTree) (k : BTreeAtom) : DelChain → DelChain
  | kept c head => .kept (.cons t (head.join.getD k) c) none
  | headGone (some (k', c)) => .kept (.cons t k' c) none
  | headGone none => .kept (.one t) none
  | absent => .absent
  | undefined => .undefined

/-- The children after a delete in the one that was left out. -/
def Hole.afterDelete : Hole → DelTree → DelChain
  | here next, r => r.toChain (fun t => (here next).plug (.one t)) next
  | there t k h, r => (h.afterDelete r).behind t k

theorem Chain.delete_route (key : BTreeAtom) (c : Chain) (pool : Pool) :
    c.delete key pool =
      let (r, pool') := (c.route key).2.delete key pool
      ((c.route key).1.afterDelete r, pool') := by
  induction c using Chain.induction with
  | one t => rfl
  | cons t k rest ih =>
    unfold Chain.delete Chain.route
    split
    · rfl
    · rw [ih]
      cases hr : (rest.route key).2.delete key pool with
      | mk r pool' =>
        simp only [Hole.afterDelete]
        cases (rest.route key).1.afterDelete r with
        | headGone next => cases next <;> rfl
        | absent | kept | undefined => rfl

theorem findRoute_slot (key : BTreeAtom) (s : Nat) (child : UInt32) (entries : List InternalEntry) :
    findRoute key s child entries =
      (s + (findRoute key 0 child entries).1, (findRoute key 0 child entries).2) := by
  induction entries generalizing s child with
  | nil => rfl
  | cons e entries ih =>
    unfold findRoute
    split
    · rfl
    · rw [ih (s + 1), ih (0 + 1)]
      simp only [Prod.mk.injEq, and_true]
      omega

/-- `internal_find_route` finds the child that a key is routed to. -/
theorem internalFindRoute_eq (key : BTreeAtom) (c : Chain) :
    internalFindRoute c.first.id c.entries key = ((c.route key).1.slot, (c.route key).2.id) := by
  unfold internalFindRoute
  induction c using Chain.induction with
  | one t => rfl
  | cons t k rest ih =>
    unfold Chain.route
    simp only [Chain.entries, Chain.first_cons, findRoute]
    split
    · rfl
    · rw [findRoute_slot, ih]
      simp only [Hole.slot, Prod.mk.injEq, and_true]
      omega

/-- The bindings before the child that a key is routed to are of smaller keys, those behind it of
larger ones. -/
theorem Chain.Ordered.route {c : Chain} (h : c.Ordered lo hi) (hk : key.Valid) :
    (∀ a ∈ (c.route key).1.before, a.rank < key.rank) ∧
      (∀ a ∈ (c.route key).1.after, key.rank < a.rank) ∧
      ∃ lo' hi', (c.route key).2.Ordered lo' hi' := by
  induction c using Chain.induction generalizing lo with
  | one t => exact ⟨(fun a ha => nomatch ha), (fun a ha => nomatch ha), lo, hi, h⟩
  | cons t k rest ih =>
    obtain ⟨hkv, ht, hrest⟩ := h
    unfold Chain.route
    split
    next hlt =>
      have hlt : key.rank < k.rank := (atomCompare_lt hk hkv).mp hlt
      refine ⟨(fun a ha => nomatch ha), fun a ha => ?_, lo, some k.rank, ht⟩
      exact hlt.trans_le (above_some.mp (hrest.contents.2.above a ha))
    next hge =>
      have hge : k.rank ≤ key.rank := by
        rw [atomCompare_lt hk hkv] at hge
        exact not_lt.mp hge
      obtain ⟨hbefore, hafter, ho⟩ := ih hrest
      refine ⟨fun a ha => ?_, hafter, ho⟩
      rcases List.mem_append.mp ha with ha | ha
      · exact (below_some.mp (ht.contents.2.below a ha)).trans_le hge
      · exact hbefore a ha

end ToiLang
