import ToiLang.BTree.StoreRead

namespace ToiLang

variable {db : BTreeDb} {key value : BTreeAtom} {ids : List UInt32} {pool : Pool}

mutual

/-- The entries of the leaf that a key is routed to. -/
def BTree.leafOf (key : BTreeAtom) : BTree → List LeafEntry
  | .leaf _ entries => entries
  | .node _ c => c.leafOf key

def Chain.leafOf (key : BTreeAtom) : Chain → List LeafEntry
  | .one t => t.leafOf key
  | .cons t k rest => if atomCompare key k = .lt then t.leafOf key else rest.leafOf key

end

theorem Chain.leafOf_route (key : BTreeAtom) (c : Chain) :
    c.leafOf key = (c.route key).2.leafOf key := by
  induction c using Chain.induction with
  | one t => rfl
  | cons t k rest ih =>
    unfold Chain.leafOf Chain.route
    split
    · rfl
    · exact ih

/-- The leaf cannot take the binding, and nothing is written: a new value without room, or a new
entry that is alone, or one so long that the sum of the sizes is not over the size of a page. -/
def LeafRefuses (entries : List LeafEntry) (key value : BTreeAtom) : Prop :=
  let (pos, found) := leafFindSlot entries key
  if found then 4096 < (NodeData.leaf 0 (setValueAt entries pos value)).size
  else
    let all := buildWithInsert entries pos ⟨key, value⟩
    4096 < (NodeData.leaf 0 all).size ∧ (nodeFitsLeaf all = true ∨ all.length / 2 = 0)

/-- The leaf cannot take the binding, and a page is allocated for nothing: the left half has no
room, or it is the leaf as it was and the right half has no room. -/
def LeafLeaks (entries : List LeafEntry) (key value : BTreeAtom) : Prop :=
  let (pos, found) := leafFindSlot entries key
  let all := buildWithInsert entries pos ⟨key, value⟩
  let mid := all.length / 2
  found = false ∧ nodeFitsLeaf all = false ∧ mid ≠ 0 ∧
    (4096 < (NodeData.leaf 0 (all.take mid)).size ∨
      all.take mid = entries ∧ 4096 < (NodeData.leaf 0 (all.drop mid)).size)

theorem leafInsert_refuses {id : UInt32} {entries : List LeafEntry}
    (h : LeafRefuses entries key value) : leafInsert id entries key value db = .failed db := by
  unfold LeafRefuses at h
  unfold leafInsert
  generalize leafFindSlot entries key = slot at h ⊢
  obtain ⟨pos, found⟩ := slot
  cases found with
  | true => exact Io.bind_failed (nodeWrite_failed h id db)
  | false =>
    obtain ⟨hsize, hor⟩ := h
    simp only [Bool.false_eq_true, ↓reduceIte]
    generalize buildWithInsert entries pos ⟨key, value⟩ = all at hsize hor ⊢
    by_cases hfits : nodeFitsLeaf all = true
    · rw [if_pos hfits]
      exact Io.bind_failed (nodeWrite_failed hsize id db)
    · rw [if_neg hfits]
      have hmid : all.length / 2 = 0 := hor.resolve_left hfits
      rw [hmid]
      cases all[0]? <;> rfl

/-- A put in a leaf that is not found and has no room: the split, and what it leaves. -/
theorem leafInsert_split {id : UInt32} {entries : List LeafEntry} {pos : Nat}
    (hslot : leafFindSlot entries key = (pos, false)) (hentries : ∀ e ∈ entries, e.Valid)
    (hk : key.Valid) (hv : value.Valid) (h : db.Keeps (id :: ids) pool) (hroom : pool.HasRoom 1)
    (hfits : nodeFitsLeaf (buildWithInsert entries pos ⟨key, value⟩) = false)
    (hmid : (buildWithInsert entries pos ⟨key, value⟩).length / 2 ≠ 0) :
    let all := buildWithInsert entries pos ⟨key, value⟩
    let left := NodeData.leaf 0 (all.take (all.length / 2))
    let right := NodeData.leaf 0 (all.drop (all.length / 2))
    ∃ db', db'.Keeps (pool.alloc.1 :: id :: ids) pool.alloc.2 ∧ db.Same ids db' ∧
      (left.size ≤ 4096 → db'.Holds id left) ∧ (4096 < left.size → db'.pages id = db.pages id) ∧
      (¬ (left.size ≤ 4096 ∧ right.size ≤ 4096) →
        leafInsert id entries key value db = .failed db') := by
  have hall : ∀ e ∈ buildWithInsert entries pos ⟨key, value⟩, e.Valid :=
    buildWithInsert_forall hentries ⟨hk, hv⟩ pos
  unfold leafInsert
  simp only [hslot, Bool.false_eq_true, ↓reduceIte]
  generalize buildWithInsert entries pos ⟨key, value⟩ = all at hfits hmid hall ⊢
  have hlt : all.length / 2 < all.length := by omega
  have hget : all[all.length / 2]? = some all[all.length / 2] := List.getElem?_eq_getElem hlt
  obtain ⟨db', hk', hsame, hleft, hstay, -, hsplit⟩ :=
    splitPage_spec (.leaf 0 (all.take (all.length / 2))) (.leaf 0 (all.drop (all.length / 2)))
      all[all.length / 2].key
      (fun a ha => hall a (List.mem_of_mem_take ha))
      (fun a ha => hall a (List.mem_of_mem_drop ha)) h hroom
  refine ⟨db', hk', hsame, hleft, hstay, fun hn => ?_⟩
  simp only [hget, hfits, Bool.false_eq_true, ↓reduceIte, if_neg hmid]
  exact hsplit.trans (if_neg hn)

/-- The put fails where its leaf does. -/
theorem insertRecursive_refuses {fuel : Nat} {t : BTree} (hfuel : t.height < fuel)
    (hs : t.Stored db) (h : LeafRefuses (t.leafOf key) key value) :
    insertRecursive key value fuel t.id db = .failed db := by
  induction fuel generalizing t with
  | zero => omega
  | succ fuel ih =>
    cases t with
    | leaf id entries => exact (Io.bind_done (nodeLoad_holds hs)).trans (leafInsert_refuses h)
    | node id c =>
      have hle := (c.route key).1.height_le_plug (c.route key).2
      have hcs := hs.2
      rw [c.route_plug key] at hle
      rw [← c.route_plug key, Hole.plug_stored] at hcs
      have hchild := ih (t := (c.route key).2) (by simp only [BTree.height] at hfuel; omega) hcs.1
        (by rw [← c.leafOf_route key]; exact h)
      refine (Io.bind_done (nodeLoad_holds hs.1)).trans ?_
      simp only [internalFindRoute_eq]
      exact Io.bind_failed hchild

theorem leafInsert_leaks {id : UInt32} {entries : List LeafEntry}
    (hl : LeafLeaks entries key value) (hs : (BTree.leaf id entries).Stored db)
    (hk : key.Valid) (hv : value.Valid) (h : db.Keeps (id :: ids) pool) (hroom : pool.HasRoom 1) :
    ∃ db', leafInsert id entries key value db = .failed db' ∧
      db'.Keeps (id :: ids) (pool.alloc.2.leak pool.alloc.1) ∧
      (BTree.leaf id entries).Stored db' ∧ db.Same ids db' := by
  unfold LeafLeaks at hl
  cases hslot : leafFindSlot entries key with
  | mk pos found =>
    rw [hslot] at hl
    obtain ⟨rfl, hfits, hmid, hor⟩ := hl
    obtain ⟨db', hk', hsame, hleft, hstay, hfail⟩ :=
      leafInsert_split hslot hs.1 hk hv h hroom hfits hmid
    by_cases hsize : 4096 < (NodeData.leaf 0 ((buildWithInsert entries pos ⟨key, value⟩).take
        ((buildWithInsert entries pos ⟨key, value⟩).length / 2))).size
    · exact ⟨db', hfail fun hn => absurd hn.1 (by omega), hk'.leak,
        BTreeDb.Holds.frame hs (hstay hsize), hsame⟩
    · obtain ⟨htake, hright⟩ := hor.resolve_left hsize
      have hholds := hleft (by omega)
      rw [htake] at hholds
      exact ⟨db', hfail fun hn => absurd hn.2 (by omega), hk'.leak, hholds, hsame⟩

theorem insertRecursive_leaks {fuel : Nat} {t : BTree} (hfuel : t.height < fuel)
    (h : db.Keeps (t.ids ++ ids) pool) (hs : t.Stored db)
    (hl : LeafLeaks (t.leafOf key) key value) (hk : key.Valid) (hv : value.Valid)
    (hroom : pool.HasRoom 1) :
    ∃ db', insertRecursive key value fuel t.id db = .failed db' ∧
      db'.Keeps (t.ids ++ ids) (pool.alloc.2.leak pool.alloc.1) ∧ t.Stored db' ∧
      db.Same ids db' := by
  induction fuel generalizing t ids with
  | zero => omega
  | succ fuel ih =>
    cases t with
    | leaf id entries =>
      obtain ⟨db', hfail, hrest⟩ := leafInsert_leaks hl hs hk hv h hroom
      exact ⟨db', (Io.bind_done (nodeLoad_holds hs)).trans hfail, hrest⟩
    | node id c =>
      have hle := (c.route key).1.height_le_plug (c.route key).2
      have hcs := hs.2
      have hperm := c.route_perm key
      rw [c.route_plug key] at hle
      rw [← c.route_plug key, Hole.plug_stored] at hcs
      have hkeeps : db.Keeps ((c.route key).2.ids ++ id :: ((c.route key).1.ids ++ ids)) pool := by
        refine h.perm (List.perm_iff_count.mpr fun q => ?_)
        have hcount := hperm.count_eq q
        simp only [BTree.ids, List.count_append, List.count_cons] at hcount ⊢
        omega
      obtain ⟨db', hfail, hk', hs', hsame⟩ := ih (t := (c.route key).2)
        (by simp only [BTree.height] at hfuel; omega) hkeeps hcs.1
        (by rw [← c.leafOf_route key]; exact hl)
      refine ⟨db', (Io.bind_done (nodeLoad_holds hs.1)).trans ?_, hk'.perm ?_, ⟨?_, ?_⟩, ?_⟩
      · simp only [internalFindRoute_eq]
        exact Io.bind_failed hfail
      · refine List.perm_iff_count.mpr fun q => ?_
        have hcount := hperm.count_eq q
        simp only [BTree.ids, List.count_append, List.count_cons] at hcount ⊢
        omega
      · exact hs.1.frame (hsame.pages id List.mem_cons_self)
      · rw [← c.route_plug key, Hole.plug_stored]
        exact ⟨hs', hcs.2.frame fun q hq =>
          hsame.pages q (List.mem_cons_of_mem _ (List.mem_append_left _ hq))⟩
      · exact hsame.mono fun q hq => List.mem_cons_of_mem _ (List.mem_append_right _ hq)

theorem btreePut_refuses {t : BTree} (h : db.Represents t pool)
    (hl : LeafRefuses (t.leafOf key) key value) : btreePut key value db = .failed db := by
  have hheight := h.keeps.accounts.height_lt_self
  have hfail := insertRecursive_refuses hheight h.stored hl
  rw [h.root] at hfail
  exact (Io.bind_done (show Io.getDb db = .done db db from rfl)).trans (Io.bind_failed hfail)

theorem btreePut_leaks {t : BTree} (h : db.Represents t pool)
    (hl : LeafLeaks (t.leafOf key) key value) (hk : key.Valid) (hv : value.Valid)
    (hroom : pool.HasRoom 1) :
    ∃ db', btreePut key value db = .failed db' ∧
      db'.Represents t (pool.alloc.2.leak pool.alloc.1) := by
  have hkeeps := h.keeps
  rw [← List.append_nil t.ids] at hkeeps
  obtain ⟨db', hfail, hk', hs', hsame⟩ := insertRecursive_leaks
    (Pool.Accounts.height_lt hkeeps.accounts) hkeeps h.stored hl hk hv hroom
  rw [h.root] at hfail
  rw [List.append_nil] at hk'
  refine ⟨db', (Io.bind_done (show Io.getDb db = .done db db from rfl)).trans
    (Io.bind_failed hfail), ?_⟩
  exact ⟨h.root.trans hsame.root.symm, hs', hk'⟩

theorem BTree.rootPut_leaf {id : UInt32} {entries : List LeafEntry} {pos : Nat}
    (hslot : leafFindSlot entries key = (pos, false))
    (hsize : (NodeData.leaf 0 (buildWithInsert entries pos ⟨key, value⟩)).size ≤ 4096)
    (pool : Pool) : (BTree.leaf id entries).rootPut key value pool =
      (.leaf id (buildWithInsert entries pos ⟨key, value⟩), pool) := by
  unfold BTree.rootPut BTree.put leafPut
  simp only [hslot, Bool.false_eq_true, ↓reduceIte, nodeFitsLeaf_of_size hsize, true_or]
  cases (buildWithInsert entries pos ⟨key, value⟩)[
    (buildWithInsert entries pos ⟨key, value⟩).length / 2]? <;> rfl

/-- A put of a new key in a root that is a leaf with room for it. -/
theorem btreePut_leaf_done {id : UInt32} {entries : List LeafEntry} {pos : Nat}
    (h : db.Represents (.leaf id entries) pool) (hslot : leafFindSlot entries key = (pos, false))
    (hk : key.Valid) (hv : value.Valid) (hroom : pool.HasRoom 2)
    (hsize : (NodeData.leaf 0 (buildWithInsert entries pos ⟨key, value⟩)).size ≤ 4096) :
    ∃ db', btreePut key value db = .done () db' ∧
      db'.Represents (.leaf id (buildWithInsert entries pos ⟨key, value⟩)) pool := by
  have hdone := (btreePut_spec h hk hv hroom).1
  rw [BTree.rootPut_leaf hslot hsize] at hdone
  exact hdone hsize

/-- A put of a new key in a root that is a leaf, where the left half has room and the right one has
not: the bindings of the right half are gone. -/
theorem btreePut_leaf_failed {id : UInt32} {entries : List LeafEntry} {pos : Nat}
    (h : db.Represents (.leaf id entries) pool) (hslot : leafFindSlot entries key = (pos, false))
    (hk : key.Valid) (hv : value.Valid) (hroom : pool.HasRoom 1)
    (hfits : nodeFitsLeaf (buildWithInsert entries pos ⟨key, value⟩) = false)
    (hmid : (buildWithInsert entries pos ⟨key, value⟩).length / 2 ≠ 0) :
    let all := buildWithInsert entries pos ⟨key, value⟩
    (NodeData.leaf 0 (all.take (all.length / 2))).size ≤ 4096 →
    4096 < (NodeData.leaf 0 (all.drop (all.length / 2))).size →
    ∃ db', btreePut key value db = .failed db' ∧
      db'.Represents (.leaf id (all.take (all.length / 2)))
        (pool.alloc.2.leak pool.alloc.1) := by
  intro all hleft hright
  obtain ⟨hroot, hs, hkeeps⟩ := h
  obtain ⟨db', hk', hsame, hholds, -, hfail⟩ :=
    leafInsert_split hslot hs.1 hk hv hkeeps hroom hfits hmid
  have hinsert : insertRecursive key value UInt32.size id db = .failed db' :=
    (Io.bind_done (nodeLoad_holds hs)).trans (hfail fun hn => absurd hn.2 (not_le.mpr hright))
  rw [show id = db.rootPage from hroot] at hinsert
  refine ⟨db', (Io.bind_done (show Io.getDb db = .done db db from rfl)).trans
    (Io.bind_failed hinsert), hroot.trans hsame.root.symm, hholds hleft, hk'.leak⟩

end ToiLang
