import ToiLang.BTree.Route

namespace ToiLang

namespace PutTree

def promote : PutTree → Option Promote
  | done _ => none
  | split _ key r => some ⟨key, r.id⟩

def id : PutTree → UInt32
  | done t => t.id
  | split l _ _ => l.id

def ids : PutTree → List UInt32
  | done t => t.ids
  | split l _ r => l.ids ++ r.ids

def Fits : PutTree → Prop
  | done t => t.Fits
  | split l _ r => l.Fits ∧ r.Fits

def Stored (db : BTreeDb) : PutTree → Prop
  | done t => t.Stored db
  | split l key r => key.Valid ∧ l.Stored db ∧ r.Stored db

/-- The database after a put, where the pages of `ids` are those of the rest of the tree. -/
structure After (ids : List UInt32) (db db' : BTreeDb) (r : PutTree) (pool : Pool) : Prop where
  keeps : db'.Keeps (r.ids ++ ids) pool
  stored : r.Stored db'
  same : db.Same ids db'

end PutTree

variable {db db' : BTreeDb} {key value : BTreeAtom} {id : UInt32} {ids : List UInt32}
  {pool pool' : Pool}

theorem fitsFrom_true {sizes : List Nat} {used : Nat} (h : used + sizes.sum ≤ 4096) :
    fitsFrom used sizes = true := by
  induction sizes generalizing used with
  | nil => rfl
  | cons size sizes ih =>
    rw [List.sum_cons] at h
    have hmod : (used + size) % 2 ^ 32 = used + size := Nat.mod_eq_of_lt (by omega)
    simp only [fitsFrom, hmod, btreePageSize]
    rw [if_neg (by omega)]
    exact ih (by omega)

theorem nodeFitsLeaf_of_size {entries : List LeafEntry}
    (h : (NodeData.leaf 0 entries).size ≤ 4096) : nodeFitsLeaf entries = true := fitsFrom_true h

theorem nodeFitsInternal_of_size {p : UInt32} {entries : List InternalEntry}
    (h : (NodeData.internal p entries).size ≤ 4096) : nodeFitsInternal entries = true :=
  fitsFrom_true h

theorem Io.attempt_done {α : Type} {x : Io α} {a : α} (h : x db = .done a db') :
    x.attempt db = .done true db' := by
  simp only [Io.attempt, h]

theorem Io.attempt_failed {α : Type} {x : Io α} (h : x db = .failed db') :
    x.attempt db = .done false db' := by
  simp only [Io.attempt, h]

/-- Both of the splits: a page is allocated, and the halves are written. -/
def splitPage (pageId : UInt32) (left right : NodeData) (key : BTreeAtom) : Io (Option Promote) := do
  let rightPage ← dbAllocPage
  let okLeft ← (nodeWrite pageId left).attempt
  let okRight ← (nodeWrite rightPage right).attempt
  if okLeft ∧ okRight then return some ⟨key, rightPage⟩ else Io.fail

/-- A try to write a page in use: it has the node, or it is as it was. -/
theorem nodeWrite_attempt {n : NodeData} (hv : n.Valid) (h : db.Keeps (id :: ids) pool) :
    ∃ db', (nodeWrite id n).attempt db = .done (decide (n.size ≤ 4096)) db' ∧
      db'.Keeps (id :: ids) pool ∧ db.Same ids db' ∧
      (n.size ≤ 4096 → db'.Holds id n) ∧ (4096 < n.size → db' = db) := by
  by_cases hs : n.size ≤ 4096
  · obtain ⟨page, hwrite, hholds⟩ := nodeWrite_done hv hs id db
    have hni := (List.nodup_cons.mp h.accounts.nodup).1
    refine ⟨db.writePage id page, ?_, h.writePage (h.accounts.not_free List.mem_cons_self) page,
      writePage_same db page hni, fun _ => hholds, fun hn => absurd hs (by omega)⟩
    rw [Io.attempt_done hwrite, decide_eq_true hs]
  · refine ⟨db, ?_, h, .refl _ _, fun hn => absurd hn hs, fun _ => rfl⟩
    rw [Io.attempt_failed (nodeWrite_failed (by omega) id db), decide_eq_false hs]

/-- A split, and what is left on the page when it fails. -/
theorem splitPage_spec (left right : NodeData) (key : BTreeAtom) (hl : left.Valid) (hr : right.Valid)
    (h : db.Keeps (id :: ids) pool) (hroom : pool.HasRoom 1) :
    ∃ db', db'.Keeps (pool.alloc.1 :: id :: ids) pool.alloc.2 ∧ db.Same ids db' ∧
      (left.size ≤ 4096 → db'.Holds id left) ∧ (4096 < left.size → db'.pages id = db.pages id) ∧
      (right.size ≤ 4096 → db'.Holds pool.alloc.1 right) ∧
      splitPage id left right key db = if left.size ≤ 4096 ∧ right.size ≤ 4096
        then .done (some ⟨key, pool.alloc.1⟩) db' else .failed db' := by
  obtain ⟨db₁, halloc, hk₁, hsame₁⟩ := dbAllocPage_spec h hroom
    (h.accounts.count_ne_zero List.mem_cons_self)
  have hperm := List.Perm.swap id pool.alloc.1 ids
  obtain ⟨db₂, hleft, hk₂, hsame₂, hholds₂, hfail₂⟩ := nodeWrite_attempt hl (hk₁.perm hperm)
  obtain ⟨db₃, hright, hk₃, hsame₃, hholds₃, -⟩ := nodeWrite_attempt hr (hk₂.perm hperm.symm)
  refine ⟨db₃, hk₃, ?_, fun hs => ?_, fun hs => ?_, hholds₃, ?_⟩
  · exact (hsame₁.mono (List.subset_cons_self _ _)).trans
      ((hsame₂.mono (List.subset_cons_self _ _)).trans
        (hsame₃.mono (List.subset_cons_self _ _)))
  · exact (hholds₂ hs).frame (hsame₃.pages id List.mem_cons_self)
  · rw [hsame₃.pages id List.mem_cons_self, hfail₂ hs, hsame₁.pages id List.mem_cons_self]
  · unfold splitPage
    rw [Io.bind_done halloc, Io.bind_done hleft, Io.bind_done hright]
    simp only [decide_eq_true_eq]
    split <;> rfl

theorem setValueAt_valid {entries : List LeafEntry} (h : ∀ e ∈ entries, e.Valid)
    (hv : value.Valid) (pos : Nat) : ∀ e ∈ setValueAt entries pos value, e.Valid := by
  intro e he
  obtain ⟨i, hi⟩ := List.mem_iff_getElem?.mp he
  rw [setValueAt, List.getElem?_modify] at hi
  obtain ⟨e', he', heq⟩ := Option.map_eq_some_iff.mp hi
  have hval := h e' (List.mem_of_getElem? he')
  split at heq
  · rw [← heq]
    exact ⟨hval.1, hv⟩
  · rw [← heq]
    exact hval

theorem buildWithInsert_forall {α : Type} {P : α → Prop} {entries : List α} {e : α}
    (h : ∀ a ∈ entries, P a) (he : P e) (pos : Nat) :
    ∀ a ∈ buildWithInsert entries pos e, P a := by
  intro a ha
  rcases List.mem_append.mp ha with ha | ha
  · exact h a (List.mem_of_mem_take ha)
  · rcases List.mem_cons.mp ha with rfl | ha
    · exact he
    · exact h a (List.mem_of_mem_drop ha)

/-- A page in use is written anew. -/
theorem nodeWrite_keeps {n : NodeData} (hv : n.Valid) (hs : n.size ≤ 4096)
    (h : db.Keeps (id :: ids) pool) :
    ∃ db', nodeWrite id n db = .done () db' ∧ db'.Keeps (id :: ids) pool ∧ db.Same ids db' ∧
      db'.Holds id n := by
  obtain ⟨page, hwrite, hholds⟩ := nodeWrite_done hv hs id db
  have hni := (List.nodup_cons.mp h.accounts.nodup).1
  exact ⟨_, hwrite, h.writePage (h.accounts.not_free List.mem_cons_self) page,
    writePage_same db page hni, hholds⟩

theorem leafInsert_spec {entries : List LeafEntry} (h : db.Keeps (id :: ids) pool)
    (hentries : ∀ e ∈ entries, e.Valid) (hk : key.Valid) (hv : value.Valid)
    (hroom : pool.HasRoom 1) :
    ((leafPut id entries key value pool).1.Fits →
      ∃ db', leafInsert id entries key value db =
          .done (leafPut id entries key value pool).1.promote db' ∧
        (leafPut id entries key value pool).1.After ids db db'
          (leafPut id entries key value pool).2) ∧
    (¬ (leafPut id entries key value pool).1.Fits →
      ∃ db', leafInsert id entries key value db = .failed db') := by
  -- one page is written
  have hwrite (es : List LeafEntry) (hes : ∀ e ∈ es, e.Valid) (hs : (BTree.leaf id es).Fits) :
      ∃ db', (do nodeWriteLeaf id es; return none : Io (Option Promote)) db = .done none db' ∧
        (PutTree.done (.leaf id es)).After ids db db' pool := by
    obtain ⟨db', hdone, hk', hsame, hholds⟩ := nodeWrite_keeps (n := .leaf 0 es) hes hs h
    exact ⟨db', Io.bind_done hdone, hk', hholds, hsame⟩
  have hfail (es : List LeafEntry) (hs : ¬ (BTree.leaf id es).Fits) :
      (do nodeWriteLeaf id es; return none : Io (Option Promote)) db = .failed db :=
    Io.bind_failed (nodeWrite_failed (not_le.mp hs) id db)
  unfold leafPut leafInsert
  generalize leafFindSlot entries key = slot
  obtain ⟨pos, found⟩ := slot
  cases found with
  | true =>
    simp only [↓reduceIte]
    exact ⟨hwrite _ (setValueAt_valid hentries hv pos), fun hs => ⟨db, hfail _ hs⟩⟩
  | false =>
    have hall : ∀ e ∈ buildWithInsert entries pos ⟨key, value⟩, e.Valid :=
      buildWithInsert_forall hentries ⟨hk, hv⟩ pos
    simp only [Bool.false_eq_true, ↓reduceIte]
    generalize buildWithInsert entries pos ⟨key, value⟩ = all at hall ⊢
    cases hm : all[all.length / 2]? with
    | none =>
      have hnil : all = [] := by
        rw [List.getElem?_eq_none_iff] at hm
        exact List.length_eq_zero_iff.mp (by omega)
      subst hnil
      have hfits : nodeFitsLeaf [] = true := rfl
      simp only [hfits, ↓reduceIte]
      exact ⟨hwrite _ hall, fun hs => ⟨db, hfail _ hs⟩⟩
    | some e =>
      dsimp only
      by_cases hfits : nodeFitsLeaf all = true
      · simp only [hfits, true_or, ↓reduceIte]
        exact ⟨hwrite _ hall, fun hs => ⟨db, hfail _ hs⟩⟩
      · simp only [hfits, Bool.false_eq_true, false_or, ↓reduceIte]
        by_cases hmid : all.length / 2 = 0
        · simp only [hmid, ↓reduceIte]
          exact ⟨fun hs => absurd (nodeFitsLeaf_of_size hs) hfits, fun _ => ⟨db, rfl⟩⟩
        · simp only [hmid, ↓reduceIte]
          obtain ⟨db', hk', hsame, hleft, -, hright, hsplit⟩ :=
            splitPage_spec (.leaf 0 (all.take (all.length / 2)))
              (.leaf 0 (all.drop (all.length / 2))) e.key
              (fun a ha => hall a (List.mem_of_mem_take ha))
              (fun a ha => hall a (List.mem_of_mem_drop ha)) h hroom
          constructor
          · rintro ⟨hs, hs'⟩
            refine ⟨db', hsplit.trans (if_pos ⟨hs, hs'⟩), hk'.perm ?_, ?_, hsame⟩
            · exact List.Perm.swap _ _ _
            · exact ⟨(hall e (List.mem_of_getElem? hm)).1, hleft hs, hright hs'⟩
          · exact fun hs => ⟨db', hsplit.trans (if_neg hs)⟩

theorem internalAdd_spec {c : Chain} {entries : List InternalEntry} {slot : Nat} {p : Promote}
    (hentries : buildWithInsert entries slot ⟨p.key, p.rightPage⟩ = c.entries)
    (hkeys : ∀ e ∈ c.entries, e.key.Valid) (h : db.Keeps (id :: (c.ids ++ ids)) pool)
    (hs : c.Stored db) (hc : c.Fits) (hroom : pool.HasRoom 1) :
    ((chainPut id c pool).1.Fits →
      ∃ db', internalAdd id c.first.id entries slot p db =
          .done (chainPut id c pool).1.promote db' ∧
        (chainPut id c pool).1.After ids db db' (chainPut id c pool).2) ∧
    (¬ (chainPut id c pool).1.Fits →
      ∃ db', internalAdd id c.first.id entries slot p db = .failed db') := by
  have hframe {db' : BTreeDb} (hsame : db.Same (c.ids ++ ids) db') : c.Stored db' :=
    hs.frame fun q hq => hsame.pages q (List.mem_append_left _ hq)
  unfold internalAdd chainPut
  simp only [hentries]
  by_cases hfits : nodeFitsInternal c.entries = true
  · simp only [hfits, true_or, ↓reduceIte]
    constructor
    · rintro ⟨hsize, -⟩
      obtain ⟨db', hdone, hk', hsame, hholds⟩ := nodeWrite_keeps (n := .internal _ c.entries)
        hkeys hsize h
      exact ⟨db', Io.bind_done hdone, hk', ⟨hholds, hframe hsame⟩,
        hsame.mono (List.subset_append_right _ _)⟩
    · intro hn
      refine ⟨db, Io.bind_failed (nodeWrite_failed ?_ id db)⟩
      exact not_le.mp fun hsize => hn ⟨hsize, hc⟩
  · simp only [hfits, Bool.false_eq_true, false_or, ↓reduceIte]
    by_cases hmid : c.entries.length / 2 = 0
    · simp only [hmid, ↓reduceIte]
      constructor
      · rintro ⟨hsize, -⟩
        exact absurd (nodeFitsInternal_of_size hsize) hfits
      · intro _
        refine ⟨db, ?_⟩
        cases c.entries[0]? <;> rfl
    · simp only [hmid, ↓reduceIte]
      have hlt : c.entries.length / 2 < c.entries.length := by omega
      obtain ⟨l, k, r, hsplitAt⟩ := Chain.splitAt_some hlt
      obtain ⟨hcut, hlen⟩ := Chain.splitAt_append hsplitAt
      have happend : c.entries = l.entries ++ ⟨k, r.first.id⟩ :: r.entries := by
        rw [hcut, Chain.append_entries]
      have hget : c.entries[c.entries.length / 2]? = some ⟨k, r.first.id⟩ := by
        rw [← hlen, happend, List.getElem?_append_right (Nat.le_refl _), Nat.sub_self]
        rfl
      have htake : c.entries.take (c.entries.length / 2) = l.entries := by
        rw [← hlen, happend, List.take_left]
      have hdrop : c.entries.drop (c.entries.length / 2 + 1) = r.entries := by
        rw [← hlen, happend, List.drop_length_add_append]
        rfl
      have hfirst : c.first.id = l.first.id := by rw [hcut, Chain.append_first]
      have hids : c.ids = l.ids ++ r.ids := by rw [hcut, Chain.append_ids]
      have hkeys' : ∀ e ∈ l.entries ++ ⟨k, r.first.id⟩ :: r.entries, e.key.Valid := by
        rw [← happend]
        exact hkeys
      rw [hcut, Chain.append_stored] at hs
      rw [hcut, Chain.append_fits] at hc
      simp only [hget, htake, hdrop, hsplitAt]
      obtain ⟨db', hk', hsame, hleft, -, hright, hsplit⟩ :=
        splitPage_spec (.internal c.first.id l.entries) (.internal r.first.id r.entries) k
          (fun e he => hkeys' e (List.mem_append_left _ he))
          (fun e he => hkeys' e (List.mem_append_right _ (List.mem_cons_of_mem _ he))) h hroom
      rw [hfirst] at hleft hsplit ⊢
      have hstored (q : UInt32) (hq : q ∈ l.ids ++ r.ids) : db'.pages q = db.pages q :=
        hsame.pages q (List.mem_append_left _ (hids ▸ hq))
      constructor
      · rintro ⟨⟨hsize, -⟩, hsize', -⟩
        refine ⟨db', hsplit.trans (if_pos ⟨hsize, hsize'⟩), hk'.perm ?_, ?_,
          hsame.mono (List.subset_append_right _ _)⟩
        · rw [List.perm_iff_count]
          intro q
          simp only [PutTree.ids, BTree.ids, hids, List.cons_append, List.count_cons,
            List.count_append]
          omega
        · refine ⟨hkeys' _ (List.mem_append_right _ List.mem_cons_self), ⟨hleft hsize, ?_⟩,
            hright hsize', ?_⟩
          · exact hs.1.frame fun q hq => hstored q (List.mem_append_left _ hq)
          · exact hs.2.frame fun q hq => hstored q (List.mem_append_right _ hq)
      · intro hn
        exact ⟨db', hsplit.trans (if_neg fun hsize => hn ⟨⟨hsize.1, hc.1⟩, hsize.2, hc.2⟩)⟩

theorem leafPut_id (id : UInt32) (entries : List LeafEntry) (key value : BTreeAtom) (pool : Pool) :
    (leafPut id entries key value pool).1.id = id := by
  unfold leafPut
  dsimp only
  split
  · rfl
  · split
    · rfl
    · split <;> rfl

theorem chainPut_id (id : UInt32) (c : Chain) (pool : Pool) : (chainPut id c pool).1.id = id := by
  unfold chainPut
  dsimp only
  split
  · rfl
  · split <;> rfl

theorem BTree.put_id (t : BTree) (key value : BTreeAtom) (pool : Pool) :
    (t.put key value pool).1.id = t.id := by
  cases t with
  | leaf id entries => exact leafPut_id id entries key value pool
  | node id c =>
    unfold BTree.put
    cases hr : c.put key value pool with
    | mk r pool' =>
      cases r with
      | done c' => rfl
      | grown c' => exact chainPut_id id c' pool'

theorem leafPut_count (id : UInt32) (entries : List LeafEntry) (key value : BTreeAtom)
    (hroom : pool.HasRoom 1) :
    (leafPut id entries key value pool).2.count.toNat ≤ pool.count.toNat + 1 := by
  unfold leafPut
  dsimp only
  split
  · exact Nat.le_succ _
  · split
    · exact Nat.le_succ _
    · split
      · exact Nat.le_succ _
      · exact Pool.alloc_count hroom

theorem chainPut_count (id : UInt32) (c : Chain) (hroom : pool.HasRoom 1) :
    (chainPut id c pool).2.count.toNat ≤ pool.count.toNat + 1 := by
  unfold chainPut
  dsimp only
  split
  · exact Nat.le_succ _
  · split
    · exact Nat.le_succ _
    · exact Pool.alloc_count hroom

/-- The way from the page with children to the one that the key is routed to: which page has which
part of the database. -/
theorem Chain.route_perm (key : BTreeAtom) (c : Chain) :
    c.ids.Perm ((c.route key).2.ids ++ (c.route key).1.ids) := by
  have hperm := (c.route key).1.plug_ids (.one (c.route key).2)
  rwa [c.route_plug key] at hperm

theorem chainPut_fits {c : Chain} (h : (chainPut id c pool).1.Fits) : c.Fits := by
  unfold chainPut at h
  dsimp only at h
  split at h
  · exact h.2
  · split at h
    · exact h.2
    · next l k r hs =>
      rw [(Chain.splitAt_append hs).1, Chain.append_fits]
      exact ⟨h.1.2, h.2.2⟩

/-- What `insert_recursive` does with the promoted key of a child. -/
def addPromoted (pageId leftChild : UInt32) (entries : List InternalEntry) (slot : Nat) :
    Option Promote → Io (Option Promote)
  | none => return none
  | some promote => internalAdd pageId leftChild entries slot promote

/-- What `btree_put` does with the promoted key of the root. -/
def newRoot (rootPage : UInt32) : Option Promote → Io Unit
  | none => return ()
  | some promote => do
    let newRootPage ← dbAllocPage
    nodeWriteInternal newRootPage rootPage [⟨promote.key, promote.rightPage⟩]
    let db ← Io.getDb
    Io.setDb { db with rootPage := newRootPage }
    dbWriteHeader

/-- `insert_recursive` makes the tree of the put when its pages have room; otherwise it fails. -/
theorem insertRecursive_spec {fuel : Nat} {t : BTree} (hfuel : t.height < fuel)
    (h : db.Keeps (t.ids ++ ids) pool) (hs : t.Stored db) (hk : key.Valid) (hv : value.Valid)
    (hroom : pool.HasRoom (t.height + 1)) :
    (t.put key value pool).2.count.toNat ≤ pool.count.toNat + (t.height + 1) ∧
    ((t.put key value pool).1.Fits →
      ∃ db', insertRecursive key value fuel t.id db =
          .done (t.put key value pool).1.promote db' ∧
        (t.put key value pool).1.After ids db db' (t.put key value pool).2) ∧
    (t.Fits → ¬ (t.put key value pool).1.Fits →
      ∃ db', insertRecursive key value fuel t.id db = .failed db') := by
  induction fuel generalizing t ids db pool with
  | zero => omega
  | succ fuel ih =>
    cases t with
    | leaf id entries =>
      have hload : insertRecursive key value (fuel + 1) id db =
          leafInsert id entries key value db := Io.bind_done (nodeLoad_holds hs)
      obtain ⟨hdone, hfail⟩ := leafInsert_spec h hs.1 hk hv hroom
      rw [BTree.id, hload]
      exact ⟨leafPut_count id entries key value hroom, hdone, fun _ => hfail⟩
    | node id c =>
      obtain ⟨hnode, hc⟩ := hs
      have hplug := c.route_plug key
      have hput := c.put_route key value pool
      have hroute := internalFindRoute_eq key c
      have hperm := c.route_perm key
      generalize (c.route key).1 = hole at hplug hput hroute hperm
      generalize (c.route key).2 = u at hplug hput hroute hperm
      have hheight : u.height ≤ c.height := hplug ▸ hole.height_le_plug u
      have hlt : u.height < fuel := by
        simp only [BTree.height] at hfuel
        omega
      rw [← hplug, Hole.plug_stored] at hc
      have hkeeps : db.Keeps (u.ids ++ id :: (hole.ids ++ ids)) pool := by
        refine h.perm (List.perm_iff_count.mpr fun q => ?_)
        have hcount := hperm.count_eq q
        simp only [BTree.ids, List.count_append, List.count_cons] at hcount ⊢
        omega
      simp only [Pool.HasRoom, BTree.height] at hroom
      obtain ⟨hcount, hdone, hfail⟩ := ih hlt hkeeps hc.1 (show pool.count.toNat + _ < _ by omega)
      have hid := u.put_id key value pool
      have hrec {x : IoResult (Option Promote)}
          (hx : (insertRecursive key value fuel u.id >>= addPromoted id c.first.id c.entries hole.slot) db = x) :
          insertRecursive key value (fuel + 1) id db = x := by
        refine (Io.bind_done (nodeLoad_holds hnode)).trans ?_
        simp only [hroute]
        exact hx
      unfold BTree.put
      rw [hput]
      cases hr : u.put key value pool with
      | mk r pool₁ =>
        rw [hr] at hcount hdone hfail hid
        dsimp only at hcount hdone hfail hid
        have hstored {db' : BTreeDb} (hsame : db.Same (id :: (hole.ids ++ ids)) db') :
            hole.Stored db' := hc.2.frame fun q hq =>
          hsame.pages q (List.mem_cons_of_mem _ (List.mem_append_left _ hq))
        cases r with
        | done t' =>
          obtain ⟨hfirst, hentries⟩ := hole.plug_one_entries (show t'.id = u.id from hid)
          rw [hplug] at hfirst hentries
          dsimp only [PutTree.toChain]
          refine ⟨by simp only [BTree.height]; omega, ?_, ?_⟩
          · rintro ⟨-, hfits⟩
            rw [Hole.plug_fits] at hfits
            obtain ⟨db', hdone', hafter⟩ := hdone hfits.1
            refine ⟨db', hrec (Io.bind_done hdone'), ?_, ⟨?_, ?_⟩, ?_⟩
            · refine hafter.keeps.perm (List.perm_iff_count.mpr fun q => ?_)
              have hcount := (hole.plug_ids (.one t')).count_eq q
              simp only [PutTree.ids, BTree.ids, Chain.ids, List.count_append, List.count_cons]
                at hcount ⊢
              omega
            · rw [hfirst, hentries]
              exact hnode.frame (hafter.same.pages id List.mem_cons_self)
            · rw [Hole.plug_stored]
              exact ⟨hafter.stored, hstored hafter.same⟩
            · exact hafter.same.mono fun q hq =>
                List.mem_cons_of_mem _ (List.mem_append_right _ hq)
          · intro ht hn
            refine (hfail ?_ ?_).imp fun db' hdb' => hrec (Io.bind_failed hdb')
            · have hf := ht.2
              rw [← hplug, Hole.plug_fits] at hf
              exact hf.1
            · intro hfits
              have hf := ht.2
              rw [← hplug, Hole.plug_fits] at hf
              refine hn ⟨?_, (Hole.plug_fits ..).mpr ⟨hfits, hf.2⟩⟩
              rw [hfirst, hentries]
              exact ht.1
        | split l k r =>
          have hid : l.id = u.id := hid
          obtain ⟨hfirst, hentries⟩ := hole.plug_two_entries (r := r) (k := k) hid
          rw [hplug] at hfirst hentries
          dsimp only [PutTree.toChain]
          generalize hc' : hole.plug (.cons l k (.one r)) = c' at hfirst hentries
          have hfits : c'.Fits ↔ (l.Fits ∧ r.Fits) ∧ hole.Fits := by
            rw [← hc', Hole.plug_fits]
            rfl
          have hroom₁ : pool₁.HasRoom 1 := by
            show pool₁.count.toNat + 1 < _
            omega
          have hadd {db' : BTreeDb} (hafter : (PutTree.split l k r).After
              (id :: (hole.ids ++ ids)) db db' pool₁) (hcf : c'.Fits) := by
            have hkeeps : db'.Keeps (id :: (c'.ids ++ ids)) pool₁ := by
              refine hafter.keeps.perm (List.perm_iff_count.mpr fun q => ?_)
              have hcount := (hole.plug_ids (.cons l k (.one r))).count_eq q
              rw [hc'] at hcount
              simp only [PutTree.ids, Chain.ids, List.count_append, List.count_cons] at hcount ⊢
              omega
            have hstored' : c'.Stored db' := by
              rw [← hc', Hole.plug_stored]
              exact ⟨hafter.stored.2, hstored hafter.same⟩
            exact internalAdd_spec (p := ⟨k, r.id⟩) hentries.symm
              (hentries ▸ buildWithInsert_forall hnode.1 hafter.stored.1 hole.slot) hkeeps hstored'
              hcf hroom₁
          have hcount' := chainPut_count id c' hroom₁
          refine ⟨by simp only [BTree.height]; omega, ?_, ?_⟩
          · intro hf
            have hcf := chainPut_fits hf
            obtain ⟨db₁, hdone₁, hafter⟩ := hdone (hfits.mp hcf).1
            obtain ⟨db', hdone', hafter'⟩ := (hadd hafter hcf).1 hf
            refine ⟨db', hrec ((Io.bind_done hdone₁).trans (hfirst ▸ hdone')), hafter'.keeps,
              hafter'.stored, (hafter.same.mono fun q hq => ?_).trans hafter'.same⟩
            exact List.mem_cons_of_mem _ (List.mem_append_right _ hq)
          · intro ht hn
            have hf := ht.2
            rw [← hplug, Hole.plug_fits] at hf
            by_cases hlr : l.Fits ∧ r.Fits
            · obtain ⟨db₁, hdone₁, hafter⟩ := hdone hlr
              obtain ⟨db', hfail'⟩ := (hadd hafter (hfits.mpr ⟨hlr, hf.2⟩)).2 hn
              exact ⟨db', hrec ((Io.bind_done hdone₁).trans (hfirst ▸ hfail'))⟩
            · exact (hfail hf.1 hlr).imp fun db' hdb' => hrec (Io.bind_failed hdb')

/-- `btree_put` makes the tree of the put when its pages have room; otherwise it fails. -/
theorem btreePut_spec {t : BTree} (h : db.Represents t pool) (hk : key.Valid) (hv : value.Valid)
    (hroom : pool.HasRoom (t.height + 2)) :
    ((t.rootPut key value pool).1.Fits →
      ∃ db', btreePut key value db = .done () db' ∧
        db'.Represents (t.rootPut key value pool).1 (t.rootPut key value pool).2) ∧
    (t.Fits → ¬ (t.rootPut key value pool).1.Fits →
      ∃ db', btreePut key value db = .failed db') := by
  obtain ⟨hroot, hs, hkeeps⟩ := h
  rw [← List.append_nil t.ids] at hkeeps
  unfold Pool.HasRoom at hroom
  have hheight : t.height < UInt32.size := by omega
  obtain ⟨hcount, hdone, hfail⟩ := insertRecursive_spec hheight hkeeps hs
    hk hv (show pool.count.toNat + _ < _ by omega)
  have hid := t.put_id key value pool
  have hrec {x : IoResult Unit}
      (hx : (insertRecursive key value UInt32.size t.id >>= newRoot db.rootPage) db = x) : btreePut key value db = x := by
    rw [hroot] at hx
    exact hx
  unfold BTree.rootPut
  cases hr : t.put key value pool with
  | mk r pool₁ =>
    rw [hr] at hcount hdone hfail hid
    dsimp only at hcount hdone hfail hid
    cases r with
    | done t' =>
      dsimp only
      constructor
      · intro hf
        obtain ⟨db', hdone', hkeeps', hstored, hsame⟩ := hdone hf
        rw [List.append_nil] at hkeeps'
        refine ⟨db', hrec (Io.bind_done hdone'), ?_, hstored, hkeeps'⟩
        exact (show t'.id = t.id from hid).trans (hroot.trans hsame.root.symm)
      · intro ht hn
        exact (hfail ht hn).imp fun db' hdb' => hrec (Io.bind_failed hdb')
    | split l k r =>
      dsimp only
      have hid : l.id = t.id := hid
      constructor
      · rintro ⟨hsize, hl, hr⟩
        obtain ⟨db₁, hdone₁, hkeeps₁, ⟨hkv, hls, hrs⟩, hsame₁⟩ := hdone ⟨hl, hr⟩
        rw [List.append_nil] at hkeeps₁
        have hzero := hkeeps₁.accounts.count_ne_zero (List.mem_append_left _ l.id_mem)
        obtain ⟨db₂, halloc, hkeeps₂, hsame₂⟩ := dbAllocPage_spec hkeeps₁
          (show pool₁.count.toNat + 1 < _ by omega) hzero
        obtain ⟨db₃, hwrite, hkeeps₃, hsame₃, hholds⟩ := nodeWrite_keeps
          (n := .internal l.id [⟨k, r.id⟩])
          (fun e he => by
            rw [List.mem_singleton.mp he]
            exact hkv) hsize hkeeps₂
        let db₄ : BTreeDb := { db₃ with rootPage := pool₁.alloc.1 }
        have hpages (q : UInt32) (hq : q ∈ pool₁.alloc.1 :: (l.ids ++ r.ids)) :
            db₄.writeHeader.pages q = db₃.pages q := by
          refine Function.update_of_ne ?_ _ _
          exact (hkeeps₃.accounts.bounds hq).1
        have hsubtree (q : UInt32) (hq : q ∈ l.ids ++ r.ids) :
            db₄.writeHeader.pages q = db₁.pages q := by
          rw [hpages q (List.mem_cons_of_mem _ hq), hsame₃.pages q hq, hsame₂.pages q hq]
        refine ⟨db₄.writeHeader, hrec ?_, rfl, ⟨?_, ?_, ?_⟩, hkeeps₃.setRoot _⟩
        · refine (Io.bind_done hdone₁).trans ((Io.bind_done halloc).trans ?_)
          rw [hid, hroot] at hwrite
          exact Io.bind_done hwrite
        · exact hholds.frame (hpages _ List.mem_cons_self)
        · exact hls.frame fun q hq => hsubtree q (List.mem_append_left _ hq)
        · exact hrs.frame fun q hq => hsubtree q (List.mem_append_right _ hq)
      · intro ht hn
        by_cases hlr : l.Fits ∧ r.Fits
        · obtain ⟨db₁, hdone₁, hkeeps₁, -, hsame₁⟩ := hdone hlr
          rw [List.append_nil] at hkeeps₁
          have hzero := hkeeps₁.accounts.count_ne_zero (List.mem_append_left _ l.id_mem)
          obtain ⟨db₂, halloc, -, -⟩ := dbAllocPage_spec hkeeps₁
            (show pool₁.count.toNat + 1 < _ by omega) hzero
          refine ⟨db₂, hrec ((Io.bind_done hdone₁).trans ((Io.bind_done halloc).trans ?_))⟩
          refine Io.bind_failed (nodeWrite_failed (not_le.mp fun hsize => hn ⟨?_, hlr⟩) _ _)
          exact hsize
        · exact (hfail ht hlr).imp fun db' hdb' => hrec (Io.bind_failed hdb')

end ToiLang
