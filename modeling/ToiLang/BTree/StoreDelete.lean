import ToiLang.BTree.StorePut

namespace ToiLang

namespace DelTree

def result : DelTree → DeleteResult
  | absent => .init
  | kept _ newMin => { DeleteResult.init with deleted := true, newMin }
  | gone => { DeleteResult.init with deleted := true, removeChild := true }
  | replaced t => { DeleteResult.init with
      deleted := true, removeChild := true, replacementChild := t.id }
  | undefined => .init

/-- The tree that is there after the delete. -/
def tree (t : BTree) : DelTree → Option BTree
  | absent => some t
  | kept t _ => some t
  | gone => none
  | replaced t => some t
  | undefined => none

/-- The pages that the delete writes have room. -/
def Fits : DelTree → Prop
  | absent => True
  | kept t _ => t.Fits
  | gone => True
  | replaced t => t.Fits
  | undefined => False

def ids (t : BTree) (r : DelTree) : List UInt32 := ((r.tree t).map BTree.ids).getD []

def Stored (db : BTreeDb) (t : BTree) (r : DelTree) : Prop := ∀ t', r.tree t = some t' → t'.Stored db

/-- The database after a delete in a tree, where the pages of `ids` are those of the rest. -/
structure After (ids : List UInt32) (db db' : BTreeDb) (t : BTree) (r : DelTree) (pool : Pool) :
    Prop where
  keeps : db'.Keeps (r.ids t ++ ids) pool
  stored : r.Stored db' t
  same : db.Same ids db'

end DelTree

/-- The children that are there after the delete. -/
def DelChain.chain : DelChain → Option Chain
  | absent => none
  | kept c _ => some c
  | headGone none => none
  | headGone (some (_, c)) => some c
  | undefined => none

variable {db db' : BTreeDb} {key : BTreeAtom} {id : UInt32} {ids : List UInt32}
  {pool pool' : Pool} {lo hi : Option Rank}

mutual

theorem BTree.height_lt_ids (t : BTree) : t.height < t.ids.length := by
  cases t with
  | leaf id entries => exact Nat.zero_lt_one
  | node id c =>
    have hc := Chain.height_lt_ids c
    simp only [BTree.height, BTree.ids, List.length_cons]
    omega

theorem Chain.height_lt_ids (c : Chain) : c.height < c.ids.length := by
  cases c with
  | one t => exact BTree.height_lt_ids t
  | cons t k rest =>
    have ht := BTree.height_lt_ids t
    have hr := Chain.height_lt_ids rest
    simp only [Chain.height, Chain.ids, List.length_append]
    omega

end

/-- A way down is shorter than the number of the page ids. -/
theorem Pool.Accounts.height_lt {t : BTree} (h : pool.Accounts (t.ids ++ ids)) :
    t.height < UInt32.size := by
  have hnodup := (List.nodup_append.mp h.nodup).1
  have hmap : (t.ids.map UInt32.toNat).Nodup :=
    hnodup.map fun a b hab => UInt32.toNat_inj.mp hab
  have hsub : t.ids.map UInt32.toNat ⊆ List.range UInt32.size := by
    intro n hn
    obtain ⟨p, -, rfl⟩ := List.mem_map.mp hn
    exact List.mem_range.mpr p.toNat_lt
  have hlen := (List.subperm_of_subset hmap hsub).length_le
  rw [List.length_map, List.length_range] at hlen
  have hheight := t.height_lt_ids
  omega

theorem Chain.first_height_le (c : Chain) : c.first.height ≤ c.height := by
  cases c with
  | one t => exact le_rfl
  | cons t k rest => exact le_max_left _ _

theorem Chain.first_stored {c : Chain} (h : c.Stored db) : c.first.Stored db := by
  cases c with
  | one t => exact h
  | cons t k rest => exact h.1

theorem Chain.first_minKey (c : Chain) : c.first.minKey = c.minKey := by
  cases c <;> rfl

theorem Pool.Accounts.height_lt_self {t : BTree} (h : pool.Accounts t.ids) :
    t.height < UInt32.size := by
  rw [← List.append_nil t.ids] at h
  exact h.height_lt

theorem subtreeMinKey_spec {fuel : Nat} {t : BTree} (hfuel : t.height < fuel) (hs : t.Stored db)
    {m : BTreeAtom} (hm : t.minKey = some m) : subtreeMinKey fuel t.id db = .done m db := by
  induction fuel generalizing t with
  | zero => omega
  | succ fuel ih =>
    cases t with
    | leaf id entries =>
      refine (Io.bind_done (nodeLoad_holds hs)).trans ?_
      obtain ⟨e, he, hkey⟩ := Option.map_eq_some_iff.mp hm
      simp only [he, hkey]
      rfl
    | node id c =>
      refine (Io.bind_done (nodeLoad_holds hs.1)).trans (ih ?_ (Chain.first_stored hs.2) ?_)
      · have hle := c.first_height_le
        simp only [BTree.height] at hfuel
        omega
      · rw [Chain.first_minKey]
        exact hm

/-- Behind the first child, the end of a longer page is changed as that of a shorter one. -/
theorem updateRoute_shift (left : UInt32) {left' left'' : UInt32} {e : InternalEntry}
    {entries entries' : List InternalEntry} {slot : Nat} {res : DeleteResult}
    (h : updateRoute left' entries (slot + 1) res db = .done (left'', entries') db') :
    left'' = left' ∧
      updateRoute left (e :: entries) (slot + 2) res db = .done (left, e :: entries') db' := by
  unfold updateRoute at h ⊢
  split at h
  next hremove =>
    rw [if_pos hremove]
    split at h
    next hrep =>
      rw [if_pos hrep, if_neg (by omega)]
      rw [if_neg (by omega)] at h
      cases hmin : subtreeMinKey UInt32.size res.replacementChild db with
      | done m db₁ =>
        have h := (Io.bind_done hmin).symm.trans h
        cases h
        exact ⟨rfl, Io.bind_done hmin⟩
      | failed db₁ => cases (Io.bind_failed hmin).symm.trans h
      | undefined => cases (Io.bind_undefined hmin).symm.trans h
    next hrep =>
      rw [if_neg hrep]
      unfold internalRemoveSlot at h ⊢
      cases entries with
      | nil => cases h
      | cons e' rest =>
        dsimp only at h ⊢
        rw [if_neg (by omega)] at h ⊢
        cases h
        exact ⟨rfl, rfl⟩
  next hkeep =>
    rw [if_neg hkeep]
    cases hm : res.newMin with
    | some m =>
      simp only [hm, Nat.zero_lt_succ, ↓reduceIte] at h ⊢
      cases h
      exact ⟨rfl, rfl⟩
    | none =>
      simp only [hm] at h
      cases h
      exact ⟨rfl, rfl⟩

/-- A result that a page above can go on with. -/
def DelTree.Applies (db : BTreeDb) (u : BTree) : DelTree → Prop
  | absent => False
  | kept t _ => t.id = u.id
  | gone => True
  | replaced t => t.id ≠ 0 ∧ ∃ m, t.minKey = some m ∧
      subtreeMinKey UInt32.size t.id db = .done m db
  | undefined => False

theorem updateRoute_here {next : Option (BTreeAtom × Chain)} {u : BTree} {r : DelTree}
    (hr : r.Applies db u) {c : Chain} (hc : ((Hole.here next).afterDelete r).chain = some c) :
    updateRoute ((Hole.here next).plug (.one u)).first.id ((Hole.here next).plug (.one u)).entries 0
      r.result db = .done (c.first.id, c.entries) db := by
  cases r with
  | absent => cases hr
  | undefined => cases hr
  | kept t newMin =>
    cases Option.some.inj hc
    obtain ⟨hfirst, hentries⟩ := (Hole.here next).plug_one_entries (show t.id = u.id from hr)
    rw [hfirst, hentries]
    cases newMin <;> rfl
  | gone =>
    rcases next with _ | ⟨k, rest⟩
    · cases hc
    · cases Option.some.inj hc
      rfl
  | replaced t =>
    cases Option.some.inj hc
    unfold updateRoute
    rw [if_pos rfl, if_pos (show (DelTree.replaced t).result.replacementChild ≠ 0 from hr.1)]
    rcases next with _ | ⟨k, rest⟩ <;> rfl

theorem updateRoute_there {next : Option (BTreeAtom × Chain)} {t u : BTree} {k : BTreeAtom}
    {r : DelTree} (hr : r.Applies db u) {c : Chain}
    (hc : ((Hole.there t k (.here next)).afterDelete r).chain = some c) :
    updateRoute t.id (⟨k, u.id⟩ :: ((Hole.here next).plug (.one u)).entries) 1 r.result db =
      .done (c.first.id, c.entries) db := by
  cases r with
  | absent => cases hr
  | undefined => cases hr
  | kept t' newMin =>
    cases Option.some.inj hc
    have hid : t'.id = u.id := hr
    obtain ⟨hfirst, hentries⟩ := (Hole.here next).plug_one_entries hid
    have hfirst' : ((Hole.here next).plug (.one u)).first.id = u.id := by
      rcases next with _ | ⟨k, rest⟩ <;> rfl
    simp only [Chain.first_cons, Chain.entries, hfirst, hentries, hfirst']
    cases newMin <;> rfl
  | gone =>
    rcases next with _ | ⟨k', rest⟩
    · cases Option.some.inj hc
      rfl
    · cases Option.some.inj hc
      rfl
  | replaced t' =>
    cases Option.some.inj hc
    obtain ⟨hne, m, hm, hmin⟩ := hr
    have hchain : (Chain.cons t ((some t'.minKey).join.getD k)
        ((Hole.here next).plug (.one t'))).entries =
        ⟨m, t'.id⟩ :: ((Hole.here next).plug (.one u)).entries := by
      rw [hm]
      rcases next with _ | ⟨k', rest⟩ <;> rfl
    show updateRoute _ _ _ _ _ = .done (t.id, (Chain.cons t ((some t'.minKey).join.getD k)
      ((Hole.here next).plug (.one t'))).entries) db
    rw [hchain]
    unfold updateRoute
    rw [if_pos (show (DelTree.replaced t').result.removeChild = true from rfl),
      if_pos (show (DelTree.replaced t').result.replacementChild ≠ 0 from hne),
      if_neg Nat.one_ne_zero]
    exact Io.bind_done hmin

/-- The page after the delete below one of its children. -/
theorem updateRoute_spec {hole : Hole} {u : BTree} {r : DelTree} (hr : r.Applies db u) {c : Chain}
    (hc : (hole.afterDelete r).chain = some c) :
    updateRoute (hole.plug (.one u)).first.id (hole.plug (.one u)).entries hole.slot r.result db =
      .done (c.first.id, c.entries) db := by
  induction hole generalizing c with
  | here next => exact updateRoute_here hr hc
  | there t k hole ih =>
    cases hole with
    | here next =>
      have hfirst : ((Hole.here next).plug (.one u)).first.id = u.id := by
        rcases next with _ | ⟨k, rest⟩ <;> rfl
      simp only [Hole.plug, Chain.first_cons, Chain.entries] at hfirst ⊢
      rw [hfirst]
      exact updateRoute_there hr hc
    | there t₁ k₁ hole =>
      -- a child behind the second: the pages before it stay
      have hkept : ∃ c', (Hole.there t₁ k₁ hole).afterDelete r = .kept c' none := by
        change ∃ c', ((hole.afterDelete r).behind t₁ k₁) = .kept c' none
        change (((hole.afterDelete r).behind t₁ k₁).behind t k).chain = _ at hc
        cases hd : hole.afterDelete r with
        | absent | undefined =>
          rw [hd] at hc
          cases hc
        | kept c' head => exact ⟨_, rfl⟩
        | headGone next =>
          rcases next with _ | ⟨k', c'⟩
          · exact ⟨_, rfl⟩
          · exact ⟨_, rfl⟩
      obtain ⟨c', hd⟩ := hkept
      change (((Hole.there t₁ k₁ hole).afterDelete r).behind t k).chain = _ at hc
      have hstep := ih (c := c') (by rw [hd]; rfl)
      rw [hd] at hc
      cases Option.some.inj hc
      obtain ⟨hfirst, hshift⟩ := updateRoute_shift t.id
        (e := ⟨k, ((Hole.there t₁ k₁ hole).plug (.one u)).first.id⟩) hstep
      rw [Chain.first_cons, Chain.entries, hfirst]
      exact hshift

theorem Hole.afterDelete_absent {hole : Hole} {r : DelTree} (h : hole.afterDelete r = .absent) :
    r = .absent := by
  induction hole with
  | here next => cases r <;> first | rfl | cases h
  | there t k hole ih =>
    change (hole.afterDelete r).behind t k = _ at h
    cases hd : hole.afterDelete r with
    | absent => exact ih hd
    | undefined =>
      rw [hd] at h
      cases h
    | kept c head =>
      rw [hd] at h
      cases h
    | headGone next =>
      rw [hd] at h
      rcases next with _ | ⟨k', c'⟩ <;> cases h

theorem Hole.afterDelete_undefined {hole : Hole} {r : DelTree}
    (h : hole.afterDelete r = .undefined) : r = .undefined := by
  induction hole with
  | here next => cases r <;> first | rfl | cases h
  | there t k hole ih =>
    change (hole.afterDelete r).behind t k = _ at h
    cases hd : hole.afterDelete r with
    | undefined => exact ih hd
    | absent =>
      rw [hd] at h
      cases h
    | kept c head =>
      rw [hd] at h
      cases h
    | headGone next =>
      rw [hd] at h
      rcases next with _ | ⟨k', c'⟩ <;> cases h

theorem Hole.afterDelete_of_absent (hole : Hole) : hole.afterDelete .absent = .absent := by
  induction hole with
  | here next => rfl
  | there t k hole ih => exact congrArg (DelChain.behind t k) ih

theorem Hole.afterDelete_of_undefined (hole : Hole) :
    hole.afterDelete .undefined = .undefined := by
  induction hole with
  | here next => rfl
  | there t k hole ih => exact congrArg (DelChain.behind t k) ih

theorem updateRoute_undefined {hole : Hole} {u : BTree} {r : DelTree} (hr : r.Applies db u)
    (hc : (hole.afterDelete r).chain = none) :
    updateRoute (hole.plug (.one u)).first.id (hole.plug (.one u)).entries hole.slot r.result db =
      .undefined := by
  cases hole with
  | here next =>
    cases r with
    | absent => cases hr
    | undefined => cases hr
    | kept t newMin => cases hc
    | replaced t => cases hc
    | gone =>
      rcases next with _ | ⟨k, rest⟩
      · rfl
      · cases hc
  | there t k hole =>
    exfalso
    change ((hole.afterDelete r).behind t k).chain = none at hc
    cases hd : hole.afterDelete r with
    | absent =>
      rw [Hole.afterDelete_absent hd] at hr
      exact hr
    | undefined =>
      rw [Hole.afterDelete_undefined hd] at hr
      exact hr
    | kept c head =>
      rw [hd] at hc
      cases hc
    | headGone next =>
      rw [hd] at hc
      rcases next with _ | ⟨k', c'⟩ <;> cases hc

theorem DelChain.behind_chain {d : DelChain} {t : BTree} {k : BTreeAtom} {c : Chain}
    (h : (d.behind t k).chain = some c) :
    (d = .headGone none ∧ c = .one t) ∨ ∃ c' k', d.chain = some c' ∧ c = .cons t k' c' := by
  cases d with
  | absent => cases h
  | undefined => cases h
  | kept c' head =>
    cases Option.some.inj h
    exact .inr ⟨c', _, rfl, rfl⟩
  | headGone next =>
    rcases next with _ | ⟨k', c'⟩
    · cases Option.some.inj h
      exact .inl ⟨rfl, rfl⟩
    · cases Option.some.inj h
      exact .inr ⟨c', k', rfl, rfl⟩

theorem Hole.afterDelete_headGone {hole : Hole} {r : DelTree} {next : Option (BTreeAtom × Chain)}
    (h : hole.afterDelete r = .headGone next) : r = .gone ∧ hole = .here next := by
  cases hole with
  | here next' =>
    cases r with
    | gone =>
      cases h
      exact ⟨rfl, rfl⟩
    | absent | undefined | kept | replaced => cases h
  | there t k hole =>
    change (hole.afterDelete r).behind t k = _ at h
    cases hd : hole.afterDelete r with
    | headGone next' =>
      rw [hd] at h
      rcases next' with _ | ⟨k', c'⟩ <;> cases h
    | absent | undefined | kept =>
      rw [hd] at h
      cases h

theorem Hole.afterDelete_kept {hole : Hole} {r : DelTree} {c : Chain}
    {head : Option (Option BTreeAtom)} (h : hole.afterDelete r = .kept c head) :
    head.isSome = decide (hole.slot = 0) := by
  cases hole with
  | here next =>
    cases r with
    | kept | replaced =>
      cases h
      rfl
    | absent | undefined | gone => cases h
  | there t k hole =>
    change (hole.afterDelete r).behind t k = _ at h
    cases hd : hole.afterDelete r with
    | headGone next' =>
      rw [hd] at h
      rcases next' with _ | ⟨k', c'⟩ <;> cases h <;> rfl
    | kept c' head' =>
      rw [hd] at h
      cases h
      rfl
    | absent | undefined =>
      rw [hd] at h
      cases h

/-- The children after a delete are the others and what is there instead of the one. -/
theorem Hole.afterDelete_parts (db : BTreeDb) (u : BTree) {hole : Hole} {r : DelTree} {c : Chain}
    (hc : (hole.afterDelete r).chain = some c) :
    c.ids.Perm (r.ids u ++ hole.ids) ∧ (c.Fits ↔ r.Fits ∧ hole.Fits) ∧
      (c.Stored db ↔ r.Stored db u ∧ hole.Stored db) := by
  induction hole generalizing c with
  | here next =>
    cases r with
    | absent => cases hc
    | undefined => cases hc
    | kept t newMin =>
      cases Option.some.inj hc
      refine ⟨(Hole.here next).plug_ids (.one t), Hole.plug_fits .., ?_⟩
      rw [Hole.plug_stored]
      simp [DelTree.Stored, DelTree.tree, Chain.Stored]
    | replaced t =>
      cases Option.some.inj hc
      refine ⟨(Hole.here next).plug_ids (.one t), Hole.plug_fits .., ?_⟩
      rw [Hole.plug_stored]
      simp [DelTree.Stored, DelTree.tree, Chain.Stored]
    | gone =>
      rcases next with _ | ⟨k, rest⟩
      · cases hc
      · cases Option.some.inj hc
        exact ⟨.refl _, by simp [DelTree.Fits, Hole.Fits],
          by simp [DelTree.Stored, DelTree.tree, Hole.Stored]⟩
  | there t k hole ih =>
    obtain ⟨hgone, rfl⟩ | ⟨c', k', hc', rfl⟩ :=
      DelChain.behind_chain (show ((hole.afterDelete r).behind t k).chain = some c from hc)
    · obtain ⟨rfl, rfl⟩ := Hole.afterDelete_headGone hgone
      refine ⟨?_, by simp [DelTree.Fits, Hole.Fits, Chain.Fits],
        by simp [DelTree.Stored, DelTree.tree, Hole.Stored, Chain.Stored]⟩
      simp [DelTree.ids, DelTree.tree, Hole.ids, Chain.ids]
    · obtain ⟨hids, hfits, hstored⟩ := ih hc'
      refine ⟨?_, ?_, ?_⟩
      · exact (hids.append_left t.ids).trans (List.perm_append_comm_assoc _ _ _)
      · simp only [Chain.Fits, Hole.Fits, hfits]
        exact and_left_comm
      · simp only [Chain.Stored, Hole.Stored, hstored]
        exact and_left_comm

theorem leafDelete_id {entries : List LeafEntry} {t : BTree} {newMin : Option BTreeAtom}
    (h : (leafDelete id entries key pool).1 = .kept t newMin) : t.id = id := by
  unfold leafDelete at h
  dsimp only at h
  split at h
  · cases h
  · split at h
    · cases h
    · cases h
      rfl

theorem chainDelete_id {c : Chain} {atHead : Bool} {t : BTree} {newMin : Option BTreeAtom}
    (h : (chainDelete id c atHead pool).1 = .kept t newMin) : t.id = id := by
  cases c with
  | one t => cases h
  | cons t k rest =>
    cases h
    rfl

/-- A page with children after a delete, from those that are there then. -/
theorem BTree.delete_node_some {c c' : Chain} (hc : (c.delete key pool).1.chain = some c') :
    (BTree.node id c).delete key pool =
      chainDelete id c' (decide ((c.route key).1.slot = 0)) (c.delete key pool).2 := by
  have hroute := c.delete_route key pool
  unfold BTree.delete
  cases hd : c.delete key pool with
  | mk d pool' =>
    rw [hd] at hc hroute
    have hafter : d = (c.route key).1.afterDelete ((c.route key).2.delete key pool).1 :=
      congrArg Prod.fst hroute
    cases d with
    | absent => cases hc
    | undefined => cases hc
    | kept c₁ head =>
      cases Option.some.inj hc
      rw [← Hole.afterDelete_kept hafter.symm]
    | headGone next =>
      rcases next with _ | ⟨k, c₁⟩
      · cases hc
      · cases Option.some.inj hc
        rw [(Hole.afterDelete_headGone hafter.symm).2]
        rfl

theorem BTree.delete_node_absent {c : Chain} (hc : (c.delete key pool).1 = .absent) :
    (BTree.node id c).delete key pool = (.absent, (c.delete key pool).2) := by
  unfold BTree.delete
  cases hd : c.delete key pool with
  | mk d pool' =>
    rw [hd] at hc
    cases (show d = .absent from hc)
    rfl

theorem BTree.delete_node_none (id : UInt32) {c : Chain} (hc : (c.delete key pool).1.chain = none)
    (hne : (c.delete key pool).1 ≠ .absent) :
    ((BTree.node id c).delete key pool).1 = .undefined := by
  unfold BTree.delete
  cases hd : c.delete key pool with
  | mk d pool' =>
    rw [hd] at hc hne
    cases d with
    | absent => exact absurd rfl hne
    | undefined => rfl
    | kept c₁ head => cases hc
    | headGone next =>
      rcases next with _ | ⟨k, c₁⟩
      · rfl
      · cases hc

theorem BTree.delete_id {t t' : BTree} {newMin : Option BTreeAtom}
    (h : (t.delete key pool).1 = .kept t' newMin) : t'.id = t.id := by
  cases t with
  | leaf id entries => exact leafDelete_id h
  | node id c =>
    cases hc : (c.delete key pool).1.chain with
    | some c' =>
      rw [BTree.delete_node_some hc] at h
      exact chainDelete_id h
    | none =>
      by_cases hd : (c.delete key pool).1 = .absent
      · rw [BTree.delete_node_absent hd] at h
        cases h
      · rw [BTree.delete_node_none _ hc hd] at h
        cases h

mutual

theorem BTree.Ordered.keys {lo hi : Option Rank} {t : BTree} (h : t.Ordered lo hi) :
    t.data.Valid := by
  cases t with
  | leaf id entries => exact h.2.valid
  | node id c => exact Chain.Ordered.keys (c := c) h

theorem Chain.Ordered.keys {lo hi : Option Rank} {c : Chain} (h : c.Ordered lo hi) :
    ∀ e ∈ c.entries, e.key.Valid := by
  cases c with
  | one t =>
    intro e he
    cases he
  | cons t k rest =>
    intro e he
    rcases List.mem_cons.mp he with rfl | he
    · exact h.1
    · exact Chain.Ordered.keys h.2.2 e he

end

/-- The end of the delete in a page that is not the root. -/
theorem finishInternal_spec {c : Chain} (ho : c.Ordered lo hi)
    (h : db.Keeps (id :: (c.ids ++ ids)) pool) (hs : c.Stored db) (hroot : db.rootPage ∈ ids)
    (hc : c.Fits) (t : BTree) (slot : Nat) :
    ((chainDelete id c (decide (slot = 0)) pool).1.Fits →
      ∃ db', finishInternal id c.first.id c.entries slot false db =
          .done (chainDelete id c (decide (slot = 0)) pool).1.result db' ∧
        (chainDelete id c (decide (slot = 0)) pool).1.After ids db db' t
          (chainDelete id c (decide (slot = 0)) pool).2) ∧
    (¬ (chainDelete id c (decide (slot = 0)) pool).1.Fits →
      ∃ db', finishInternal id c.first.id c.entries slot false db = .failed db') := by
  obtain ⟨m, hm⟩ := ho.minKey_some
  unfold finishInternal
  cases c with
  | one u =>
    have hne : id ≠ db.rootPage := by
      rintro rfl
      exact (List.nodup_cons.mp h.accounts.nodup).1 (List.mem_append_right _ hroot)
    obtain ⟨db', hfree, hkeeps, hsame⟩ := dbFreePage_spec h hne
    refine ⟨fun _ => ⟨db', Io.bind_done hfree, hkeeps, ?_, ?_⟩, fun hn => absurd hc hn⟩
    · intro t' ht'
      cases Option.some.inj ht'
      exact BTree.Stored.frame hs fun q hq => hsame.pages q (List.mem_append_left _ hq)
    · exact hsame.mono (List.subset_append_right _ _)
  | cons u k rest =>
    have hentries : (Chain.cons u k rest).entries ≠ [] := List.cons_ne_nil _ _
    rw [if_neg (by simp), if_neg hentries]
    constructor
    · rintro ⟨hsize, -⟩
      obtain ⟨db', hwrite, hkeeps, hsame, hholds⟩ := nodeWrite_keeps
        (n := .internal _ (Chain.cons u k rest).entries) ho.keys hsize h
      have hstored : (BTree.node id (.cons u k rest)).Stored db' :=
        ⟨hholds, Chain.Stored.frame hs fun q hq => hsame.pages q (List.mem_append_left _ hq)⟩
      have hafter (newMin : Option BTreeAtom) :
          (DelTree.kept (.node id (.cons u k rest)) newMin).After ids db db' t pool := by
        refine ⟨hkeeps, fun t' ht' => ?_, hsame.mono (List.subset_append_right _ _)⟩
        cases Option.some.inj ht'
        exact hstored
      refine ⟨db', (Io.bind_done hwrite).trans ?_, hafter _⟩
      by_cases hslot : slot = 0
      · rw [if_pos hslot]
        have hmin := subtreeMinKey_spec (Pool.Accounts.height_lt
          (t := .node id (.cons u k rest)) hkeeps.accounts) hstored hm
        refine (Io.bind_done hmin).trans ?_
        simp only [hslot, chainDelete, DelTree.result, decide_true, ↓reduceIte, hm]
        rfl
      · rw [if_neg hslot]
        simp only [hslot, chainDelete, DelTree.result, decide_false, Bool.false_eq_true,
          ↓reduceIte]
        rfl
    · intro hn
      refine ⟨db, Io.bind_failed (nodeWrite_failed (not_le.mp fun hsize => hn ⟨hsize, hc⟩) _ _)⟩

theorem leafDelete_spec (key : BTreeAtom) {entries : List LeafEntry} (h : db.Keeps (id :: ids) pool)
    (hs : (BTree.leaf id entries).Stored db) (hroot : db.rootPage ∈ ids) :
    ((leafDelete id entries key pool).1.Fits →
      ∃ db', deleteLeaf id entries key false db =
          .done (leafDelete id entries key pool).1.result db' ∧
        (leafDelete id entries key pool).1.After ids db db' (.leaf id entries)
          (leafDelete id entries key pool).2) ∧
    (¬ (leafDelete id entries key pool).1.Fits →
      ∃ db', deleteLeaf id entries key false db = .failed db') := by
  unfold leafDelete deleteLeaf
  generalize leafFindSlot entries key = slot
  obtain ⟨pos, found⟩ := slot
  cases found with
  | false =>
    refine ⟨fun _ => ⟨db, rfl, h, fun t' ht' => ?_, .refl _ _⟩, fun hn => absurd trivial hn⟩
    cases Option.some.inj ht'
    exact hs
  | true =>
    have hvalid : ∀ e ∈ entries.eraseIdx pos, e.Valid := fun e he =>
      hs.1 e ((List.eraseIdx_sublist ..).subset he)
    simp only [Bool.not_true, Bool.false_eq_true, ↓reduceIte]
    generalize entries.eraseIdx pos = rest at hvalid ⊢
    by_cases hrest : rest = []
    · simp only [hrest, ↓reduceIte]
      have hne : id ≠ db.rootPage := by
        rintro rfl
        exact (List.nodup_cons.mp h.accounts.nodup).1 hroot
      obtain ⟨db', hfree, hkeeps, hsame⟩ := dbFreePage_spec h hne
      exact ⟨fun _ => ⟨db', Io.bind_done hfree, hkeeps, (fun t' ht' => nomatch ht'), hsame⟩,
        fun hn => absurd trivial hn⟩
    · simp only [hrest, ↓reduceIte]
      constructor
      · intro hsize
        obtain ⟨db', hwrite, hkeeps, hsame, hholds⟩ := nodeWrite_keeps (n := .leaf 0 rest) hvalid
          hsize h
        refine ⟨db', ?_, hkeeps, fun t' ht' => ?_, hsame⟩
        · refine (Io.bind_done hwrite).trans ?_
          simp only [decide_eq_true_eq]
          rfl
        · cases Option.some.inj ht'
          exact hholds
      · intro hn
        exact ⟨db, Io.bind_failed (nodeWrite_failed (not_le.mp hn) _ _)⟩

/-- What a delete in a subtree does, when the pages of `ids` are those of the rest of the tree. -/
def DeletesTo (key : BTreeAtom) (fuel : Nat) (t : BTree) (ids : List UInt32) (db : BTreeDb)
    (pool : Pool) : Prop :=
  ((t.delete key pool).1.Fits →
    ∃ db', deleteRecursive key fuel t.id false db = .done (t.delete key pool).1.result db' ∧
      (t.delete key pool).1.After ids db db' t (t.delete key pool).2) ∧
  (t.Fits → ¬ (t.delete key pool).1.Fits →
    ∀ res db', deleteRecursive key fuel t.id false db ≠ .done res db')

/-- What `delete_recursive` does with the result of a child. -/
def afterChild (pageId leftChild : UInt32) (entries : List InternalEntry) (slot : Nat) (isRoot : Bool)
    (child : DeleteResult) : Io DeleteResult :=
  if !child.deleted then return .init
  else do
    let (leftChild, entries) ← updateRoute leftChild entries slot child
    finishInternal pageId leftChild entries slot isRoot

/-- The delete in a page with children, from what it does in the child. -/
theorem deleteChild_spec {fuel : Nat} {c : Chain} (ho : c.Ordered lo hi) (hk : key.Valid)
    (hs : (BTree.node id c).Stored db)
    (ih : DeletesTo key fuel (c.route key).2 (id :: ((c.route key).1.ids ++ ids)) db pool)
    (isRoot : Bool) :
    ((c.delete key pool).1 = .absent →
      ∃ db', deleteRecursive key (fuel + 1) id isRoot db = .done .init db' ∧
        db'.Keeps (id :: (c.ids ++ ids)) (c.delete key pool).2 ∧ (BTree.node id c).Stored db' ∧
        db.Same ids db') ∧
    (∀ c', (c.delete key pool).1.chain = some c' →
      (c'.Fits → ∃ db', deleteRecursive key (fuel + 1) id isRoot db =
            finishInternal id c'.first.id c'.entries (c.route key).1.slot isRoot db' ∧
          db'.Keeps (id :: (c'.ids ++ ids)) (c.delete key pool).2 ∧ c'.Stored db' ∧
          db.Same ids db') ∧
      (c.Fits → ¬ c'.Fits →
        ∀ res db', deleteRecursive key (fuel + 1) id isRoot db ≠ .done res db')) ∧
    ((c.delete key pool).1.chain = none → (c.delete key pool).1 ≠ .absent → c.Fits →
      ∀ res db', deleteRecursive key (fuel + 1) id isRoot db ≠ .done res db') := by
  obtain ⟨hnode, hc⟩ := hs
  obtain ⟨-, -, lo', hi', hou⟩ := ho.route hk
  have hord := BTree.delete_ordered hou hk pool
  have hplug := c.route_plug key
  have hdel := c.delete_route key pool
  have hroute := internalFindRoute_eq key c
  have hperm := c.route_perm key
  generalize (c.route key).1 = hole at hplug hdel hroute hperm ih ⊢
  generalize (c.route key).2 = u at hplug hdel hroute hperm ih hord hou
  rw [hdel]
  obtain ⟨hdone, hfail⟩ := ih
  have hid (t' : BTree) (newMin : Option BTreeAtom) :
      (u.delete key pool).1 = .kept t' newMin → t'.id = u.id := BTree.delete_id
  cases hr : u.delete key pool with
  | mk r pool₁ =>
    rw [hr] at hord hdone hfail hid
    dsimp only at hord hdone hfail hid ⊢
    rw [← hplug, Hole.plug_stored] at hc
    have hfits (hcf : c.Fits) : u.Fits ∧ hole.Fits := by
      rw [← hplug, Hole.plug_fits] at hcf
      exact hcf
    have hrec {x : IoResult DeleteResult}
        (hx : (deleteRecursive key fuel u.id false >>= afterChild id c.first.id c.entries hole.slot isRoot) db = x) :
        deleteRecursive key (fuel + 1) id isRoot db = x := by
      refine (Io.bind_done (nodeLoad_holds hnode)).trans ?_
      simp only [hroute]
      exact hx
    have hnot (hn : ∀ res db', deleteRecursive key fuel u.id false db ≠ .done res db') :
        ∀ res db', deleteRecursive key (fuel + 1) id isRoot db ≠ .done res db' := by
      intro res db' heq
      cases hx : deleteRecursive key fuel u.id false db with
      | done res₁ db₁ => exact hn res₁ db₁ hx
      | failed db₁ =>
        rw [hrec (Io.bind_failed hx)] at heq
        cases heq
      | undefined =>
        rw [hrec (Io.bind_undefined hx)] at heq
        cases heq
    have hchild {db₁ : BTreeDb} (hafter : r.After (id :: (hole.ids ++ ids)) db db₁ u pool₁) :
        hole.Stored db₁ ∧ db₁.Holds id (.internal c.first.id c.entries) ∧ db.Same ids db₁ := by
      refine ⟨hc.2.frame fun q hq => ?_, hnode.frame (hafter.same.pages id List.mem_cons_self),
        hafter.same.mono fun q hq => ?_⟩
      · exact hafter.same.pages q (List.mem_cons_of_mem _ (List.mem_append_left _ hq))
      · exact List.mem_cons_of_mem _ (List.mem_append_right _ hq)
    have happlies {db₁ : BTreeDb} (hafter : r.After (id :: (hole.ids ++ ids)) db db₁ u pool₁)
        (habsent : r ≠ .absent) (hundef : r ≠ .undefined) :
        r.Applies db₁ u ∧ r.result.deleted = true := by
      cases r with
      | absent => exact absurd rfl habsent
      | undefined => exact absurd rfl hundef
      | kept t' newMin => exact ⟨hid t' newMin rfl, rfl⟩
      | gone => exact ⟨trivial, rfl⟩
      | replaced t' =>
        obtain ⟨m, hm⟩ := hord.2.1.minKey_some
        have hids : t'.id ∈ t'.ids ++ id :: (hole.ids ++ ids) := List.mem_append_left _ t'.id_mem
        exact ⟨⟨(hafter.keeps.accounts.bounds hids).1, m, hm, subtreeMinKey_spec
          (Pool.Accounts.height_lt hafter.keeps.accounts) (hafter.stored t' rfl) hm⟩, rfl⟩
    refine ⟨fun hd => ?_, fun c' hc' => ⟨fun hcf => ?_, fun hcf hn => ?_⟩, fun hnone hne hcf => ?_⟩
    · cases Hole.afterDelete_absent hd
      obtain ⟨db₁, hx, hafter⟩ := hdone trivial
      obtain ⟨hhole, hid₁, hsame⟩ := hchild hafter
      refine ⟨db₁, hrec (Io.bind_done hx), ?_, ⟨hid₁, ?_⟩, hsame⟩
      · refine hafter.keeps.perm (List.perm_iff_count.mpr fun q => ?_)
        have hcount := hperm.count_eq q
        simp only [DelTree.ids, DelTree.tree, Option.map_some, Option.getD_some,
          List.count_append, List.count_cons] at hcount ⊢
        omega
      · rw [← hplug, Hole.plug_stored]
        exact ⟨hafter.stored u rfl, hhole⟩
    · obtain ⟨hids, hparts, hstored⟩ := Hole.afterDelete_parts db u hc'
      obtain ⟨db₁, hx, hafter⟩ := hdone (hparts.mp hcf).1
      obtain ⟨-, -, hstored⟩ := Hole.afterDelete_parts db₁ u hc'
      obtain ⟨hhole, -, hsame⟩ := hchild hafter
      have habsent : r ≠ .absent := by
        rintro rfl
        rw [Hole.afterDelete_of_absent] at hc'
        cases hc'
      have hundef : r ≠ .undefined := by
        rintro rfl
        rw [Hole.afterDelete_of_undefined] at hc'
        cases hc'
      obtain ⟨hr', hdeleted⟩ := happlies hafter habsent hundef
      have hupdate := updateRoute_spec hr' hc'
      rw [hplug] at hupdate
      refine ⟨db₁, hrec ((Io.bind_done hx).trans ?_), ?_, hstored.mpr ⟨hafter.stored, hhole⟩, hsame⟩
      · rw [afterChild, hdeleted]
        exact Io.bind_done hupdate
      · refine hafter.keeps.perm (List.perm_iff_count.mpr fun q => ?_)
        have hcount := hids.count_eq q
        simp only [List.count_append, List.count_cons] at hcount ⊢
        omega
    · obtain ⟨-, hparts, -⟩ := Hole.afterDelete_parts db u hc'
      obtain ⟨hu, hhole⟩ := hfits hcf
      exact hnot (hfail hu fun hr' => hn (hparts.mpr ⟨hr', hhole⟩))
    · by_cases hr' : r.Fits
      · obtain ⟨db₁, hx, hafter⟩ := hdone hr'
        have habsent : r ≠ .absent := by
          rintro rfl
          exact hne (Hole.afterDelete_of_absent hole)
        have hundef : r ≠ .undefined := by
          rintro rfl
          exact hr'
        obtain ⟨happ, hdeleted⟩ := happlies hafter habsent hundef
        have hupdate := updateRoute_undefined happ hnone
        rw [hplug] at hupdate
        have hu := hrec (x := .undefined) (by
          refine (Io.bind_done hx).trans ?_
          rw [afterChild, hdeleted]
          exact Io.bind_undefined hupdate)
        intro res db' heq
        rw [hu] at heq
        cases heq
      · exact hnot (hfail (hfits hcf).1 hr')

/-- The children after a delete are in order. -/
theorem Chain.delete_chain_ordered {c c' : Chain} (ho : c.Ordered lo hi) (hk : key.Valid)
    (hd : (c.delete key pool).1.chain = some c') : ∃ lo', c'.Ordered lo' hi := by
  have hord := Chain.delete_ordered ho hk pool
  cases hx : (c.delete key pool).1 with
  | absent | undefined =>
    rw [hx] at hd
    cases hd
  | kept c₁ head =>
    rw [hx] at hd hord
    cases Option.some.inj hd
    exact ⟨lo, hord.2.1⟩
  | headGone next =>
    rw [hx] at hd hord
    rcases next with _ | ⟨k, c₁⟩
    · cases hd
    · cases Option.some.inj hd
      exact ⟨_, hord.2.2.2.1⟩

theorem chainDelete_fits {c : Chain} {atHead : Bool} (h : (chainDelete id c atHead pool).1.Fits) :
    c.Fits := by
  cases c with
  | one t => exact h
  | cons t k rest => exact h.2

/-- `btree_delete_recursive` below the root makes the tree of the delete, when its pages have room
and no page without keys loses its child; otherwise it does not return 1. -/
theorem deleteRecursive_spec {fuel : Nat} {t : BTree} (hfuel : t.height < fuel)
    (h : db.Keeps (t.ids ++ ids) pool) (hs : t.Stored db) (hroot : db.rootPage ∈ ids)
    (ho : t.Ordered lo hi) (hk : key.Valid) : DeletesTo key fuel t ids db pool := by
  induction fuel generalizing t ids db pool lo hi with
  | zero => omega
  | succ fuel ih =>
    cases t with
    | leaf id entries =>
      have hload (isRoot : Bool) : deleteRecursive key (fuel + 1) id isRoot db =
          deleteLeaf id entries key isRoot db := Io.bind_done (nodeLoad_holds hs)
      obtain ⟨hdone, hfail⟩ := leafDelete_spec key h hs hroot
      unfold DeletesTo
      rw [BTree.id, hload]
      refine ⟨hdone, fun _ hn res db' heq => ?_⟩
      obtain ⟨db₁, hfail'⟩ := hfail hn
      rw [hfail'] at heq
      cases heq
    | node id c =>
      have hc : c.Ordered lo hi := ho
      obtain ⟨-, -, lo', hi', hou⟩ := hc.route hk
      have hperm := c.route_perm key
      have hle := (c.route key).1.height_le_plug (c.route key).2
      rw [c.route_plug key] at hle
      have hcs := hs.2
      rw [← c.route_plug key, Hole.plug_stored] at hcs
      have hkeeps : db.Keeps ((c.route key).2.ids ++ id :: ((c.route key).1.ids ++ ids)) pool := by
        refine h.perm (List.perm_iff_count.mpr fun q => ?_)
        have hcount := hperm.count_eq q
        simp only [BTree.ids, List.count_append, List.count_cons] at hcount ⊢
        omega
      have hchild := ih (t := (c.route key).2) (by simp only [BTree.height] at hfuel; omega) hkeeps
        hcs.1 (List.mem_cons_of_mem _ (List.mem_append_right _ hroot)) hou
      obtain ⟨habsent, hsome, hnone⟩ := deleteChild_spec hc hk hs hchild false
      unfold DeletesTo
      rw [BTree.id]
      cases hd : (c.delete key pool).1.chain with
      | some c' =>
        obtain ⟨hdone, hfail⟩ := hsome c' hd
        rw [BTree.delete_node_some hd]
        obtain ⟨lo₁, hc'⟩ := Chain.delete_chain_ordered hc hk hd
        constructor
        · intro hf
          have hcf := chainDelete_fits hf
          obtain ⟨db₁, hx, hkeeps₁, hstored₁, hsame₁⟩ := hdone hcf
          obtain ⟨db', hfin, hafter⟩ := (finishInternal_spec hc' hkeeps₁ hstored₁
            (by rw [hsame₁.root]; exact hroot) hcf (.node id c) _).1 hf
          exact ⟨db', hx.trans hfin, hafter.keeps, hafter.stored, hsame₁.trans hafter.same⟩
        · intro ht hn res db' heq
          by_cases hcf : c'.Fits
          · obtain ⟨db₁, hx, hkeeps₁, hstored₁, hsame₁⟩ := hdone hcf
            obtain ⟨db₂, hfin⟩ := (finishInternal_spec hc' hkeeps₁ hstored₁
              (by rw [hsame₁.root]; exact hroot) hcf (.node id c) _).2 hn
            rw [hx, hfin] at heq
            cases heq
          · exact hfail ht.2 hcf res db' heq
      | none =>
        by_cases hne : (c.delete key pool).1 = .absent
        · rw [BTree.delete_node_absent hne]
          refine ⟨fun _ => ?_, fun _ hn => absurd trivial hn⟩
          obtain ⟨db', hx, hkeeps', hstored', hsame'⟩ := habsent hne
          refine ⟨db', hx, hkeeps', fun t' ht' => ?_, hsame'⟩
          cases Option.some.inj ht'
          exact hstored'
        · have hundef := BTree.delete_node_none id hd hne
          rw [hundef]
          exact ⟨fun hf => hf.elim, fun ht _ => hnone hd hne ht.2⟩

/-- The end of the delete in the root. -/
theorem finishInternal_root {c : Chain} (ho : c.Ordered lo hi)
    (h : db.Keeps (id :: c.ids) pool) (hs : c.Stored db) (hroot : db.rootPage = id)
    (hc : c.Fits) (slot : Nat) :
    match (c : Chain) with
    | .one t => ∃ db', finishInternal id c.first.id c.entries slot true db =
        .done { DeleteResult.init with deleted := true } db' ∧ db'.Represents t (pool.release id)
    | .cons .. => ((BTree.node id c).Fits → ∃ db',
        finishInternal id c.first.id c.entries slot true db =
          .done { DeleteResult.init with deleted := true } db' ∧
        db'.Represents (.node id c) pool) ∧
      (¬ (BTree.node id c).Fits →
        ∃ db', finishInternal id c.first.id c.entries slot true db = .failed db') := by
  unfold finishInternal
  rw [if_pos rfl]
  cases c with
  | one u =>
    have hu : u.id ∈ id :: (Chain.one u).ids := List.mem_cons_of_mem _ u.id_mem
    have hne : id ≠ u.id := by
      rintro rfl
      exact (List.nodup_cons.mp h.accounts.nodup).1 u.id_mem
    have hstored : u.Stored ({ db with rootPage := u.id } : BTreeDb).writeHeader :=
      BTree.Stored.frame hs fun q hq => Function.update_of_ne
        (h.accounts.bounds (List.mem_cons_of_mem _ hq)).1 _ _
    obtain ⟨db', hfree, hkeeps, hsame⟩ := dbFreePage_spec (h.setRoot u.id) hne
    refine ⟨db', ?_, hsame.root.symm, hstored.frame hsame.pages, hkeeps⟩
    rw [if_pos ⟨rfl, (h.accounts.bounds hu).1⟩]
    show (if id ≠ u.id then (dbFreePage id >>= fun _ => pure _ : Io DeleteResult) else pure _) _ = _
    rw [if_pos hne]
    exact Io.bind_done hfree
  | cons u k rest =>
    have hentries : (Chain.cons u k rest).entries ≠ [] := List.cons_ne_nil _ _
    dsimp only
    rw [if_neg (fun hx => hentries hx.1)]
    constructor
    · rintro ⟨hsize, -⟩
      obtain ⟨db', hwrite, hkeeps, hsame, hholds⟩ := nodeWrite_keeps
        (n := .internal _ (Chain.cons u k rest).entries) ho.keys hsize h
      refine ⟨db', Io.bind_done hwrite, ?_, ⟨hholds, ?_⟩, hkeeps⟩
      · exact hroot.symm.trans hsame.root.symm
      · exact Chain.Stored.frame hs hsame.pages
    · intro hn
      exact ⟨db, Io.bind_failed (nodeWrite_failed (not_le.mp fun hsize => hn ⟨hsize, hc⟩) _ _)⟩

def IoResult.map {α β : Type} (f : α → β) : IoResult α → IoResult β
  | done a db => .done (f a) db
  | failed db => .failed db
  | undefined => .undefined

theorem btreeDelete_eq (key : BTreeAtom) (db : BTreeDb) : btreeDelete key db =
    (deleteRecursive key UInt32.size db.rootPage true db).map DeleteResult.deleted := by
  show (deleteRecursive key UInt32.size db.rootPage true >>= fun r => pure r.deleted) db = _
  cases hx : deleteRecursive key UInt32.size db.rootPage true db with
  | done r db' => exact Io.bind_done hx
  | failed db' => exact Io.bind_failed hx
  | undefined => exact Io.bind_undefined hx

/-- `btree_delete` makes the tree of the delete and says whether the key was there, when the pages
of the tree have room and no page without keys loses its child; otherwise it does not return 1. -/
theorem btreeDelete_spec {t : BTree} (h : db.Represents t pool) (ho : t.RootOrdered)
    (hk : key.Valid) (ht : t.Fits) :
    (∀ t' found pool', t.rootDelete key pool = some (t', found, pool') → t'.Fits →
      ∃ db', btreeDelete key db = .done found db' ∧ db'.Represents t' pool') ∧
    ((∀ t' found pool', t.rootDelete key pool = some (t', found, pool') → ¬ t'.Fits) →
      ∀ found db', btreeDelete key db ≠ .done found db') := by
  obtain ⟨hroot, hs, hkeeps⟩ := h
  have hrec {x : IoResult DeleteResult}
      (hx : deleteRecursive key (4294967295 + 1) t.id true db = x) :
      btreeDelete key db = x.map DeleteResult.deleted := by
    rw [hroot] at hx
    rw [← hx]
    exact btreeDelete_eq key db
  have hnot (hn : ∀ res db', deleteRecursive key (4294967295 + 1) t.id true db ≠ .done res db')
      (found : Bool) (db' : BTreeDb) : btreeDelete key db ≠ .done found db' := by
    intro heq
    cases hx : deleteRecursive key (4294967295 + 1) t.id true db with
    | done res db₁ => exact hn res db₁ hx
    | failed db₁ =>
      rw [hrec hx] at heq
      cases heq
    | undefined =>
      rw [hrec hx] at heq
      cases heq
  cases t with
  | leaf id entries =>
    have hload : deleteRecursive key (4294967295 + 1) id true db =
        deleteLeaf id entries key true db := Io.bind_done (nodeLoad_holds hs)
    unfold deleteLeaf at hload
    simp only [BTree.rootDelete]
    generalize leafFindSlot entries key = slot at hload ⊢
    obtain ⟨pos, found⟩ := slot
    cases found with
    | false =>
      constructor
      · intro t' found pool' hd _
        cases Option.some.inj hd
        exact ⟨db, hrec hload, hroot, hs, hkeeps⟩
      · intro hn
        exact absurd ht (hn _ _ _ rfl)
    | true =>
      have hvalid : ∀ e ∈ entries.eraseIdx pos, e.Valid := fun e he =>
        hs.1 e ((List.eraseIdx_sublist ..).subset he)
      simp only [Bool.not_true, Bool.false_eq_true, ↓reduceIte] at hload ⊢
      constructor
      · intro t' found pool' hd hf
        cases Option.some.inj hd
        obtain ⟨db', hwrite, hkeeps', hsame, hholds⟩ := nodeWrite_keeps
          (n := .leaf 0 (entries.eraseIdx pos)) hvalid hf hkeeps
        exact ⟨db', hrec (hload.trans (Io.bind_done hwrite)), hroot.trans hsame.root.symm, hholds,
          hkeeps'⟩
      · intro hn
        refine hnot fun res db' heq => ?_
        have hfail := Io.bind_failed (f := fun _ => (pure { DeleteResult.init with
            deleted := true, newMin := if decide (pos = 0) = true then
              ((entries.eraseIdx pos).head?).map LeafEntry.key else none } : Io DeleteResult))
          (nodeWrite_failed (n := .leaf 0 (entries.eraseIdx pos)) (not_le.mp (hn _ _ _ rfl)) id db)
        cases (hload.trans hfail).symm.trans heq
  | node id c =>
    have hc : c.Ordered none none := ho
    obtain ⟨-, -, lo', hi', hou⟩ := hc.route hk
    have hperm := c.route_perm key
    have hle := (c.route key).1.height_le_plug (c.route key).2
    rw [c.route_plug key] at hle
    have hcs := hs.2
    rw [← c.route_plug key, Hole.plug_stored] at hcs
    have hkeeps' : db.Keeps ((c.route key).2.ids ++ id :: ((c.route key).1.ids ++ [])) pool := by
      refine hkeeps.perm (List.perm_iff_count.mpr fun q => ?_)
      have hcount := hperm.count_eq q
      simp only [BTree.ids, List.count_append, List.count_cons, List.count_nil] at hcount ⊢
      omega
    have hheight : c.height < 4294967295 := by
      have h := hkeeps.accounts.height_lt_self
      simp only [BTree.height, UInt32.size] at h
      omega
    have hroot' : db.rootPage ∈ id :: ((c.route key).1.ids ++ []) := by
      rw [← hroot]
      exact List.mem_cons_self
    have hchild := deleteRecursive_spec
      (show (c.route key).2.height < 4294967295 by omega) hkeeps' hcs.1 hroot' hou hk
    obtain ⟨habsent, hsome, hnone⟩ := deleteChild_spec hc hk hs hchild true
    simp only [BTree.rootDelete]
    cases hd : (c.delete key pool).1.chain with
    | some c' =>
      obtain ⟨hdone, hfail⟩ := hsome c' hd
      rw [BTree.delete_node_some hd]
      obtain ⟨lo₁, hc'⟩ := Chain.delete_chain_ordered hc hk hd
      have hfin {db₁ : BTreeDb} (hk₁ : db₁.Keeps (id :: (c'.ids ++ [])) (c.delete key pool).2)
          (hs₁ : c'.Stored db₁) (hsame : db.Same [] db₁) (hcf : c'.Fits) :=
        finishInternal_root hc' (by rw [List.append_nil] at hk₁; exact hk₁) hs₁
          (hsame.root.trans hroot.symm) hcf (c.route key).1.slot
      cases c' with
      | one t₁ =>
        constructor
        · intro t' found pool' hd' hf
          cases Option.some.inj hd'
          obtain ⟨db₁, hx, hk₁, hs₁, hsame₁⟩ := hdone hf
          obtain ⟨db', hfin', hrep⟩ := hfin hk₁ hs₁ hsame₁ hf
          exact ⟨db', hrec (hx.trans hfin'), hrep⟩
        · intro hn
          exact hnot (hfail ht.2 (hn _ _ _ rfl))
      | cons t₁ k rest =>
        constructor
        · intro t' found pool' hd' hf
          cases Option.some.inj hd'
          obtain ⟨db₁, hx, hk₁, hs₁, hsame₁⟩ := hdone hf.2
          obtain ⟨db', hfin', hrep⟩ := (hfin hk₁ hs₁ hsame₁ hf.2).1 hf
          exact ⟨db', hrec (hx.trans hfin'), hrep⟩
        · intro hn
          have hn' := hn _ _ _ rfl
          by_cases hcf : (Chain.cons t₁ k rest).Fits
          · obtain ⟨db₁, hx, hk₁, hs₁, hsame₁⟩ := hdone hcf
            obtain ⟨db', hfin'⟩ := (hfin hk₁ hs₁ hsame₁ hcf).2 hn'
            refine hnot fun res db₂ heq => ?_
            cases (hx.trans hfin').symm.trans heq
          · exact hnot (hfail ht.2 hcf)
    | none =>
      by_cases hne : (c.delete key pool).1 = .absent
      · rw [BTree.delete_node_absent hne]
        constructor
        · intro t' found pool' hd' _
          cases Option.some.inj hd'
          obtain ⟨db', hx, hk', hs', hsame'⟩ := habsent hne
          rw [List.append_nil] at hk'
          exact ⟨db', hrec hx, hroot.trans hsame'.root.symm, hs', hk'⟩
        · intro hn
          exact absurd ht (hn _ _ _ rfl)
      · have hundef := BTree.delete_node_none id hd hne
        constructor
        · intro t' found pool' hd'
          cases hx : (BTree.node id c).delete key pool with
          | mk r pool₁ =>
            rw [hx] at hundef hd'
            cases (show r = .undefined from hundef)
            cases hd'
        · intro _
          exact hnot (hnone hd hne ht.2)

end ToiLang