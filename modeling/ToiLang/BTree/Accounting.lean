import ToiLang.BTree.Calls

namespace ToiLang

variable {db db' : BTreeDb} {key value : BTreeAtom} {pool pool' : Pool} {m : List LeafEntry}

def NodeData.children : NodeData → List UInt32
  | leaf _ _ => []
  | internal leftChild entries => leftChild :: entries.map InternalEntry.child

/-- The page at the end of a way along child pointers, each given by its place on its page. -/
def BTreeDb.follow (db : BTreeDb) : UInt32 → List Nat → Option UInt32
  | p, [] => some p
  | p, i :: path =>
    match (db.pages p).map loadNode with
    | some (.ok n) => (n.children[i]?).bind fun q => db.follow q path
    | _ => none

/-- The children of a page. -/
def Chain.trees : Chain → List BTree
  | one t => [t]
  | cons t _ rest => t :: rest.trees

theorem Chain.children_eq (c : Chain) :
    (NodeData.internal c.first.id c.entries).children = c.trees.map BTree.id := by
  induction c using Chain.induction with
  | one t => rfl
  | cons t k rest ih => exact congrArg (t.id :: ·) ih

theorem follow_holds {p : UInt32} {n : NodeData} (h : db.Holds p n) (i : Nat) (path : List Nat) :
    db.follow p (i :: path) = (n.children[i]?).bind fun q => db.follow q path := by
  obtain ⟨-, page, hpage, hload⟩ := h
  simp only [BTreeDb.follow, hpage, Option.map_some, hload]

/-- The pages to which there is a way from one of several roots, by the root and by the way. -/
def BTreeDb.ReachesOnce (db : BTreeDb) (roots : List UInt32) (ids : List UInt32) : Prop :=
  ∀ q, (q ∈ ids ↔ ∃ (i : Nat) (path : List Nat),
      ((roots[i]?).bind fun r => db.follow r path) = some q) ∧
    ∀ (i : Nat) (path : List Nat) (i' : Nat) (path' : List Nat), ((roots[i]?).bind fun r => db.follow r path) = some q →
      ((roots[i']?).bind fun r => db.follow r path') = some q → i = i' ∧ path = path'

theorem BTreeDb.ReachesOnce.append {roots roots' ids ids' : List UInt32}
    (h : db.ReachesOnce roots ids) (h' : db.ReachesOnce roots' ids') (hd : ids.Disjoint ids') :
    db.ReachesOnce (roots ++ roots') (ids ++ ids') := by
  have hleft {i : Nat} (hi : i < roots.length) : (roots ++ roots')[i]? = roots[i]? :=
    List.getElem?_append_left hi
  have hright {i : Nat} (hi : roots.length ≤ i) :
      (roots ++ roots')[i]? = roots'[i - roots.length]? := List.getElem?_append_right hi
  -- a way from one of the first roots ends in `ids`, and from the others in `ids'`
  have hside {q : UInt32} {i : Nat} {path : List Nat}
      (hq : (((roots ++ roots')[i]?).bind fun r => db.follow r path) = some q) :
      (i < roots.length ∧ q ∈ ids ∧ ((roots[i]?).bind fun r => db.follow r path) = some q) ∨
      (roots.length ≤ i ∧ q ∈ ids' ∧
        ((roots'[i - roots.length]?).bind fun r => db.follow r path) = some q) := by
    by_cases hi : i < roots.length
    · rw [hleft hi] at hq
      exact .inl ⟨hi, (h q).1.mpr ⟨i, path, hq⟩, hq⟩
    · rw [hright (by omega)] at hq
      exact .inr ⟨by omega, (h' q).1.mpr ⟨_, path, hq⟩, hq⟩
  intro q
  constructor
  · constructor
    · intro hq
      rcases List.mem_append.mp hq with hq | hq
      · obtain ⟨i, path, hpath⟩ := (h q).1.mp hq
        have hi : i < roots.length := by
          by_contra hn
          rw [List.getElem?_eq_none (by omega)] at hpath
          cases hpath
        exact ⟨i, path, by rw [hleft hi, hpath]⟩
      · obtain ⟨i, path, hpath⟩ := (h' q).1.mp hq
        refine ⟨roots.length + i, path, ?_⟩
        rw [hright (by omega), Nat.add_sub_cancel_left, hpath]
    · rintro ⟨i, path, hpath⟩
      rcases hside hpath with ⟨-, hq, -⟩ | ⟨-, hq, -⟩
      · exact List.mem_append_left _ hq
      · exact List.mem_append_right _ hq
  · intro i path i' path' hpath hpath'
    rcases hside hpath with ⟨hi, hq, hp⟩ | ⟨hi, hq, hp⟩
    · rcases hside hpath' with ⟨hi', hq', hp'⟩ | ⟨hi', hq', hp'⟩
      · exact (h q).2 _ _ _ _ hp hp'
      · exact absurd hq' (hd hq)
    · rcases hside hpath' with ⟨hi', hq', hp'⟩ | ⟨hi', hq', hp'⟩
      · exact absurd hq (hd hq')
      · obtain ⟨heq, hpaths⟩ := (h' q).2 _ _ _ _ hp hp'
        exact ⟨by omega, hpaths⟩

mutual

theorem BTree.reachesOnce {db : BTreeDb} {t : BTree} (h : t.Stored db) (hn : t.ids.Nodup) :
    db.ReachesOnce [t.id] t.ids := by
  have hzero {q : UInt32} {i : Nat} {path : List Nat}
      (hq : (([t.id][i]?).bind fun r => db.follow r path) = some q) :
      i = 0 ∧ db.follow t.id path = some q := by
    cases i with
    | zero => exact ⟨rfl, hq⟩
    | succ i => cases hq
  cases t with
  | leaf id entries =>
    have hpath {q : UInt32} {path : List Nat} (hq : db.follow id path = some q) :
        path = [] ∧ q = id := by
      cases path with
      | nil => exact ⟨rfl, (Option.some.inj hq).symm⟩
      | cons i path =>
        rw [follow_holds (show db.Holds id (.leaf 0 entries) from h)] at hq
        cases hq
    intro q
    constructor
    · rw [BTree.ids, List.mem_singleton]
      constructor
      · rintro rfl
        exact ⟨0, [], rfl⟩
      · rintro ⟨i, path, hq⟩
        exact (hpath (hzero hq).2).2
    · intro i path i' path' hq hq'
      obtain ⟨rfl, hq⟩ := hzero hq
      obtain ⟨rfl, hq'⟩ := hzero hq'
      rw [(hpath hq).1, (hpath hq').1]
      exact ⟨rfl, rfl⟩
  | node id c =>
    obtain ⟨hid, hnc⟩ := List.nodup_cons.mp hn
    have hchildren := Chain.reachesOnce h.2 hnc
    have hstep (i : Nat) (path : List Nat) : db.follow id (i :: path) =
        ((c.trees.map BTree.id)[i]?).bind fun r => db.follow r path := by
      rw [follow_holds h.1, Chain.children_eq]
    intro q
    constructor
    · rw [BTree.ids, List.mem_cons]
      constructor
      · rintro (rfl | hq)
        · exact ⟨0, [], rfl⟩
        · obtain ⟨i, path, hpath⟩ := (hchildren q).1.mp hq
          exact ⟨0, i :: path, (hstep i path).trans hpath⟩
      · rintro ⟨i, path, hq⟩
        obtain ⟨rfl, hq⟩ := hzero hq
        cases path with
        | nil => exact .inl (Option.some.inj hq).symm
        | cons i path => exact .inr ((hchildren q).1.mpr ⟨i, path, (hstep i path).symm.trans hq⟩)
    · intro i path i' path' hq hq'
      obtain ⟨rfl, hq⟩ := hzero hq
      obtain ⟨rfl, hq'⟩ := hzero hq'
      refine ⟨rfl, ?_⟩
      cases path with
      | nil =>
        cases path' with
        | nil => rfl
        | cons i' path' =>
          cases Option.some.inj hq
          exact absurd ((hchildren _).1.mpr ⟨i', path', (hstep i' path').symm.trans hq'⟩) hid
      | cons i path =>
        cases path' with
        | nil =>
          cases Option.some.inj hq'
          exact absurd ((hchildren _).1.mpr ⟨i, path, (hstep i path).symm.trans hq⟩) hid
        | cons i' path' =>
          obtain ⟨rfl, rfl⟩ := (hchildren q).2 _ _ _ _ ((hstep i path).symm.trans hq)
            ((hstep i' path').symm.trans hq')
          rfl

theorem Chain.reachesOnce {db : BTreeDb} {c : Chain} (h : c.Stored db) (hn : c.ids.Nodup) :
    db.ReachesOnce (c.trees.map BTree.id) c.ids := by
  cases c with
  | one t => exact BTree.reachesOnce (t := t) h hn
  | cons t k rest =>
    obtain ⟨hnt, hnr, hd⟩ := List.nodup_append'.mp hn
    exact (BTree.reachesOnce h.1 hnt).append (Chain.reachesOnce h.2 hnr) hd

end

theorem Pool.alloc_leaked (pool : Pool) : pool.alloc.2.leaked = pool.leaked := by
  unfold Pool.alloc
  split <;> rfl

theorem leafPut_leaked (id : UInt32) (entries : List LeafEntry) (key value : BTreeAtom)
    (pool : Pool) : (leafPut id entries key value pool).2.leaked = pool.leaked := by
  unfold leafPut
  dsimp only
  split
  · rfl
  · split
    · rfl
    · split
      · rfl
      · exact pool.alloc_leaked

theorem chainPut_leaked (id : UInt32) (c : Chain) (pool : Pool) :
    (chainPut id c pool).2.leaked = pool.leaked := by
  unfold chainPut
  dsimp only
  split
  · rfl
  · split
    · rfl
    · exact pool.alloc_leaked

mutual

theorem BTree.put_leaked (key value : BTreeAtom) (t : BTree) (pool : Pool) :
    (t.put key value pool).2.leaked = pool.leaked := by
  cases t with
  | leaf id entries => exact leafPut_leaked id entries key value pool
  | node id c =>
    have ih := Chain.put_leaked key value c pool
    unfold BTree.put
    cases hr : c.put key value pool with
    | mk r pool' =>
      rw [hr] at ih
      cases r with
      | done c' => exact ih
      | grown c' => exact (chainPut_leaked id c' pool').trans ih

theorem Chain.put_leaked (key value : BTreeAtom) (c : Chain) (pool : Pool) :
    (c.put key value pool).2.leaked = pool.leaked := by
  cases c with
  | one t => exact BTree.put_leaked key value t pool
  | cons t k rest =>
    unfold Chain.put
    split
    · exact BTree.put_leaked key value t pool
    · exact Chain.put_leaked key value rest pool

end

theorem BTree.rootPut_leaked (key value : BTreeAtom) (t : BTree) (pool : Pool) :
    (t.rootPut key value pool).2.leaked = pool.leaked := by
  have hput := t.put_leaked key value pool
  unfold BTree.rootPut
  cases hr : t.put key value pool with
  | mk r pool' =>
    rw [hr] at hput
    cases r with
    | done t' => exact hput
    | split l k r => exact pool'.alloc_leaked.trans hput

theorem leafDelete_leaked (id : UInt32) (entries : List LeafEntry) (key : BTreeAtom)
    (pool : Pool) : (leafDelete id entries key pool).2.leaked = pool.leaked := by
  unfold leafDelete
  dsimp only
  split
  · rfl
  · split <;> rfl

theorem chainDelete_leaked (id : UInt32) (c : Chain) (atHead : Bool) (pool : Pool) :
    (chainDelete id c atHead pool).2.leaked = pool.leaked := by
  cases c <;> rfl

mutual

theorem BTree.delete_leaked (key : BTreeAtom) (t : BTree) (pool : Pool) :
    (t.delete key pool).2.leaked = pool.leaked := by
  cases t with
  | leaf id entries => exact leafDelete_leaked id entries key pool
  | node id c =>
    have ih := Chain.delete_leaked key c pool
    unfold BTree.delete
    cases hr : c.delete key pool with
    | mk r pool' =>
      rw [hr] at ih
      cases r with
      | absent => exact ih
      | kept c' head => exact (chainDelete_leaked id c' _ pool').trans ih
      | headGone next =>
        cases next with
        | none => exact ih
        | some p => exact (chainDelete_leaked id p.2 true pool').trans ih
      | undefined => exact ih

theorem Chain.delete_leaked (key : BTreeAtom) (c : Chain) (pool : Pool) :
    (c.delete key pool).2.leaked = pool.leaked := by
  cases c with
  | one t => exact BTree.delete_leaked key t pool
  | cons t k rest =>
    unfold Chain.delete
    split
    · exact BTree.delete_leaked key t pool
    · have ih := Chain.delete_leaked key rest pool
      cases hr : rest.delete key pool with
      | mk r pool' =>
        rw [hr] at ih
        cases r with
        | headGone next => cases next <;> exact ih
        | absent | kept | undefined => exact ih

end

theorem BTree.rootDelete_leaked {t t' : BTree} {found : Bool}
    (h : t.rootDelete key pool = some (t', found, pool')) : pool'.leaked = pool.leaked := by
  cases t with
  | leaf id entries =>
    cases Option.some.inj h
    rfl
  | node id c =>
    have hdel := BTree.delete_leaked key (.node id c) pool
    simp only [BTree.rootDelete] at h
    cases hr : (BTree.node id c).delete key pool with
    | mk r pool₁ =>
      rw [hr] at h hdel
      cases r with
      | absent | kept | replaced =>
        cases Option.some.inj h
        exact hdel
      | gone | undefined => cases h

theorem BTreeDb.Serves.clean_step {t : BTree} {call : BTreeCall} (h : db.Serves m t pool)
    (hv : call.Valid) (hclean : call.Clean db) :
    (∀ b db', call.run db = .done b db' → ∃ t' pool', db'.Serves (call.bindings m) t' pool' ∧
      pool'.leaked = pool.leaked) ∧
    (∀ db', call.run db = .failed db' → db' = db) := by
  obtain ⟨hrep, ho, hf, rfl⟩ := h
  cases call with
  | put key value =>
    obtain ⟨hroom, hput | href⟩ := hclean t pool hrep
    · obtain ⟨db₁, hdone, hrep'⟩ := (btreePut_spec hrep hv.1 hv.2 hroom).1 hput
      obtain ⟨ho', hcontents⟩ := BTree.rootPut_ordered ho hv.1 hv.2 pool
      constructor
      · intro b db' hr
        cases hdone.symm.trans (BTreeCall.run_put_done hr)
        exact ⟨_, _, ⟨hrep', ho', hput, hcontents⟩, t.rootPut_leaked key value pool⟩
      · intro db' hr
        cases hdone.symm.trans (BTreeCall.run_put_failed hr)
    · have hfail := btreePut_refuses hrep href
      constructor
      · intro b db' hr
        cases hfail.symm.trans (BTreeCall.run_put_done hr)
      · intro db' hr
        cases hfail.symm.trans (BTreeCall.run_put_failed hr)
        rfl
  | delete key =>
    obtain ⟨t', found, pool', hd, hf'⟩ := hclean t pool hrep
    obtain ⟨db₁, hdone, hrep'⟩ := (btreeDelete_spec hrep ho hv hf).1 t' found pool' hd hf'
    obtain ⟨ho', hcontents, -⟩ := BTree.rootDelete_ordered ho hv hd
    constructor
    · intro b db' hr
      cases hdone.symm.trans hr
      exact ⟨t', pool', ⟨hrep', ho', hf', hcontents⟩, BTree.rootDelete_leaked hd⟩
    · intro db' hr
      cases hdone.symm.trans hr

theorem BTreeRun.serves_all (h : BTreeRun BTreeCall.Clean db m) :
    ∃ t pool, db.Serves m t pool ∧ pool.leaked = [] := by
  induction h with
  | opened => exact ⟨_, _, emptyDb_serves, rfl⟩
  | done _ hv hok hr ih =>
    obtain ⟨t, pool, hserves, hleaked⟩ := ih
    obtain ⟨t', pool', hserves', hleaked'⟩ := (hserves.clean_step hv hok).1 _ _ hr
    exact ⟨t', pool', hserves', hleaked'.trans hleaked⟩
  | failed _ hv hok hr ih =>
    obtain ⟨t, pool, hserves, hleaked⟩ := ih
    rw [(hserves.clean_step hv hok).2 _ hr]
    exact ⟨t, pool, hserves, hleaked⟩

namespace SampleTree

/-- A run with three keys on the first page, the first with a long value. -/
theorem three_keys : ∃ db,
    BTreeRun (fun _ _ => True) db [binding 97 2000, binding 121 0, binding 122 0] ∧
      db.Represents (.leaf 1 [binding 97 2000, binding 121 0, binding 122 0]) ⟨[], 2, []⟩ := by
  obtain ⟨db, hrun, hrep⟩ := two_keys (n := 2000) (k := 0) (by decide)
  have hsize : (NodeData.leaf 0 [binding 97 2000, binding 121 0, binding 122 0]).size ≤ 4096 := by
    rw [size_cons, size_cons, size_cons, size_nil]
    decide
  obtain ⟨db', hdone, hrep'⟩ := btreePut_leaf_done hrep (letter_slot _ _).2
    (letter_valid 121) (text_valid (n := 0) (by decide)) hasRoom_two hsize
  have hrun' := hrun.put_done (letter_valid 121) (text_valid (by decide)) trivial hdone
  have hm : bindEntry (letter 121) (text 0) ([binding 97 2000] ++ [binding 122 0]) =
      [binding 97 2000] ++ binding 121 0 :: [binding 122 0] := by
    refine bindEntry_absent (fun a ha => ?_) (fun a ha => ?_)
    · rw [List.mem_singleton.mp ha]
      exact letter_lt (by decide)
    · rw [List.mem_singleton.mp ha]
      exact letter_lt (by decide)
  refine ⟨db', ?_, hrep'⟩
  show BTreeRun _ db' ([binding 97 2000] ++ binding 121 0 :: [binding 122 0])
  rw [← hm]
  exact hrun'

/-- A second long value behind the first: both are in the left half. -/
theorem three_keys_leak : LeafLeaks [binding 97 2000, binding 121 0, binding 122 0] (letter 98)
    (text 2500) := by
  have h₁ : atomCompare (letter 98) (letter 97) = .gt := by decide
  have h₂ : atomCompare (letter 98) (letter 121) = .lt := by decide
  have hslot : leafFindSlot [binding 97 2000, binding 121 0, binding 122 0] (letter 98) =
      (1, false) := by
    simp [leafFindSlot, leafFindLoop, binding, h₁, h₂]
  unfold LeafLeaks
  rw [hslot]
  refine ⟨rfl, ?_, by decide, .inl ?_⟩
  · show nodeFitsLeaf [binding 97 2000, binding 98 2500, binding 121 0, binding 122 0] = false
    show fitsFrom 24 [leafRecordSize (binding 97 2000), leafRecordSize (binding 98 2500),
      leafRecordSize (binding 121 0), leafRecordSize (binding 122 0)] = false
    rw [binding_size, binding_size, binding_size, binding_size]
    rfl
  · show 4096 < (NodeData.leaf 0 [binding 97 2000, binding 98 2500]).size
    rw [size_cons, size_cons, size_nil]
    decide

end SampleTree

end ToiLang
