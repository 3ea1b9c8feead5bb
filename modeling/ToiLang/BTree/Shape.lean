import ToiLang.BTree.Accounting

namespace ToiLang

variable {db db' : BTreeDb} {key value : BTreeAtom} {pool pool' : Pool} {lo hi : Option Rank}

mutual

/-- All leaves are `n` pages below the root of the tree. -/
def BTree.Uniform : BTree → Nat → Prop
  | .leaf _ _, n => n = 0
  | .node _ c, n => 0 < n ∧ c.Uniform (n - 1)

def Chain.Uniform : Chain → Nat → Prop
  | .one t, n => t.Uniform n
  | .cons t _ rest, n => t.Uniform n ∧ rest.Uniform n

end

mutual

/-- No internal page is without keys. -/
def BTree.Branching : BTree → Prop
  | .leaf _ _ => True
  | .node _ c => c.entries ≠ [] ∧ c.Branching

def Chain.Branching : Chain → Prop
  | .one t => t.Branching
  | .cons t _ rest => t.Branching ∧ rest.Branching

end

mutual

/-- The put cuts an internal page of two keys: it had one, and has no room for the second. -/
def BTree.CutsPair (key value : BTreeAtom) : BTree → Pool → Prop
  | .leaf _ _, _ => False
  | .node _ c, pool => c.CutsPair key value pool ∨ ∃ c', (c.put key value pool).1 = .grown c' ∧
      c'.entries.length = 2 ∧ nodeFitsInternal c'.entries = false

def Chain.CutsPair (key value : BTreeAtom) : Chain → Pool → Prop
  | .one t, pool => t.CutsPair key value pool
  | .cons t k rest, pool =>
    if atomCompare key k = .lt then t.CutsPair key value pool else rest.CutsPair key value pool

end

mutual

/-- The delete makes an internal page lose its last key: it has one, and the leaf that the key is
routed to is one of its two children and holds nothing else. -/
def BTree.Collapses (key : BTreeAtom) : BTree → Prop
  | .leaf _ _ => False
  | .node _ c => c.Collapses key ∨ (c.entries.length = 1 ∧
      ∃ id e, (c.route key).2 = .leaf id [e] ∧ atomCompare key e.key = .eq)

def Chain.Collapses (key : BTreeAtom) : Chain → Prop
  | .one t => t.Collapses key
  | .cons t k rest => if atomCompare key k = .lt then t.Collapses key else rest.Collapses key

end

theorem Chain.cutsPair_route (key value : BTreeAtom) (c : Chain) (pool : Pool) :
    c.CutsPair key value pool ↔ (c.route key).2.CutsPair key value pool := by
  induction c using Chain.induction with
  | one t => rfl
  | cons t k rest ih =>
    unfold Chain.CutsPair Chain.route
    split
    · rfl
    · exact ih

theorem Chain.collapses_route (key : BTreeAtom) (c : Chain) :
    c.Collapses key ↔ (c.route key).2.Collapses key := by
  induction c using Chain.induction with
  | one t => rfl
  | cons t k rest ih =>
    unfold Chain.Collapses Chain.route
    split
    · rfl
    · exact ih

/-- An induction along the way of a key. -/
theorem BTree.route_induction (key : BTreeAtom) {P : BTree → Prop}
    (leaf : ∀ id entries, P (.leaf id entries))
    (node : ∀ id c, P (c.route key).2 → P (.node id c)) (t : BTree) : P t := by
  generalize hn : t.height = n
  induction n using Nat.strong_induction_on generalizing t with
  | _ n ih =>
    cases t with
    | leaf id entries => exact leaf id entries
    | node id c =>
      have hle := (c.route key).1.height_le_plug (c.route key).2
      rw [c.route_plug key] at hle
      refine node id c (ih (c.route key).2.height ?_ _ rfl)
      simp only [BTree.height] at hn
      omega

section Trees

theorem Chain.trees_length (c : Chain) : c.trees.length = c.entries.length + 1 := by
  induction c using Chain.induction with
  | one t => rfl
  | cons t k rest ih => simp [Chain.trees, Chain.entries, ih]

theorem Chain.uniform_iff {c : Chain} {n : Nat} : c.Uniform n ↔ ∀ t ∈ c.trees, t.Uniform n := by
  induction c using Chain.induction with
  | one t => simp [Chain.trees, Chain.Uniform]
  | cons t k rest ih => simp [Chain.trees, Chain.Uniform, ih]

theorem Chain.branching_iff {c : Chain} : c.Branching ↔ ∀ t ∈ c.trees, t.Branching := by
  induction c using Chain.induction with
  | one t => simp [Chain.trees, Chain.Branching]
  | cons t k rest ih => simp [Chain.trees, Chain.Branching, ih]

@[simp] theorem Chain.append_trees (l r : Chain) (k : BTreeAtom) :
    (l.append k r).trees = l.trees ++ r.trees := by
  induction l using Chain.induction with
  | one t => rfl
  | cons t k' rest ih => simp [Chain.append, Chain.trees, ih]

/-- The children before and behind the one that was left out. -/
def Hole.lefts : Hole → List BTree
  | here _ => []
  | there t _ h => t :: h.lefts

def Hole.rights : Hole → List BTree
  | here none => []
  | here (some (_, rest)) => rest.trees
  | there _ _ h => h.rights

@[simp] theorem Hole.plug_trees (h : Hole) (c : Chain) :
    (h.plug c).trees = h.lefts ++ c.trees ++ h.rights := by
  induction h with
  | here next => rcases next with _ | ⟨k, rest⟩ <;> simp [plug, lefts, rights]
  | there t k h ih => simp [plug, lefts, rights, Chain.trees, ih]

/-- The children after a delete are the others and the tree that is there instead of the one. -/
theorem Hole.afterDelete_trees {hole : Hole} {u : BTree} {r : DelTree} {c : Chain}
    (hc : (hole.afterDelete r).chain = some c) :
    c.trees = hole.lefts ++ (r.tree u).toList ++ hole.rights := by
  induction hole generalizing c with
  | here next =>
    cases r with
    | absent => cases hc
    | undefined => cases hc
    | kept t newMin =>
      cases Option.some.inj hc
      exact (Hole.here next).plug_trees (.one t)
    | replaced t =>
      cases Option.some.inj hc
      exact (Hole.here next).plug_trees (.one t)
    | gone =>
      rcases next with _ | ⟨k, rest⟩
      · cases hc
      · cases Option.some.inj hc
        rfl
  | there t k hole ih =>
    obtain ⟨hgone, rfl⟩ | ⟨c', k', hc', rfl⟩ :=
      DelChain.behind_chain (show ((hole.afterDelete r).behind t k).chain = some c from hc)
    · obtain ⟨rfl, rfl⟩ := Hole.afterDelete_headGone hgone
      rfl
    · exact congrArg (t :: ·) (ih hc')

end Trees

namespace PutTree

def Uniform (n : Nat) : PutTree → Prop
  | done t => t.Uniform n
  | split l _ r => l.Uniform n ∧ r.Uniform n

def Branching : PutTree → Prop
  | done t => t.Branching
  | split l _ r => l.Branching ∧ r.Branching

end PutTree

theorem leafPut_uniform (id : UInt32) (entries : List LeafEntry) (pool : Pool) :
    (leafPut id entries key value pool).1.Uniform 0 ∧
      (leafPut id entries key value pool).1.Branching := by
  unfold leafPut
  dsimp only
  split
  · exact ⟨rfl, trivial⟩
  · split
    · exact ⟨rfl, trivial⟩
    · split
      · exact ⟨rfl, trivial⟩
      · exact ⟨⟨rfl, rfl⟩, trivial, trivial⟩

theorem chainPut_uniform {c : Chain} {n : Nat} (h : c.Uniform n) (id : UInt32) (pool : Pool) :
    (chainPut id c pool).1.Uniform (n + 1) := by
  unfold chainPut
  dsimp only
  split
  · exact ⟨n.succ_pos, h⟩
  · split
    · exact ⟨n.succ_pos, h⟩
    · next l k r hs =>
      rw [(Chain.splitAt_append hs).1, Chain.uniform_iff, Chain.append_trees] at h
      exact ⟨⟨n.succ_pos, Chain.uniform_iff.mpr fun t ht => h t (List.mem_append_left _ ht)⟩,
        n.succ_pos, Chain.uniform_iff.mpr fun t ht => h t (List.mem_append_right _ ht)⟩

/-- A page of children is cut into pages with keys, unless it has two. -/
theorem chainPut_branching {c : Chain} (h : c.Branching) (hne : c.entries ≠ [])
    (hpair : ¬ (c.entries.length = 2 ∧ nodeFitsInternal c.entries = false)) (id : UInt32)
    (pool : Pool) : (chainPut id c pool).1.Branching := by
  unfold chainPut
  dsimp only
  split
  · exact ⟨hne, h⟩
  next hbig =>
    split
    · exact ⟨hne, h⟩
    · next l k r hs =>
      obtain ⟨hc, hlen⟩ := Chain.splitAt_append hs
      have hentries := congrArg (List.length ∘ Chain.entries) hc
      simp only [Function.comp, Chain.append_entries, List.length_append, List.length_cons]
        at hentries
      obtain ⟨hfits, hmid⟩ := not_or.mp hbig
      have htwo : c.entries.length ≠ 2 := fun h2 => hpair ⟨h2, by simpa using hfits⟩
      rw [hc, Chain.branching_iff, Chain.append_trees] at h
      refine ⟨⟨?_, Chain.branching_iff.mpr fun t ht => h t (List.mem_append_left _ ht)⟩,
        ?_, Chain.branching_iff.mpr fun t ht => h t (List.mem_append_right _ ht)⟩
      · exact List.ne_nil_of_length_pos (by omega)
      · exact List.ne_nil_of_length_pos (by omega)

theorem BTree.put_uniform {t : BTree} {n : Nat} (h : t.Uniform n) (pool : Pool) :
    (t.put key value pool).1.Uniform n := by
  induction t using BTree.route_induction key generalizing n with
  | leaf id entries =>
    cases (show n = 0 from h)
    exact (leafPut_uniform id entries pool).1
  | node id c ih =>
    obtain ⟨hn, hc⟩ := h
    have hput := c.put_route key value pool
    have hplug := c.route_plug key
    rw [← hplug, Chain.uniform_iff, Hole.plug_trees] at hc
    have hu := ih (n := n - 1) (hc _ (by simp [Chain.trees]))
    generalize (c.route key).1 = hole at hput hplug hc
    generalize (c.route key).2 = u at hput hplug hc hu
    have hall {c' : Chain} (h : ∀ t ∈ c'.trees, t.Uniform (n - 1)) :
        (hole.plug c').Uniform (n - 1) := by
      rw [Chain.uniform_iff, Hole.plug_trees]
      intro t ht
      rcases List.mem_append.mp ht with ht | ht
      · rcases List.mem_append.mp ht with ht | ht
        · exact hc t (List.mem_append_left _ (List.mem_append_left _ ht))
        · exact h t ht
      · exact hc t (List.mem_append_right _ ht)
    unfold BTree.put
    rw [hput]
    cases hr : u.put key value pool with
    | mk r pool' =>
      rw [hr] at hu
      cases r with
      | done t' =>
        refine ⟨hn, hall fun t ht => ?_⟩
        rw [List.mem_singleton.mp ht]
        exact hu
      | split l k r =>
        have hc' : (hole.plug (.cons l k (.one r))).Uniform (n - 1) := by
          refine hall fun t ht => ?_
          rcases List.mem_cons.mp ht with rfl | ht
          · exact hu.1
          · rw [List.mem_singleton.mp ht]
            exact hu.2
        have hput' := chainPut_uniform hc' id pool'
        rwa [Nat.sub_add_cancel hn] at hput'

theorem BTree.put_branching {t : BTree} (h : t.Branching) {pool : Pool}
    (hpair : ¬ t.CutsPair key value pool) : (t.put key value pool).1.Branching := by
  induction t using BTree.route_induction key with
  | leaf id entries => exact (leafPut_uniform id entries pool).2
  | node id c ih =>
    obtain ⟨hne, hc⟩ := h
    obtain ⟨hcut, hpair⟩ := not_or.mp hpair
    have hput := c.put_route key value pool
    have hplug := c.route_plug key
    rw [c.cutsPair_route] at hcut
    rw [← hplug, Chain.branching_iff, Hole.plug_trees] at hc
    have hu := ih (hc _ (by simp [Chain.trees])) hcut
    generalize (c.route key).1 = hole at hput hplug hc
    generalize (c.route key).2 = u at hput hplug hc hu
    have hall {c' : Chain} (h : ∀ t ∈ c'.trees, t.Branching) : (hole.plug c').Branching := by
      rw [Chain.branching_iff, Hole.plug_trees]
      intro t ht
      rcases List.mem_append.mp ht with ht | ht
      · rcases List.mem_append.mp ht with ht | ht
        · exact hc t (List.mem_append_left _ (List.mem_append_left _ ht))
        · exact h t ht
      · exact hc t (List.mem_append_right _ ht)
    have hlength := congrArg List.length (hole.plug_trees (.one u))
    rw [hplug, Chain.trees_length] at hlength
    unfold BTree.put
    rw [hput] at hpair ⊢
    cases hr : u.put key value pool with
    | mk r pool' =>
      rw [hr] at hu hpair
      cases r with
      | done t' =>
        refine ⟨?_, hall fun t ht => ?_⟩
        · have hlength' := congrArg List.length (hole.plug_trees (.one t'))
          rw [Chain.trees_length] at hlength'
          refine List.ne_nil_of_length_pos (show 0 < (hole.plug (.one t')).entries.length from ?_)
          have hpos := List.length_pos_of_ne_nil hne
          simp only [Chain.trees, List.length_append, List.length_singleton] at hlength hlength'
          omega
        · rw [List.mem_singleton.mp ht]
          exact hu
      | split l k r =>
        refine chainPut_branching (hall fun t ht => ?_) ?_ ?_ id pool'
        · rcases List.mem_cons.mp ht with rfl | ht
          · exact hu.1
          · rw [List.mem_singleton.mp ht]
            exact hu.2
        · have hlength' := congrArg List.length (hole.plug_trees (.cons l k (.one r)))
          rw [Chain.trees_length] at hlength'
          refine List.ne_nil_of_length_pos ?_
          simp only [Chain.trees, List.length_append, List.length_cons, List.length_nil] at hlength'
          omega
        · intro hx
          exact hpair ⟨_, rfl, hx⟩

theorem BTree.rootPut_shape {t : BTree} (hb : t.Branching)
    (hpair : ¬ t.CutsPair key value pool) :
    (t.rootPut key value pool).1.Branching ∧
      ∀ n, t.Uniform n → ∃ n', (t.rootPut key value pool).1.Uniform n' := by
  have hbranch := BTree.put_branching hb hpair
  have huniform {n : Nat} (hu : t.Uniform n) : (t.put key value pool).1.Uniform n :=
    BTree.put_uniform hu pool
  unfold BTree.rootPut
  cases hr : t.put key value pool with
  | mk r pool' =>
    rw [hr] at hbranch huniform
    cases r with
    | done t' => exact ⟨hbranch, fun n hn => ⟨n, huniform hn⟩⟩
    | split l k r =>
      refine ⟨⟨List.cons_ne_nil _ _, hbranch.1, hbranch.2⟩, fun n hn => ⟨n + 1, n.succ_pos, ?_⟩⟩
      exact ⟨(huniform hn).1, (huniform hn).2⟩

/-- The shape of a subtree after a delete. -/
def DelTree.Shaped (key : BTreeAtom) (t : BTree) : DelTree → Prop
  | absent => True
  | kept t' _ => t'.Branching ∧ ∀ n, t.Uniform n → ¬ t.Collapses key → t'.Uniform n
  | gone => ∃ id e, t = .leaf id [e] ∧ atomCompare key e.key = .eq
  | replaced t' => t'.Branching ∧ t.Collapses key
  | undefined => False

theorem leafFindSlot_single {e : LeafEntry} {pos : Nat}
    (h : leafFindSlot [e] key = (pos, true)) : atomCompare key e.key = .eq := by
  simp only [leafFindSlot, leafFindLoop, List.length_singleton] at h
  cases hc : atomCompare key e.key with
  | eq => rfl
  | lt | gt => simp [hc] at h

theorem leafDelete_shape (id : UInt32) (entries : List LeafEntry) (pool : Pool) :
    (leafDelete id entries key pool).1.Shaped key (.leaf id entries) := by
  unfold leafDelete
  cases hslot : leafFindSlot entries key with
  | mk pos found =>
    cases found with
    | false => trivial
    | true =>
      simp only [Bool.not_true, Bool.false_eq_true, ↓reduceIte]
      split
      next hnil =>
        -- the erased entry was the only one
        cases entries with
        | nil => cases hslot
        | cons e rest =>
          cases rest with
          | nil => exact ⟨id, e, rfl, leafFindSlot_single hslot⟩
          | cons e' rest =>
            have hlen := congrArg List.length hnil
            rw [List.length_eraseIdx] at hlen
            split at hlen <;> simp at hlen
      next => exact ⟨trivial, fun n hn _ => hn⟩

theorem BTree.delete_shape {t : BTree} (hb : t.Branching) (pool : Pool) :
    (t.delete key pool).1.Shaped key t := by
  induction t using BTree.route_induction key with
  | leaf id entries => exact leafDelete_shape id entries pool
  | node id c ih =>
    obtain ⟨hne, hc⟩ := hb
    have hplug := c.route_plug key
    have hdel := c.delete_route key pool
    have hcollapses := c.collapses_route key
    rw [← hplug, Chain.branching_iff, Hole.plug_trees] at hc
    have hu := ih (hc _ (by simp [Chain.trees]))
    have hlength := congrArg List.length ((c.route key).1.plug_trees (.one (c.route key).2))
    rw [hplug, Chain.trees_length] at hlength
    simp only [Chain.trees, List.length_append, List.length_singleton] at hlength
    have hpos := List.length_pos_of_ne_nil hne
    cases hd : (c.delete key pool).1.chain with
    | none =>
      by_cases habsent : (c.delete key pool).1 = .absent
      · rw [BTree.delete_node_absent habsent]
        trivial
      · exfalso
        rw [hdel] at hd habsent
        dsimp only at hd habsent
        cases hx : (c.route key).1.afterDelete ((c.route key).2.delete key pool).1 with
        | absent => exact habsent hx
        | undefined =>
          rw [Hole.afterDelete_undefined hx] at hu
          exact hu
        | kept c' head =>
          rw [hx] at hd
          cases hd
        | headGone next =>
          rw [hx] at hd
          rcases next with _ | ⟨k, c'⟩
          · rw [(Hole.afterDelete_headGone hx).2] at hlength
            simp only [Hole.lefts, Hole.rights, List.length_nil] at hlength
            omega
          · cases hd
    | some c' =>
      rw [BTree.delete_node_some hd]
      rw [hdel] at hd
      have htrees := Hole.afterDelete_trees (u := (c.route key).2) hd
      have hlength' := congrArg List.length htrees
      rw [Chain.trees_length] at hlength'
      simp only [List.length_append] at hlength'
      have hbranch : c'.Branching := by
        rw [Chain.branching_iff, htrees]
        intro t ht
        rcases List.mem_append.mp ht with ht | ht
        · rcases List.mem_append.mp ht with ht | ht
          · exact hc t (List.mem_append_left _ (List.mem_append_left _ ht))
          · cases hr : ((c.route key).2.delete key pool).1 with
            | absent =>
              rw [hr] at ht
              cases List.mem_singleton.mp ht
              exact hc _ (by simp [Chain.trees])
            | kept u newMin =>
              rw [hr] at ht hu
              cases List.mem_singleton.mp ht
              exact hu.1
            | replaced u =>
              rw [hr] at ht hu
              cases List.mem_singleton.mp ht
              exact hu.1
            | gone | undefined =>
              rw [hr] at ht
              cases ht
        · exact hc t (List.mem_append_right _ ht)
      cases c' with
      | one t' =>
        refine ⟨hbranch, .inr ?_⟩
        have hnil : (Chain.one t').entries.length = 0 := rfl
        cases hr : ((c.route key).2.delete key pool).1 with
        | gone =>
          rw [hr] at hu hlength'
          simp only [DelTree.tree, Option.toList_none, List.length_nil] at hlength'
          exact ⟨by omega, hu⟩
        | undefined =>
          rw [hr] at hu
          exact hu.elim
        | absent | kept | replaced =>
          rw [hr] at hlength'
          simp only [DelTree.tree, Option.toList_some, List.length_singleton] at hlength'
          omega
      | cons t' k rest =>
        refine ⟨⟨List.cons_ne_nil _ _, hbranch⟩, fun n hn hcol => ⟨hn.1, ?_⟩⟩
        obtain ⟨hcol, -⟩ := not_or.mp hcol
        rw [hcollapses] at hcol
        have hcu := hn.2
        rw [← hplug, Chain.uniform_iff, Hole.plug_trees] at hcu
        rw [Chain.uniform_iff, htrees]
        intro t ht
        rcases List.mem_append.mp ht with ht | ht
        · rcases List.mem_append.mp ht with ht | ht
          · exact hcu t (List.mem_append_left _ (List.mem_append_left _ ht))
          · have hun := hcu (c.route key).2 (by simp [Chain.trees])
            cases hr : ((c.route key).2.delete key pool).1 with
            | absent =>
              rw [hr] at ht
              cases List.mem_singleton.mp ht
              exact hun
            | kept u newMin =>
              rw [hr] at ht hu
              cases List.mem_singleton.mp ht
              exact hu.2 _ hun hcol
            | replaced u =>
              rw [hr] at hu
              exact absurd hu.2 hcol
            | gone | undefined =>
              rw [hr] at ht
              cases ht
        · exact hcu t (List.mem_append_right _ ht)

theorem BTree.rootDelete_shape {t t' : BTree} {found : Bool} (hb : t.Branching)
    (h : t.rootDelete key pool = some (t', found, pool')) :
    t'.Branching ∧ ∀ n, t.Uniform n → ¬ t.Collapses key → t'.Uniform n := by
  cases t with
  | leaf id entries =>
    cases Option.some.inj h
    exact ⟨trivial, fun n hn _ => hn⟩
  | node id c =>
    have hdel : ((BTree.node id c).delete key pool).1.Shaped key (.node id c) :=
      BTree.delete_shape hb pool
    simp only [BTree.rootDelete] at h
    cases hr : (BTree.node id c).delete key pool with
    | mk r pool₁ =>
      rw [hr] at h hdel
      cases r with
      | absent =>
        cases Option.some.inj h
        exact ⟨hb, fun n hn _ => hn⟩
      | kept t₁ newMin =>
        cases Option.some.inj h
        exact hdel
      | replaced t₁ =>
        cases Option.some.inj h
        exact ⟨hdel.1, fun n _ hcol => absurd hdel.2 hcol⟩
      | gone | undefined => cases h

/-- A page on which the keys are in order, between the keys of its subtrees, and which has room; no
internal page is without keys, and no leaf but the root is empty. -/
def BTree.PageSound (root : UInt32) : BTree → Prop
  | .leaf id entries => (id ≠ root → entries ≠ []) ∧ (NodeData.leaf 0 entries).size ≤ 4096
  | .node _ c => c.entries ≠ [] ∧ c.entries.Pairwise (fun a b => a.key.rank < b.key.rank) ∧
      (∀ (l : Chain) (k : BTreeAtom) (r : Chain), c = l.append k r →
        (∀ e ∈ l.contents, e.rank < k.rank) ∧ ∀ e ∈ r.contents, k.rank ≤ e.rank) ∧
      (NodeData.internal c.first.id c.entries).size ≤ 4096

theorem Chain.Ordered.append_inv {l r : Chain} {k : BTreeAtom} (h : (l.append k r).Ordered lo hi) :
    l.Ordered lo (some k.rank) ∧ r.Ordered (some k.rank) hi := by
  induction l using Chain.induction generalizing lo with
  | one t => exact ⟨h.2.1, h.2.2⟩
  | cons t k' rest ih =>
    obtain ⟨hk, ht, hrest⟩ := h
    obtain ⟨hl, hr⟩ := ih hrest
    exact ⟨⟨hk, ht, hl⟩, hr⟩

/-- The keys of a page are above the least bound and below the largest. -/
theorem Chain.Ordered.entries_above {c : Chain} {x : Rank} (h : c.Ordered (some x) hi) :
    (∀ e ∈ c.entries, x < e.key.rank) ∧
      c.entries.Pairwise (fun a b => a.key.rank < b.key.rank) := by
  induction c using Chain.induction generalizing x with
  | one t => exact ⟨(fun e he => nomatch he), List.Pairwise.nil⟩
  | cons t k rest ih =>
    obtain ⟨-, ht, hrest⟩ := h
    obtain ⟨habove, hpair⟩ := ih hrest
    obtain ⟨a, ha⟩ := List.exists_mem_of_ne_nil _ ht.contents.1
    have hxk : x < k.rank := (above_some.mp (ht.contents.2.above a ha)).trans_lt
      (below_some.mp (ht.contents.2.below a ha))
    refine ⟨fun e he => ?_, List.pairwise_cons.mpr ⟨habove, hpair⟩⟩
    rcases List.mem_cons.mp he with rfl | he
    · exact hxk
    · exact hxk.trans (habove e he)

theorem Chain.Ordered.entries_sorted {c : Chain} (h : c.Ordered lo hi) :
    c.entries.Pairwise (fun a b => a.key.rank < b.key.rank) := by
  cases c with
  | one t => exact List.Pairwise.nil
  | cons t k rest =>
    obtain ⟨habove, hpair⟩ := Chain.Ordered.entries_above h.2.2
    exact List.pairwise_cons.mpr ⟨habove, hpair⟩

theorem Chain.Ordered.trees {c : Chain} (h : c.Ordered lo hi) :
    ∀ t ∈ c.trees, ∃ lo hi, t.Ordered lo hi := by
  induction c using Chain.induction generalizing lo with
  | one t =>
    intro t' ht'
    rw [List.mem_singleton.mp ht']
    exact ⟨lo, hi, h⟩
  | cons t k rest ih =>
    intro t' ht'
    rcases List.mem_cons.mp ht' with rfl | ht'
    · exact ⟨lo, _, h.2.1⟩
    · exact ih h.2.2 t' ht'

theorem Chain.stored_iff {c : Chain} : c.Stored db ↔ ∀ t ∈ c.trees, t.Stored db := by
  induction c using Chain.induction with
  | one t => simp [Chain.trees, Chain.Stored]
  | cons t k rest ih => simp [Chain.trees, Chain.Stored, ih]

theorem Chain.fits_iff {c : Chain} : c.Fits ↔ ∀ t ∈ c.trees, t.Fits := by
  induction c using Chain.induction with
  | one t => simp [Chain.trees, Chain.Fits]
  | cons t k rest ih => simp [Chain.trees, Chain.Fits, ih]

/-- A page with children, in a tree in order whose pages have room. -/
theorem Chain.Ordered.pageSound {c : Chain} (ho : c.Ordered lo hi) {id root : UInt32}
    (hf : (BTree.node id c).Fits) (hb : (BTree.node id c).Branching) :
    (BTree.node id c).PageSound root := by
  refine ⟨hb.1, ho.entries_sorted, fun l k r hc => ?_, hf.1⟩
  rw [hc] at ho
  obtain ⟨hl, hr⟩ := ho.append_inv
  exact ⟨fun e he => below_some.mp (hl.contents.2.below e he),
    fun e he => above_some.mp (hr.contents.2.above e he)⟩

/-- The page at the end of a way from a page of a tree is one of the tree. -/
theorem BTree.follow_step {id : UInt32} {c : Chain} (hs : (BTree.node id c).Stored db) {i : Nat}
    {path : List Nat} {p : UInt32} (h : db.follow id (i :: path) = some p) :
    ∃ t ∈ c.trees, db.follow t.id path = some p := by
  rw [follow_holds hs.1, Chain.children_eq] at h
  obtain ⟨q, hq, hpath⟩ := Option.bind_eq_some_iff.mp h
  rw [List.getElem?_map] at hq
  obtain ⟨t, ht, rfl⟩ := Option.map_eq_some_iff.mp hq
  exact ⟨t, List.mem_of_getElem? ht, hpath⟩

theorem BTree.follow_sound {root : UInt32} {t : BTree} {path : List Nat} {p : UInt32}
    (hs : t.Stored db) (ho : t.Ordered lo hi) (hf : t.Fits) (hb : t.Branching)
    (h : db.follow t.id path = some p) :
    ∃ u : BTree, u.id = p ∧ u.Stored db ∧ u.PageSound root := by
  induction path generalizing t lo hi with
  | nil =>
    cases Option.some.inj h
    refine ⟨t, rfl, hs, ?_⟩
    cases t with
    | leaf id entries => exact ⟨fun _ => ho.1, hf⟩
    | node id c => exact Chain.Ordered.pageSound ho hf hb
  | cons i path ih =>
    cases t with
    | leaf id entries =>
      rw [BTree.id, follow_holds (show db.Holds id (.leaf 0 entries) from hs)] at h
      cases h
    | node id c =>
      obtain ⟨t, ht, hpath⟩ := BTree.follow_step hs h
      obtain ⟨lo', hi', hot⟩ := Chain.Ordered.trees (c := c) ho t ht
      exact ih (Chain.stored_iff.mp hs.2 t ht) hot (Chain.fits_iff.mp hf.2 t ht)
        (Chain.branching_iff.mp hb.2 t ht) hpath

theorem BTree.follow_depth {t : BTree} {path : List Nat} {p : UInt32} {n : Nat}
    {entries : List LeafEntry} (hs : t.Stored db) (hu : t.Uniform n)
    (h : db.follow t.id path = some p) (hp : db.Holds p (.leaf 0 entries)) : path.length = n := by
  induction path generalizing t n with
  | nil =>
    cases Option.some.inj h
    cases t with
    | leaf id entries => exact (show n = 0 from hu).symm
    | node id c => cases hp.unique hs.1
  | cons i path ih =>
    cases t with
    | leaf id entries =>
      rw [BTree.id, follow_holds (show db.Holds id (.leaf 0 entries) from hs)] at h
      cases h
    | node id c =>
      obtain ⟨t, ht, hpath⟩ := BTree.follow_step hs h
      have hlen := ih (Chain.stored_iff.mp hs.2 t ht) (Chain.uniform_iff.mp hu.2 t ht) hpath
      have hpos : 0 < n := hu.1
      rw [List.length_cons, hlen]
      omega

/-- The delete makes a page lose its last key, and the page is given up for its only child. -/
def BTreeCall.Collapses (call : BTreeCall) (db : BTreeDb) : Prop :=
  ∃ t pool, db.Represents t pool ∧
    match call with
    | put _ _ => False
    | delete key => t.Collapses key

/-- There are page ids for a put, and it does not cut a page of two keys. -/
def BTreeCall.KeepsKeys (call : BTreeCall) (db : BTreeDb) : Prop :=
  ∀ t pool, db.Represents t pool →
    match call with
    | put key value => pool.HasRoom (t.height + 2) ∧ ¬ t.CutsPair key value pool
    | delete _ => True

/-- A run of calls that are reported as done and meet a condition, and whether a page was collapsed
in it. -/
inductive BTreeBuilt (ok : BTreeCall → BTreeDb → Prop) : BTreeDb → Bool → Prop
  | opened : BTreeBuilt ok emptyDb false
  | stays {db db' : BTreeDb} {collapsed : Bool} {call : BTreeCall} {b : Bool}
      (h : BTreeBuilt ok db collapsed) (hv : call.Valid) (hok : ok call db)
      (hr : call.run db = .done b db') (hc : ¬ call.Collapses db) : BTreeBuilt ok db' collapsed
  | collapses {db db' : BTreeDb} {collapsed : Bool} {call : BTreeCall} {b : Bool}
      (h : BTreeBuilt ok db collapsed) (hv : call.Valid) (hok : ok call db)
      (hr : call.run db = .done b db') (hc : call.Collapses db) : BTreeBuilt ok db' true

/-- The tree of a database that was built by calls that keep the keys. -/
structure BTreeDb.Grown (db : BTreeDb) (collapsed : Bool) (t : BTree) (pool : Pool) : Prop where
  represents : db.Represents t pool
  ordered : t.RootOrdered
  fits : t.Fits
  branching : t.Branching
  uniform : collapsed = false → ∃ n, t.Uniform n

theorem BTreeDb.Grown.step {t : BTree} {call : BTreeCall} {collapsed b : Bool}
    (h : db.Grown collapsed t pool) (hv : call.Valid) (hok : call.KeepsKeys db)
    (hr : call.run db = .done b db') :
    ∃ t' pool', db'.Represents t' pool' ∧ t'.RootOrdered ∧ t'.Fits ∧ t'.Branching ∧
      ∀ n, t.Uniform n → ¬ call.Collapses db → ∃ n', t'.Uniform n' := by
  obtain ⟨hrep, ho, hf, hb, -⟩ := h
  cases call with
  | put key value =>
    have hr := BTreeCall.run_put_done hr
    obtain ⟨hroom, hpair⟩ := hok t pool hrep
    obtain ⟨hdone, hfail⟩ := btreePut_spec hrep hv.1 hv.2 hroom
    have hput : (t.rootPut key value pool).1.Fits := by
      by_contra hn
      obtain ⟨db₁, hdb₁⟩ := hfail hf hn
      cases hdb₁.symm.trans hr
    obtain ⟨db₁, hdb₁, hrep'⟩ := hdone hput
    cases hdb₁.symm.trans hr
    obtain ⟨hb', hu'⟩ := BTree.rootPut_shape hb hpair
    exact ⟨_, _, hrep', (BTree.rootPut_ordered ho hv.1 hv.2 pool).1, hput, hb',
      fun n hn _ => hu' n hn⟩
  | delete key =>
    obtain ⟨hdone, hnot⟩ := btreeDelete_spec hrep ho hv hf
    have hdel : t.DeleteHasRoom key pool := by
      by_contra hn
      exact hnot (fun t' found pool' hd hf' => hn ⟨t', found, pool', hd, hf'⟩) b db' hr
    obtain ⟨t', found, pool', hd, hf'⟩ := hdel
    obtain ⟨db₁, hdb₁, hrep'⟩ := hdone t' found pool' hd hf'
    cases hdb₁.symm.trans hr
    obtain ⟨hb', hu'⟩ := BTree.rootDelete_shape hb hd
    exact ⟨t', pool', hrep', (BTree.rootDelete_ordered ho hv hd).1, hf', hb', fun n hn hc =>
      ⟨n, hu' n hn fun hcol => hc ⟨t, pool, hrep, hcol⟩⟩⟩

theorem BTreeBuilt.grown {collapsed : Bool} (h : BTreeBuilt BTreeCall.KeepsKeys db collapsed) :
    ∃ t pool, db.Grown collapsed t pool := by
  induction h with
  | opened =>
    obtain ⟨hrep, ho, hf, -⟩ := emptyDb_serves
    exact ⟨_, _, hrep, ho, hf, trivial, fun _ => ⟨0, rfl⟩⟩
  | stays _ hv hok hr hc ih =>
    obtain ⟨t, pool, hg⟩ := ih
    obtain ⟨t', pool', hrep, ho, hf, hb, hu⟩ := hg.step hv hok hr
    refine ⟨t', pool', hrep, ho, hf, hb, fun hcol => ?_⟩
    obtain ⟨n, hn⟩ := hg.uniform hcol
    exact hu n hn hc
  | collapses _ hv hok hr hc ih =>
    obtain ⟨t, pool, hg⟩ := ih
    obtain ⟨t', pool', hrep, ho, hf, hb, -⟩ := hg.step hv hok hr
    exact ⟨t', pool', hrep, ho, hf, hb, fun hcol => nomatch hcol⟩

theorem BTreeBuilt.put_done {ok : BTreeCall → BTreeDb → Prop} {collapsed : Bool}
    (h : BTreeBuilt ok db collapsed) (hk : key.Valid) (hv : value.Valid) (hok : ok (.put key value) db)
    (hr : btreePut key value db = .done () db') : BTreeBuilt ok db' collapsed :=
  .stays h (show (BTreeCall.put key value).Valid from ⟨hk, hv⟩) hok (BTreeCall.run_done hr)
    fun ⟨_, _, _, hc⟩ => hc

theorem fitsFrom_false {sizes : List Nat} {used : Nat} (h : 4096 < used + sizes.sum)
    (hlt : used + sizes.sum < 2 ^ 32) (hused : used ≤ 4096) : fitsFrom used sizes = false := by
  induction sizes generalizing used with
  | nil =>
    rw [List.sum_nil] at h
    omega
  | cons size sizes ih =>
    rw [List.sum_cons] at h hlt
    have hmod : (used + size) % 2 ^ 32 = used + size := Nat.mod_eq_of_lt (by omega)
    unfold fitsFrom
    rw [hmod]
    by_cases hover : used + size > btreePageSize
    · exact if_pos hover
    · exact (if_neg hover).trans (ih (by omega) (by omega) (not_lt.mp hover))

namespace SampleTree

/-- A key of `n` bytes. -/
def wide (n : Nat) (c : UInt8) : BTreeAtom := .string (List.replicate n c)

def wideEntry (n : Nat) (c : UInt8) : LeafEntry := ⟨wide n c, text 0⟩

@[simp] theorem wide_size (n : Nat) (c : UInt8) : atomEncodedSize (wide n c) = 5 + n := by
  simp [atomEncodedSize, wide]

@[simp] theorem wideEntry_size (n : Nat) (c : UInt8) :
    leafRecordSize (wideEntry n c) = 10 + n := by
  have htext : atomEncodedSize (text 0) = 5 := rfl
  simp only [leafRecordSize, wideEntry, wide_size, htext]
  omega

theorem wide_valid {n : Nat} (h : n < 2 ^ 31) (c : UInt8) : (wide n c).Valid := by
  show (List.replicate n c).length < 2 ^ 31
  rwa [List.length_replicate]

theorem wide_gt (n : Nat) {c d : UInt8} (h : d < c) :
    atomCompare (wide (n + 1) c) (wide (n + 1) d) = .gt := by
  have hlt : ¬ c < d := UInt8.not_lt.mpr (UInt8.le_of_lt h)
  simp [wide, List.replicate_succ, atomCompare, memcmp, hlt, h]

theorem half_pair {α : Type} (a b : α) : [a, b].length / 2 = 1 := by simp

/-- A leaf that has one wide key is cut when it gets another one behind it. -/
theorem wide_put {n : Nat} {c d : UInt8} (hn : n ≤ 4096) (hn' : 2037 ≤ n) (h : d < c)
    (id : UInt32) (pool : Pool) :
    (BTree.leaf id [wideEntry (n + 1) d]).put (wide (n + 1) c) (text 0) pool =
      (.split (.leaf id [wideEntry (n + 1) d]) (wide (n + 1) c)
        (.leaf pool.alloc.1 [wideEntry (n + 1) c]), pool.alloc.2) := by
  have hslot : leafFindSlot [wideEntry (n + 1) d] (wide (n + 1) c) = (1, false) := by
    simp [leafFindSlot, leafFindLoop, wideEntry, wide_gt n h]
  have hfits : nodeFitsLeaf [wideEntry (n + 1) d, wideEntry (n + 1) c] = false := by
    refine fitsFrom_false ?_ ?_ ?_ <;> simp [pageHeaderSize, slotSize] <;> omega
  have hall : buildWithInsert [wideEntry (n + 1) d] 1 ⟨wide (n + 1) c, text 0⟩ =
      [wideEntry (n + 1) d, wideEntry (n + 1) c] := rfl
  unfold BTree.put leafPut
  simp only [hslot, hall, hfits, half_pair, Bool.false_eq_true, ↓reduceIte]
  rfl

/-- The first page is cut by the second key. -/
theorem second_wide (n : Nat) (hn : n ≤ 4000) (hn' : 2037 ≤ n) :
    (BTree.leaf 1 [wideEntry (n + 1) 97]).rootPut (wide (n + 1) 98) (text 0) ⟨[], 2, []⟩ =
      (.node 3 (.cons (.leaf 1 [wideEntry (n + 1) 97]) (wide (n + 1) 98)
        (.one (.leaf 2 [wideEntry (n + 1) 98]))), ⟨[], 4, []⟩) := by
  unfold BTree.rootPut
  rw [wide_put (by omega) hn' (by decide)]
  rfl

/-- The page of two keys that the third one makes is cut at the second of them. -/
theorem third_wide (n : Nat) (hn : n ≤ 4000) (hn' : 2037 ≤ n) :
    (BTree.node 3 (.cons (.leaf 1 [wideEntry (n + 1) 97]) (wide (n + 1) 98)
      (.one (.leaf 2 [wideEntry (n + 1) 98])))).rootPut (wide (n + 1) 99) (text 0) ⟨[], 4, []⟩ =
      (.node 6 (.cons (.node 3 (.cons (.leaf 1 [wideEntry (n + 1) 97]) (wide (n + 1) 98)
        (.one (.leaf 2 [wideEntry (n + 1) 98])))) (wide (n + 1) 99)
          (.one (.node 5 (.one (.leaf 4 [wideEntry (n + 1) 99]))))), ⟨[], 7, []⟩) := by
  have hroute : ¬ atomCompare (wide (n + 1) 99) (wide (n + 1) 98) = .lt := by
    rw [wide_gt n (by decide)]
    decide
  have hfits : nodeFitsInternal [⟨wide (n + 1) 98, 2⟩, ⟨wide (n + 1) 99, 4⟩] = false := by
    refine fitsFrom_false ?_ ?_ ?_ <;> simp [pageHeaderSize, slotSize, internalRecordSize] <;> omega
  have hput := wide_put (n := n) (c := 99) (d := 98) (by omega) hn' (by decide) 2 ⟨[], 4, []⟩
  have hchain : Chain.put (wide (n + 1) 99) (text 0) (.cons (.leaf 1 [wideEntry (n + 1) 97])
      (wide (n + 1) 98) (.one (.leaf 2 [wideEntry (n + 1) 98]))) ⟨[], 4, []⟩ =
      (.grown (.cons (.leaf 1 [wideEntry (n + 1) 97]) (wide (n + 1) 98)
        (.cons (.leaf 2 [wideEntry (n + 1) 98]) (wide (n + 1) 99)
          (.one (.leaf 4 [wideEntry (n + 1) 99])))), ⟨[], 5, []⟩) := by
    unfold Chain.put
    rw [if_neg hroute]
    unfold Chain.put
    rw [hput]
    rfl
  unfold BTree.rootPut BTree.put
  rw [hchain]
  unfold chainPut
  simp only [Chain.entries, Chain.first, BTree.id, hfits, half_pair]
  rfl

/-- Three wide keys that come in order: the page above the leaves is cut at its second key, which
leaves a page without keys. -/
theorem three_wide {n : Nat} (hn : n ≤ 2050) (hn' : 2037 ≤ n) :
    ∃ db, BTreeBuilt (fun _ _ => True) db false ∧
      db.Represents (.node 6 (.cons (.node 3 (.cons (.leaf 1 [wideEntry (n + 1) 97])
        (wide (n + 1) 98) (.one (.leaf 2 [wideEntry (n + 1) 98])))) (wide (n + 1) 99)
          (.one (.node 5 (.one (.leaf 4 [wideEntry (n + 1) 99])))))) ⟨[], 7, []⟩ := by
  have hkey (c : UInt8) : (wide (n + 1) c).Valid := wide_valid (by omega) c
  have htext : (text 0).Valid := text_valid (by decide)
  have hleaf (c : UInt8) : (NodeData.leaf 0 [wideEntry (n + 1) c]).size ≤ 4096 := by
    simp [NodeData.size]
    omega
  have hpage (p q : UInt32) (c : UInt8) :
      (NodeData.internal p [⟨wide (n + 1) c, q⟩]).size ≤ 4096 := by
    simp [NodeData.size, internalRecordSize]
    omega
  have hnone : (NodeData.internal 4 []).size ≤ 4096 := by decide
  have hslot : leafFindSlot [] (wide (n + 1) 97) = (0, false) := rfl
  obtain ⟨db₁, hdone₁, hrep₁⟩ := btreePut_leaf_done emptyDb_represents hslot (hkey 97) htext
    (by decide) (hleaf 97)
  have hrep₁ : db₁.Represents (.leaf 1 [wideEntry (n + 1) 97]) ⟨[], 2, []⟩ := hrep₁
  have hput₂ := (btreePut_spec hrep₁ (hkey 98) htext (show Pool.HasRoom ⟨[], 2, []⟩ 2 by decide)).1
  rw [second_wide n (by omega) hn'] at hput₂
  obtain ⟨db₂, hdone₂, hrep₂⟩ := hput₂ ⟨hpage 1 2 98, hleaf 97, hleaf 98⟩
  have hput₃ := (btreePut_spec hrep₂ (hkey 99) htext (show Pool.HasRoom ⟨[], 4, []⟩ 3 by decide)).1
  rw [third_wide n (by omega) hn'] at hput₃
  obtain ⟨db₃, hdone₃, hrep₃⟩ := hput₃
    ⟨hpage 3 5 99, ⟨hpage 1 2 98, hleaf 97, hleaf 98⟩, hnone, hleaf 99⟩
  have hopened : BTreeBuilt (fun _ _ => True) emptyDb false := .opened
  have hbuilt₁ := hopened.put_done (hkey 97) htext trivial hdone₁
  have hbuilt₂ := hbuilt₁.put_done (hkey 98) htext trivial hdone₂
  exact ⟨db₃, hbuilt₂.put_done (hkey 99) htext trivial hdone₃, hrep₃⟩

end SampleTree

end ToiLang
