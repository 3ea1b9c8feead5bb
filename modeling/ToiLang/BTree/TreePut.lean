import ToiLang.BTree.Order

namespace ToiLang

variable {key value : BTreeAtom} {lo hi : Option Rank}

/-- A subtree after a put is in order in its range and has the bindings. -/
def PutTree.Ordered (lo hi : Option Rank) (bindings : List LeafEntry) (id : UInt32) :
    PutTree → Prop
  | done t => t.Ordered lo hi ∧ t.contents = bindings ∧ t.id = id
  | split l k r => k.Valid ∧ l.Ordered lo (some k.rank) ∧ r.Ordered (some k.rank) hi ∧
      l.contents ++ r.contents = bindings ∧ l.id = id

def PutChain.Ordered (lo hi : Option Rank) (bindings : List LeafEntry) (c : Chain) :
    PutChain → Prop
  | done c' => c'.Ordered lo hi ∧ c'.contents = bindings ∧ c'.first.id = c.first.id ∧
      c'.entries = c.entries
  | grown c' => c'.Ordered lo hi ∧ c'.contents = bindings ∧ c'.first.id = c.first.id

theorem leafPut_ordered {entries : List LeafEntry} (h : LeafOrdered lo hi entries)
    (hk : key.Valid) (hv : value.Valid) (hlo : Above lo key.rank) (hhi : Below hi key.rank)
    (id : UInt32) (pool : Pool) :
    (leafPut id entries key value pool).1.Ordered lo hi (bindEntry key value entries) id := by
  have hentries := h.put_entries value hk
  have hbind := h.bind hk hv hlo hhi
  have hne := bindEntry_ne_nil key value entries
  unfold leafPut
  generalize leafFindSlot entries key = r at hentries ⊢
  obtain ⟨pos, found⟩ := r
  cases found with
  | true =>
    simp only [↓reduceIte] at hentries ⊢
    rw [hentries] at hne hbind ⊢
    exact ⟨⟨hne, hbind⟩, rfl, rfl⟩
  | false =>
    simp only [Bool.false_eq_true, ↓reduceIte] at hentries ⊢
    rw [hentries] at hne hbind ⊢
    generalize buildWithInsert entries pos ⟨key, value⟩ = all at hne hbind ⊢
    cases hm : all[all.length / 2]? with
    | none => exact ⟨⟨hne, hbind⟩, rfl, rfl⟩
    | some e =>
      dsimp only
      split
      next => exact ⟨⟨hne, hbind⟩, rfl, rfl⟩
      next hbig =>
        obtain ⟨hleft, hright⟩ := hbind.cut hm
        have hpos : 0 < all.length / 2 := by
          by_contra hz
          exact hbig (.inr (by omega))
        have hlt := (List.getElem?_eq_some_iff.mp hm).1
        refine ⟨(hbind.valid e (List.mem_of_getElem? hm)).1, ⟨?_, hleft⟩, ⟨?_, hright⟩,
          List.take_append_drop _ _, rfl⟩
        · exact List.ne_nil_of_length_pos (by rw [List.length_take]; omega)
        · exact List.ne_nil_of_length_pos (by rw [List.length_drop]; omega)

theorem Chain.splitAt_spec {n : Nat} {c l r : Chain} {k : BTreeAtom} (h : c.Ordered lo hi)
    (hs : c.splitAt n = some (l, k, r)) :
    k.Valid ∧ l.Ordered lo (some k.rank) ∧ r.Ordered (some k.rank) hi ∧
      l.contents ++ r.contents = c.contents ∧ l.first.id = c.first.id := by
  induction n generalizing c l lo with
  | zero =>
    cases c with
    | one t => cases hs
    | cons t k' rest =>
      cases Option.some.inj hs
      exact ⟨h.1, h.2.1, h.2.2, rfl, rfl⟩
  | succ n ih =>
    cases c with
    | one t => cases hs
    | cons t k' rest =>
      obtain ⟨⟨l', k₁, r₁⟩, hs', heq⟩ := Option.map_eq_some_iff.mp hs
      cases heq
      obtain ⟨hk', ht, hr⟩ := h
      obtain ⟨hk, hl, hro, hc, -⟩ := ih hr hs'
      exact ⟨hk, ⟨hk', ht, hl⟩, hro, by simp only [Chain.contents, List.append_assoc, hc], rfl⟩

theorem Chain.splitAt_some {n : Nat} {c : Chain} (hn : n < c.entries.length) :
    ∃ l k r, c.splitAt n = some (l, k, r) := by
  induction n generalizing c with
  | zero =>
    cases c with
    | one t => simp [Chain.entries] at hn
    | cons t k rest => exact ⟨_, _, _, rfl⟩
  | succ n ih =>
    cases c with
    | one t => simp [Chain.entries] at hn
    | cons t k rest =>
      simp only [Chain.entries, List.length_cons, Nat.add_lt_add_iff_right] at hn
      obtain ⟨l, k', r, h⟩ := ih hn
      exact ⟨.cons t k l, k', r, by simp [Chain.splitAt, h]⟩

theorem chainPut_ordered {c : Chain} (h : c.Ordered lo hi) (id : UInt32) (pool : Pool) :
    (chainPut id c pool).1.Ordered lo hi c.contents id := by
  unfold chainPut
  dsimp only
  split
  next => exact ⟨h, rfl, rfl⟩
  next =>
    split
    next => exact ⟨h, rfl, rfl⟩
    next l k r hs =>
      obtain ⟨hk, hl, hr, hc, -⟩ := Chain.splitAt_spec h hs
      exact ⟨hk, hl, hr, hc, rfl⟩

mutual

theorem BTree.put_ordered {lo hi : Option Rank} {key value : BTreeAtom} {t : BTree}
    (h : t.Ordered lo hi) (hk : key.Valid) (hv : value.Valid) (hlo : Above lo key.rank)
    (hhi : Below hi key.rank) (pool : Pool) :
    (t.put key value pool).1.Ordered lo hi (bindEntry key value t.contents) t.id := by
  cases t with
  | leaf id entries => exact leafPut_ordered h.2 hk hv hlo hhi id pool
  | node id c =>
    have hc : c.Ordered lo hi := h
    have ih := Chain.put_ordered hc hk hv hlo hhi pool
    unfold BTree.put
    cases hr : c.put key value pool with
    | mk r pool' =>
      rw [hr] at ih
      cases r with
      | done c' => exact ⟨ih.1, ih.2.1, rfl⟩
      | grown c' =>
        obtain ⟨ho, hcont, hfirst⟩ := ih
        have hput := chainPut_ordered ho id pool'
        rw [hcont] at hput
        exact hput

theorem Chain.put_ordered {lo hi : Option Rank} {key value : BTreeAtom} {c : Chain}
    (h : c.Ordered lo hi) (hk : key.Valid) (hv : value.Valid) (hlo : Above lo key.rank)
    (hhi : Below hi key.rank) (pool : Pool) :
    (c.put key value pool).1.Ordered lo hi (bindEntry key value c.contents) c := by
  cases c with
  | one t =>
    have ht : t.Ordered lo hi := h
    have ih := BTree.put_ordered ht hk hv hlo hhi pool
    unfold Chain.put
    cases hr : t.put key value pool with
    | mk r pool' =>
      rw [hr] at ih
      cases r with
      | done t' => exact ⟨ih.1, ih.2.1, ih.2.2, rfl⟩
      | split l k r => exact ⟨⟨ih.1, ih.2.1, ih.2.2.1⟩, ih.2.2.2.1, ih.2.2.2.2⟩
  | cons t k rest =>
    obtain ⟨hkv, ht, hrest⟩ := h
    unfold Chain.put
    split
    next hlt =>
      have hlt : key.rank < k.rank := (atomCompare_lt hk hkv).mp hlt
      have ih := BTree.put_ordered ht hk hv hlo (below_some.mpr hlt) pool
      have hcont : bindEntry key value (Chain.cons t k rest).contents =
          bindEntry key value t.contents ++ rest.contents := by
        refine bindEntry_append_left fun a ha => hlt.trans_le ?_
        exact above_some.mp (hrest.contents.2.above a ha)
      rw [hcont]
      cases hr : t.put key value pool with
      | mk r pool' =>
        rw [hr] at ih
        cases r with
        | done t' =>
          obtain ⟨ho, hc, hid⟩ := ih
          exact ⟨⟨hkv, ho, hrest⟩, by rw [← hc]; rfl, hid, rfl⟩
        | split l k' r =>
          obtain ⟨hk', hl, hro, hc, hid⟩ := ih
          refine ⟨⟨hk', hl, hkv, hro, hrest⟩, ?_, hid⟩
          rw [← hc, List.append_assoc]
          rfl
    next hge =>
      have hge : k.rank ≤ key.rank := by
        rw [atomCompare_lt hk hkv] at hge
        exact not_lt.mp hge
      have ih := Chain.put_ordered hrest hk hv (above_some.mpr hge) hhi pool
      have hcont : bindEntry key value (Chain.cons t k rest).contents =
          t.contents ++ bindEntry key value rest.contents := by
        refine bindEntry_append_right fun a ha => lt_of_lt_of_le ?_ hge
        exact below_some.mp (ht.contents.2.below a ha)
      rw [hcont]
      cases hr : rest.put key value pool with
      | mk r pool' =>
        rw [hr] at ih
        cases r with
        | done c' =>
          obtain ⟨ho, hc, hid, he⟩ := ih
          refine ⟨⟨hkv, ht, ho⟩, by rw [← hc]; rfl, rfl, ?_⟩
          simp only [Chain.entries, he, hid]
        | grown c' =>
          obtain ⟨ho, hc, hid⟩ := ih
          exact ⟨⟨hkv, ht, ho⟩, by rw [← hc]; rfl, rfl⟩

end

theorem BTree.Ordered.root {t : BTree} (h : t.Ordered none none) : t.RootOrdered := by
  cases t with
  | leaf id entries => exact h.2
  | node id c => exact h

theorem BTree.RootOrdered.contents {t : BTree} (h : t.RootOrdered) :
    LeafOrdered none none t.contents := by
  cases t with
  | leaf id entries => exact h
  | node id c => exact (Chain.Ordered.contents (c := c) h).2

theorem BTree.RootOrdered.put {t : BTree} (h : t.RootOrdered) (hk : key.Valid) (hv : value.Valid)
    (pool : Pool) :
    (t.put key value pool).1.Ordered none none (bindEntry key value t.contents) t.id := by
  cases t with
  | leaf id entries => exact leafPut_ordered h hk hv above_none below_none id pool
  | node id c => exact BTree.put_ordered (t := .node id c) h hk hv above_none below_none pool

theorem BTree.rootPut_ordered {t : BTree} (h : t.RootOrdered) (hk : key.Valid)
    (hv : value.Valid) (pool : Pool) :
    (t.rootPut key value pool).1.RootOrdered ∧
      (t.rootPut key value pool).1.contents = bindEntry key value t.contents := by
  have hput := h.put hk hv pool
  unfold BTree.rootPut
  cases hr : t.put key value pool with
  | mk r pool' =>
    rw [hr] at hput
    cases r with
    | done t' => exact ⟨hput.1.root, hput.2.1⟩
    | split l k r =>
      obtain ⟨hk', hl, hro, hc, -⟩ := hput
      exact ⟨⟨hk', hl, hro⟩, hc⟩

end ToiLang
