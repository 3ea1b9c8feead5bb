import ToiLang.BTree.TreePut

namespace ToiLang

open SortedMap

variable {key : BTreeAtom} {lo hi : Option Rank}

mutual

theorem BTree.Ordered.weaken {lo hi lo' hi' : Option Rank} {t : BTree} (h : t.Ordered lo hi)
    (hlo : ∀ x, Above lo x → Above lo' x) (hhi : ∀ x, Below hi x → Below hi' x) :
    t.Ordered lo' hi' := by
  cases t with
  | leaf id entries =>
    obtain ⟨hne, hs, hv, ha, hb⟩ := h
    exact ⟨hne, hs, hv, fun e he => hlo _ (ha e he), fun e he => hhi _ (hb e he)⟩
  | node id c => exact Chain.Ordered.weaken (c := c) h hlo hhi

theorem Chain.Ordered.weaken {lo hi lo' hi' : Option Rank} {c : Chain} (h : c.Ordered lo hi)
    (hlo : ∀ x, Above lo x → Above lo' x) (hhi : ∀ x, Below hi x → Below hi' x) :
    c.Ordered lo' hi' := by
  cases c with
  | one t => exact BTree.Ordered.weaken (t := t) h hlo hhi
  | cons t key rest =>
    obtain ⟨hk, ht, hr⟩ := h
    exact ⟨hk, BTree.Ordered.weaken ht hlo fun _ hx => hx,
      Chain.Ordered.weaken hr (fun _ hx => hx) hhi⟩

end

mutual

theorem BTree.Ordered.minKey {lo hi : Option Rank} {t : BTree} (h : t.Ordered lo hi) :
    t.minKey = (t.contents.head?).map LeafEntry.key := by
  cases t with
  | leaf id entries => rfl
  | node id c => exact Chain.Ordered.minKey (c := c) h

theorem Chain.Ordered.minKey {lo hi : Option Rank} {c : Chain} (h : c.Ordered lo hi) :
    c.minKey = (c.contents.head?).map LeafEntry.key := by
  cases c with
  | one t => exact BTree.Ordered.minKey (t := t) h
  | cons t key rest =>
    obtain ⟨-, ht, -⟩ := h
    have ih := BTree.Ordered.minKey ht
    unfold Chain.minKey Chain.contents
    rw [List.head?_append_of_ne_nil _ ht.contents.1]
    exact ih

end

/-- The least key of entries in order. -/
theorem LeafOrdered.head {entries : List LeafEntry} (h : LeafOrdered lo hi entries) {m : BTreeAtom}
    (hm : (entries.head?).map LeafEntry.key = some m) :
    m.Valid ∧ Above lo m.rank ∧ Below hi m.rank ∧ ∀ e ∈ entries, m.rank ≤ e.rank := by
  cases entries with
  | nil => cases hm
  | cons e entries =>
    cases Option.some.inj hm
    refine ⟨(h.valid e List.mem_cons_self).1, h.above e List.mem_cons_self,
      h.below e List.mem_cons_self, fun a ha => ?_⟩
    rcases List.mem_cons.mp ha with rfl | ha
    · exact le_rfl
    · exact ((List.pairwise_cons.mp h.sorted).1 a ha).le

theorem BTree.Ordered.min_spec {t : BTree} (h : t.Ordered lo hi) {m : BTreeAtom}
    (hm : t.minKey = some m) :
    m.Valid ∧ Above lo m.rank ∧ Below hi m.rank ∧ ∀ e ∈ t.contents, m.rank ≤ e.rank :=
  h.contents.2.head (h.minKey ▸ hm)

theorem Chain.Ordered.min_spec {c : Chain} (h : c.Ordered lo hi) {m : BTreeAtom}
    (hm : c.minKey = some m) :
    m.Valid ∧ Above lo m.rank ∧ Below hi m.rank ∧ ∀ e ∈ c.contents, m.rank ≤ e.rank :=
  h.contents.2.head (h.minKey ▸ hm)

theorem BTree.Ordered.minKey_some {t : BTree} (h : t.Ordered lo hi) : ∃ m, t.minKey = some m := by
  rw [h.minKey]
  cases hc : t.contents with
  | nil => exact absurd hc h.contents.1
  | cons e entries => exact ⟨e.key, rfl⟩

theorem Chain.Ordered.minKey_some {c : Chain} (h : c.Ordered lo hi) :
    ∃ m, c.minKey = some m := by
  rw [h.minKey]
  cases hc : c.contents with
  | nil => exact absurd hc h.contents.1
  | cons e entries => exact ⟨e.key, rfl⟩

mutual

/-- The least key is a lower bound. -/
theorem BTree.Ordered.tighten {lo hi : Option Rank} {t : BTree} (h : t.Ordered lo hi)
    {m : BTreeAtom} (hm : t.minKey = some m) : t.Ordered (some m.rank) hi := by
  have hmin := h.min_spec hm
  cases t with
  | leaf id entries =>
    obtain ⟨hne, hs, hv, -, hb⟩ := h
    exact ⟨hne, hs, hv, fun e he => above_some.mpr (hmin.2.2.2 e he), hb⟩
  | node id c => exact Chain.Ordered.tighten (c := c) h hm

theorem Chain.Ordered.tighten {lo hi : Option Rank} {c : Chain} (h : c.Ordered lo hi)
    {m : BTreeAtom} (hm : c.minKey = some m) : c.Ordered (some m.rank) hi := by
  cases c with
  | one t => exact BTree.Ordered.tighten (t := t) h hm
  | cons t key rest =>
    obtain ⟨hk, ht, hr⟩ := h
    exact ⟨hk, BTree.Ordered.tighten ht hm, hr⟩

end

def Present (key : BTreeAtom) (entries : List LeafEntry) : Prop :=
  ∃ e ∈ entries, e.rank = key.rank

/-- A subtree after a delete is in order in its range and has the bindings but the deleted one. -/
def DelTree.Ordered (lo hi : Option Rank) (key : BTreeAtom) (entries : List LeafEntry) :
    DelTree → Prop
  | absent => ¬ Present key entries
  | kept t newMin => Present key entries ∧ t.Ordered lo hi ∧ t.contents = unbindEntry key entries ∧
      ∀ m, newMin = some m → t.minKey = some m
  | gone => Present key entries ∧ unbindEntry key entries = []
  | replaced t => Present key entries ∧ t.Ordered lo hi ∧ t.contents = unbindEntry key entries
  | undefined => True

def DelChain.Ordered (lo hi : Option Rank) (key : BTreeAtom) (entries : List LeafEntry) :
    DelChain → Prop
  | absent => ¬ Present key entries
  | kept c head => Present key entries ∧ c.Ordered lo hi ∧ c.contents = unbindEntry key entries ∧
      ∀ m, head = some (some m) → c.minKey = some m
  | headGone none => Present key entries ∧ unbindEntry key entries = []
  | headGone (some (k, c)) => Present key entries ∧ k.Valid ∧ Above lo k.rank ∧
      c.Ordered (some k.rank) hi ∧ c.contents = unbindEntry key entries
  | undefined => True

theorem LeafOrdered.sublist {entries rest : List LeafEntry} (h : LeafOrdered lo hi entries)
    (hs : rest.Sublist entries) : LeafOrdered lo hi rest :=
  ⟨h.sorted.sublist hs, fun e he => h.valid e (hs.subset he), fun e he => h.above e (hs.subset he),
    fun e he => h.below e (hs.subset he)⟩

/-- A delete in a leaf: the entries are those of the map. -/
theorem LeafOrdered.delete_entries {entries : List LeafEntry} (h : LeafOrdered lo hi entries)
    (hk : key.Valid) :
    if (leafFindSlot entries key).2 then Present key entries ∧
      entries.eraseIdx (leafFindSlot entries key).1 = unbindEntry key entries
    else ¬ Present key entries := by
  have hslot := h.slot hk
  generalize leafFindSlot entries key = r at hslot ⊢
  obtain ⟨pos, found⟩ := r
  cases hslot with
  | present xs e ys heq hx he hy =>
    rw [if_pos rfl, heq]
    refine ⟨⟨e, by simp, he⟩, ?_⟩
    rw [unbindEntry, unbind_of_mem (fun b hb => (hx b hb).ne) he (fun b hb => (hy b hb).ne'),
      List.eraseIdx_append_of_length_le (Nat.le_refl _), Nat.sub_self]
    rfl
  | absent xs ys heq hx hy =>
    rw [if_neg (by simp), heq]
    rintro ⟨e, he, hrank⟩
    rcases List.mem_append.mp he with he | he
    · exact (hx e he).ne hrank
    · exact (hy e he).ne' hrank

theorem leafDelete_ordered {entries : List LeafEntry} (h : LeafOrdered lo hi entries)
    (hk : key.Valid) (id : UInt32) (pool : Pool) :
    (leafDelete id entries key pool).1.Ordered lo hi key entries := by
  have hentries := h.delete_entries hk
  unfold leafDelete
  generalize leafFindSlot entries key = r at hentries ⊢
  obtain ⟨pos, found⟩ := r
  cases found with
  | false => exact hentries
  | true =>
    simp only [↓reduceIte] at hentries
    obtain ⟨hp, herase⟩ := hentries
    dsimp only
    rw [if_neg (by simp)]
    split
    next hnil => exact ⟨hp, by rw [← herase, hnil]⟩
    next hne =>
      refine ⟨hp, ⟨hne, h.sublist (List.eraseIdx_sublist ..)⟩, herase, fun m hm => ?_⟩
      split at hm
      · exact hm
      · cases hm

theorem present_append {xs ys : List LeafEntry} :
    Present key (xs ++ ys) ↔ Present key xs ∨ Present key ys := by
  simp [Present, or_and_right, exists_or]

theorem unbindEntry_left (xs : List LeafEntry) {ys : List LeafEntry} (hy : ∀ a ∈ ys, key.rank < a.rank) :
    unbindEntry key (xs ++ ys) = unbindEntry key xs ++ ys := by
  unfold unbindEntry
  rw [unbind_append]
  exact congrArg _ (unbind_eq_self fun a ha => (hy a ha).ne')

theorem unbindEntry_right {xs : List LeafEntry} (ys : List LeafEntry) (hx : ∀ a ∈ xs, a.rank < key.rank) :
    unbindEntry key (xs ++ ys) = xs ++ unbindEntry key ys := by
  unfold unbindEntry
  rw [unbind_append, unbind_eq_self fun a ha => (hx a ha).ne]

theorem chainDelete_ordered {entries : List LeafEntry} {c : Chain} (hp : Present key entries)
    (h : c.Ordered lo hi) (hc : c.contents = unbindEntry key entries) (id : UInt32)
    (atHead : Bool) (pool : Pool) :
    (chainDelete id c atHead pool).1.Ordered lo hi key entries := by
  cases c with
  | one t => exact ⟨hp, h, hc⟩
  | cons t k rest =>
    refine ⟨hp, h, hc, fun m hm => ?_⟩
    split at hm
    · exact hm
    · cases hm

mutual

theorem BTree.delete_ordered {lo hi : Option Rank} {key : BTreeAtom} {t : BTree}
    (h : t.Ordered lo hi) (hk : key.Valid) (pool : Pool) :
    (t.delete key pool).1.Ordered lo hi key t.contents := by
  cases t with
  | leaf id entries => exact leafDelete_ordered h.2 hk id pool
  | node id c =>
    have hc : c.Ordered lo hi := h
    have ih := Chain.delete_ordered hc hk pool
    unfold BTree.delete BTree.contents
    cases hr : c.delete key pool with
    | mk r pool' =>
      rw [hr] at ih
      cases r with
      | absent => exact ih
      | kept c' head => exact chainDelete_ordered ih.1 ih.2.1 ih.2.2.1 id _ pool'
      | headGone next =>
        cases next with
        | none => trivial
        | some p =>
          obtain ⟨k, rest⟩ := p
          obtain ⟨hp, -, habove, hrest, hcont⟩ := ih
          refine chainDelete_ordered hp (hrest.weaken (fun x hx => ?_) fun _ hx => hx) hcont id
            true pool'
          exact habove.trans (above_some.mp hx)
      | undefined => trivial

theorem Chain.delete_ordered {lo hi : Option Rank} {key : BTreeAtom} {c : Chain}
    (h : c.Ordered lo hi) (hk : key.Valid) (pool : Pool) :
    (c.delete key pool).1.Ordered lo hi key c.contents := by
  cases c with
  | one t =>
    have ht : t.Ordered lo hi := h
    have ih := BTree.delete_ordered ht hk pool
    unfold Chain.delete Chain.contents
    cases hr : t.delete key pool with
    | mk r pool' =>
      rw [hr] at ih
      cases r with
      | absent => exact ih
      | kept t' newMin =>
        obtain ⟨hp, ho, hcont, hmin⟩ := ih
        exact ⟨hp, ho, hcont, fun m hm => hmin m (Option.some.inj hm)⟩
      | gone => exact ih
      | replaced t' =>
        obtain ⟨hp, ho, hcont⟩ := ih
        exact ⟨hp, ho, hcont, fun m hm => Option.some.inj hm⟩
      | undefined => trivial
  | cons t k rest =>
    obtain ⟨hkv, ht, hrest⟩ := h
    obtain ⟨hne, hto⟩ := ht.contents
    obtain ⟨hne', hro⟩ := hrest.contents
    have hbelow : ∀ a ∈ t.contents, a.rank < k.rank := fun a ha => below_some.mp (hto.below a ha)
    have habove : ∀ a ∈ rest.contents, k.rank ≤ a.rank := fun a ha =>
      above_some.mp (hro.above a ha)
    unfold Chain.delete Chain.contents
    split
    next hlt =>
      have hlt : key.rank < k.rank := (atomCompare_lt hk hkv).mp hlt
      have hright : ∀ a ∈ rest.contents, key.rank < a.rank := fun a ha =>
        hlt.trans_le (habove a ha)
      have hnot : ¬ Present key rest.contents := fun ⟨e, he, hrank⟩ => (hright e he).ne' hrank
      have hunbind := unbindEntry_left t.contents hright
      have hpresent (hp : Present key t.contents) : Present key (t.contents ++ rest.contents) :=
        present_append.mpr (.inl hp)
      have ih := BTree.delete_ordered ht hk pool
      cases hr : t.delete key pool with
      | mk r pool' =>
        rw [hr] at ih
        cases r with
        | absent =>
          intro hp
          obtain hp | hp := present_append.mp hp
          · exact ih hp
          · exact hnot hp
        | kept t' newMin =>
          obtain ⟨hp, ho, hcont, hmin⟩ := ih
          refine ⟨hpresent hp, ⟨hkv, ho, hrest⟩, ?_, fun m hm => hmin m (Option.some.inj hm)⟩
          rw [hunbind, ← hcont]
          rfl
        | gone =>
          obtain ⟨hp, hnil⟩ := ih
          obtain ⟨e, he⟩ := List.exists_mem_of_ne_nil _ hne
          refine ⟨hpresent hp, hkv, (hto.above e he).trans (hbelow e he).le, hrest, ?_⟩
          rw [hunbind, hnil, List.nil_append]
        | replaced t' =>
          obtain ⟨hp, ho, hcont⟩ := ih
          refine ⟨hpresent hp, ⟨hkv, ho, hrest⟩, ?_, fun m hm => Option.some.inj hm⟩
          rw [hunbind, ← hcont]
          rfl
        | undefined => trivial
    next hge =>
      have hge : k.rank ≤ key.rank := by
        rw [atomCompare_lt hk hkv] at hge
        exact not_lt.mp hge
      have hleft : ∀ a ∈ t.contents, a.rank < key.rank := fun a ha =>
        (hbelow a ha).trans_le hge
      have hnot : ¬ Present key t.contents := fun ⟨e, he, hrank⟩ => (hleft e he).ne hrank
      have hunbind := unbindEntry_right rest.contents hleft
      have hpresent (hp : Present key rest.contents) :
          Present key (t.contents ++ rest.contents) := present_append.mpr (.inr hp)
      have ih := Chain.delete_ordered hrest hk pool
      cases hr : rest.delete key pool with
      | mk r pool' =>
        rw [hr] at ih
        cases r with
        | absent =>
          intro hp
          obtain hp | hp := present_append.mp hp
          · exact hnot hp
          · exact ih hp
        | kept c' head =>
          obtain ⟨hp, ho, hcont, hmin⟩ := ih
          refine ⟨hpresent hp, ?_, by rw [hunbind, ← hcont]; rfl, fun m hm => by cases hm⟩
          -- the key before the children is the old one or their new least key
          cases hh : head.join with
          | none => exact ⟨hkv, ht, ho⟩
          | some m =>
            have hm := hmin m (Option.join_eq_some_iff.mp hh)
            obtain ⟨hmv, hma, -, -⟩ := ho.min_spec hm
            refine ⟨hmv, ht.weaken (fun _ hx => hx) fun x hx => ?_, ho.tighten hm⟩
            exact below_some.mpr ((below_some.mp hx).trans_le (above_some.mp hma))
        | headGone next =>
          cases next with
          | none =>
            obtain ⟨hp, hnil⟩ := ih
            refine ⟨hpresent hp, ht.weaken (fun _ hx => hx) fun x hx => ?_, ?_,
              fun m hm => by cases hm⟩
            · obtain ⟨e, he⟩ := List.exists_mem_of_ne_nil _ hne'
              exact (hro.below e he).trans ((below_some.mp hx).trans_le (habove e he)).le
            · rw [hunbind, hnil, List.append_nil]
              rfl
          | some p =>
            obtain ⟨k', c'⟩ := p
            obtain ⟨hp, hk', hab, ho, hcont⟩ := ih
            refine ⟨hpresent hp, ⟨hk', ht.weaken (fun _ hx => hx) fun x hx => ?_, ho⟩, ?_,
              fun m hm => by cases hm⟩
            · exact below_some.mpr ((below_some.mp hx).trans_le (above_some.mp hab))
            · rw [hunbind, ← hcont]
              rfl
        | undefined => trivial

end

/-- The whole tree after a delete. -/
theorem BTree.rootDelete_ordered {t t' : BTree} (h : t.RootOrdered) (hk : key.Valid)
    {pool pool' : Pool} {found : Bool} (hd : t.rootDelete key pool = some (t', found, pool')) :
    t'.RootOrdered ∧ t'.contents = unbindEntry key t.contents ∧
      (found = true ↔ Present key t.contents) := by
  have habsent (hn : ¬ Present key t.contents) : t.contents = unbindEntry key t.contents :=
    (unbind_eq_self fun a ha hrank => hn ⟨a, ha, hrank⟩).symm
  cases t with
  | leaf id entries =>
    have hentries := LeafOrdered.delete_entries h hk
    simp only [BTree.rootDelete] at hd
    generalize leafFindSlot entries key = r at hentries hd
    obtain ⟨pos, found'⟩ := r
    cases found' with
    | true =>
      cases Option.some.inj hd
      simp only [↓reduceIte] at hentries ⊢
      exact ⟨LeafOrdered.sublist h (List.eraseIdx_sublist ..), hentries.2,
        fun _ => hentries.1, fun _ => trivial⟩
    | false =>
      cases Option.some.inj hd
      simp only [Bool.false_eq_true, ↓reduceIte] at hentries ⊢
      exact ⟨h, habsent hentries, (fun hf => nomatch hf), fun hp => absurd hp hentries⟩
  | node id c =>
    have hdel := BTree.delete_ordered (t := .node id c) h hk pool
    unfold BTree.rootDelete at hd
    dsimp only at hd
    cases hr : (BTree.node id c).delete key pool with
    | mk r pool₁ =>
      rw [hr] at hdel hd
      cases r with
      | absent =>
        cases Option.some.inj hd
        exact ⟨h, habsent hdel, (fun hf => nomatch hf), fun hp => absurd hp hdel⟩
      | kept t₁ newMin =>
        cases Option.some.inj hd
        exact ⟨hdel.2.1.root, hdel.2.2.1, fun _ => hdel.1, fun _ => rfl⟩
      | gone => cases hd
      | replaced t₁ =>
        cases Option.some.inj hd
        exact ⟨hdel.2.1.root, hdel.2.2, fun _ => hdel.1, fun _ => rfl⟩
      | undefined => cases hd

end ToiLang
