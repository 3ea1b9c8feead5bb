import ToiLang.BTree.StoreDelete

namespace ToiLang

open SortedMap

variable {db : BTreeDb} {key : BTreeAtom} {lo hi : Option Rank} {entries : List LeafEntry}

theorem BTree.Ordered.rootOrdered {t : BTree} (h : t.Ordered lo hi) : t.RootOrdered :=
  (h.weaken (fun _ _ => above_none) fun _ _ => below_none).root

/-- What is bound to a key. -/
def lookup (key : BTreeAtom) (entries : List LeafEntry) : Option BTreeAtom :=
  (find LeafEntry.rank key.rank entries).map LeafEntry.value

theorem LeafOrdered.lookup (h : LeafOrdered lo hi entries) (hk : key.Valid) :
    (if (leafFindSlot entries key).2 then
      (entries[(leafFindSlot entries key).1]?).map LeafEntry.value else none) =
      ToiLang.lookup key entries := by
  have hslot := h.slot hk
  generalize leafFindSlot entries key = r at hslot ⊢
  obtain ⟨pos, found⟩ := r
  unfold ToiLang.lookup
  cases hslot with
  | present xs e ys heq hx he hy =>
    rw [if_pos rfl, heq, List.getElem?_append_right (Nat.le_refl _), Nat.sub_self,
      find_append_right fun a ha => (hx a ha).ne]
    simp [find, he]
  | absent xs ys heq hx hy =>
    rw [if_neg (by simp), heq, find_eq_none.mpr fun a ha => ?_]
    · rfl
    · rcases List.mem_append.mp ha with ha | ha
      · exact (hx a ha).ne
      · exact (hy a ha).ne'

/-- `btree_get_value` reads the bindings of the tree. -/
theorem getValue_spec {fuel : Nat} {t : BTree} (hfuel : t.height < fuel) (hs : t.Stored db)
    (ho : t.RootOrdered) (hk : key.Valid) :
    getValue key fuel t.id db = .done (lookup key t.contents) db := by
  induction fuel generalizing t with
  | zero => omega
  | succ fuel ih =>
    cases t with
    | leaf id entries =>
      refine (Io.bind_done (nodeLoad_holds hs)).trans ?_
      rw [BTree.contents, ← LeafOrdered.lookup ho hk]
      rfl
    | node id c =>
      have hc : c.Ordered none none := ho
      obtain ⟨hbefore, hafter, lo', hi', hu⟩ := hc.route hk
      have hle := (c.route key).1.height_le_plug (c.route key).2
      have hcontents := congrArg Chain.contents (c.route_plug key)
      have hcs := hs.2
      rw [← c.route_plug key, Hole.plug_stored] at hcs
      rw [c.route_plug key] at hle
      rw [Hole.plug_contents] at hcontents
      have hchild := ih (t := (c.route key).2) (by simp only [BTree.height] at hfuel; omega) hcs.1
        hu.rootOrdered
      refine (Io.bind_done (nodeLoad_holds hs.1)).trans ?_
      show getValue key fuel (internalFindRoute c.first.id c.entries key).2 db = _
      rw [internalFindRoute_eq]
      refine hchild.trans ?_
      show _ = IoResult.done (lookup key c.contents) db
      unfold lookup
      rw [← hcontents, List.append_assoc, find_append_right fun a ha => (hbefore a ha).ne,
        find_append_left fun a ha => (hafter a ha).ne']
      rfl

section Collect

variable {min max : Option BTreeAtom} {limit : Int} {rows : List LeafEntry}

/-- `min <= key <= max` -/
def inRange (min max : Option BTreeAtom) (e : LeafEntry) : Bool :=
  !(min.any fun min => atomCompare e.key min = .lt) &&
    !(max.any fun max => atomCompare e.key max = .gt)

/-- The first `limit` ones of rows, or all of them. -/
def takeLimit (limit : Int) (n : Nat) (rows : List LeafEntry) : List LeafEntry :=
  if 0 ≤ limit then rows.take (limit.toNat - n) else rows

theorem collectLeaf_reached (h : limitReached limit rows = true) (entries : List LeafEntry) :
    collectLeaf min max limit entries rows = rows := by
  cases entries with
  | nil => rfl
  | cons e entries =>
    unfold collectLeaf
    rw [if_pos h]

theorem filter_inRange_behind {m : BTreeAtom} (h : ∀ e ∈ entries, atomCompare e.key m = .gt) :
    entries.filter (inRange min (some m)) = [] := by
  refine List.filter_eq_nil_iff.mpr fun e he => ?_
  simp [inRange, h e he]

/-- The keys behind one that is larger than the largest. -/
theorem LeafOrdered.behind {e : LeafEntry} {m : BTreeAtom}
    (h : LeafOrdered lo hi (e :: entries)) (hm : m.Valid) (he : atomCompare e.key m = .gt) :
    ∀ a ∈ entries, atomCompare a.key m = .gt := by
  intro a ha
  have hlt := (List.pairwise_cons.mp h.sorted).1 a ha
  have hgt := (atomCompare_gt (h.valid e List.mem_cons_self).1 hm).mp he
  exact (atomCompare_gt (h.valid a (List.mem_cons_of_mem _ ha)).1 hm).mpr (hgt.trans hlt)

theorem collectLeaf_eq (h : LeafOrdered lo hi entries) (hmax : ∀ m ∈ max, m.Valid)
    (rows : List LeafEntry) :
    collectLeaf min max limit entries rows =
      rows ++ takeLimit limit rows.length (entries.filter (inRange min max)) := by
  induction entries generalizing rows with
  | nil => simp [collectLeaf, takeLimit]
  | cons e entries ih =>
    have htail : LeafOrdered lo hi entries := h.sublist (List.sublist_cons_self _ _)
    unfold collectLeaf
    split
    next hreach =>
      have hle : 0 ≤ limit ∧ limit ≤ rows.length := by simpa [limitReached] using hreach
      rw [takeLimit, if_pos hle.1, show limit.toNat - rows.length = 0 by omega, List.take_zero,
        List.append_nil]
    next hreach =>
      split
      next hmin =>
        have hout : inRange min max e = false := by simp [inRange, hmin]
        rw [ih htail, List.filter_cons_of_neg (by simp [hout])]
      next hmin =>
        split
        next hgt =>
          obtain ⟨m, rfl, hm⟩ : ∃ m, max = some m ∧ atomCompare e.key m = .gt := by
            cases max with
            | none => cases hgt
            | some m => exact ⟨m, rfl, by simpa using hgt⟩
          have hall : ∀ a ∈ e :: entries, atomCompare a.key m = .gt := by
            intro a ha
            rcases List.mem_cons.mp ha with rfl | ha
            · exact hm
            · exact h.behind (hmax m rfl) hm a ha
          rw [filter_inRange_behind hall]
          simp [takeLimit]
        next hgt =>
          have hin : inRange min max e = true := by simp [inRange, hmin, hgt]
          rw [ih htail, List.filter_cons_of_pos hin, List.length_append, List.append_assoc]
          congr 1
          unfold takeLimit
          split
          next hlim =>
            have hlt : (rows.length : Int) < limit := by
              simp only [limitReached, hlim, true_and, decide_eq_true_eq] at hreach
              omega
            rw [show limit.toNat - rows.length = limit.toNat - (rows.length + [e].length) + 1 by
              simp only [List.length_singleton]
              omega, List.take_succ_cons]
            rfl
          next => rfl

theorem collectLeaf_append {xs ys : List LeafEntry} (h : LeafOrdered lo hi (xs ++ ys))
    (hmax : ∀ m ∈ max, m.Valid) (rows : List LeafEntry) :
    collectLeaf min max limit (xs ++ ys) rows =
      collectLeaf min max limit ys (collectLeaf min max limit xs rows) := by
  have hx : LeafOrdered lo hi xs := h.sublist (List.sublist_append_left _ _)
  have hy : LeafOrdered lo hi ys := h.sublist (List.sublist_append_right _ _)
  rw [collectLeaf_eq h hmax, collectLeaf_eq hy hmax, collectLeaf_eq hx hmax, List.append_assoc,
    List.filter_append]
  congr 1
  unfold takeLimit
  split
  · rw [List.take_append, List.length_append, List.length_take]
    congr 2
    omega
  · rfl

/-- The loop of `btree_collect_range` over the children of a page, from what it does in each. -/
theorem collectChildren_spec {fuel : Nat} {c : Chain} (hmax : ∀ m ∈ max, m.Valid)
    (ho : c.Ordered lo hi) (hs : c.Stored db) (hfuel : c.height < fuel)
    (ih : ∀ {t : BTree} (rows : List LeafEntry), t.height < fuel → t.Stored db → t.RootOrdered →
      collectRange min max limit fuel t.id rows db =
        .done (collectLeaf min max limit t.contents rows) db) :
    (do
      let rows ← collectRange min max limit fuel c.first.id rows
      c.entries.foldlM (fun rows e =>
        if limitReached limit rows then pure rows
        else collectRange min max limit fuel e.child rows) rows : Io (List LeafEntry)) db =
      .done (collectLeaf min max limit c.contents rows) db := by
  induction c using Chain.induction generalizing lo rows with
  | one t => exact Io.bind_done (ih rows hfuel hs (BTree.Ordered.rootOrdered ho))
  | cons t k rest ihc =>
    obtain ⟨-, ht, hrest⟩ := ho
    have hfuel' : t.height < fuel ∧ rest.height < fuel := max_lt_iff.mp hfuel
    have hfirst := ih rows hfuel'.1 hs.1 ht.rootOrdered
    have hnext := @ihc _ (collectLeaf min max limit t.contents rows) hrest hs.2 hfuel'.2
    have hcontents : LeafOrdered lo hi (t.contents ++ rest.contents) :=
      ht.contents.2.append hrest.contents.2 ht.contents.1 hrest.contents.1
    refine (Io.bind_done hfirst).trans ?_
    rw [Chain.contents, collectLeaf_append hcontents hmax, ← hnext, Chain.entries, List.foldlM_cons]
    -- a page whose limit is reached is not loaded, and adds nothing
    by_cases hreach : limitReached limit (collectLeaf min max limit t.contents rows) = true
    · rw [if_pos hreach]
      have hskip : collectRange min max limit fuel rest.first.id
          (collectLeaf min max limit t.contents rows) db =
            .done (collectLeaf min max limit t.contents rows) db := by
        obtain ⟨n, rfl⟩ : ∃ n, fuel = n + 1 := ⟨fuel - 1, by omega⟩
        unfold collectRange
        rw [if_pos hreach]
        rfl
      rw [Io.bind_done hskip]
      rfl
    · rw [if_neg hreach]

theorem collectRange_spec {fuel : Nat} {t : BTree} (hmax : ∀ m ∈ max, m.Valid)
    (hfuel : t.height < fuel) (hs : t.Stored db) (ho : t.RootOrdered) (rows : List LeafEntry) :
    collectRange min max limit fuel t.id rows db =
      .done (collectLeaf min max limit t.contents rows) db := by
  induction fuel generalizing t rows with
  | zero => omega
  | succ fuel ih =>
    unfold collectRange
    split
    next hreach =>
      rw [collectLeaf_reached hreach]
      rfl
    next =>
      cases t with
      | leaf id entries => exact Io.bind_done (nodeLoad_holds hs)
      | node id c =>
        refine (Io.bind_done (nodeLoad_holds hs.1)).trans ?_
        refine collectChildren_spec (c := c) hmax ho hs.2 ?_ fun rows hf hs' ho' => ih hf hs' ho' rows
        simp only [BTree.height] at hfuel
        omega

end Collect

/-- `btree_get_value` on a database with a tree. -/
theorem btreeGetValue_spec {t : BTree} {pool : Pool} (h : db.Represents t pool)
    (ho : t.RootOrdered) (hk : key.Valid) :
    btreeGetValue key db = .done (lookup key t.contents) db := by
  have hheight := h.keeps.accounts.height_lt_self
  have hget := getValue_spec hheight h.stored ho hk
  rw [h.root] at hget
  exact hget

/-- `btree_collect_range` on a database with a tree. -/
theorem btreeCollectRange_spec {t : BTree} {pool : Pool} (h : db.Represents t pool)
    (ho : t.RootOrdered) {min max : Option BTreeAtom} (hmax : ∀ m ∈ max, m.Valid) (limit : Int) :
    btreeCollectRange min max limit db =
      .done (takeLimit limit 0 (t.contents.filter (inRange min max))) db := by
  have hheight := h.keeps.accounts.height_lt_self
  have hcollect : collectRange min max limit UInt32.size t.id [] db =
      .done (collectLeaf min max limit t.contents []) db :=
    collectRange_spec hmax hheight h.stored ho []
  rw [h.root, collectLeaf_eq ho.contents hmax] at hcollect
  exact hcollect

end ToiLang