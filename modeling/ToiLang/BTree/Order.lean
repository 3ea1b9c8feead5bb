import ToiLang.BTree.Tree

namespace ToiLang

open SortedMap

variable {entries : List LeafEntry} {key value : BTreeAtom} {lo hi lo' hi' : Option Rank}

/-- Where a leaf has a key or where it would be: between the smaller and the larger ones. -/
inductive LeafSlot (entries : List LeafEntry) (key : BTreeAtom) : Nat → Bool → Prop
  | present (xs : List LeafEntry) (e : LeafEntry) (ys : List LeafEntry) (h : entries = xs ++ e :: ys)
      (hx : ∀ a ∈ xs, a.rank < key.rank) (he : e.rank = key.rank)
      (hy : ∀ a ∈ ys, key.rank < a.rank) : LeafSlot entries key xs.length true
  | absent (xs ys : List LeafEntry) (h : entries = xs ++ ys) (hx : ∀ a ∈ xs, a.rank < key.rank)
      (hy : ∀ a ∈ ys, key.rank < a.rank) : LeafSlot entries key xs.length false

theorem LeafSlot.cut {n : Nat} (hn : n ≤ entries.length)
    (hlo : ∀ a ∈ entries.take n, a.rank < key.rank)
    (hup : ∀ a ∈ entries.drop n, key.rank < a.rank) : LeafSlot entries key n false := by
  have h := LeafSlot.absent (entries.take n) (entries.drop n)
    (List.take_append_drop n entries).symm hlo hup
  rwa [List.length_take, Nat.min_eq_left hn] at h

theorem leafFindLoop_spec (hs : Sorted LeafEntry.rank entries) (hv : ∀ e ∈ entries, e.Valid)
    (hk : key.Valid) {fuel lo hi : Nat} (hle : lo ≤ hi) (hhi : hi ≤ entries.length)
    (hfuel : hi - lo ≤ fuel) (hlo : ∀ a ∈ entries.take lo, a.rank < key.rank)
    (hup : ∀ a ∈ entries.drop hi, key.rank < a.rank) :
    LeafSlot entries key (leafFindLoop entries key fuel lo hi).1
      (leafFindLoop entries key fuel lo hi).2 := by
  induction fuel generalizing lo hi with
  | zero =>
    have heq : hi = lo := by omega
    exact LeafSlot.cut (show lo ≤ entries.length by omega) hlo (heq ▸ hup)
  | succ fuel ih =>
    unfold leafFindLoop
    split
    next hlt =>
      have hmid : lo + (hi - lo) / 2 < entries.length := by omega
      generalize hm : lo + (hi - lo) / 2 = mid at hmid ⊢
      dsimp only
      rw [List.getElem?_eq_getElem hmid]
      dsimp only
      have hmem : entries[mid] ∈ entries := List.getElem_mem hmid
      have hval := (hv _ hmem).1
      have hsplit : entries = entries.take mid ++ entries[mid] :: entries.drop (mid + 1) := by
        rw [← List.drop_eq_getElem_cons hmid, List.take_append_drop]
      have hsorted := hs
      rw [hsplit] at hsorted
      obtain ⟨-, htail, hbefore⟩ := List.pairwise_append.mp hsorted
      have hafter := (List.pairwise_cons.mp htail).1
      have hbefore (a : LeafEntry) (ha : a ∈ entries.take mid) : a.rank < entries[mid].rank :=
        hbefore a ha _ List.mem_cons_self
      cases hcmp : atomCompare key entries[mid].key with
      | eq =>
        have heq : entries[mid].rank = key.rank := ((atomCompare_eq hk hval).mp hcmp).symm
        have h : LeafSlot entries key _ _ := LeafSlot.present _ _ _ hsplit
          (fun a ha => heq ▸ hbefore a ha) heq (fun a ha => heq ▸ hafter a ha)
        rwa [List.length_take, Nat.min_eq_left (by omega)] at h
      | lt =>
        have hlt' : key.rank < entries[mid].rank := (atomCompare_lt hk hval).mp hcmp
        refine ih (by omega) (by omega) (by omega) hlo fun a ha => ?_
        rw [List.drop_eq_getElem_cons hmid] at ha
        rcases List.mem_cons.mp ha with rfl | ha
        · exact hlt'
        · exact hlt'.trans (hafter a ha)
      | gt =>
        have hgt : entries[mid].rank < key.rank := (atomCompare_gt hk hval).mp hcmp
        have htake : ∀ a ∈ entries.take (mid + 1), a.rank < key.rank := by
          intro a ha
          rw [List.take_succ_eq_append_getElem hmid] at ha
          rcases List.mem_append.mp ha with ha | ha
          · exact (hbefore a ha).trans hgt
          · rw [List.mem_singleton.mp ha]
            exact hgt
        exact ih (by omega) hhi (by omega) htake hup
    next hge =>
      have heq : hi = lo := by omega
      exact .cut (by omega) hlo (heq ▸ hup)

theorem leafFindSlot_spec (hs : Sorted LeafEntry.rank entries) (hv : ∀ e ∈ entries, e.Valid)
    (hk : key.Valid) : LeafSlot entries key (leafFindSlot entries key).1
      (leafFindSlot entries key).2 := by
  refine leafFindLoop_spec hs hv hk (Nat.zero_le _) (Nat.le_refl _) (Nat.le_refl _) ?_ ?_
  · intro a ha
    cases ha
  · intro a ha
    rw [List.drop_length] at ha
    cases ha

theorem LeafOrdered.slot (h : LeafOrdered lo hi entries) (hk : key.Valid) :
    LeafSlot entries key (leafFindSlot entries key).1 (leafFindSlot entries key).2 :=
  leafFindSlot_spec h.sorted h.valid hk

theorem Above.trans {x y : Rank} (h : Above lo x) (hxy : x ≤ y) : Above lo y :=
  fun l hl => (h l hl).trans hxy

theorem Below.trans {x y : Rank} (h : Below hi y) (hxy : x ≤ y) : Below hi x :=
  fun u hu => lt_of_le_of_lt hxy (h u hu)

theorem above_some {x y : Rank} : Above (some x) y ↔ x ≤ y :=
  ⟨fun h => h x rfl, fun h _ hl => Option.some.inj hl ▸ h⟩

theorem below_some {x y : Rank} : Below (some x) y ↔ y < x :=
  ⟨fun h => h x rfl, fun h _ hl => Option.some.inj hl ▸ h⟩

theorem above_none {x : Rank} : Above none x := by
  intro l hl
  cases hl

theorem below_none {x : Rank} : Below none x := by
  intro l hl
  cases hl

theorem bindEntry_present {xs ys : List LeafEntry} {e : LeafEntry}
    (hx : ∀ a ∈ xs, a.rank < key.rank) (he : e.rank = key.rank)
    (hy : ∀ a ∈ ys, key.rank < a.rank) :
    bindEntry key value (xs ++ e :: ys) = xs ++ { e with value } :: ys := by
  have hfind : find LeafEntry.rank key.rank (xs ++ e :: ys) = some e := by
    rw [find_append_right fun a ha => (hx a ha).ne]
    simp [find, he]
  unfold bindEntry
  rw [hfind]
  exact bind_of_mem (fun b hb => (hx b hb).trans_eq he.symm) rfl
    (fun b hb => he.trans_lt (hy b hb))

theorem bindEntry_absent {xs ys : List LeafEntry} (hx : ∀ a ∈ xs, a.rank < key.rank)
    (hy : ∀ a ∈ ys, key.rank < a.rank) :
    bindEntry key value (xs ++ ys) = xs ++ ⟨key, value⟩ :: ys := by
  have hfind : find LeafEntry.rank key.rank (xs ++ ys) = none := by
    refine find_eq_none.mpr fun a ha => ?_
    rcases List.mem_append.mp ha with ha | ha
    · exact (hx a ha).ne
    · exact (hy a ha).ne'
  unfold bindEntry
  rw [hfind]
  exact bind_of_cut hx hy

theorem bindEntry_append_left {xs ys : List LeafEntry} (hy : ∀ a ∈ ys, key.rank < a.rank) :
    bindEntry key value (xs ++ ys) = bindEntry key value xs ++ ys := by
  unfold bindEntry
  rw [find_append_left fun a ha => (hy a ha).ne']
  cases hf : find LeafEntry.rank key.rank xs with
  | none => exact bind_append_left _ hy
  | some e =>
    have he : e.rank = key.rank := by simpa using List.find?_some hf
    exact bind_append_left _ fun a ha => he.trans_lt (hy a ha)

theorem bindEntry_append_right {xs ys : List LeafEntry} (hx : ∀ a ∈ xs, a.rank < key.rank) :
    bindEntry key value (xs ++ ys) = xs ++ bindEntry key value ys := by
  unfold bindEntry
  rw [find_append_right fun a ha => (hx a ha).ne]
  cases hf : find LeafEntry.rank key.rank ys with
  | none => exact bind_append_right hx
  | some e =>
    have he : e.rank = key.rank := by simpa using List.find?_some hf
    exact bind_append_right fun a ha => (hx a ha).trans_eq he.symm

theorem modify_at {α : Type} (xs ys : List α) (e : α) (f : α → α) :
    (xs ++ e :: ys).modify xs.length f = xs ++ f e :: ys := by
  induction xs with
  | nil => rfl
  | cons x xs ih => simp [ih]

/-- A put in a leaf: the entries are those of the map. -/
theorem LeafOrdered.put_entries (h : LeafOrdered lo hi entries) (value : BTreeAtom) (hk : key.Valid) :
    bindEntry key value entries =
      if (leafFindSlot entries key).2 then setValueAt entries (leafFindSlot entries key).1 value
      else buildWithInsert entries (leafFindSlot entries key).1 ⟨key, value⟩ := by
  have hslot := h.slot hk
  generalize leafFindSlot entries key = r at hslot ⊢
  obtain ⟨pos, found⟩ := r
  cases hslot with
  | present xs e ys heq hx he hy =>
    rw [if_pos rfl, heq, bindEntry_present hx he hy, setValueAt, modify_at]
  | absent xs ys heq hx hy =>
    rw [if_neg (by simp), heq, bindEntry_absent hx hy]
    simp [buildWithInsert]

theorem LeafOrdered.bind (h : LeafOrdered lo hi entries) (hk : key.Valid) (hv : value.Valid)
    (hlo : Above lo key.rank) (hhi : Below hi key.rank) :
    LeafOrdered lo hi (bindEntry key value entries) := by
  have hfind : (((find LeafEntry.rank key.rank entries).map LeafEntry.key).getD key).Valid ∧
      (((find LeafEntry.rank key.rank entries).map LeafEntry.key).getD key).rank = key.rank := by
    cases hf : find LeafEntry.rank key.rank entries with
    | none => exact ⟨hk, rfl⟩
    | some e =>
      obtain ⟨hmem, he⟩ := (find_eq_some h.sorted).mp hf
      exact ⟨(h.valid e hmem).1, he⟩
  obtain ⟨hval, hrank⟩ := hfind
  have hall {P : LeafEntry → Prop} (hold : ∀ e ∈ entries, P e)
      (hnew : P ⟨((find LeafEntry.rank key.rank entries).map LeafEntry.key).getD key, value⟩) :
      ∀ e ∈ bindEntry key value entries, P e := by
    intro e he
    obtain rfl | ⟨he, -⟩ := mem_bind.mp he
    · exact hnew
    · exact hold e he
  refine ⟨h.sorted.bind _, hall h.valid ⟨hval, hv⟩, hall h.above ?_, hall h.below ?_⟩
  · exact hlo.trans hrank.ge
  · exact hhi.trans hrank.le

theorem bindEntry_ne_nil (key value : BTreeAtom) (entries : List LeafEntry) :
    bindEntry key value entries ≠ [] := by
  simp [bindEntry, SortedMap.bind]

/-- A leaf cut at one of its entries. -/
theorem LeafOrdered.cut (h : LeafOrdered lo hi entries) {mid : Nat} {e : LeafEntry}
    (hm : entries[mid]? = some e) :
    LeafOrdered lo (some e.rank) (entries.take mid) ∧
      LeafOrdered (some e.rank) hi (entries.drop mid) := by
  obtain ⟨hlt, he⟩ := List.getElem?_eq_some_iff.mp hm
  have hsorted := h.sorted
  rw [← List.take_append_drop mid entries] at hsorted
  obtain ⟨hs₁, hs₂, hcross⟩ := List.pairwise_append.mp hsorted
  have hdrop : entries.drop mid = e :: entries.drop (mid + 1) := by
    rw [List.drop_eq_getElem_cons hlt, he]
  have hsub {a : LeafEntry} (ha : a ∈ entries.take mid) : a ∈ entries := List.mem_of_mem_take ha
  have hsub' {a : LeafEntry} (ha : a ∈ entries.drop mid) : a ∈ entries := List.mem_of_mem_drop ha
  constructor
  · refine ⟨hs₁, fun a ha => h.valid a (hsub ha), fun a ha => h.above a (hsub ha), fun a ha => ?_⟩
    refine below_some.mpr (hcross a ha e ?_)
    rw [hdrop]
    exact List.mem_cons_self
  · refine ⟨hs₂, fun a ha => h.valid a (hsub' ha), fun a ha => ?_, fun a ha => h.below a (hsub' ha)⟩
    rw [hdrop] at ha hs₂
    rcases List.mem_cons.mp ha with rfl | ha
    · exact above_some.mpr le_rfl
    · exact above_some.mpr ((List.pairwise_cons.mp hs₂).1 a ha).le

/-- Two ordered lists with a key between them. -/
theorem LeafOrdered.append {xs ys : List LeafEntry} {k : Rank} (hx : LeafOrdered lo (some k) xs)
    (hy : LeafOrdered (some k) hi ys) (hxn : xs ≠ []) (hyn : ys ≠ []) :
    LeafOrdered lo hi (xs ++ ys) := by
  have hlt : ∀ a ∈ xs, ∀ b ∈ ys, a.rank < b.rank := fun a ha b hb =>
    (below_some.mp (hx.below a ha)).trans_le (above_some.mp (hy.above b hb))
  obtain ⟨x, hxm⟩ := List.exists_mem_of_ne_nil xs hxn
  obtain ⟨y, hym⟩ := List.exists_mem_of_ne_nil ys hyn
  refine ⟨hx.sorted.append hy.sorted hlt, ?_, ?_, ?_⟩
  · intro e he
    rcases List.mem_append.mp he with he | he
    · exact hx.valid e he
    · exact hy.valid e he
  · intro e he
    rcases List.mem_append.mp he with he | he
    · exact hx.above e he
    · exact (hx.above x hxm).trans (hlt x hxm e he).le
  · intro e he
    rcases List.mem_append.mp he with he | he
    · exact (hy.below y hym).trans (hlt e he y hym).le
    · exact hy.below e he

mutual

theorem BTree.Ordered.contents {lo hi : Option Rank} {t : BTree} (h : t.Ordered lo hi) :
    t.contents ≠ [] ∧ LeafOrdered lo hi t.contents := by
  cases t with
  | leaf id entries => exact h
  | node id c => exact Chain.Ordered.contents (c := c) h

theorem Chain.Ordered.contents {lo hi : Option Rank} {c : Chain} (h : c.Ordered lo hi) :
    c.contents ≠ [] ∧ LeafOrdered lo hi c.contents := by
  cases c with
  | one t => exact BTree.Ordered.contents (t := t) h
  | cons t key rest =>
    obtain ⟨-, ht, hr⟩ := h
    obtain ⟨hne, hto⟩ := BTree.Ordered.contents ht
    obtain ⟨hne', hro⟩ := Chain.Ordered.contents hr
    exact ⟨by simp [Chain.contents, hne], hto.append hro hne hne'⟩

end

end ToiLang
