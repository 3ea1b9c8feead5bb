import ToiLang.TableClone

namespace ToiLang.TableClone

open InlineCache (TableObj)

section Graph

variable {hash : Bytes → UInt32} {H : Heap} {t c : Nat} {s : State}

theorem mapRef_eq_table {f : Nat → Nat} {v : Value} {b : Nat} (h : mapRef f v = .table b) :
    ∃ a, v = .table a ∧ f a = b := by
  cases v with
  | table a => exact ⟨a, rfl, Value.table.inj h⟩
  | _ => cases h

/-- The clone of a table. -/
def cloned (s : State) (a : Nat) : Nat := (s.cloneOf? a).getD 0

theorem cloned_eq (hg : Good H s) {a c : Nat} (h : (a, c) ∈ s.seen) : cloned s a = c := by
  unfold cloned
  cases hc : s.cloneOf? a with
  | none => exact absurd (mem_sources h) (cloneOf?_none hc)
  | some b =>
    have hpair := List.inj_on_of_nodup_map hg.sources (cloneOf?_some hc) h rfl
    exact congrArg Prod.snd hpair

theorem ValueCopy.eq_mapRef (hg : Good H s) {v w : Value} (h : ValueCopy s.seen v w) :
    w = mapRef (cloned s) v := by
  unfold ValueCopy at h
  cases hr : v.ref with
  | none =>
    rw [hr] at h
    cases v with
    | table a => cases hr
    | _ => exact h
  | some a =>
    rw [hr] at h
    obtain ⟨c, hw, hc⟩ := h
    rw [Value.eq_table hr, hw, ← cloned_eq hg hc]
    rfl

/-- Every pair is of a finished clone. -/
def Finished (hash : Bytes → UInt32) (H : Heap) (s : State) : Prop :=
  ∀ p, p ∈ s.seen → Copied hash s.seen (H.objects p.1) (s.heap.objects p.2)

theorem Finished.child (hf : Finished hash H s) {a b : Nat} (ha : a ∈ s.sources)
    (hb : Child hash (H.objects a) b) : b ∈ s.sources := by
  obtain ⟨p, hp, rfl⟩ := List.mem_map.mp ha
  have hcopied := hf p hp
  rcases hb with harray | ⟨key, hkey⟩
  · obtain ⟨i, hi, hv⟩ := List.mem_iff_getElem.mp harray
    have hcopy := (List.forall₂_iff_get.mp hcopied.array).2 i hi
      ((List.forall₂_iff_get.mp hcopied.array).1 ▸ hi)
    rw [List.get_eq_getElem, hv] at hcopy
    obtain ⟨c, -, hc⟩ := hcopy
    exact mem_sources hc
  · have hcopy := hcopied.hashPart key
    rw [hkey] at hcopy
    obtain ⟨c, -, hc⟩ := hcopy
    exact mem_sources hc

theorem Finished.reaches (hf : Finished hash H s) (ht : t ∈ s.sources) {x : Nat} (hx : Reaches hash H t x) :
    x ∈ s.sources := by
  induction hx with
  | refl => exact ht
  | tail _ hchild ih => exact hf.child ih hchild

theorem Finished.cloned (hg : Good H s) (hf : Finished hash H s) {x : Nat} (hx : x ∈ s.sources) :
    (x, cloned s x) ∈ s.seen ∧ Copied hash s.seen (H.objects x) (s.heap.objects (cloned s x)) := by
  obtain ⟨p, hp, rfl⟩ := List.mem_map.mp hx
  have hc := cloned_eq hg hp
  rw [hc]
  exact ⟨hp, hf p hp⟩

theorem Copied.array_eq (hg : Good H s) {o o' : TableObj} (h : Copied hash s.seen o o') :
    o'.table.array = o.table.array.map (mapRef (TableClone.cloned s)) := by
  have hall := h.array.imp fun _ _ hv => (ValueCopy.eq_mapRef hg hv).symm
  have heq := List.forall₂_map_left_iff.mpr hall
  exact (List.forall₂_eq_eq_eq ▸ heq).symm

theorem Finished.graphCopy (hg : Good H s) (hf : Finished hash H s) (ht : t ∈ s.sources) :
    GraphCopy hash H s.heap t (TableClone.cloned s) := by
  have hreach {x : Nat} (hx : Reaches hash H t x) := hf.cloned hg (hf.reaches ht hx)
  have harray {x : Nat} (hx : Reaches hash H t x) := (hreach hx).2.array_eq hg
  have hhash {x : Nat} (hx : Reaches hash H t x) (key : Bytes) := ValueCopy.eq_mapRef hg ((hreach hx).2.hashPart key)
  refine ⟨fun x hx => ?_, fun x y hx hy hxy => ?_, fun y hy => ?_, fun x hx => (hreach hx).2.metatable,
    fun x hx => (hreach hx).2.isModule, fun x hx => harray hx, fun x hx key => hhash hx key⟩
  · exact (hg.pair _ (hreach hx).1).2
  · have hpair := List.inj_on_of_nodup_map hg.clones (hreach hx).1 (hreach hy).1 hxy
    exact congrArg Prod.fst hpair
  · induction hy with
    | refl => exact ⟨t, .refl, rfl⟩
    | tail _ hchild ih =>
      obtain ⟨x, hx, rfl⟩ := ih
      rcases hchild with hmem | ⟨key, hkey⟩
      · rw [harray hx] at hmem
        obtain ⟨v, hv, hvz⟩ := List.mem_map.mp hmem
        obtain ⟨a, rfl, ha⟩ := mapRef_eq_table hvz
        exact ⟨a, hx.tail (.inl hv), ha⟩
      · rw [hhash hx key] at hkey
        obtain ⟨a, hv, ha⟩ := mapRef_eq_table hkey
        exact ⟨a, hx.tail (.inr ⟨key, hv⟩), ha⟩

theorem good_start (H : Heap) : Good H ⟨H, []⟩ :=
  ⟨Nat.le_refl _, fun _ _ => rfl, fun _ hp => (nomatch hp), List.nodup_nil, List.nodup_nil⟩

theorem tableClone_deep (hash : Bytes → UInt32) (room t : Nat) (H : Heap) :
    tableClone hash room t [.bool true] H =
      (tableCloneRecursive true hash room t ⟨H, []⟩).map fun (clone, s) => .ok (clone, s.heap) := by
  change (tableCloneRecursive true hash room t ⟨H, []⟩).bind _ = _
  cases tableCloneRecursive true hash room t ⟨H, []⟩ <;> rfl

/-- The call copies the graph where the search comes to its end. -/
theorem deepCopies_search (hw : H.WellFormed hash) (ht : t < H.next) (room : Nat) :
    DeepCopies hash room t H ↔ ∃ seen, visitTable H room t [] = some seen := by
  unfold DeepCopies
  rw [tableClone_deep]
  rcases tableCloneRecursive_spec hw room t ⟨H, []⟩ ht (good_start H) with
    ⟨c, s', hrun, hvisit, hg, he, hmem⟩ | ⟨hrun, hvisit⟩
  · refine iff_of_true ⟨c, s'.heap, ?_, hg.kept, cloned s', cloned_eq hg hmem, ?_⟩ ⟨_, hvisit⟩
    · rw [hrun]
      rfl
    · obtain ⟨more, hmore, hcopied⟩ := he.seen
      have hf : Finished hash H s' := by
        intro p hp
        rw [hmore] at hp
        exact (hcopied p hp).2
      exact hf.graphCopy hg (mem_sources hmem)
  · constructor
    · intro ⟨c, H', hcall, _⟩
      rw [hrun] at hcall
      cases hcall
    · intro ⟨seen, hseen⟩
      rw [show visitTable H room t [] = none from hvisit] at hseen
      cases hseen

/-- A deep clone is a copy of the graph exactly where the operand stack has room for the tables that are open
at once. -/
theorem tableClone_iff (hw : H.WellFormed hash) (ht : t < H.next) (room : Nat) :
    DeepCopies hash room t H ↔ ∃ d, Depth t H d ∧ d ≤ room := by
  rw [deepCopies_search hw ht]
  constructor
  · intro ⟨seen, hseen⟩
    obtain ⟨d, hvisits, hd⟩ := DepthFirst.search_iff.mp hseen
    exact ⟨d, ⟨seen, hvisits⟩, hd⟩
  · intro ⟨d, ⟨seen, hvisits⟩, hd⟩
    exact ⟨seen, DepthFirst.search_iff.mpr ⟨d, hvisits, hd⟩⟩

theorem mem_children {a b : Nat} (hw : H.WellFormed hash) (ha : a < H.next) (hb : b ∈ children (H.objects a)) :
    b < H.next := by
  obtain ⟨h, hr⟩ := hw.represents a ha
  rcases List.mem_append.mp hb with harray | hentry
  · obtain ⟨v, hv, hr⟩ := List.mem_filterMap.mp harray
    exact hw.child a ha b (child_of_array hv hr)
  · obtain ⟨e, he, href⟩ := List.mem_filterMap.mp hentry
    exact hw.child a ha b (child_of_entry hr he href)

/-- There is such a depth, at most the number of tables. -/
theorem depth_exists (hw : H.WellFormed hash) (ht : t < H.next) : ∃ d, Depth t H d ∧ d ≤ H.next := by
  obtain ⟨seen, d, hvisits, hd⟩ := @DepthFirst.visits_exists _ (fun a => children (H.objects a)) [t] _
    (Finset.range H.next) (fun a ha b hb => Finset.mem_range.mpr (mem_children hw (Finset.mem_range.mp ha) hb))
    (fun a ha => Finset.mem_range.mpr (List.mem_singleton.mp ha ▸ ht)) []
  have hcard : (DepthFirst.unseen (Finset.range H.next) []).card ≤ H.next := by
    have hle := Finset.card_filter_le (Finset.range H.next) (· ∉ ([] : List Nat))
    rwa [Finset.card_range] at hle
  exact ⟨d, ⟨seen, hvisits⟩, by omega⟩

end Graph

/-- `STACK_MAX` -/
def stackMax : Nat := 256

/-- Table 0 is empty, and every other one holds the one before it. -/
def chain (n : Nat) : Heap where
  objects a := ⟨if a = 0 then initTable else tablePush initTable (.table (a - 1)), none, false⟩
  next := n

namespace Chain

open SampleTable (host)

theorem hashValue_nil {t : Table} (hcount : t.count = 0) (hentries : t.entries = []) (key : Bytes) :
    t.hashValue host.hash key = .nil := by
  have hr : t.Represents host.hash fun _ => none := initTable_represents.of_hash hcount hentries
  rw [hashValue_eq hr]
  rfl

theorem wellFormed_of_arrays {H : Heap}
    (hempty : ∀ a, (H.objects a).table.count = 0 ∧ (H.objects a).table.entries = [])
    (harray : ∀ a, a < H.next → ∀ b, .table b ∈ (H.objects a).table.array → b < H.next) :
    H.WellFormed host.hash := by
  refine ⟨fun a _ => ?_, fun a ha b hb => ?_⟩
  · obtain ⟨hcount, hentries⟩ := hempty a
    exact ⟨_, initTable_represents.of_hash hcount hentries⟩
  · obtain ⟨hcount, hentries⟩ := hempty a
    rcases hb with hmem | ⟨key, hkey⟩
    · exact harray a ha b hmem
    · rw [hashValue_nil hcount hentries] at hkey
      cases hkey

theorem wellFormed (n : Nat) : (chain n).WellFormed host.hash := by
  refine wellFormed_of_arrays (fun a => ?_) fun a ha b hb => ?_
  · cases a <;> exact ⟨rfl, rfl⟩
  · cases a with
    | zero => cases hb
    | succ a =>
      have hlt : a + 1 < n := ha
      have hplaces : ((chain n).objects (a + 1)).table.array = .table a :: List.replicate 7 .nil := rfl
      rw [hplaces] at hb
      rcases List.mem_cons.mp hb with hfirst | hrest
      · cases hfirst
        exact Nat.lt_of_succ_lt hlt
      · cases List.eq_of_mem_replicate hrest

theorem search_none {n room a : Nat} {seen : List Nat} (hroom : room ≤ a) (hseen : ∀ b ∈ seen, a < b) :
    visitTable (chain n) room a seen = none := by
  have hnew : a ∉ seen := fun ha => Nat.lt_irrefl _ (hseen a ha)
  induction room generalizing a seen with
  | zero => exact if_neg hnew
  | succ room ih =>
    obtain ⟨b, rfl⟩ : ∃ b, a = b + 1 := ⟨a - 1, by omega⟩
    have hchildren : children ((chain n).objects (b + 1)) = [b] := rfl
    have hsearch : visitTable (chain n) (room + 1) (b + 1) seen = _ := DepthFirst.search_succ hnew
    rw [hsearch, hchildren, DepthFirst.searchAll_singleton]
    have hseen' : ∀ c ∈ seen ++ [b + 1], b < c := by
      intro c hc
      rcases List.mem_append.mp hc with hold | hlast
      · have := hseen c hold
        omega
      · rw [List.mem_singleton.mp hlast]
        exact Nat.lt_succ_self b
    exact ih (by omega) hseen' fun hb => Nat.lt_irrefl _ (hseen' b hb)

/-- The stack of a thread is too small for a chain of 257 tables. -/
theorem overflows : (chain 257).WellFormed host.hash ∧
    ∀ room, room ≤ stackMax → ¬ DeepCopies host.hash room 256 (chain 257) := by
  refine ⟨wellFormed 257, fun room hroom h => ?_⟩
  obtain ⟨seen, hseen⟩ := (deepCopies_search (wellFormed 257) (Nat.lt_succ_self 256) room).mp h
  have hnone : visitTable (chain 257) room 256 [] = none := search_none hroom fun b hb => nomatch hb
  rw [hnone] at hseen
  cases hseen

/-- A table that holds itself and the table before it. -/
def loop : Heap where
  objects a := ⟨if a = 0 then initTable else tablePush (tablePush initTable (.table 1)) (.table 0), none, false⟩
  next := 2

theorem loop_wellFormed : loop.WellFormed host.hash := by
  refine wellFormed_of_arrays (fun a => ?_) fun a ha b hb => ?_
  · cases a <;> exact ⟨rfl, rfl⟩
  · cases a with
    | zero => cases hb
    | succ a =>
      have hplaces : (loop.objects (a + 1)).table.array = .table 1 :: .table 0 :: List.replicate 6 .nil := rfl
      rw [hplaces] at hb
      rcases List.mem_cons.mp hb with hfirst | hrest
      · cases hfirst
        exact Nat.lt_succ_self 1
      · rcases List.mem_cons.mp hrest with hsecond | hrest
        · cases hsecond
          exact Nat.zero_lt_two
        · cases List.eq_of_mem_replicate hrest

/-- The table that holds itself has a clone that holds itself. -/
theorem loop_copied : DeepCopies host.hash 2 1 loop :=
  (tableClone_iff loop_wellFormed (by decide) 2).mpr
    ⟨2, ⟨[1, 0], .first (by decide) (.again (by decide) (.first (by decide) (.done _) (.done _))) (.done _)⟩,
      Nat.le_refl 2⟩

end Chain

end ToiLang.TableClone
