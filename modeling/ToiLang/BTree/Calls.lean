import ToiLang.BTree.Refuse

namespace ToiLang

open SortedMap

/-- The calls that change a database. -/
inductive BTreeCall
  | put (key value : BTreeAtom)
  | delete (key : BTreeAtom)

namespace BTreeCall

def Valid : BTreeCall → Prop
  | put key value => key.Valid ∧ value.Valid
  | delete key => key.Valid

/-- The call; a delete says whether the key was there. -/
def run : BTreeCall → Io Bool
  | put key value => do
    btreePut key value
    return true
  | delete key => btreeDelete key

/-- The bindings after the call is reported as done. -/
def bindings : BTreeCall → List LeafEntry → List LeafEntry
  | put key value, m => bindEntry key value m
  | delete key, m => unbindEntry key m

end BTreeCall

/-- A run of calls that meet a condition, from the empty database, with the bindings that those of
them make which are reported as done. -/
inductive BTreeRun (ok : BTreeCall → BTreeDb → Prop) : BTreeDb → List LeafEntry → Prop
  | opened : BTreeRun ok emptyDb []
  | done {db db' : BTreeDb} {m : List LeafEntry} {call : BTreeCall} {b : Bool}
      (h : BTreeRun ok db m) (hv : call.Valid) (hok : ok call db) (hr : call.run db = .done b db') :
      BTreeRun ok db' (call.bindings m)
  | failed {db db' : BTreeDb} {m : List LeafEntry} {call : BTreeCall}
      (h : BTreeRun ok db m) (hv : call.Valid) (hok : ok call db) (hr : call.run db = .failed db') :
      BTreeRun ok db' m

variable {db db' : BTreeDb} {key value : BTreeAtom} {pool : Pool} {m : List LeafEntry}

theorem BTreeCall.run_done (hr : btreePut key value db = .done () db') :
    (BTreeCall.put key value).run db = .done true db' := Io.bind_done hr

theorem BTreeCall.run_failed (hr : btreePut key value db = .failed db') :
    (BTreeCall.put key value).run db = .failed db' := Io.bind_failed hr

theorem BTreeRun.put_done {ok : BTreeCall → BTreeDb → Prop} (h : BTreeRun ok db m)
    (hk : key.Valid) (hv : value.Valid) (hok : ok (.put key value) db)
    (hr : btreePut key value db = .done () db') : BTreeRun ok db' (bindEntry key value m) :=
  .done h (show (BTreeCall.put key value).Valid from ⟨hk, hv⟩) hok (BTreeCall.run_done hr)

theorem BTreeRun.put_failed {ok : BTreeCall → BTreeDb → Prop} (h : BTreeRun ok db m)
    (hk : key.Valid) (hv : value.Valid) (hok : ok (.put key value) db)
    (hr : btreePut key value db = .failed db') : BTreeRun ok db' m :=
  .failed h (show (BTreeCall.put key value).Valid from ⟨hk, hv⟩) hok (BTreeCall.run_failed hr)

/-- All pages of the tree that the put makes have room. -/
def BTree.PutHasRoom (key value : BTreeAtom) (t : BTree) (pool : Pool) : Prop :=
  (t.rootPut key value pool).1.Fits

/-- The key is not the last one below a page without keys, and all pages of the tree that the delete
makes have room. -/
def BTree.DeleteHasRoom (key : BTreeAtom) (t : BTree) (pool : Pool) : Prop :=
  ∃ t' found pool', t.rootDelete key pool = some (t', found, pool') ∧ t'.Fits

/-- The call fails, if it does, before it has written or allocated a page. -/
def BTreeCall.Clean (call : BTreeCall) (db : BTreeDb) : Prop :=
  ∀ t pool, db.Represents t pool →
    match call with
    | put key value => pool.HasRoom (t.height + 2) ∧
        (t.PutHasRoom key value pool ∨ LeafRefuses (t.leafOf key) key value)
    | delete key => t.DeleteHasRoom key pool

/-- The call fails, if it does, before it has changed a page of the tree. -/
def BTreeCall.Safe (call : BTreeCall) (db : BTreeDb) : Prop :=
  ∀ t pool, db.Represents t pool →
    match call with
    | put key value => pool.HasRoom (t.height + 2) ∧
        (t.PutHasRoom key value pool ∨ LeafRefuses (t.leafOf key) key value ∨
          LeafLeaks (t.leafOf key) key value)
    | delete key => t.DeleteHasRoom key pool

theorem BTreeCall.Clean.safe {call : BTreeCall} (h : call.Clean db) : call.Safe db := by
  intro t pool hrep
  have hclean := h t pool hrep
  cases call with
  | put key value => exact ⟨hclean.1, hclean.2.imp_right .inl⟩
  | delete key => exact hclean

/-- The database has the bindings in a tree in order, and all its pages have room. -/
structure BTreeDb.Serves (db : BTreeDb) (m : List LeafEntry) (t : BTree) (pool : Pool) : Prop where
  represents : db.Represents t pool
  ordered : t.RootOrdered
  fits : t.Fits
  contents : t.contents = m

theorem emptyDb_represents : emptyDb.Represents (.leaf 1 []) ⟨[], 2, []⟩ := by
  refine ⟨rfl, ⟨(fun e he => nomatch he), ?_⟩, rfl, rfl, fun p => ?_⟩
  · obtain ⟨page, hpage, hload, -⟩ := nodePage_load (n := .leaf 0 []) (fun e he => nomatch he)
      (by decide)
    refine ⟨page, ?_, hload⟩
    cases hpage
    rfl
  · by_cases hp : p = 1
    · subst hp
      rfl
    · have hnot : ¬ (p ≠ 0 ∧ p < 2) := by
        rintro ⟨h0, hlt⟩
        rw [UInt32.lt_iff_toNat_lt] at hlt
        have h0' : p.toNat ≠ 0 := fun h => h0 (UInt32.toNat_inj.mp h)
        have h1' : p.toNat ≠ 1 := fun h => hp (UInt32.toNat_inj.mp h)
        have h2 : (2 : UInt32).toNat = 2 := rfl
        omega
      rw [Pool.room, if_neg hnot]
      simp [BTree.ids, Ne.symm hp]

theorem emptyDb_serves : emptyDb.Serves [] (.leaf 1 []) ⟨[], 2, []⟩ :=
  ⟨emptyDb_represents, ⟨List.Pairwise.nil, (fun e he => nomatch he), (fun e he => nomatch he),
    (fun e he => nomatch he)⟩, (by decide : (NodeData.leaf 0 []).size ≤ 4096), rfl⟩

/-- The outcome of a put that is not undefined. -/
theorem BTreeDb.Serves.put {t : BTree} (h : db.Serves m t pool) (hk : key.Valid)
    (hv : value.Valid) (hsafe : (BTreeCall.put key value).Safe db) :
    (∃ db' t' pool', btreePut key value db = .done () db' ∧
      db'.Serves (bindEntry key value m) t' pool') ∨
    ∃ db' pool', btreePut key value db = .failed db' ∧ db'.Serves m t pool' := by
  obtain ⟨hrep, ho, hf, rfl⟩ := h
  obtain ⟨hroom, hput | href | hleak⟩ := hsafe t pool hrep
  · obtain ⟨db', hdone, hrep'⟩ := (btreePut_spec hrep hk hv hroom).1 hput
    obtain ⟨ho', hcontents⟩ := BTree.rootPut_ordered ho hk hv pool
    exact .inl ⟨db', _, _, hdone, hrep', ho', hput, hcontents⟩
  · exact .inr ⟨db, pool, btreePut_refuses hrep href, hrep, ho, hf, rfl⟩
  · obtain ⟨db', hfail, hrep'⟩ := btreePut_leaks hrep hleak hk hv
      (show pool.count.toNat + 1 < _ by unfold Pool.HasRoom at hroom; omega)
    exact .inr ⟨db', _, hfail, hrep', ho, hf, rfl⟩

theorem BTreeDb.Serves.delete {t : BTree} (h : db.Serves m t pool) (hk : key.Valid)
    (hsafe : (BTreeCall.delete key).Safe db) :
    ∃ found db' t' pool', btreeDelete key db = .done found db' ∧
      db'.Serves (unbindEntry key m) t' pool' ∧ (found = true ↔ Present key m) := by
  obtain ⟨hrep, ho, hf, rfl⟩ := h
  obtain ⟨t', found, pool', hd, hf'⟩ := hsafe t pool hrep
  obtain ⟨db', hdone, hrep'⟩ := (btreeDelete_spec hrep ho hk hf).1 t' found pool' hd hf'
  obtain ⟨ho', hcontents, hfound⟩ := BTree.rootDelete_ordered ho hk hd
  exact ⟨found, db', t', pool', hdone, ⟨hrep', ho', hf', hcontents⟩, hfound⟩

theorem BTreeCall.run_put_done {b : Bool} (hr : (BTreeCall.put key value).run db = .done b db') :
    btreePut key value db = .done () db' := by
  cases hp : btreePut key value db with
  | done u db₁ =>
    have h := (Io.bind_done hp).symm.trans hr
    cases h
    rfl
  | failed db₁ => cases (Io.bind_failed hp).symm.trans hr
  | undefined => cases (Io.bind_undefined hp).symm.trans hr

theorem BTreeCall.run_put_failed (hr : (BTreeCall.put key value).run db = .failed db') :
    btreePut key value db = .failed db' := by
  cases hp : btreePut key value db with
  | done u db₁ => cases (Io.bind_done hp).symm.trans hr
  | failed db₁ =>
    have h := (Io.bind_failed hp).symm.trans hr
    cases h
    rfl
  | undefined => cases (Io.bind_undefined hp).symm.trans hr

theorem BTreeDb.Serves.step {t : BTree} {call : BTreeCall} (h : db.Serves m t pool)
    (hv : call.Valid) (hsafe : call.Safe db) :
    (∀ b db', call.run db = .done b db' → ∃ t' pool', db'.Serves (call.bindings m) t' pool') ∧
    (∀ db', call.run db = .failed db' → ∃ t' pool', db'.Serves m t' pool') := by
  cases call with
  | put key value =>
    obtain ⟨db₁, t₁, pool₁, hdone, hserves⟩ | ⟨db₁, pool₁, hfail, hserves⟩ := h.put hv.1 hv.2 hsafe
    · constructor
      · intro b db' hr
        cases hdone.symm.trans (BTreeCall.run_put_done hr)
        exact ⟨t₁, pool₁, hserves⟩
      · intro db' hr
        cases hdone.symm.trans (BTreeCall.run_put_failed hr)
    · constructor
      · intro b db' hr
        cases hfail.symm.trans (BTreeCall.run_put_done hr)
      · intro db' hr
        cases hfail.symm.trans (BTreeCall.run_put_failed hr)
        exact ⟨t, pool₁, hserves⟩
  | delete key =>
    obtain ⟨found, db₁, t₁, pool₁, hdone, hserves, -⟩ := h.delete hv hsafe
    constructor
    · intro b db' hr
      cases hdone.symm.trans hr
      exact ⟨t₁, pool₁, hserves⟩
    · intro db' hr
      cases hdone.symm.trans hr

theorem BTreeRun.serves (h : BTreeRun BTreeCall.Safe db m) : ∃ t pool, db.Serves m t pool := by
  induction h with
  | opened => exact ⟨_, _, emptyDb_serves⟩
  | done _ hv hok hr ih =>
    obtain ⟨t, pool, hserves⟩ := ih
    exact (hserves.step hv hok).1 _ _ hr
  | failed _ hv hok hr ih =>
    obtain ⟨t, pool, hserves⟩ := ih
    exact (hserves.step hv hok).2 _ hr

namespace SampleTree

def letter (c : UInt8) : BTreeAtom := .string [c]

def text (n : Nat) : BTreeAtom := .string (List.replicate n 0)

def binding (c : UInt8) (n : Nat) : LeafEntry := ⟨letter c, text n⟩

theorem letter_valid (c : UInt8) : (letter c).Valid := show 1 < 2 ^ 31 by decide

theorem text_valid {n : Nat} (h : n < 2 ^ 31) : (text n).Valid := by
  show (List.replicate n (0 : UInt8)).length < 2 ^ 31
  rwa [List.length_replicate]

@[simp] theorem binding_size (c : UInt8) (n : Nat) : leafRecordSize (binding c n) = 11 + n := by
  simp only [leafRecordSize, binding, letter, text, atomEncodedSize, List.length_replicate,
    List.length_singleton]
  omega

theorem size_nil : (NodeData.leaf 0 []).size = 16 := rfl

theorem size_cons (c : UInt8) (n : Nat) (es : List LeafEntry) :
    (NodeData.leaf 0 (binding c n :: es)).size = 13 + n + (NodeData.leaf 0 es).size := by
  simp only [NodeData.size, List.length_cons, List.map_cons, List.sum_cons, binding_size]
  omega

theorem letter_lt {c d : UInt8} (h : atomCompare (letter c) (letter d) = .lt) :
    (letter c).rank < (letter d).rank := (atomCompare_lt (letter_valid c) (letter_valid d)).mp h

theorem letter_slot_nil (c : UInt8) : leafFindSlot [] (letter c) = (0, false) := rfl

/-- The places of the letters z and y. -/
theorem letter_slot (n k : Nat) :
    leafFindSlot [binding 97 n] (letter 122) = (1, false) ∧
      leafFindSlot [binding 97 n, binding 122 k] (letter 121) = (1, false) := by
  have h₁ : atomCompare (letter 122) (letter 97) = .gt := by decide
  have h₂ : atomCompare (letter 121) (letter 97) = .gt := by decide
  have h₃ : atomCompare (letter 121) (letter 122) = .lt := by decide
  simp [leafFindSlot, leafFindLoop, binding, h₁, h₂, h₃]

theorem lookup_z (n : Nat) (k : Option Nat) :
    lookup (letter 122) (binding 97 n :: (k.map (binding 122)).toList) = k.map text := by
  have hne := (letter_lt (c := 97) (d := 122) (by decide)).ne
  cases k <;> simp [lookup, SortedMap.find, LeafEntry.rank, binding, hne]

theorem one_ordered {n : Nat} (h : n < 2 ^ 31) : (BTree.leaf 1 [binding 97 n]).RootOrdered := by
  refine ⟨List.pairwise_singleton _ _, fun e he => ?_, fun _ _ => above_none, fun _ _ => below_none⟩
  rw [List.mem_singleton.mp he]
  exact ⟨letter_valid 97, text_valid h⟩

theorem two_ordered {n k : Nat} (h : n < 2 ^ 31) (h' : k < 2 ^ 31) :
    (BTree.leaf 1 [binding 97 n, binding 122 k]).RootOrdered := by
  refine ⟨List.pairwise_pair.mpr (letter_lt (by decide)), fun e he => ?_, fun _ _ => above_none,
    fun _ _ => below_none⟩
  rcases List.mem_cons.mp he with rfl | he
  · exact ⟨letter_valid 97, text_valid h⟩
  · rw [List.mem_singleton.mp he]
    exact ⟨letter_valid 122, text_valid h'⟩

theorem hasRoom_two : Pool.HasRoom ⟨[], 2, []⟩ 2 := by decide

/-- A run with two keys, which both are on the first page. -/
theorem two_keys {n k : Nat} (h : n + k ≤ 4000) : ∃ db,
    BTreeRun (fun _ _ => True) db [binding 97 n, binding 122 k] ∧
      db.Represents (.leaf 1 [binding 97 n, binding 122 k]) ⟨[], 2, []⟩ := by
  obtain ⟨db₁, hdone₁, hrep₁⟩ := btreePut_leaf_done emptyDb_represents (letter_slot_nil 97)
    (letter_valid 97) (text_valid (n := n) (by omega)) hasRoom_two (by
      show 16 + 1 * 2 + (leafRecordSize (binding 97 n) + 0) ≤ 4096
      rw [binding_size]
      omega)
  obtain ⟨db₂, hdone₂, hrep₂⟩ := btreePut_leaf_done hrep₁ (letter_slot n k).1 (letter_valid 122)
    (text_valid (n := k) (by omega)) hasRoom_two (by
      show 16 + 2 * 2 + (leafRecordSize (binding 97 n) + (leafRecordSize (binding 122 k) + 0)) ≤ 4096
      rw [binding_size, binding_size]
      omega)
  have hopened : BTreeRun (fun _ _ => True) emptyDb [] := .opened
  have hrun₁ := hopened.put_done (letter_valid 97) (text_valid (by omega)) trivial hdone₁
  have hrun₂ := hrun₁.put_done (letter_valid 122) (text_valid (by omega)) trivial hdone₂
  refine ⟨db₂, ?_, hrep₂⟩
  have hm₁ : bindEntry (letter 97) (text n) ([] ++ []) = [binding 97 n] :=
    bindEntry_absent (fun a ha => nomatch ha) (fun a ha => nomatch ha)
  have hm₂ : bindEntry (letter 122) (text k) ([binding 97 n] ++ []) =
      [binding 97 n, binding 122 k] := by
    refine bindEntry_absent (fun a ha => ?_) (fun a ha => nomatch ha)
    rw [List.mem_singleton.mp ha]
    exact letter_lt (by decide)
  simp only [List.append_nil] at hrun₂ hm₁ hm₂
  rwa [hm₁, hm₂] at hrun₂

/-- A run of one put, which has room. -/
theorem one_key : ∃ db, BTreeRun BTreeCall.Safe db [binding 97 5] := by
  have hsize : (NodeData.leaf 0 [binding 97 5]).size ≤ 4096 := by simp [NodeData.size]
  obtain ⟨db, hdone, -⟩ := btreePut_leaf_done emptyDb_represents (letter_slot_nil 97)
    (letter_valid 97) (text_valid (n := 5) (by decide)) hasRoom_two hsize
  have hsafe : (BTreeCall.put (letter 97) (text 5)).Safe emptyDb := by
    intro t pool hrep
    obtain ⟨rfl, hcount⟩ := hrep.unique emptyDb_represents
    refine ⟨?_, .inl ?_⟩
    · unfold Pool.HasRoom
      rw [hcount]
      decide
    · unfold BTree.PutHasRoom
      rw [BTree.rootPut_leaf (letter_slot_nil 97) hsize]
      exact hsize
  have hrun := BTreeRun.opened.put_done (letter_valid 97) (text_valid (by decide)) hsafe hdone
  have hm : bindEntry (letter 97) (text 5) ([] ++ []) = [binding 97 5] :=
    bindEntry_absent (fun a ha => nomatch ha) (fun a ha => nomatch ha)
  rw [← List.append_nil [], hm] at hrun
  exact ⟨db, hrun⟩

/-- A record without room on an empty page is refused. -/
theorem long_value_refuses {n : Nat} (h : 4096 < n) :
    LeafRefuses ((BTree.leaf 1 []).leafOf (letter 97)) (letter 97) (text n) := by
  show 4096 < (NodeData.leaf 0 [binding 97 n]).size ∧
    (nodeFitsLeaf [binding 97 n] = true ∨ [binding 97 n].length / 2 = 0)
  refine ⟨?_, .inr (Nat.div_eq_of_lt Nat.one_lt_two)⟩
  rw [size_cons, size_nil]
  omega

theorem long_value_clean : (BTreeCall.put (letter 97) (text 5000)).Clean emptyDb := by
  intro t pool hrep
  obtain ⟨rfl, hcount⟩ := hrep.unique emptyDb_represents
  refine ⟨?_, .inr (long_value_refuses (by decide))⟩
  unfold Pool.HasRoom
  rw [hcount]
  decide

/-- A put between the two keys is cut behind the first; the second half has no room. -/
theorem between_fails {db : BTreeDb}
    (h : db.Represents (.leaf 1 [binding 97 100, binding 122 2100]) ⟨[], 2, []⟩) :
    ∃ db' pool', btreePut (letter 121) (text 2000) db = .failed db' ∧
      db'.Represents (.leaf 1 [binding 97 100]) pool' := by
  have hroom : Pool.HasRoom ⟨[], 2, []⟩ 1 := by decide
  obtain ⟨db', hfail, hrep⟩ := btreePut_leaf_failed h (letter_slot _ _).2 (letter_valid 121)
    (text_valid (n := 2000) (by decide)) hroom (by
      show fitsFrom 22 [leafRecordSize (binding 97 100), leafRecordSize (binding 121 2000),
        leafRecordSize (binding 122 2100)] = false
      rw [binding_size, binding_size, binding_size]
      rfl)
    (by decide) (by
      show (NodeData.leaf 0 [binding 97 100]).size ≤ 4096
      rw [size_cons, size_nil]
      decide) (by
      show 4096 < (NodeData.leaf 0 [binding 121 2000, binding 122 2100]).size
      rw [size_cons, size_cons, size_nil]
      decide)
  exact ⟨db', _, hfail, hrep⟩

end SampleTree

/-- In a run whose failing puts fail before they change a page of the tree, and whose deletes have
room for the keys that they put in the place of others, the tree serves the bindings: by key, by
range, and when one is deleted. -/
theorem btree_serves_bindings (h : BTreeRun BTreeCall.Safe db m) :
    Sorted LeafEntry.rank m ∧
    (∀ key, key.Valid → btreeGetValue key db = .done (lookup key m) db) ∧
    (∀ key, key.Valid → (BTreeCall.delete key).Safe db →
      ∃ found db', btreeDelete key db = .done found db' ∧ (found = true ↔ Present key m)) ∧
    (∀ (min max : Option BTreeAtom) (limit : Int), (∀ k ∈ max, k.Valid) →
      btreeCollectRange min max limit db =
        .done (takeLimit limit 0 (m.filter (inRange min max))) db) := by
  obtain ⟨t, pool, hserves⟩ := h.serves
  have hrep := hserves.represents
  have ho := hserves.ordered
  have hm := hserves.contents
  refine ⟨hm ▸ ho.contents.sorted, fun key hk => ?_, fun key hk hsafe => ?_,
    fun min max limit hmax => ?_⟩
  · rw [← hm]
    exact btreeGetValue_spec hrep ho hk
  · obtain ⟨found, db', -, -, hdone, -, hfound⟩ := hserves.delete hk hsafe
    exact ⟨found, db', hdone, hfound⟩
  · rw [← hm]
    exact btreeCollectRange_spec hrep ho hmax limit

/-- Without the condition: y is put between a and z, the page is cut behind a, and z is lost. -/
theorem SampleTree.binding_lost : ∃ db m, BTreeRun (fun _ _ => True) db m ∧
    lookup (letter 122) m = some (text 2100) ∧ btreeGetValue (letter 122) db = .done none db := by
  obtain ⟨db, hrun, hrep⟩ := two_keys (n := 100) (k := 2100) (by decide)
  obtain ⟨db', pool', hfail, hrep'⟩ := between_fails hrep
  have hrun' := hrun.put_failed (letter_valid 121) (text_valid (by decide)) trivial hfail
  refine ⟨db', _, hrun', lookup_z _ (some 2100), ?_⟩
  rw [btreeGetValue_spec hrep' (one_ordered (by decide)) (letter_valid 122)]
  exact congrArg (IoResult.done · db') (lookup_z _ none)

/-- One put from the empty database, and what is read back. -/
theorem SampleTree.serves_one : ∃ db, BTreeRun BTreeCall.Safe db [binding 97 5] ∧
    btreeGetValue (letter 97) db = .done (some (text 5)) db := by
  obtain ⟨db, hrun⟩ := one_key
  refine ⟨db, hrun, ?_⟩
  rw [(btree_serves_bindings hrun).2.1 (letter 97) (letter_valid 97)]
  simp [lookup, SortedMap.find, LeafEntry.rank, binding]

/-- A call that fails in such a run, before it has written or allocated a page: each key reads back
as before, and whatever is done next does what it would have done before the call. -/
theorem failed_call_leaves_database (h : BTreeRun BTreeCall.Safe db m) {call : BTreeCall}
    (hv : call.Valid) (hclean : call.Clean db) (hr : call.run db = .failed db') :
    (∀ key, key.Valid → btreeGetValue key db = .done (lookup key m) db ∧
      btreeGetValue key db' = .done (lookup key m) db') ∧
    ∀ (α : Type) (x : Io α), x db' = x db := by
  obtain ⟨t, pool, hserves⟩ := h.serves
  have heq : db' = db := by
    cases call with
    | put key value =>
      have hr := BTreeCall.run_put_failed hr
      obtain ⟨hroom, hput | href⟩ := hclean t pool hserves.represents
      · obtain ⟨db₁, hdone, -⟩ := (btreePut_spec hserves.represents hv.1 hv.2 hroom).1 hput
        cases hdone.symm.trans hr
      · cases (btreePut_refuses hserves.represents href).symm.trans hr
        rfl
    | delete key =>
      obtain ⟨found, db₁, -, -, hdone, -, -⟩ := hserves.delete hv hclean.safe
      cases hdone.symm.trans hr
  subst heq
  have hget := (btree_serves_bindings h).2.1
  exact ⟨fun key hk => ⟨hget key hk, hget key hk⟩, fun _ _ => rfl⟩

/-- Without the condition: z reads back before the put of y, which fails, and not after it. -/
theorem SampleTree.key_lost_by_failed_call : ∃ db db' m, BTreeRun (fun _ _ => True) db m ∧
    (BTreeCall.put (letter 121) (text 2000)).run db = .failed db' ∧
    btreeGetValue (letter 122) db = .done (some (text 2100)) db ∧
    btreeGetValue (letter 122) db' = .done none db' := by
  obtain ⟨db, hrun, hrep⟩ := two_keys (n := 100) (k := 2100) (by decide)
  obtain ⟨db', pool', hfail, hrep'⟩ := between_fails hrep
  refine ⟨db, db', _, hrun, BTreeCall.run_failed hfail, ?_, ?_⟩
  · rw [btreeGetValue_spec hrep (two_ordered (by decide) (by decide)) (letter_valid 122)]
    exact congrArg (IoResult.done · db) (lookup_z _ (some 2100))
  · rw [btreeGetValue_spec hrep' (one_ordered (by decide)) (letter_valid 122)]
    exact congrArg (IoResult.done · db') (lookup_z _ none)

/-- A put of a value that is longer than a page. -/
theorem SampleTree.long_value_refused : ∃ db', (BTreeCall.put (letter 97) (text 5000)).run emptyDb =
    .failed db' ∧ ∀ (α : Type) (x : Io α), x db' = x emptyDb := by
  have hvalid : (BTreeCall.put (letter 97) (text 5000)).Valid :=
    ⟨letter_valid 97, text_valid (by decide)⟩
  have hfail : (BTreeCall.put (letter 97) (text 5000)).run emptyDb = .failed emptyDb :=
    BTreeCall.run_failed (btreePut_refuses emptyDb_represents (long_value_refuses (by decide)))
  exact ⟨emptyDb, hfail, (failed_call_leaves_database .opened hvalid long_value_clean hfail).2⟩

end ToiLang
