import ToiLang.Binary
import ToiLang.StructRoundTrip
import ToiLang.TableIterate

namespace ToiLang

namespace Binary

section Monad

variable {α β : Type} {r r' : Reader} {a : α}

theorem bind_ok {m : Unpack α} {f : α → Unpack β} (h : m r = some (.ok (a, r'))) :
    (m >>= f) r = f a r' := by
  simp only [bind, StateT.bind, ExceptT.bind, ExceptT.mk, h, ExceptT.bindCont, Option.bind]

theorem read_ok (bytes rest : Bytes) (H : TableHeap) :
    read bytes.length ⟨bytes ++ rest, H⟩ = some (.ok (bytes, ⟨rest, H⟩)) := by
  have h : ¬ (bytes ++ rest).length < bytes.length := by simp
  unfold read
  rw [bind_ok (a := ⟨bytes ++ rest, H⟩) rfl]
  simp only [if_neg h, List.drop_left, List.take_left]
  rfl

theorem readU32_ok {n : Nat} (hn : n < 2 ^ 32) (rest : Bytes) (H : TableHeap) :
    readU32 ⟨writeU32 n ++ rest, H⟩ = some (.ok (n, ⟨rest, H⟩)) := by
  have hread := read_ok (writeU32 n) rest H
  have hlen : (writeU32 n).length = 4 := leBytes_length 4 n
  have hval : leValue 4 (writeU32 n) = n := by
    have h := leValue_leBytes 4 n []
    rw [List.append_nil] at h
    rw [writeU32, h]
    omega
  rw [hlen] at hread
  unfold readU32
  rw [bind_ok hread, hval]
  rfl

theorem readF64_ok (x : Double) (rest : Bytes) (H : TableHeap) :
    readF64 ⟨writeF64 x ++ rest, H⟩ = some (.ok (x, ⟨rest, H⟩)) := by
  have hread := read_ok (writeF64 x) rest H
  have hlen : (writeF64 x).length = 8 := leBytes_length 8 x.toNat
  have hlt := x.toNat_lt
  have hval : leValue 8 (writeF64 x) = x.toNat := by
    have h := leValue_leBytes 8 x.toNat []
    rw [List.append_nil] at h
    rw [writeF64, h]
    omega
  rw [hlen] at hread
  unfold readF64
  rw [bind_ok hread, hval, UInt64.ofNat_toNat]
  rfl

theorem readU8_ok (c : UInt8) (rest : Bytes) (H : TableHeap) :
    readU8 ⟨c :: rest, H⟩ = some (.ok (c, ⟨rest, H⟩)) := by
  have hread : read 1 ⟨c :: rest, H⟩ = _ := read_ok [c] rest H
  unfold readU8
  rw [bind_ok hread]
  rfl

end Monad

/-- The keys of a table as values. -/
def keyId : Value → Option KeyId
  | .string s => some (.string s)
  | .number x => some (.number x)
  | _ => none

/-- The elements in front of the first hole. -/
def arrayItems (i : Nat) : List Value → List (KeyId × Value)
  | [] => []
  | v :: vs => if v = .nil then [] else (.number (Double.ofNat i), v) :: arrayItems (i + 1) vs

/-- The key that the packer gives an entry that has a value. -/
def entryItem (entry : Entry) : Option (KeyId × Value) :=
  if entry.value = .nil then none
  else ((entry.key.bind keyFromEntry).bind keyId).map fun k => (k, entry.value)

/-- What the packer comes to in a table, in its order. -/
def items (t : Table) : List (KeyId × Value) :=
  arrayItems 1 t.array ++ t.entries.filterMap entryItem

def record (m : KeyId → Value) (item : KeyId × Value) (k : KeyId) : Value :=
  if k.label = item.1.label then item.2 else m k

/-- The last value that the packer comes to for a key. -/
def lastItem (t : Table) : KeyId → Value := (items t).foldl record fun _ => .nil

/-- The tables that a value leads to, by all that they hold. -/
inductive Reaches (tables : Nat → Table) : Value → Nat → Prop
  | table (a : Nat) : Reaches tables (.table a) a
  | element {v : Value} {a b : Nat} (h : Reaches tables v a) (hb : .table b ∈ (tables a).array) :
      Reaches tables v b
  | entry {v : Value} {a b : Nat} (h : Reaches tables v a)
      (hb : .table b ∈ (tables a).entries.map Entry.value) : Reaches tables v b

/-- Nil, a boolean, a number, a string or a table. -/
def Simple (v : Value) : Prop :=
  isSerializable v = true ∧ ∀ s, v = .string s → s.length < 2 ^ 31

/-- A table of such values; its sizes are those of an `int`. -/
structure SimpleTable (t : Table) : Prop where
  elements : ∀ v ∈ t.array, Simple v
  entries : ∀ e ∈ t.entries, Simple e.value
  keys : ∀ e ∈ t.entries, ∀ s, e.key = some s → s.length < 2 ^ 31
  arraySize : t.array.length < 2 ^ 31
  capacity : t.entries.length < 2 ^ 31

/-- A value that consists of nil, booleans, numbers, strings and tables. -/
def Data (tables : Nat → Table) (v : Value) : Prop :=
  Simple v ∧ ∀ a, Reaches tables v a → SimpleTable (tables a)

theorem Reaches.of_element {tables : Nat → Table} {a b : Nat} {v : Value}
    (h : Reaches tables v b) (hv : v ∈ (tables a).array) : Reaches tables (.table a) b := by
  induction h with
  | table c => exact .element (.table a) hv
  | element _ hb ih => exact .element (ih hv) hb
  | entry _ hb ih => exact .entry (ih hv) hb

theorem Reaches.of_entry {tables : Nat → Table} {a b : Nat} {v : Value}
    (h : Reaches tables v b) (hv : v ∈ (tables a).entries.map Entry.value) :
    Reaches tables (.table a) b := by
  induction h with
  | table c => exact .entry (.table a) hv
  | element _ hb ih => exact .element (ih hv) hb
  | entry _ hb ih => exact .entry (ih hv) hb

theorem Data.element {tables : Nat → Table} {a : Nat} {v : Value} (h : Data tables (.table a))
    (hv : v ∈ (tables a).array) : Data tables v :=
  ⟨(h.2 a (.table a)).elements v hv, fun b hb => h.2 b (hb.of_element hv)⟩

theorem Data.entry {tables : Nat → Table} {a : Nat} {e : Entry} (h : Data tables (.table a))
    (he : e ∈ (tables a).entries) : Data tables e.value :=
  ⟨(h.2 a (.table a)).entries e he, fun b hb => h.2 b (hb.of_entry (List.mem_map_of_mem he))⟩

theorem not_reaches {tables : Nat → Table} {v : Value} {a : Nat} (hv : v.ref = none) :
    ¬ Reaches tables v a := by
  intro h
  induction h with
  | table => cases hv
  | element _ _ ih => exact ih hv
  | entry _ _ ih => exact ih hv

theorem Data.leaf {tables : Nat → Table} {v : Value} (h : Simple v) (hv : v.ref = none) :
    Data tables v :=
  ⟨h, fun _ ha => absurd ha (not_reaches hv)⟩

section Pairs

/-- A value and the one that is made of it. -/
def Remade (S : Nat → KeyId → Value) (G : Nat → KeyId → Value) (v w : Value) : Prop :=
  Alike Value.ref S G v w

theorem remade_framed (S : Nat → KeyId → Value) : Framed (Remade S) :=
  fun _ _ _ _ _ _ h hw hup heq => Alike.frame h hw hup heq

variable {hash : Bytes → UInt32} {tables : Nat → Table} {t : Table} {h : Bytes → Option Value}

theorem setString_spec (hr : t.Represents hash h) {k : KeyId} (hk : k.Proper)
    (hnil : t.arrayValue k = .nil) (v : Value) :
    ∃ t' h', setString hash k.label.2 v t = some t' ∧ t'.Represents hash h' ∧
      ∀ k', t'.contents hash k' = if k'.label = k.label then v else t.contents hash k' := by
  obtain ⟨t', hset, hr', -, harray, -⟩ := tableSet_spec hr k.label.2 v
  refine ⟨t', _, ?_, hr', contents_hash_write hr hk hr' harray hnil⟩
  unfold setString
  rw [hset]
  rfl

theorem setNumberKey_spec (hr : t.Represents hash h) (x : Double) {v : Value} (hv : v ≠ .nil) :
    ∃ t' h', setNumberKey hash x v t = some t' ∧ t'.Represents hash h' ∧
      ∀ k', t'.contents hash k' =
        if k'.label = (KeyId.number x).label then v else t.contents hash k' := by
  unfold setNumberKey
  cases hint : x.int? with
  | none =>
    have hnil : t.arrayValue (.number x) = .nil := by
      unfold Table.arrayValue KeyId.place
      simp only [hint]
    exact setString_spec (k := .number x) hr trivial hnil v
  | some idx =>
    rw [Option.bind_some]
    cases htakes : t.takes idx with
    | true =>
      obtain ⟨t', hset, hcount, hentries, -, hslot⟩ := tableSetArray_takes v htakes
      have hplace : (KeyId.number x).place = some (idx - 1).toNat := by
        unfold KeyId.place
        simp only [hint]
        exact if_pos (of_decide_eq_true htakes).1
      have hr' := hr.of_hash hcount hentries
      rw [hset]
      exact ⟨t', h, rfl, hr', contents_array_write hr hr' hplace hv hslot⟩
    | false =>
      have hnil : t.arrayValue (.number x) = .nil := by
        unfold Table.arrayValue KeyId.place
        simp only [hint]
        by_cases h1 : 1 ≤ idx
        · rw [if_pos h1]
          by_contra hne
          rw [takes_of_slot h1 hne] at htakes
          cases htakes
        · rw [if_neg h1]
      rw [tableSetArray_leaves v htakes]
      exact setString_spec (k := .number x) hr trivial hnil v

theorem keyFromEntry_string {key s : Bytes} (h : keyFromEntry key = some (.string s)) :
    s = key ∧ numberKey? s = none := by
  unfold keyFromEntry at h
  split at h
  next text =>
    dsimp only at h
    split at h
    next => cases h
    next => cases h
  next hne =>
    cases h
    refine ⟨rfl, ?_⟩
    unfold numberKey?
    split
    next text => exact absurd rfl (hne text)
    next => rfl

theorem setEntry_spec (hr : t.Represents hash h) {key : Bytes} {kv v : Value} {k : KeyId}
    (hkey : keyFromEntry key = some kv) (hk : keyId kv = some k) (hv : v ≠ .nil) :
    ∃ t' h', setEntry hash kv v t = some t' ∧ t'.Represents hash h' ∧
      ∀ k', t'.contents hash k' = if k'.label = k.label then v else t.contents hash k' := by
  cases kv with
  | string s =>
    cases hk
    exact setString_spec (k := .string s) hr (keyFromEntry_string hkey).2 rfl v
  | number x =>
    cases hk
    exact setNumberKey_spec hr x hv
  | _ => cases hk

theorem setElement_spec (hr : t.Represents hash h) {i : Nat} {v : Value} (h1 : 1 ≤ i)
    (hi : i < 2 ^ 31) (hmax : t.arrayMax + 1 = i) (hv : v ≠ .nil) :
    ∃ t' h', setElement i v t = some t' ∧ t'.Represents hash h' ∧ t'.arrayMax = i ∧
      ∀ k', t'.contents hash k' =
        if k'.label = (KeyId.number (Double.ofNat i)).label then v else t.contents hash k' := by
  have hint : toInt i = i := if_pos hi
  have htakes : t.takes i = true := decide_eq_true ⟨by omega, .inl (by omega)⟩
  obtain ⟨t', hset, hcount, hentries, -, hslot⟩ := tableSetArray_takes v htakes
  have hplace : (KeyId.number (Double.ofNat i)).place = some (i - 1) := by
    have h := place_ofNat (i := i - 1) (by omega)
    rwa [Nat.sub_add_cancel h1] at h
  have hr' := hr.of_hash hcount hentries
  refine ⟨t', h, ?_, hr', ?_, contents_array_write hr hr' hplace hv fun j => ?_⟩
  · unfold setElement
    rw [if_pos (show 0 < i from h1), hint, hset]
    rfl
  · rw [arrayMax_set hv hset]
    omega
  · rw [hslot j]
    congr 1
    rw [show ((i : Int) - 1).toNat = i - 1 by omega]

theorem modifyTable_ok {a : Nat} {f : Table → Option Table} {r : Reader} {t' : Table}
    (hf : f (r.heap.tables a) = some t') :
    modifyTable a f r = some (.ok ((), { r with heap := r.heap.set a t' })) := by
  unfold modifyTable
  rw [hf]
  rfl

/-- A reader reads back what a writer writes of a value. -/
def ReadsBack (hash : Bytes → UInt32) (tables : Nat → Table) (S : Nat → KeyId → Value)
    (serialize : Value → Option Bytes) (deserialize : Unpack Value) : Prop :=
  ∀ v bytes, Data tables v → serialize v = some bytes → ∀ rest H, ∃ w H',
    deserialize ⟨bytes ++ rest, H⟩ = some (.ok (w, ⟨rest, H'⟩)) ∧ Made hash (Remade S) H H' v w

variable {S : Nat → KeyId → Value} {serialize : Value → Option Bytes}
  {deserialize : Unpack Value} {H₀ H : TableHeap} {m : KeyId → Value}

theorem Remade.ne_nil {G : Nat → KeyId → Value} {v w : Value} (h : Remade S G v w) (hv : v ≠ .nil) :
    w ≠ .nil := by
  rintro rfl
  exact hv (Alike.eq_of_leaf_right h rfl)

theorem deserializeArray_spec (hback : ReadsBack hash tables S serialize deserialize)
    {vs : List Value} {i count : Nat} {bytes : Bytes} (hs : serializeArray serialize i vs = some (count, bytes))
    (hdata : ∀ v ∈ vs, Data tables v) (h1 : 1 ≤ i) (hi : i + vs.length ≤ 2 ^ 31)
    (hf : Filled hash (Remade S) H₀ H m) (hmax : (H.tables H₀.next).arrayMax + 1 = i) (rest : Bytes) :
    ∃ H', deserializeArray deserialize H₀.next count ⟨bytes ++ rest, H⟩ =
        some (.ok ((), ⟨rest, H'⟩)) ∧
      Filled hash (Remade S) H₀ H' ((arrayItems i vs).foldl record m) := by
  induction vs generalizing i count bytes H m with
  | nil =>
    cases hs
    exact ⟨H, rfl, hf⟩
  | cons v vs ih =>
    have hv := hdata v List.mem_cons_self
    unfold serializeArray at hs
    unfold arrayItems
    by_cases hnil : v = .nil
    · rw [if_pos hnil] at hs ⊢
      cases hs
      exact ⟨H, rfl, hf⟩
    · rw [if_neg hnil, hv.1.1] at hs
      rw [if_neg hnil]
      simp only [Bool.not_true, Bool.false_eq_true, ↓reduceIte] at hs
      obtain ⟨b, hb, hs⟩ := Option.bind_eq_some_iff.mp hs
      obtain ⟨⟨c, more⟩, hmore, hs⟩ := Option.bind_eq_some_iff.mp hs
      cases hs
      rw [List.length_cons] at hi
      obtain ⟨w, H', hread, hmade⟩ := hback v b hv hb (more ++ rest) H
      have htable : H'.tables H₀.next = H.tables H₀.next := hmade.frame _ hf.grows
      obtain ⟨h, hr⟩ := hf.sound.represents _ (Nat.le_refl _) hf.grows
      rw [← htable] at hr hmax
      obtain ⟨t', h', hset, hr', hmax', hcontents⟩ := setElement_spec hr h1 (by omega) hmax
        (hmade.stands.ne_nil hnil)
      rw [htable] at hcontents
      obtain ⟨H'', hrun, hfilled⟩ := ih hmore (fun u hu => hdata u (List.mem_cons_of_mem _ hu))
        (by omega) (by omega) (hf.write (remade_framed S) hmade hr' hcontents)
        (by rw [TableHeap.set_self, hmax'])
      refine ⟨H'', ?_, hfilled⟩
      rw [List.append_assoc, List.append_assoc]
      unfold deserializeArray
      rw [bind_ok (readU32_ok (by omega) _ H), bind_ok hread, bind_ok (modifyTable_ok hset)]
      exact hrun

/-- A key of an entry is a string or a number, and is read back as it is. -/
theorem keyFromEntry_keyId {key : Option Bytes} {kv : Value} (h : key.bind keyFromEntry = some kv)
    (hkey : ∀ s, key = some s → s.length < 2 ^ 31) :
    ∃ k, keyId kv = some k ∧ kv.ref = none ∧ Simple kv := by
  obtain ⟨s, hs, h⟩ := Option.bind_eq_some_iff.mp h
  have hlen := hkey s hs
  unfold keyFromEntry at h
  split at h
  next text =>
    dsimp only at h
    split at h
    next =>
      cases h
      exact ⟨_, rfl, rfl, rfl, by rintro _ ⟨⟩⟩
    next => cases h
  next =>
    cases h
    refine ⟨_, rfl, rfl, rfl, fun s' hs' => ?_⟩
    cases hs'
    exact hlen

theorem deserializeHash_spec (hback : ReadsBack hash tables S serialize deserialize)
    {es : List Entry} {count : Nat} {bytes : Bytes} (hs : serializeHash serialize es = some (count, bytes))
    (hdata : ∀ e ∈ es, Data tables e.value)
    (hkeys : ∀ e ∈ es, ∀ s, e.key = some s → s.length < 2 ^ 31)
    (hf : Filled hash (Remade S) H₀ H m) (rest : Bytes) :
    ∃ H', deserializeHash hash deserialize H₀.next count ⟨bytes ++ rest, H⟩ =
        some (.ok ((), ⟨rest, H'⟩)) ∧
      Filled hash (Remade S) H₀ H' ((es.filterMap entryItem).foldl record m) := by
  induction es generalizing count bytes H m with
  | nil =>
    cases hs
    exact ⟨H, rfl, hf⟩
  | cons e es ih =>
    have hv := hdata e List.mem_cons_self
    have hrest : ∀ u ∈ es, Data tables u.value := fun u hu => hdata u (List.mem_cons_of_mem _ hu)
    have hkrest : ∀ u ∈ es, ∀ s, u.key = some s → s.length < 2 ^ 31 :=
      fun u hu => hkeys u (List.mem_cons_of_mem _ hu)
    unfold serializeHash at hs
    cases hkv : e.key.bind keyFromEntry with
    | none =>
      have hskip : entryItem e = none := by
        unfold entryItem
        rw [hkv]
        exact ite_self _
      rw [hkv] at hs
      rw [List.filterMap_cons_none hskip]
      exact ih hs hrest hkrest hf
    | some kv =>
      rw [hkv] at hs
      dsimp only at hs
      by_cases hnil : e.value = .nil
      · have hskip : entryItem e = none := if_pos hnil
        rw [if_pos (.inl hnil)] at hs
        rw [List.filterMap_cons_none hskip]
        exact ih hs hrest hkrest hf
      · obtain ⟨k, hk, hkleaf, hksimple⟩ := keyFromEntry_keyId hkv (hkeys e List.mem_cons_self)
        have hitem : entryItem e = some (k, e.value) := by
          unfold entryItem
          rw [if_neg hnil, hkv, Option.bind_some, hk]
          rfl
        rw [if_neg (by simp [hnil, hv.1.1])] at hs
        obtain ⟨kb, hkb, hs⟩ := Option.bind_eq_some_iff.mp hs
        obtain ⟨b, hb, hs⟩ := Option.bind_eq_some_iff.mp hs
        obtain ⟨⟨c, more⟩, hmore, hs⟩ := Option.bind_eq_some_iff.mp hs
        cases hs
        obtain ⟨kw, H₁, hkread, hkmade⟩ := hback kv kb (.leaf hksimple hkleaf) hkb (b ++ more ++ rest) H
        cases Alike.eq_of_leaf hkmade.stands hkleaf
        obtain ⟨w, H₂, hread, hmade⟩ := hback e.value b hv hb (more ++ rest) H₁
        have hf₁ := hf.mono (remade_framed S) hkmade
        have htable : H₂.tables H₀.next = H₁.tables H₀.next := hmade.frame _ hf₁.grows
        obtain ⟨h, hr⟩ := hf₁.sound.represents _ (Nat.le_refl _) hf₁.grows
        rw [← htable] at hr
        obtain ⟨s, -, hkey⟩ := Option.bind_eq_some_iff.mp hkv
        obtain ⟨t', h', hset, hr', hcontents⟩ := setEntry_spec hr hkey hk (hmade.stands.ne_nil hnil)
        rw [htable] at hcontents
        obtain ⟨H', hrun, hfilled⟩ := ih hmore hrest hkrest
          (hf₁.write (remade_framed S) hmade hr' hcontents)
        refine ⟨H', ?_, ?_⟩
        · rw [List.append_assoc, List.append_assoc]
          rw [List.append_assoc] at hkread
          unfold deserializeHash
          rw [bind_ok hkread, bind_ok hread, bind_ok (modifyTable_ok hset)]
          exact hrun
        · rw [List.filterMap_cons_some hitem]
          exact hfilled

theorem count_lt {i count : Nat} {vs : List Value} {bytes : Bytes}
    (hs : serializeArray serialize i vs = some (count, bytes)) : count ≤ vs.length := by
  induction vs generalizing i count bytes with
  | nil =>
    cases hs
    exact Nat.le_refl _
  | cons v vs ih =>
    unfold serializeArray at hs
    rw [List.length_cons]
    split at hs
    next =>
      cases hs
      exact Nat.zero_le _
    next =>
      split at hs
      next =>
        have := ih hs
        omega
      next =>
        obtain ⟨b, -, hs⟩ := Option.bind_eq_some_iff.mp hs
        obtain ⟨⟨c, more⟩, hmore, hs⟩ := Option.bind_eq_some_iff.mp hs
        cases hs
        have := ih hmore
        omega

theorem hashCount_lt {count : Nat} {es : List Entry} {bytes : Bytes}
    (hs : serializeHash serialize es = some (count, bytes)) : count ≤ es.length := by
  induction es generalizing count bytes with
  | nil =>
    cases hs
    exact Nat.le_refl _
  | cons e es ih =>
    unfold serializeHash at hs
    rw [List.length_cons]
    split at hs
    next =>
      have := ih hs
      omega
    next =>
      split at hs
      next =>
        have := ih hs
        omega
      next =>
        obtain ⟨kb, -, hs⟩ := Option.bind_eq_some_iff.mp hs
        obtain ⟨b, -, hs⟩ := Option.bind_eq_some_iff.mp hs
        obtain ⟨⟨c, more⟩, hmore, hs⟩ := Option.bind_eq_some_iff.mp hs
        cases hs
        have := ih hmore
        omega

end Pairs

/-- What the packer comes to in the tables of a heap. -/
def lastItems (tables : Nat → Table) (a : Nat) : KeyId → Value := lastItem (tables a)

theorem deserializeTable_spec {hash : Bytes → UInt32} {tables : Nat → Table}
    {serialize : Value → Option Bytes} {deserialize : Unpack Value}
    (hback : ReadsBack hash tables (lastItems tables) serialize deserialize) {a : Nat} {bytes : Bytes}
    (hdata : Data tables (.table a)) (hs : serializeTable serialize (tables a) = some bytes)
    (rest : Bytes) (H : TableHeap) :
    ∃ bytes' w H', bytes = tagTable :: bytes' ∧
      deserializeTable hash deserialize ⟨bytes' ++ rest, H⟩ = some (.ok (w, ⟨rest, H'⟩)) ∧
      Made hash (Remade (lastItems tables)) H H' (.table a) w := by
  obtain ⟨⟨arrCount, elements⟩, harr, hs⟩ := Option.bind_eq_some_iff.mp hs
  obtain ⟨⟨hashCount, entries⟩, hhash, hs⟩ := Option.bind_eq_some_iff.mp hs
  cases hs
  have ht := hdata.2 a (.table a)
  have hsize := ht.arraySize
  have hcap := ht.capacity
  have hcount := count_lt harr
  have hcount' := hashCount_lt hhash
  have hnew : Filled hash (Remade (lastItems tables)) H H.newTable fun _ => .nil :=
    Filled.new fun _ => .leaf rfl
  have htable : H.newTable.tables H.next = initTable := Function.update_self ..
  obtain ⟨H₁, hrun₁, hf₁⟩ := deserializeArray_spec hback harr (fun v hv => hdata.element hv)
    (Nat.le_refl 1) (by omega) hnew (by rw [htable]; rfl) (writeU32 hashCount ++ entries ++ rest)
  obtain ⟨H₂, hrun₂, hf₂⟩ := deserializeHash_spec hback hhash (fun e he => hdata.entry he)
    ht.keys hf₁ rest
  refine ⟨_, .table H.next, H₂, rfl, ?_, hf₂.made (.node rfl rfl fun k => ?_)⟩
  · rw [List.append_assoc, List.append_assoc, List.append_assoc]
    rw [List.append_assoc] at hrun₁
    unfold deserializeTable
    rw [bind_ok (readU32_ok (by omega) _ H),
      bind_ok (a := H.next) rfl,
      bind_ok hrun₁, bind_ok (readU32_ok (by omega) _ H₁), bind_ok hrun₂]
    rfl
  · have hlast : lastItems tables a =
        (List.filterMap entryItem (tables a).entries).foldl record
          ((arrayItems 1 (tables a).array).foldl record fun _ => .nil) := by
      rw [← List.foldl_append]
      rfl
    rw [hlast]
    exact hf₂.stands k

/-- Whatever is packed is unpacked as a value whose contents are what the packer came to last. -/
theorem deserialize_serialize (hash : Bytes → UInt32) (tables : Nat → Table) (room : Nat)
    {strictTable : Bool} (hroom : room = 0 → strictTable = true) :
    ReadsBack hash tables (lastItems tables) (serializeValue tables room strictTable)
      (deserializeValue hash room) := by
  induction room generalizing strictTable with
  | zero =>
    intro v bytes hdata hs rest H
    rw [hroom rfl] at hs
    cases hs
  | succ room ih =>
    intro v bytes hdata hs rest H
    have htag (tag : UInt8) (more : Bytes) : deserializeValue hash (room + 1) ⟨tag :: more ++ rest, H⟩ =
        _ := bind_ok (readU8_ok tag (more ++ rest) H)
    have hleaf {w : Value} (hw : w.ref = none) :
        Made hash (Remade (lastItems tables)) H H w w := .leaf (sound_next H) hw (.leaf hw)
    unfold serializeValue at hs
    cases v with
    | nil =>
      cases hs
      exact ⟨_, H, htag _ [], hleaf rfl⟩
    | bool b =>
      cases hs
      cases b with
      | false => exact ⟨_, H, htag _ [], hleaf rfl⟩
      | true => exact ⟨_, H, htag _ [], hleaf rfl⟩
    | number x =>
      cases hs
      refine ⟨_, H, (htag _ _).trans ?_, hleaf rfl⟩
      exact bind_ok (readF64_ok x rest H)
    | string s =>
      cases hs
      refine ⟨_, H, (htag _ _).trans ?_, hleaf rfl⟩
      have hlen := hdata.1.2 s rfl
      rw [List.append_assoc]
      exact (bind_ok (readU32_ok (by omega) _ H)).trans (bind_ok (read_ok s rest H))
    | table a =>
      obtain ⟨bytes', w, H', rfl, hrun, hmade⟩ :=
        deserializeTable_spec (ih fun _ => rfl) hdata hs rest H
      exact ⟨w, H', (htag _ _).trans hrun, hmade⟩
    | _ => exact absurd hdata.1.1 (by simp [isSerializable])

section Local

variable {α β : Type} {hash : Bytes → UInt32}

theorem bind_eq_ok {m : Unpack α} {f : α → Unpack β} {r : Reader} {x : β × Reader} :
    (m >>= f) r = some (.ok x) ↔ ∃ a r', m r = some (.ok (a, r')) ∧ f a r' = some (.ok x) := by
  constructor
  · intro h
    simp only [bind, StateT.bind, ExceptT.bind, ExceptT.mk, ExceptT.bindCont] at h
    obtain ⟨e, he, h⟩ := Option.bind_eq_some_iff.mp h
    cases e with
    | error message => cases h
    | ok p => exact ⟨p.1, p.2, he, h⟩
  · rintro ⟨a, r', hm, hf⟩
    rw [bind_ok hm, hf]

/-- A reader that does not look behind what it reads. -/
def Local (m : Unpack α) : Prop :=
  ∀ s H a s' H', m ⟨s, H⟩ = some (.ok (a, ⟨s', H'⟩)) →
    ∀ more, m ⟨s ++ more, H⟩ = some (.ok (a, ⟨s' ++ more, H'⟩))

theorem Local.pure (a : α) : Local (Pure.pure a : Unpack α) := by
  intro s H a' s' H' h more
  cases h
  rfl

theorem Local.fail (message : String) : Local (fail message : Unpack α) := by
  intro s H a s' H' h
  cases h

theorem Local.bind {m : Unpack α} {f : α → Unpack β} (hm : Local m) (hf : ∀ a, Local (f a)) :
    Local (m >>= f) := by
  intro s H b s' H' h more
  obtain ⟨a, ⟨s₁, H₁⟩, h₁, h₂⟩ := bind_eq_ok.mp h
  rw [bind_ok (hm _ _ _ _ _ h₁ more)]
  exact hf a _ _ _ _ _ h₂ more

theorem Local.read (n : Nat) : Local (read n) := by
  intro s H a s' H' h more
  by_cases hlt : s.length < n
  · have hfail : Binary.read n ⟨s, H⟩ = some (.error "Unexpected end of data.") := by
      unfold Binary.read
      rw [bind_ok (a := ⟨s, H⟩) rfl]
      simp only [if_pos hlt]
      rfl
    rw [hfail] at h
    cases h
  · have hle : n ≤ s.length := by omega
    have hsplit := read_ok (s.take n) (s.drop n) H
    rw [List.take_append_drop, List.length_take, Nat.min_eq_left hle] at hsplit
    rw [hsplit] at h
    cases h
    have hmore := read_ok (s.take n) (s.drop n ++ more) H
    rwa [← List.append_assoc, List.take_append_drop, List.length_take, Nat.min_eq_left hle] at hmore

theorem Local.newTable : Local Binary.newTable := by
  intro s H a s' H' h more
  cases h
  rfl

theorem Local.modifyTable (a : Nat) (f : Table → Option Table) : Local (modifyTable a f) := by
  intro s H u s' H' h more
  unfold Binary.modifyTable at h ⊢
  obtain ⟨t, ht, heq⟩ := Option.map_eq_some_iff.mp h
  cases heq
  rw [ht]
  rfl

theorem Local.readU32 : Local readU32 := (Local.read 4).bind fun _ => .pure _

theorem Local.deserializeArray {deserialize : Unpack Value} (hd : Local deserialize) (a count : Nat) :
    Local (deserializeArray deserialize a count) := by
  induction count with
  | zero => exact .pure ()
  | succ count ih =>
    exact .bind .readU32 fun _ => .bind hd fun _ => .bind (.modifyTable _ _) fun _ => ih

theorem Local.deserializeHash {deserialize : Unpack Value} (hd : Local deserialize) (a count : Nat) :
    Local (deserializeHash hash deserialize a count) := by
  induction count with
  | zero => exact .pure ()
  | succ count ih => exact .bind hd fun _ => .bind hd fun _ => .bind (.modifyTable _ _) fun _ => ih

theorem Local.deserializeTable {deserialize : Unpack Value} (hd : Local deserialize) :
    Local (deserializeTable hash deserialize) :=
  .bind .readU32 fun _ => .bind .newTable fun _ => .bind (.deserializeArray hd _ _) fun _ =>
    .bind .readU32 fun _ => .bind (.deserializeHash hd _ _) fun _ => .pure _

theorem Local.ite {p : Prop} [Decidable p] {m m' : Unpack α} (hm : Local m) (hm' : Local m') :
    Local (if p then m else m') := by
  split
  · exact hm
  · exact hm'

theorem Local.deserializeValue (room : Nat) : Local (deserializeValue hash room) := by
  have hscalar (more : Unpack Value) (hmore : Local more) : Local (do
      let tag ← readU8
      if tag = tagNil then return .nil
      else if tag = tagFalse then return .bool false
      else if tag = tagTrue then return .bool true
      else if tag = tagNumber then return .number (← readF64)
      else if tag = tagString then
        let len ← Binary.readU32
        return .string (← Binary.read len)
      else if tag = tagTable then more
      else Binary.fail "Unknown binary tag." : Unpack Value) :=
    .bind ((Local.read 1).bind fun _ => .pure _) fun tag =>
      .ite (.pure _) (.ite (.pure _) (.ite (.pure _)
        (.ite (.bind ((Local.read 8).bind fun _ => .pure _) fun _ => .pure _)
          (.ite (.bind .readU32 fun _ => .bind (.read _) fun _ => .pure _)
            (.ite hmore (.fail _))))))
  induction room with
  | zero => exact hscalar _ (.fail _)
  | succ room ih => exact hscalar _ (.deserializeTable ih)

end Local

def keySize : KeyId → Nat
  | .string s => 5 + s.length
  | .number _ => 9

/-- The bytes that a value takes when it is packed. -/
def packedSize (tables : Nat → Table) : Nat → Value → Nat
  | 0, _ => 0
  | _ + 1, .number _ => 9
  | _ + 1, .string s => 5 + s.length
  | room + 1, .table a =>
    9 + ((arrayItems 1 (tables a).array).map fun item => 4 + packedSize tables room item.2).sum +
      (((tables a).entries.filterMap entryItem).map fun item =>
        keySize item.1 + packedSize tables room item.2).sum
  | _ + 1, _ => 1

theorem writeU32_length (n : Nat) : (writeU32 n).length = 4 := leBytes_length 4 n

section Size

variable {tables : Nat → Table} {serialize : Value → Option Bytes} {size : Value → Nat}

theorem serializeArray_length
    (hsize : ∀ v bytes, Data tables v → serialize v = some bytes → bytes.length = size v)
    {vs : List Value} {i count : Nat} {bytes : Bytes} (hs : serializeArray serialize i vs = some (count, bytes))
    (hdata : ∀ v ∈ vs, Data tables v) :
    bytes.length = ((arrayItems i vs).map fun item => 4 + size item.2).sum := by
  induction vs generalizing i count bytes with
  | nil =>
    cases hs
    rfl
  | cons v vs ih =>
    have hv := hdata v List.mem_cons_self
    unfold serializeArray at hs
    unfold arrayItems
    by_cases hnil : v = .nil
    · rw [if_pos hnil] at hs ⊢
      cases hs
      rfl
    · rw [if_neg hnil, hv.1.1] at hs
      rw [if_neg hnil]
      simp only [Bool.not_true, Bool.false_eq_true, ↓reduceIte] at hs
      obtain ⟨b, hb, hs⟩ := Option.bind_eq_some_iff.mp hs
      obtain ⟨⟨c, more⟩, hmore, hs⟩ := Option.bind_eq_some_iff.mp hs
      cases hs
      have hlen := ih hmore fun u hu => hdata u (List.mem_cons_of_mem _ hu)
      rw [List.map_cons, List.sum_cons, List.length_append, List.length_append, writeU32_length,
        hsize v b hv hb, hlen]

theorem serializeHash_length
    (hsize : ∀ v bytes, Data tables v → serialize v = some bytes → bytes.length = size v)
    (hkey : ∀ kv k bytes, keyId kv = some k → serialize kv = some bytes → bytes.length = keySize k)
    {es : List Entry} {count : Nat} {bytes : Bytes} (hs : serializeHash serialize es = some (count, bytes))
    (hdata : ∀ e ∈ es, Data tables e.value) :
    bytes.length =
      ((es.filterMap entryItem).map fun item => keySize item.1 + size item.2).sum := by
  induction es generalizing count bytes with
  | nil =>
    cases hs
    rfl
  | cons e es ih =>
    have hv := hdata e List.mem_cons_self
    have hrest : ∀ u ∈ es, Data tables u.value := fun u hu => hdata u (List.mem_cons_of_mem _ hu)
    unfold serializeHash at hs
    cases hkv : e.key.bind keyFromEntry with
    | none =>
      have hskip : entryItem e = none := by
        unfold entryItem
        rw [hkv]
        exact ite_self _
      rw [hkv] at hs
      rw [List.filterMap_cons_none hskip]
      exact ih hs hrest
    | some kv =>
      rw [hkv] at hs
      dsimp only at hs
      by_cases hnil : e.value = .nil
      · have hskip : entryItem e = none := if_pos hnil
        rw [if_pos (.inl hnil)] at hs
        rw [List.filterMap_cons_none hskip]
        exact ih hs hrest
      · have hk : ∃ k, keyId kv = some k := by
          obtain ⟨s, -, hkey⟩ := Option.bind_eq_some_iff.mp hkv
          unfold keyFromEntry at hkey
          split at hkey
          next =>
            dsimp only at hkey
            split at hkey
            next =>
              cases hkey
              exact ⟨_, rfl⟩
            next => cases hkey
          next =>
            cases hkey
            exact ⟨_, rfl⟩
        obtain ⟨k, hk⟩ := hk
        have hitem : entryItem e = some (k, e.value) := by
          unfold entryItem
          rw [if_neg hnil, hkv, Option.bind_some, hk]
          rfl
        rw [if_neg (by simp [hnil, hv.1.1])] at hs
        obtain ⟨kb, hkb, hs⟩ := Option.bind_eq_some_iff.mp hs
        obtain ⟨b, hb, hs⟩ := Option.bind_eq_some_iff.mp hs
        obtain ⟨⟨c, more⟩, hmore, hs⟩ := Option.bind_eq_some_iff.mp hs
        cases hs
        rw [List.filterMap_cons_some hitem, List.map_cons, List.sum_cons, List.length_append,
          List.length_append, hkey kv k kb hk hkb, hsize _ b hv hb, ih hmore hrest]

theorem serializeValue_length {room : Nat} {strictTable : Bool} (hroom : room = 0 → strictTable = true)
    {v : Value} {bytes : Bytes} (hdata : Data tables v)
    (hs : serializeValue tables room strictTable v = some bytes) :
    bytes.length = packedSize tables room v := by
  induction room generalizing strictTable v bytes with
  | zero =>
    rw [hroom rfl] at hs
    cases hs
  | succ room ih =>
    unfold serializeValue at hs
    cases v with
    | nil | bool =>
      cases hs
      rfl
    | number x =>
      cases hs
      simp [packedSize, writeF64]
    | string s =>
      cases hs
      simp [packedSize, writeU32]
      omega
    | table a =>
      obtain ⟨⟨arrCount, elements⟩, harr, hs⟩ := Option.bind_eq_some_iff.mp hs
      obtain ⟨⟨hashCount, entries⟩, hhash, hs⟩ := Option.bind_eq_some_iff.mp hs
      cases hs
      have hsize : ∀ v bytes, Data tables v → serializeValue tables room true v = some bytes →
          bytes.length = packedSize tables room v := fun v bytes hv hb => ih (fun _ => rfl) hv hb
      have hkey : ∀ kv k bytes, keyId kv = some k → serializeValue tables room true kv = some bytes →
          bytes.length = keySize k := by
        intro kv k bytes hk hb
        cases room with
        | zero => cases hb
        | succ room =>
          cases kv with
          | string s =>
            cases hk
            cases hb
            simp [keySize, writeU32]
            omega
          | number x =>
            cases hk
            cases hb
            simp [keySize, writeF64]
          | _ => cases hk
      have h1 := serializeArray_length hsize harr fun v hv => hdata.element hv
      have h2 := serializeHash_length hsize hkey hhash fun e he => hdata.entry he
      simp only [List.length_cons, List.length_append, writeU32_length, h1, h2, packedSize]
      omega
    | _ => exact absurd hdata.1.1 (by simp [isSerializable])

end Size

/-- `binary.unpack` in the heap `H` gives back what `binary.pack` was given. -/
def RoundTrips (hash : Bytes → UInt32) (tables : Nat → Table) (H : TableHeap) (v : Value) : Prop :=
  ∃ bytes w H', binaryPack tables v = some (.ok bytes) ∧
    binaryUnpack hash bytes H = some (.ok (w, H')) ∧ SameContents hash tables H'.tables v w

/-- At every level the last value that the packer comes to for a key is the one of the key. -/
def Kept (hash : Bytes → UInt32) (tables : Nat → Table) (v : Value) : Prop :=
  Alike Value.ref (contentsOf hash tables) (lastItems tables) v v

/-- A packed form that is too long is cut off. -/
theorem copyOut_cut {out cut : Bytes} (hlong : Struct.maxLength < out.length)
    (h : Struct.copyOut out = some cut) : ∃ more, more ≠ [] ∧ out = cut ++ more := by
  unfold Struct.copyOut at h
  split at h
  next hle =>
    cases h
    refine ⟨out.drop (out.length % 2 ^ 32), fun hnil => ?_, (List.take_append_drop _ _).symm⟩
    have := List.drop_eq_nil_iff.mp hnil
    omega
  next => cases h

theorem binaryUnpack_ok {hash : Bytes → UInt32} {bytes : Bytes} {H H' : TableHeap} {w : Value}
    (h : binaryUnpack hash bytes H = some (.ok (w, H'))) :
    ∃ H₁, deserializeValue hash 65 ⟨bytes, H⟩ = some (.ok (w, ⟨[], H₁⟩)) := by
  unfold binaryUnpack at h
  split at h
  next => cases h
  next => cases h
  next v r hread =>
    split at h
    next hnil =>
      cases h
      obtain ⟨rest, H₁⟩ := r
      cases hnil
      exact ⟨H₁, hread⟩
    next => cases h

end Binary

end ToiLang
