import ToiLang.BinaryRoundTrip
import ToiLang.KeySeparation

namespace ToiLang.Binary

variable {hash : Bytes → UInt32} {tables : Nat → Table} {t : Table} {h : Bytes → Option Value}

/-- A table without holes in front of an element, whose keys are each in one part, and where a key of
the hash part that begins as the encoding of a number is one. -/
structure Separate (hash : Bytes → UInt32) (t : Table) : Prop where
  unbroken : ∀ i, t.slot i ≠ .nil → ∀ j < i, t.slot j ≠ .nil
  encoded : ∀ s, t.hashValue hash s ≠ .nil →
    keyFromEntry s = some (.string s) ∨ ∃ x, s = numberKeyString x
  single : ∀ x, t.arrayValue (.number x) ≠ .nil → t.hashValue hash (numberKeyString x) = .nil

theorem foldl_record {is : List (KeyId × Value)} {m : KeyId → Value} {k : KeyId} {v : Value}
    (hall : ∀ item ∈ is, item.1.label = k.label → item.2 = v)
    (h : m k = v ∨ ∃ item ∈ is, item.1.label = k.label) : is.foldl record m k = v := by
  induction is generalizing m with
  | nil =>
    rcases h with h | ⟨item, hitem, -⟩
    · exact h
    · cases hitem
  | cons item is ih =>
    rw [List.foldl_cons]
    apply ih fun i hi => hall i (List.mem_cons_of_mem _ hi)
    by_cases hk : item.1.label = k.label
    · left
      rw [record, if_pos hk.symm]
      exact hall item List.mem_cons_self hk
    · rw [record, if_neg (Ne.symm hk)]
      rcases h with h | ⟨i, hi, hki⟩
      · exact .inl h
      · rcases List.mem_cons.mp hi with rfl | hi
        · exact absurd hki hk
        · exact .inr ⟨i, hi, hki⟩

/-- The elements in front of the first hole. -/
theorem mem_arrayItems {vs : List Value} {i : Nat} {item : KeyId × Value} :
    item ∈ arrayItems i vs ↔ ∃ j, item = (.number (Double.ofNat (i + j)), vs.getD j .nil) ∧
      ∀ l ≤ j, vs.getD l .nil ≠ .nil := by
  induction vs generalizing i with
  | nil =>
    simp only [arrayItems, List.not_mem_nil, false_iff]
    rintro ⟨j, -, hj⟩
    exact hj j (Nat.le_refl _) rfl
  | cons v vs ih =>
    unfold arrayItems
    by_cases hnil : v = .nil
    · rw [if_pos hnil]
      simp only [List.not_mem_nil, false_iff]
      rintro ⟨j, -, hj⟩
      exact hj 0 (Nat.zero_le _) hnil
    · rw [if_neg hnil, List.mem_cons, ih]
      constructor
      · rintro (rfl | ⟨j, rfl, hj⟩)
        · refine ⟨0, rfl, fun l hl => ?_⟩
          rw [Nat.le_zero.mp hl]
          exact hnil
        · refine ⟨j + 1, by rw [Nat.add_right_comm]; rfl, fun l hl => ?_⟩
          cases l with
          | zero => exact hnil
          | succ l => exact hj l (by omega)
      · rintro ⟨j, rfl, hj⟩
        cases j with
        | zero => exact .inl rfl
        | succ j =>
          refine .inr ⟨j, by rw [Nat.add_right_comm]; rfl, fun l hl => ?_⟩
          exact hj (l + 1) (by omega)

theorem entryItem_eq_some {e : Entry} {item : KeyId × Value} (h : entryItem e = some item) :
    ∃ s kv, e.key = some s ∧ keyFromEntry s = some kv ∧ keyId kv = some item.1 ∧
      item.2 = e.value ∧ e.value ≠ .nil := by
  unfold entryItem at h
  split at h
  next => cases h
  next hnil =>
    obtain ⟨k, hk, rfl⟩ := Option.map_eq_some_iff.mp h
    obtain ⟨kv, hkv, hk⟩ := Option.bind_eq_some_iff.mp hk
    obtain ⟨s, hs, hkv⟩ := Option.bind_eq_some_iff.mp hkv
    exact ⟨s, kv, hs, hkv, hk, rfl, hnil⟩

theorem keyFromEntry_numberKeyString (x : Double) : ∃ y,
    keyFromEntry (numberKeyString x) = some (.number y) ∧ numberKeyString y = numberKeyString x := by
  obtain ⟨y, hread, hkey⟩ := strtod_numberKeyString x
  refine ⟨y, ?_, hkey⟩
  change (if (strtod x.normalize.formatG17).2 = [] then
    some (Value.number (strtod x.normalize.formatG17).1) else none) = _
  rw [hread]
  rfl

theorem mem_items {item : KeyId × Value} (h : item ∈ items t) :
    (∃ i, item = (.number (Double.ofNat (i + 1)), t.slot i) ∧ ∀ l ≤ i, t.slot l ≠ .nil) ∨
      ∃ e ∈ t.entries, entryItem e = some item := by
  rcases List.mem_append.mp h with h | h
  · obtain ⟨j, hj, hall⟩ := mem_arrayItems.mp h
    exact .inl ⟨j, by rw [hj, Nat.add_comm]; rfl, hall⟩
  · exact .inr (List.mem_filterMap.mp h)

theorem slot_lt {i : Nat} (hne : t.slot i ≠ .nil) : i < t.array.length := by
  by_contra hge
  refine hne ?_
  unfold Table.slot
  rw [List.getD_eq_getElem?_getD, List.getElem?_eq_none (by omega)]
  rfl

theorem contents_element (hsize : t.array.length < 2 ^ 31) {i : Nat} (hne : t.slot i ≠ .nil) :
    t.contents hash (.number (Double.ofNat (i + 1))) = t.slot i := by
  have hi := slot_lt hne
  have hvalue : t.arrayValue (.number (Double.ofNat (i + 1))) = t.slot i :=
    arrayValue_place (place_ofNat (by omega))
  rw [contents_number, hvalue, if_neg hne]

theorem contents_entry (hr : t.Represents hash h) (hs : Separate hash t) {e : Entry}
    (he : e ∈ t.entries) {k : KeyId} {v : Value} (hitem : entryItem e = some (k, v)) :
    t.contents hash k = v := by
  obtain ⟨s, kv, hkey, hkv, hk, hv, hne⟩ := entryItem_eq_some hitem
  have hvalue : t.hashValue hash s = e.value := by
    have hentry : (⟨some s, e.value⟩ : Entry) ∈ t.entries := by rwa [← hkey]
    rw [hashValue_eq hr, hr.mem_entries_iff.mp hentry]
    rfl
  rw [show v = e.value from hv]
  rcases hs.encoded s (hvalue ▸ hne) with hstring | ⟨x, hx⟩
  · rw [hstring] at hkv
    cases hkv
    cases hk
    rw [contents_string, (keyFromEntry_string hstring).2]
    exact hvalue
  · obtain ⟨y, hy, hyx⟩ := keyFromEntry_numberKeyString x
    rw [hx, hy] at hkv
    cases hkv
    cases hk
    rw [← hx] at hyx
    have hnil : t.arrayValue (.number y) = .nil := by
      by_contra hlive
      have hempty := hs.single y hlive
      rw [hyx, hvalue] at hempty
      exact hne hempty
    rw [contents_number, if_pos hnil, hyx, hvalue]

/-- What the packer comes to is what the table holds. -/
theorem item_value (hr : t.Represents hash h) (hs : Separate hash t) (hsize : t.array.length < 2 ^ 31)
    {item : KeyId × Value} (hitem : item ∈ items t) : t.contents hash item.1 = item.2 := by
  rcases mem_items hitem with ⟨i, hi, hall⟩ | ⟨e, he, hitem⟩
  · rw [hi]
    exact contents_element hsize (hall i (Nat.le_refl _))
  · exact contents_entry hr hs he hitem

/-- The packer comes to all that a table holds. -/
theorem exists_item (hr : t.Represents hash h) (hs : Separate hash t) {k : KeyId}
    (hlive : t.contents hash k ≠ .nil) : ∃ item ∈ items t, item.1.label = k.label := by
  have hentry {s : Bytes} {kv : Value} {k' : KeyId} (hv : t.hashValue hash s ≠ .nil)
      (hkv : keyFromEntry s = some kv) (hk' : keyId kv = some k') (hlabel : k'.label = k.label) :
      ∃ item ∈ items t, item.1.label = k.label := by
    rw [hashValue_eq hr] at hv
    cases hm : h s with
    | none =>
      rw [hm] at hv
      exact absurd rfl hv
    | some v =>
      rw [hm, Option.getD_some] at hv
      refine ⟨(k', v), List.mem_append_right _ (List.mem_filterMap.mpr
        ⟨⟨some s, v⟩, hr.mem_entries_iff.mpr hm, ?_⟩), hlabel⟩
      unfold entryItem
      rw [if_neg hv, Option.bind_some, hkv, Option.bind_some, hk']
      rfl
  cases k with
  | string s =>
    rw [contents_string] at hlive
    split at hlive
    next => exact absurd rfl hlive
    next hnone =>
      rcases hs.encoded s hlive with hstring | ⟨x, rfl⟩
      · exact hentry hlive hstring rfl rfl
      · obtain ⟨y, hy, -⟩ := numberKey?_numberKeyString x
        exact absurd (by rw [hy]; rfl) hnone
  | number x =>
    rw [contents_number] at hlive
    split at hlive
    next =>
      obtain ⟨y, hy, hyx⟩ := keyFromEntry_numberKeyString x
      exact hentry hlive hy rfl (congrArg (Prod.mk true) hyx)
    next hne =>
      obtain ⟨i, hplace, hslot⟩ := arrayValue_ne_nil_iff.mp hne
      obtain ⟨-, hk⟩ := KeyId.eq_ofNat hplace
      refine ⟨(.number (Double.ofNat (i + 1)), t.slot i), List.mem_append_left _
        (mem_arrayItems.mpr ⟨i, by rw [Nat.add_comm 1 i]; rfl, fun l hl => ?_⟩), by rw [hk]⟩
      rcases Nat.lt_or_eq_of_le hl with hlt | rfl
      · exact hs.unbroken i hslot l hlt
      · exact hslot

/-- What the packer comes to last is what the table holds. -/
theorem lastItem_eq (hr : t.Represents hash h) (hs : Separate hash t)
    (hsize : t.array.length < 2 ^ 31) (k : KeyId) : lastItem t k = t.contents hash k := by
  apply foldl_record
  · intro item hitem hlabel
    rw [← item_value hr hs hsize hitem, contents_congr hlabel]
  · by_cases hnil : t.contents hash k = .nil
    · exact .inl hnil.symm
    · exact .inr (exists_item hr hs hnil)

theorem serializeArray_items {serialize : Value → Option Bytes} {vs : List Value} {i : Nat}
    {r : Nat × Bytes} (hs : serializeArray serialize i vs = some r)
    (hdata : ∀ v ∈ vs, isSerializable v = true) :
    ∀ item ∈ arrayItems i vs, item.2 ∈ vs ∧ (serialize item.2).isSome = true := by
  induction vs generalizing i r with
  | nil =>
    intro item hitem
    cases hitem
  | cons v vs ih =>
    unfold serializeArray at hs
    unfold arrayItems
    by_cases hnil : v = .nil
    · rw [if_pos hnil]
      intro item hitem
      cases hitem
    · rw [if_neg hnil, hdata v List.mem_cons_self] at hs
      rw [if_neg hnil]
      simp only [Bool.not_true, Bool.false_eq_true, ↓reduceIte] at hs
      obtain ⟨b, hb, hs⟩ := Option.bind_eq_some_iff.mp hs
      obtain ⟨more, hmore, -⟩ := Option.bind_eq_some_iff.mp hs
      intro item hitem
      rcases List.mem_cons.mp hitem with rfl | hitem
      · exact ⟨List.mem_cons_self, by rw [hb]; rfl⟩
      · obtain ⟨hmem, hsome⟩ := ih hmore (fun u hu => hdata u (List.mem_cons_of_mem _ hu)) item hitem
        exact ⟨List.mem_cons_of_mem _ hmem, hsome⟩

theorem serializeHash_items {serialize : Value → Option Bytes} {es : List Entry}
    {r : Nat × Bytes} (hs : serializeHash serialize es = some r)
    (hdata : ∀ e ∈ es, isSerializable e.value = true) :
    ∀ e ∈ es, ∀ item, entryItem e = some item → (serialize e.value).isSome = true := by
  induction es generalizing r with
  | nil =>
    intro e he
    cases he
  | cons e es ih =>
    have hrest : ∀ u ∈ es, isSerializable u.value = true := fun u hu => hdata u (List.mem_cons_of_mem _ hu)
    unfold serializeHash at hs
    split at hs
    next hkv =>
      intro u hu item hitem
      rcases List.mem_cons.mp hu with rfl | hu
      · obtain ⟨s, kv, hkey, hkv', -⟩ := entryItem_eq_some hitem
        rw [hkey, Option.bind_some, hkv'] at hkv
        cases hkv
      · exact ih hs hrest u hu item hitem
    next kv hkv =>
      split at hs
      next hskip =>
        intro u hu item hitem
        rcases List.mem_cons.mp hu with rfl | hu
        · obtain ⟨-, -, -, -, -, -, hne⟩ := entryItem_eq_some hitem
          rcases hskip with hnil | hskip
          · exact absurd hnil hne
          · rw [hdata u List.mem_cons_self] at hskip
            cases hskip
        · exact ih hs hrest u hu item hitem
      next =>
        obtain ⟨kb, -, hs⟩ := Option.bind_eq_some_iff.mp hs
        obtain ⟨b, hb, hs⟩ := Option.bind_eq_some_iff.mp hs
        obtain ⟨more, hmore, -⟩ := Option.bind_eq_some_iff.mp hs
        intro u hu item hitem
        rcases List.mem_cons.mp hu with rfl | hu
        · rw [hb]
          rfl
        · exact ih hmore hrest u hu item hitem

/-- What the packer comes to in a table that it accepts it accepts itself. -/
theorem serializeTable_items {serialize : Value → Option Bytes} {a : Nat}
    (hdata : Data tables (.table a)) (hs : (serializeTable serialize (tables a)).isSome = true)
    {item : KeyId × Value} (hitem : item ∈ items (tables a)) :
    (serialize item.2).isSome = true ∧
      (item.2 ∈ (tables a).array ∨ ∃ e ∈ (tables a).entries, item.2 = e.value) := by
  obtain ⟨bytes, hs⟩ := Option.isSome_iff_exists.mp hs
  obtain ⟨r, harr, hs⟩ := Option.bind_eq_some_iff.mp hs
  obtain ⟨r', hhash, -⟩ := Option.bind_eq_some_iff.mp hs
  rcases List.mem_append.mp hitem with hitem | hitem
  · obtain ⟨hmem, hsome⟩ := serializeArray_items harr (fun v hv => (hdata.element hv).1.1) item hitem
    exact ⟨hsome, .inl hmem⟩
  · obtain ⟨e, he, hitem⟩ := List.mem_filterMap.mp hitem
    have hsome := serializeHash_items hhash (fun u hu => (hdata.entry hu).1.1) e he item hitem
    obtain ⟨-, -, -, -, -, hv, -⟩ := entryItem_eq_some hitem
    exact ⟨hv ▸ hsome, .inr ⟨e, he, hv⟩⟩

/-- A value whose tables are all separate is kept. -/
theorem kept_of_separate {room : Nat} {strictTable : Bool} (hroom : room = 0 → strictTable = true)
    {v : Value} (hdata : Data tables v)
    (hs : (serializeValue tables room strictTable v).isSome = true)
    (htables : ∀ a, Reaches tables v a →
      (∃ h, (tables a).Represents hash h) ∧ Separate hash (tables a)) : Kept hash tables v := by
  induction room generalizing strictTable v with
  | zero =>
    rw [hroom rfl] at hs
    cases hs
  | succ room ih =>
    cases v with
    | table a =>
      obtain ⟨⟨h, hr⟩, hsep⟩ := htables a (.table a)
      have hsize := (hdata.2 a (.table a)).arraySize
      refine .node rfl rfl fun k => ?_
      have hlast : lastItems tables a k = contentsOf hash tables a k := lastItem_eq hr hsep hsize k
      rw [hlast]
      by_cases hnil : contentsOf hash tables a k = .nil
      · rw [hnil]
        exact .leaf rfl
      · obtain ⟨item, hitem, hlabel⟩ := exists_item hr hsep hnil
        have hvalue : contentsOf hash tables a k = item.2 := by
          rw [contentsOf, ← contents_congr hlabel, item_value hr hsep hsize hitem]
        obtain ⟨hsome, hmem | ⟨e, he, hv⟩⟩ := serializeTable_items hdata hs hitem
        · rw [hvalue]
          exact ih (fun _ => rfl) (hdata.element hmem) hsome
            fun b hb => htables b (hb.of_element hmem)
        · rw [hvalue]
          rw [hv] at hsome ⊢
          exact ih (fun _ => rfl) (hdata.entry he) hsome
            fun b hb => htables b (hb.of_entry (List.mem_map_of_mem he))
    | _ => exact .leaf rfl

theorem binaryPack_eq {v : Value} {out : Bytes} (hout : serializeValue tables 65 false v = some out) :
    binaryPack tables v = (Struct.copyOut out).map .ok := by
  unfold binaryPack
  rw [hout]

/-- What is unpacked of all that was packed. -/
theorem binaryUnpack_packed (hash : Bytes → UInt32) {v : Value} (hdata : Data tables v) {out : Bytes}
    (hout : serializeValue tables 65 false v = some out) (H : TableHeap) :
    ∃ w H', binaryUnpack hash out H = some (.ok (w, H')) ∧
      deserializeValue hash 65 ⟨out, H⟩ = some (.ok (w, ⟨[], H'⟩)) ∧
      Made hash (Remade (lastItems tables)) H H' v w := by
  obtain ⟨w, H', hrun, hmade⟩ := deserialize_serialize hash tables 65 (by decide) v out hdata hout [] H
  rw [List.append_nil] at hrun
  refine ⟨w, H', ?_, hrun, hmade⟩
  unfold binaryUnpack
  rw [hrun]
  rfl

theorem kept_of_roundTrips {v : Value} (hdata : Data tables v) {out : Bytes}
    (hout : serializeValue tables 65 false v = some out) {H : TableHeap}
    (h : RoundTrips hash tables H v) : out.length ≤ Struct.maxLength ∧ Kept hash tables v := by
  obtain ⟨bytes, w', H'', hbytes, hback, hsame⟩ := h
  obtain ⟨w, H', hunpack, hrun, hmade⟩ := binaryUnpack_packed hash hdata hout H
  rw [binaryPack_eq hout] at hbytes
  have hlen : out.length ≤ Struct.maxLength := by
    by_contra hlong
    obtain ⟨cut, hcut, heq⟩ := Option.map_eq_some_iff.mp hbytes
    cases heq
    obtain ⟨more, hne, hsplit⟩ := copyOut_cut (by omega) hcut
    obtain ⟨H₁, hread⟩ := binaryUnpack_ok hback
    have hlocal := Local.deserializeValue 65 _ _ _ _ _ hread more
    rw [← hsplit, hrun] at hlocal
    cases hlocal
    exact hne rfl
  refine ⟨hlen, ?_⟩
  rw [Struct.copyOut_short hlen] at hbytes
  cases hbytes
  rw [hunpack] at hback
  cases hback
  exact hsame.trans hmade.stands.symm

/-- A value that `binary.pack` accepts comes back from it if and only if it fits in a string and is
kept. -/
theorem binary_round_trip_iff (hash : Bytes → UInt32) {tables : Nat → Table} {v : Value}
    (hdata : Data tables v) (haccept : (serializeValue tables 65 false v).isSome = true)
    (H : TableHeap) : RoundTrips hash tables H v ↔
      packedSize tables 65 v ≤ Struct.maxLength ∧ Kept hash tables v := by
  obtain ⟨out, hout⟩ := Option.isSome_iff_exists.mp haccept
  have hsize := serializeValue_length (by decide) hdata hout
  constructor
  · intro h
    rw [← hsize]
    exact kept_of_roundTrips hdata hout h
  · rintro ⟨hlen, hkept⟩
    obtain ⟨w, H', hunpack, -, hmade⟩ := binaryUnpack_packed hash hdata hout H
    refine ⟨out, w, H', ?_, hunpack, hkept.trans hmade.stands⟩
    rw [binaryPack_eq hout, Struct.copyOut_short (hsize ▸ hlen)]
    rfl

namespace SampleBinary

open SampleTable

instance (v : Value) : Decidable (Simple v) :=
  match v with
  | .string s => decidable_of_iff (s.length < 2 ^ 31)
      ⟨fun h => ⟨rfl, fun _ hs => by cases hs; exact h⟩, fun h => h.2 s rfl⟩
  | .nil | .bool _ | .number _ | .table _ => .isTrue ⟨rfl, fun _ hs => nomatch hs⟩
  | .function _ | .native _ | .closure .. | .thread _ | .userdata _ | .boundMethod .. =>
    .isFalse fun h => nomatch h.1

/-- `t[1] = 1; t[2] = 1; t[3] = 5; del t[2]` -/
def broken : Table :=
  ((printfHost.execAll [.set (.number one) (.number one), .set (.number (.ofNat 2)) (.number one),
    .set (.number (.ofNat 3)) (.number five), .delete (.number (.ofNat 2))]).map
      fun s => s.1.table).getD initTable

theorem broken_eq : broken = ⟨0, [], 0,
    [.number one, .nil, .number five, .nil, .nil, .nil, .nil, .nil], 3⟩ := by decide

theorem broken_simple : SimpleTable broken := by
  rw [broken_eq]
  exact ⟨by decide, by decide, by rintro _ ⟨⟩, by decide, by decide⟩

theorem broken_packed : serializeValue (fun _ => broken) 65 false (.table 0) =
    some ([5, 1, 0, 0, 0, 1, 0, 0, 0, 3, 0, 0, 0, 0, 0, 0, 0xF0, 0x3F] ++ [0, 0, 0, 0]) := by
  rw [broken_eq]
  rfl

/-- The element behind the hole is not packed. -/
theorem hole_not_packed : (serializeValue (fun _ => broken) 65 false (.table 0)).isSome = true ∧
    ¬ RoundTrips printfHost.hash (fun _ => broken) ⟨fun _ => broken, 1⟩ (.table 0) := by
  refine ⟨by rw [broken_packed]; rfl, fun h => ?_⟩
  have hdata : Data (fun _ => broken) (.table 0) := ⟨by decide, fun _ _ => broken_simple⟩
  have hkept := (kept_of_roundTrips hdata broken_packed h).2
  cases hkept with
  | leaf hleaf => cases hleaf
  | node hv hw hk =>
    cases hv
    cases hw
    have hlast : lastItems (fun _ => broken) 0 (.number (.ofNat 3)) = .nil := by
      unfold lastItems
      rw [broken_eq]
      decide +kernel
    have hthree := hk (.number (.ofNat 3))
    rw [hlast] at hthree
    have hheld := hthree.eq_of_leaf_right rfl
    unfold contentsOf at hheld
    rw [broken_eq] at hheld
    revert hheld
    decide

/-- `t["a"] = 5; t[1] = 1` -/
def separate : Table :=
  ((printfHost.execAll [.set (.string 97) (.number five), .set (.number one) (.number one)]).map
    fun s => s.1.table).getD initTable

theorem separate_eq : separate = ⟨1, [⟨none, .nil⟩, ⟨some [97], .number five⟩, ⟨none, .nil⟩,
    ⟨none, .nil⟩, ⟨none, .nil⟩, ⟨none, .nil⟩, ⟨none, .nil⟩, ⟨none, .nil⟩], 1,
    [.number one, .nil, .nil, .nil, .nil, .nil, .nil, .nil], 1⟩ := by decide

theorem separate_represents : ∃ h, separate.Represents printfHost.hash h := by
  obtain ⟨t, hset, hr, -⟩ := tableSet_spec initTable_represents [97] (.number five)
  have hsame : (tableSet printfHost.hash initTable [97] (.number five)).map (fun r => (r.1.count, r.1.entries)) =
      some (separate.count, separate.entries) := by
    rw [separate_eq]
    rfl
  rw [hset] at hsame
  obtain ⟨hcount, hentries⟩ := Prod.mk.inj (Option.some.inj hsame)
  exact ⟨_, hr.of_hash hcount.symm hentries.symm⟩

theorem separate_separate : Separate printfHost.hash separate := by
  obtain ⟨h, hr⟩ := separate_represents
  have hkey : ∀ s, separate.hashValue printfHost.hash s ≠ .nil → s = [97] := by
    intro s hs
    rw [hashValue_eq hr] at hs
    cases hm : h s with
    | none =>
      rw [hm] at hs
      exact absurd rfl hs
    | some v =>
      have hmem := hr.mem_entries_iff.mpr hm
      rw [separate_eq] at hmem
      have hboth : s = [97] ∧ v = .number five := by simpa using hmem
      exact hboth.1
  refine ⟨fun i hi j hj => ?_, fun s hs => ?_, fun x _ => ?_⟩
  · have hlt := slot_lt hi
    rw [separate_eq] at hi hlt ⊢
    have hall : ∀ i < 8, Table.slot ⟨1, [], 1,
        [.number one, .nil, .nil, .nil, .nil, .nil, .nil, .nil], 1⟩ i ≠ .nil → i = 0 := by decide
    have := hall i hlt hi
    omega
  · rw [hkey s hs]
    exact .inl (by decide)
  · by_contra hs
    cases hkey _ hs

/-- `t["a"] = 5; t[1] = 1` comes back. -/
theorem separate_round_trip :
    RoundTrips printfHost.hash (fun _ => separate) ⟨fun _ => separate, 1⟩ (.table 0) := by
  have hsimple : SimpleTable separate := by
    rw [separate_eq]
    exact ⟨by decide, by decide, by decide, by decide, by decide⟩
  have hdata : Data (fun _ => separate) (.table 0) := ⟨by decide, fun _ _ => hsimple⟩
  have haccept : (serializeValue (fun _ => separate) 65 false (.table 0)).isSome = true := by
    rw [separate_eq]
    rfl
  refine (binary_round_trip_iff printfHost.hash hdata haccept _).mpr ⟨?_, ?_⟩
  · rw [separate_eq]
    decide
  · exact kept_of_separate (by decide) hdata haccept fun _ _ => ⟨separate_represents, separate_separate⟩

end SampleBinary

end ToiLang.Binary
