import ToiLang.Sequence

namespace ToiLang

/-- A call of `table_set_array` whose result is not looked at. -/
def setOr (t : Table) (index : Int) (value : Value) : Table := (tableSetArray t index value).getD t

/-- The loop that moves the values up, from `i` down to `pos`. -/
def shiftUp (pos : Int) : Nat → Table → Table
  | 0, t => t
  | i + 1, t =>
    if ((i + 1 : Nat) : Int) ≥ pos then
      shiftUp pos i (setOr t ((i + 1 + 1 : Nat) : Int) ((tableGetArray t ((i + 1 : Nat) : Int)).getD .nil))
    else t

def tableInsert (t : Table) (pos : Option Int) (value : Value) : Table :=
  let len : Int := t.sequenceLength
  match pos with
  | none => setOr t (len + 1) value
  | some pos =>
    let pos := if pos < 1 then 1 else pos
    let pos := if pos > len + 1 then len + 1 else pos
    setOr (shiftUp pos t.sequenceLength t) pos value

/-- The loop that moves `n` values down, from `i + 1` on. -/
def shiftDown : Nat → Nat → Table → Table
  | 0, _, t => t
  | n + 1, i, t =>
    shiftDown n (i + 1) (setOr t (i : Int) ((tableGetArray t ((i + 1 : Nat) : Int)).getD .nil))

/-- The table and the result. -/
def tableRemove (t : Table) (pos : Option Int) : Table × Value :=
  let len : Int := t.sequenceLength
  let pos := pos.getD len
  if pos < 1 ∨ pos > len then (t, .nil)
  else (setOr (shiftDown (len - pos).toNat pos.toNat t) len .nil, (tableGetArray t pos).getD .nil)

/-- `append_to_table_local`: none where `table_set` does not end. -/
def appendToTableLocal (hash : Bytes → UInt32) (t : Table) (value : Value) : Option Table :=
  let index := t.arrayMax + 1
  match tableSetArray t (index : Int) value with
  | some t => some t
  | none => (tableSet hash t (numberKeyString (.ofNat index)) value).map Prod.fst

/-- `table.insert` with a position and without one, `<+`, `table.push`, `table.remove` with a position
and without one. -/
inductive Edit
  | insertAt (p : Nat) (v : Value)
  | insert (v : Value)
  | append (v : Value)
  | push (v : Value)
  | removeAt (p : Nat)
  | remove

/-- The table after an edit, and what `table.remove` returns. -/
def Edit.run (hash : Bytes → UInt32) (t : Table) : Edit → Option (Table × Value)
  | insertAt p v => some (tableInsert t (some p) v, .nil)
  | insert v => some (tableInsert t none v, .nil)
  | append v => (appendToTableLocal hash t v).map fun t => (t, .nil)
  | push v => some (tablePush t v, .nil)
  | removeAt p => some (tableRemove t (some p))
  | remove => some (tableRemove t none)

/-- The list that an edit makes, and what is taken out of it. -/
def Edit.onList (values : List Value) : Edit → List Value × Value
  | insertAt p v => (values.insertIdx (p - 1) v, .nil)
  | insert v => (values ++ [v], .nil)
  | append v => (values ++ [v], .nil)
  | push v => (values ++ [v], .nil)
  | removeAt p => (values.eraseIdx (p - 1), values.getD (p - 1) .nil)
  | remove => (values.dropLast, values.getLastD .nil)

/-- An edit of a list: a value at a position from 1 to one behind the last, or the removal of one. -/
def Edit.Fits (values : List Value) : Edit → Prop
  | insertAt p v => 1 ≤ p ∧ p ≤ values.length + 1 ∧ v ≠ .nil
  | insert v => v ≠ .nil
  | append v => v ≠ .nil
  | push v => v ≠ .nil
  | removeAt p => 1 ≤ p ∧ p ≤ values.length
  | remove => values ≠ []

/-- The positive keys of a table are those from 1 on to the length of the list, with its values. -/
structure Table.IsList (hash : Bytes → UInt32) (t : Table) (values : List Value) : Prop where
  item : ∀ i, i + 1 < 2 ^ 31 → t.element hash i = values.getD i .nil
  value : ∀ v ∈ values, v ≠ .nil

/-- The keys that no edit may change. -/
def KeepsOthers (hash : Bytes → UInt32) (t t' : Table) (n : Nat) : Prop :=
  ∀ k : KeyId, (∀ i, i < n + 1 → k ≠ .number (Double.ofNat (i + 1))) →
    t'.contents hash k = t.contents hash k

/-- The edit makes the list that it should, returns what it takes out and changes no other key. -/
def EditsRight (hash : Bytes → UInt32) (t : Table) (values : List Value) (e : Edit) : Prop :=
  ∃ t', e.run hash t = some (t', (e.onList values).2) ∧ t'.IsList hash (e.onList values).1 ∧
    KeepsOthers hash t t' values.length

/-- Where an edit finds the end of the list, and nothing is behind the value that it sets to nil. -/
def Edit.FindsEnd (hash : Bytes → UInt32) (t : Table) (values : List Value) : Edit → Prop
  | insertAt .. => t.sequenceLength = values.length
  | insert _ => t.sequenceLength = values.length
  | append _ => t.arrayMax = values.length
  | push _ => t.arrayMax = values.length
  | removeAt _ => t.sequenceLength = values.length ∧
    t.hashValue hash (numberKeyString (.ofNat values.length)) = .nil
  | remove => t.sequenceLength = values.length ∧
    t.hashValue hash (numberKeyString (.ofNat values.length)) = .nil

section Shift

variable {t : Table}

/-- Only slots change. -/
structure Rewritten (t t' : Table) (slot : Nat → Value) : Prop where
  count : t'.count = t.count
  entries : t'.entries = t.entries
  slot : ∀ y, t'.slot y = slot y

theorem setOr_first (dst : Nat) {v : Value} (hb : t.Bounded) (hv : v ≠ .nil)
    (hvalues : ∀ x, x < dst → t.slot x ≠ .nil) :
    Rewritten t (setOr t ((dst + 1 : Nat) : Int) v) (Function.update t.slot dst v) ∧
      (setOr t ((dst + 1 : Nat) : Int) v).Bounded := by
  obtain ⟨u, hu, hcount, hentries, hbu, hslot, -⟩ := setArray_first hb hv hvalues
  unfold setOr
  rw [hu, Option.getD_some]
  exact ⟨⟨hcount, hentries, fun y => by rw [hslot, Function.update_apply]⟩, hbu⟩

theorem setOr_slot {i : Nat} (v : Value) (hi : t.slot i ≠ .nil) :
    Rewritten t (setOr t ((i + 1 : Nat) : Int) v) (Function.update t.slot i v) := by
  have hplace : (((i + 1 : Nat) : Int) - 1).toNat = i := by omega
  have htakes : t.takes ((i + 1 : Nat) : Int) = true := takes_of_slot (by omega) (by rwa [hplace])
  obtain ⟨u, hu, hcount, hentries, -, hslot⟩ := tableSetArray_takes v htakes
  unfold setOr
  rw [hu, Option.getD_some]
  exact ⟨hcount, hentries, fun y => by rw [hslot, hplace, Function.update_apply]⟩

theorem tableGetArray_getD (t : Table) (i : Nat) :
    (tableGetArray t ((i + 1 : Nat) : Int)).getD .nil = t.slot i := by
  rw [tableGetArray_succ]
  by_cases hi : t.slot i = .nil
  · rw [if_neg (fun h => h hi), hi]
    rfl
  · rw [if_pos hi, Option.getD_some]

/-- The values from `p` on are one place further. -/
theorem shiftUp_spec {p i : Nat} (hp : p ≤ i) (hb : t.Bounded) (hvalues : ∀ x, x < i → t.slot x ≠ .nil) :
    Rewritten t (shiftUp ((p + 1 : Nat) : Int) i t)
        (fun y => if p < y ∧ y ≤ i then t.slot (y - 1) else t.slot y) ∧
      (shiftUp ((p + 1 : Nat) : Int) i t).Bounded := by
  induction i generalizing t with
  | zero => exact ⟨⟨rfl, rfl, fun y => (if_neg (by omega)).symm⟩, hb⟩
  | succ i ih =>
    unfold shiftUp
    by_cases hge : ((i + 1 : Nat) : Int) ≥ ((p + 1 : Nat) : Int)
    · rw [if_pos hge, tableGetArray_getD]
      obtain ⟨⟨hcount, hentries, hslot⟩, hbu⟩ := setOr_first (i + 1) hb (hvalues i (by omega)) hvalues
      have hu (y : Nat) (hy : y ≠ i + 1) : (setOr t ((i + 1 + 1 : Nat) : Int) (t.slot i)).slot y = t.slot y := by
        rw [hslot, Function.update_of_ne hy]
      obtain ⟨⟨hcount', hentries', hslot'⟩, hb'⟩ := ih (by omega) hbu fun x hx => by
        rw [hu x (by omega)]
        exact hvalues x (by omega)
      refine ⟨⟨hcount'.trans hcount, hentries'.trans hentries, fun y => ?_⟩, hb'⟩
      rw [hslot' y]
      by_cases hy : p < y ∧ y ≤ i
      · rw [if_pos hy, if_pos (by omega), hu _ (by omega)]
      · rw [if_neg hy]
        by_cases hlast : y = i + 1
        · rw [if_pos (by omega), hslot, hlast, Function.update_self]
          rfl
        · rw [if_neg (by omega), hu y hlast]
    · rw [if_neg hge]
      exact ⟨⟨rfl, rfl, fun y => (if_neg (by omega)).symm⟩, hb⟩

theorem shiftDown_spec {n i : Nat} (hvalues : ∀ x, i ≤ x → x ≤ i + n → t.slot x ≠ .nil) :
    Rewritten t (shiftDown n (i + 1) t)
      (fun y => if i ≤ y ∧ y < i + n then t.slot (y + 1) else t.slot y) := by
  induction n generalizing t i with
  | zero => exact ⟨rfl, rfl, fun y => (if_neg (by omega)).symm⟩
  | succ n ih =>
    unfold shiftDown
    rw [tableGetArray_getD]
    obtain ⟨hcount, hentries, hslot⟩ := setOr_slot (t.slot (i + 1)) (hvalues i (by omega) (by omega))
    have hu (y : Nat) (hy : y ≠ i) : (setOr t ((i + 1 : Nat) : Int) (t.slot (i + 1))).slot y = t.slot y := by
      rw [hslot, Function.update_of_ne hy]
    obtain ⟨hcount', hentries', hslot'⟩ := ih (i := i + 1) fun x hx hle => by
      rw [hu x (by omega)]
      exact hvalues x (by omega) (by omega)
    refine ⟨hcount'.trans hcount, hentries'.trans hentries, fun y => ?_⟩
    rw [hslot' y]
    by_cases hy : i + 1 ≤ y ∧ y < i + 1 + n
    · rw [if_pos hy, if_pos (by omega), hu _ (by omega)]
    · rw [if_neg hy]
      by_cases hfirst : y = i
      · rw [if_pos (by omega), hslot, hfirst, Function.update_self]
      · rw [if_neg (by omega), hu y hfirst]

end Shift

section Slots

variable {t : Table}

/-- A value more at `p`, with those of the `n` behind it moved up. -/
def slotsInserted (slot : Nat → Value) (n p : Nat) (v : Value) (y : Nat) : Value :=
  if y = p then v else if p < y ∧ y ≤ n then slot (y - 1) else slot y

theorem tableInsert_at {p : Nat} {v : Value} (hb : t.Bounded) (hv : v ≠ .nil) (hp : p ≤ t.sequenceLength) :
    Rewritten t (setOr (shiftUp ((p + 1 : Nat) : Int) t.sequenceLength t) ((p + 1 : Nat) : Int) v)
      (slotsInserted t.slot t.sequenceLength p v) := by
  obtain ⟨-, hvalues, -⟩ := sequenceLength_spec t
  obtain ⟨⟨hcount, hentries, hslot⟩, hb'⟩ := shiftUp_spec hp hb hvalues
  obtain ⟨⟨hcount', hentries', hslot'⟩, -⟩ := setOr_first p hb' hv fun x hx => by
    rw [hslot, if_neg (by omega)]
    exact hvalues x (by omega)
  refine ⟨hcount'.trans hcount, hentries'.trans hentries, fun y => ?_⟩
  rw [hslot', Function.update_apply, hslot]
  rfl

/-- A position behind the end is the end. -/
theorem tableInsert_spec {v : Value} (hb : t.Bounded) (hv : v ≠ .nil) {p : Nat} (hp : 1 ≤ p) :
    Rewritten t (tableInsert t (some (p : Int)) v)
      (slotsInserted t.slot t.sequenceLength (min (p - 1) t.sequenceLength) v) := by
  have hpos : (if (if (p : Int) < 1 then 1 else (p : Int)) > (t.sequenceLength : Int) + 1 then
      (t.sequenceLength : Int) + 1 else if (p : Int) < 1 then 1 else (p : Int)) =
      ((min (p - 1) t.sequenceLength + 1 : Nat) : Int) := by
    have hfirst : ¬ (p : Int) < 1 := by omega
    simp only [hfirst, if_false]
    by_cases hbehind : (p : Int) > (t.sequenceLength : Int) + 1
    · rw [if_pos hbehind]
      omega
    · rw [if_neg hbehind]
      omega
  unfold tableInsert
  dsimp only
  rw [hpos]
  exact tableInsert_at hb hv (Nat.min_le_right _ _)

theorem tableInsert_end {v : Value} (hb : t.Bounded) (hv : v ≠ .nil) :
    Rewritten t (tableInsert t none v) (slotsInserted t.slot t.sequenceLength t.sequenceLength v) := by
  obtain ⟨-, hvalues, -⟩ := sequenceLength_spec t
  obtain ⟨⟨hcount, hentries, hslot⟩, -⟩ := setOr_first t.sequenceLength hb hv hvalues
  refine ⟨hcount, hentries, fun y => ?_⟩
  unfold slotsInserted
  rw [if_neg (c := t.sequenceLength < y ∧ y ≤ t.sequenceLength) (by omega), ← Function.update_apply]
  exact hslot y

theorem append_spec (hash : Bytes → UInt32) (t : Table) (v : Value) :
    ∃ t', appendToTableLocal hash t v = some t' ∧ Rewritten t t' (Function.update t.slot t.arrayMax v) := by
  have htakes : t.takes ((t.arrayMax + 1 : Nat) : Int) = true := decide_eq_true ⟨by omega, .inl (by omega)⟩
  obtain ⟨u, hu, hcount, hentries, -, hslot⟩ := tableSetArray_takes v htakes
  have hplace : (((t.arrayMax + 1 : Nat) : Int) - 1).toNat = t.arrayMax := by omega
  unfold appendToTableLocal
  dsimp only
  rw [hu]
  exact ⟨u, rfl, hcount, hentries, fun y => by rw [hslot, hplace, Function.update_apply]⟩

theorem push_spec (t : Table) (v : Value) :
    Rewritten t (tablePush t v) (Function.update t.slot t.arrayMax v) :=
  ⟨rfl, rfl, fun y => by rw [tablePush_slot, Function.update_apply]⟩

/-- The value at `p` gone, with those of the `n` behind it moved down. -/
def slotsRemoved (slot : Nat → Value) (n p : Nat) (y : Nat) : Value :=
  if y + 1 = n then .nil else if p ≤ y ∧ y + 1 < n then slot (y + 1) else slot y

theorem tableRemove_spec {p : Nat} (hp : p < t.sequenceLength) :
    (tableRemove t (some ((p + 1 : Nat) : Int))).2 = t.slot p ∧
      Rewritten t (tableRemove t (some ((p + 1 : Nat) : Int))).1 (slotsRemoved t.slot t.sequenceLength p) := by
  obtain ⟨-, hvalues, -⟩ := sequenceLength_spec t
  have hin : ¬ (((p + 1 : Nat) : Int) < 1 ∨ ((p + 1 : Nat) : Int) > (t.sequenceLength : Int)) := by omega
  have hturns : ((t.sequenceLength : Int) - ((p + 1 : Nat) : Int)).toNat = t.sequenceLength - 1 - p := by omega
  obtain ⟨hcount, hentries, hslot⟩ := shiftDown_spec (t := t) (n := t.sequenceLength - 1 - p) (i := p)
    fun x _ hx => hvalues x (by omega)
  obtain ⟨last, hlast⟩ : ∃ last, t.sequenceLength = last + 1 := ⟨t.sequenceLength - 1, by omega⟩
  unfold tableRemove
  dsimp only
  rw [Option.getD_some, if_neg hin, hturns, Int.toNat_natCast]
  refine ⟨tableGetArray_getD t p, ?_⟩
  dsimp only
  have hstill : (shiftDown (t.sequenceLength - 1 - p) (p + 1) t).slot last ≠ .nil := by
    rw [hslot, if_neg (by omega)]
    exact hvalues last (by omega)
  obtain ⟨hcount', hentries', hslot'⟩ := setOr_slot .nil hstill
  rw [← hlast] at hcount' hentries' hslot'
  refine ⟨hcount'.trans hcount, hentries'.trans hentries, fun y => ?_⟩
  rw [hslot', Function.update_apply, hslot]
  unfold slotsRemoved
  by_cases hy : y = last
  · rw [if_pos hy, if_pos (by omega)]
  · rw [if_neg hy, if_neg (c := y + 1 = t.sequenceLength) (by omega)]
    by_cases hrange : p ≤ y ∧ y + 1 < t.sequenceLength
    · rw [if_pos hrange, if_pos (by omega)]
    · rw [if_neg hrange, if_neg (by omega)]

theorem tableRemove_outside {p : Nat} (hp : t.sequenceLength ≤ p) :
    tableRemove t (some ((p + 1 : Nat) : Int)) = (t, .nil) := by
  unfold tableRemove
  dsimp only
  rw [Option.getD_some, if_pos (by omega)]

end Slots

section Lists

variable {hash : Bytes → UInt32} {t t' : Table} {values : List Value} {f : Nat → Value} {p : Nat} {v : Value}

theorem Table.IsList.item_ne (hl : t.IsList hash values) {i : Nat} (hi : i < values.length) :
    values.getD i .nil ≠ .nil := by
  rw [List.getD_eq_getElem?_getD, List.getElem?_eq_getElem hi]
  exact hl.value _ (List.getElem_mem hi)

theorem getD_behind {l : List Value} {i : Nat} (hi : l.length ≤ i) : l.getD i .nil = .nil := by
  rw [List.getD_eq_getElem?_getD, List.getElem?_eq_none hi]
  rfl

theorem Table.IsList.length_le (hl : t.IsList hash values) (hn : values.length + 1 < 2 ^ 31) :
    t.sequenceLength ≤ values.length := by
  obtain ⟨-, hvalues, -⟩ := sequenceLength_spec t
  by_contra hlt
  have hv := hvalues values.length (by omega)
  have hitem := hl.item values.length hn
  rw [element_slot hn hv, getD_behind (Nat.le_refl _)] at hitem
  exact hv hitem

theorem Table.IsList.slot_eq (hl : t.IsList hash values) (hn : values.length + 1 < 2 ^ 31) {i : Nat}
    (hi : i < t.sequenceLength) : t.slot i = values.getD i .nil := by
  have hle := hl.length_le hn
  rw [← hl.item i (by omega), element_slot (by omega) ((sequenceLength_spec t).2.1 i hi)]

theorem Table.IsList.of_elements {n : Nat} (hvalues : ∀ v ∈ t.elements hash n, v ≠ .nil)
    (hbehind : ∀ i, n ≤ i → i + 1 < 2 ^ 31 → t.element hash i = .nil) :
    t.IsList hash (t.elements hash n) := by
  refine ⟨fun i hi => ?_, hvalues⟩
  by_cases hlt : i < n
  · rw [List.getD_eq_getElem?_getD, Table.elements, List.getElem?_map, List.getElem?_range hlt,
      Option.map_some, Option.getD_some]
  · rw [hbehind i (by omega) hi, getD_behind (by rw [length_elements]; omega)]

/-- The elements after slots have changed. -/
theorem Rewritten.element (hw : Rewritten t t' f) (ht : Formed hash t) {i : Nat} (hi : i + 1 < 2 ^ 31) :
    t'.element hash i =
      if f i = .nil then t.hashValue hash (numberKeyString (.ofNat (i + 1))) else f i := by
  obtain ⟨h, hr⟩ := ht.represents
  have hsame := hashValue_congr hr (hr.of_hash hw.count hw.entries) (numberKeyString (.ofNat (i + 1)))
  rw [element_eq hi, hw.slot, hsame]

theorem Rewritten.element_same (hw : Rewritten t t' f) (ht : Formed hash t) {i : Nat} (hi : i + 1 < 2 ^ 31)
    (hf : f i = t.slot i) : t'.element hash i = t.element hash i := by
  rw [hw.element ht hi, hf, element_eq hi]

theorem Rewritten.element_value (hw : Rewritten t t' f) (ht : Formed hash t) {i : Nat} (hi : i + 1 < 2 ^ 31)
    {v : Value} (hf : f i = v) (hv : v ≠ .nil) : t'.element hash i = v := by
  rw [hw.element ht hi, hf, if_neg hv]

theorem Rewritten.others (hw : Rewritten t t' f) (ht : Formed hash t) {n : Nat}
    (hf : ∀ y, n ≤ y → f y = t.slot y) {k : KeyId} (hk : ∀ i, i < n → k ≠ .number (Double.ofNat (i + 1))) :
    t'.contents hash k = t.contents hash k := by
  obtain ⟨h, hr⟩ := ht.represents
  exact contents_behind (fun y hy => by rw [hw.slot, hf y hy])
    (hashValue_congr hr (hr.of_hash hw.count hw.entries)) hk

/-- A value more, where the values behind it are in slots. -/
theorem Rewritten.inserted (hw : Rewritten t t' (slotsInserted t.slot values.length p v)) (ht : Formed hash t)
    (hl : t.IsList hash values) (hp : p ≤ values.length) (hv : v ≠ .nil)
    (hmoved : ∀ i, p ≤ i → i < values.length → t.slot i = values.getD i .nil) :
    t'.IsList hash (values.insertIdx p v) := by
  refine ⟨fun i hi => ?_, fun w hw' => ?_⟩
  · rw [List.getD_eq_getElem?_getD]
    rcases Nat.lt_trichotomy i p with hlt | heq | hgt
    · have hf : slotsInserted t.slot values.length p v i = t.slot i := by
        unfold slotsInserted
        rw [if_neg (by omega), if_neg (by omega)]
      rw [hw.element_same ht hi hf, hl.item i hi, List.getElem?_insertIdx_of_lt hlt,
        List.getD_eq_getElem?_getD]
    · have hf : slotsInserted t.slot values.length p v i = v := if_pos heq
      rw [hw.element_value ht hi hf hv, heq, List.getElem?_insertIdx_self, if_pos hp]
      rfl
    · rw [List.getElem?_insertIdx_of_gt hgt, ← List.getD_eq_getElem?_getD]
      by_cases hle : i ≤ values.length
      · have hf : slotsInserted t.slot values.length p v i = values.getD (i - 1) .nil := by
          unfold slotsInserted
          rw [if_neg (by omega), if_pos ⟨hgt, hle⟩, hmoved (i - 1) (by omega) (by omega)]
        exact hw.element_value ht hi hf (hl.item_ne (by omega))
      · have hf : slotsInserted t.slot values.length p v i = t.slot i := by
          unfold slotsInserted
          rw [if_neg (by omega), if_neg (by omega)]
        rw [hw.element_same ht hi hf, hl.item i hi, getD_behind (by omega), getD_behind (by omega)]
  · rcases List.eq_or_mem_of_mem_insertIdx hw' with heq | hmem
    · rwa [heq]
    · exact hl.value w hmem

/-- The value at `p` gone. -/
theorem Rewritten.removed (hw : Rewritten t t' (slotsRemoved t.slot values.length p)) (ht : Formed hash t)
    (hl : t.IsList hash values) (hp : p < values.length)
    (hmoved : ∀ i, p ≤ i → i < values.length → t.slot i = values.getD i .nil)
    (hhash : t.hashValue hash (numberKeyString (.ofNat values.length)) = .nil) :
    t'.IsList hash (values.eraseIdx p) := by
  refine ⟨fun i hi => ?_, fun w hw' => hl.value w (List.mem_of_mem_eraseIdx hw')⟩
  rw [List.getD_eq_getElem?_getD]
  by_cases hlt : i < p
  · have hf : slotsRemoved t.slot values.length p i = t.slot i := by
      unfold slotsRemoved
      rw [if_neg (by omega), if_neg (by omega)]
    rw [hw.element_same ht hi hf, hl.item i hi, List.getElem?_eraseIdx_of_lt hlt,
      List.getD_eq_getElem?_getD]
  · rw [List.getElem?_eraseIdx_of_ge (by omega), ← List.getD_eq_getElem?_getD]
    rcases Nat.lt_trichotomy (i + 1) values.length with hinside | hlast | hbehind
    · have hf : slotsRemoved t.slot values.length p i = values.getD (i + 1) .nil := by
        unfold slotsRemoved
        rw [if_neg (by omega), if_pos (by omega), hmoved (i + 1) (by omega) hinside]
      exact hw.element_value ht hi hf (hl.item_ne hinside)
    · have hf : slotsRemoved t.slot values.length p i = .nil := if_pos hlast
      rw [hw.element ht hi, if_pos hf, hlast, hhash, getD_behind (Nat.le_refl _)]
    · have hf : slotsRemoved t.slot values.length p i = t.slot i := by
        unfold slotsRemoved
        rw [if_neg (by omega), if_neg (by omega)]
      rw [hw.element_same ht hi hf, hl.item i hi, getD_behind (by omega), getD_behind (by omega)]

/-- Without a change behind the list it gets no longer. -/
theorem Rewritten.not_longer (hw : Rewritten t t' f) (ht : Formed hash t) (hl : t.IsList hash values)
    (hn : values.length + 1 < 2 ^ 31) (hf : f values.length = t.slot values.length) {values' : List Value}
    (hlen : values'.length = values.length + 1) : ¬ t'.IsList hash values' := by
  intro hl'
  have hitem := hl'.item values.length hn
  rw [hw.element_same ht hn hf, hl.item _ hn, getD_behind (Nat.le_refl _)] at hitem
  exact hl'.item_ne (by omega) hitem.symm

/-- Without a change of the last value it gets no shorter. -/
theorem Rewritten.not_shorter (hw : Rewritten t t' f) (ht : Formed hash t) (hl : t.IsList hash values)
    (hn : values.length + 1 < 2 ^ 31) {last : Nat} (hlast : values.length = last + 1)
    (hf : f last = t.slot last) {values' : List Value} (hlen : values'.length = last) :
    ¬ t'.IsList hash values' := by
  intro hl'
  have hitem := hl'.item last (by omega)
  rw [hw.element_same ht (by omega) hf, hl.item _ (by omega), getD_behind (l := values') (by omega)] at hitem
  exact hl.item_ne (by omega) hitem

theorem update_eq_slotsInserted (slot : Nat → Value) (n : Nat) (v : Value) :
    Function.update slot n v = slotsInserted slot n n v := by
  funext y
  unfold slotsInserted
  rw [Function.update_apply, if_neg (c := n < y ∧ y ≤ n) (by omega)]

theorem slotsInserted_behind (slot : Nat → Value) {n p y : Nat} (v : Value) (hp : p ≤ n) (hy : n < y) :
    slotsInserted slot n p v y = slot y := by
  unfold slotsInserted
  rw [if_neg (by omega), if_neg (by omega)]

theorem slotsRemoved_behind (slot : Nat → Value) {n p y : Nat} (hy : n ≤ y) :
    slotsRemoved slot n p y = slot y := by
  unfold slotsRemoved
  rw [if_neg (by omega), if_neg (by omega)]

end Lists

section Edits

variable {hash : Bytes → UInt32} {t t' : Table} {values : List Value} {p : Nat} {v : Value}

theorem Rewritten.inserts (hw : Rewritten t t' (slotsInserted t.slot values.length p v)) (ht : Formed hash t)
    (hl : t.IsList hash values) (hp : p ≤ values.length) (hv : v ≠ .nil)
    (hmoved : ∀ i, p ≤ i → i < values.length → t.slot i = values.getD i .nil) :
    t'.IsList hash (values.insertIdx p v) ∧ KeepsOthers hash t t' values.length := by
  refine ⟨hw.inserted ht hl hp hv hmoved, fun k hk => hw.others ht (fun y hy => ?_) hk⟩
  exact slotsInserted_behind t.slot v hp (by omega)

theorem insertAt_iff (ht : Formed hash t) (hl : t.IsList hash values) (hn : values.length + 1 < 2 ^ 31)
    (hp : 1 ≤ p) (hle : p ≤ values.length + 1) (hv : v ≠ .nil) :
    (tableInsert t (some (p : Int)) v).IsList hash (values.insertIdx (p - 1) v) ∧
      KeepsOthers hash t (tableInsert t (some (p : Int)) v) values.length ↔
        t.sequenceLength = values.length := by
  have hlen := hl.length_le hn
  have hw := tableInsert_spec ht.bounded hv hp (t := t)
  by_cases hm : t.sequenceLength = values.length
  · rw [Nat.min_eq_left (by omega)] at hw
    rw [hm] at hw
    have h := hw.inserts ht hl (by omega) hv fun i _ hi => hl.slot_eq hn (by omega)
    exact iff_of_true h hm
  · have hf : slotsInserted t.slot t.sequenceLength (min (p - 1) t.sequenceLength) v values.length =
        t.slot values.length := slotsInserted_behind t.slot v (Nat.min_le_right _ _) (by omega)
    have hlonger : (values.insertIdx (p - 1) v).length = values.length + 1 := by
      rw [List.length_insertIdx, if_pos (by omega)]
    exact iff_of_false (fun h => hw.not_longer ht hl hn hf hlonger h.1) hm

theorem insertEnd_iff (ht : Formed hash t) (hl : t.IsList hash values) (hn : values.length + 1 < 2 ^ 31)
    {m : Nat} (hw : Rewritten t t' (Function.update t.slot m v)) (hv : v ≠ .nil) :
    t'.IsList hash (values ++ [v]) ∧ KeepsOthers hash t t' values.length ↔ m = values.length := by
  rw [← List.insertIdx_length_self]
  by_cases hm : m = values.length
  · rw [update_eq_slotsInserted, hm] at hw
    have h := hw.inserts ht hl (Nat.le_refl _) hv fun i hi hlt => absurd hi (by omega)
    exact iff_of_true h hm
  · have hf : Function.update t.slot m v values.length = t.slot values.length :=
      Function.update_of_ne (Ne.symm hm) _ _
    have hlonger : (values.insertIdx values.length v).length = values.length + 1 := by
      rw [List.length_insertIdx, if_pos (Nat.le_refl _)]
    exact iff_of_false (fun h => hw.not_longer ht hl hn hf hlonger h.1) hm

/-- What is left, and what is taken out, by a removal at a position that the edit finds in the list. -/
theorem removes_iff (ht : Formed hash t) (hl : t.IsList hash values) (hn : values.length + 1 < 2 ^ 31)
    (hp : p < t.sequenceLength) :
    (tableRemove t (some ((p + 1 : Nat) : Int))).1.IsList hash (values.eraseIdx p) ∧
      KeepsOthers hash t (tableRemove t (some ((p + 1 : Nat) : Int))).1 values.length ↔
        t.sequenceLength = values.length ∧
          t.hashValue hash (numberKeyString (.ofNat values.length)) = .nil := by
  have hlen := hl.length_le hn
  obtain ⟨last, hlast⟩ : ∃ last, values.length = last + 1 := ⟨values.length - 1, by omega⟩
  obtain ⟨-, hw⟩ := tableRemove_spec hp
  have hshorter : (values.eraseIdx p).length = last := by
    rw [List.length_eraseIdx, if_pos (by omega), hlast]
    rfl
  by_cases hm : t.sequenceLength = values.length
  · rw [hm] at hw
    constructor
    · intro h
      refine ⟨hm, ?_⟩
      have hitem := h.1.item last (by omega)
      have hf : slotsRemoved t.slot values.length p last = .nil := if_pos hlast.symm
      rwa [hw.element ht (by omega), if_pos hf, ← hlast, getD_behind (by omega)] at hitem
    · intro h
      refine ⟨hw.removed ht hl (by omega) (fun i _ hi => hl.slot_eq hn (by omega)) h.2,
        fun k hk => hw.others ht (fun y hy => ?_) hk⟩
      exact slotsRemoved_behind t.slot (by omega)
  · have hf : slotsRemoved t.slot t.sequenceLength p last = t.slot last := slotsRemoved_behind t.slot (by omega)
    exact iff_of_false (fun h => hw.not_shorter ht hl hn hlast hf hshorter h.1) fun h => hm h.1

/-- A run that ends. -/
theorem editsRight_of_run {e : Edit} {out : Value} (hrun : e.run hash t = some (t', out)) :
    EditsRight hash t values e ↔ out = (e.onList values).2 ∧ t'.IsList hash (e.onList values).1 ∧
      KeepsOthers hash t t' values.length := by
  unfold EditsRight
  rw [hrun]
  constructor
  · rintro ⟨u, hu, hl, hk⟩
    obtain ⟨rfl, rfl⟩ := Prod.mk.inj (Option.some.inj hu)
    exact ⟨rfl, hl, hk⟩
  · rintro ⟨hout, hl, hk⟩
    exact ⟨t', by rw [hout], hl, hk⟩

theorem removeAt_iff (ht : Formed hash t) (hl : t.IsList hash values) (hn : values.length + 1 < 2 ^ 31)
    (hp : p < values.length) :
    (tableRemove t (some ((p + 1 : Nat) : Int))).2 = values.getD p .nil ∧
      (tableRemove t (some ((p + 1 : Nat) : Int))).1.IsList hash (values.eraseIdx p) ∧
      KeepsOthers hash t (tableRemove t (some ((p + 1 : Nat) : Int))).1 values.length ↔
        t.sequenceLength = values.length ∧
          t.hashValue hash (numberKeyString (.ofNat values.length)) = .nil := by
  by_cases hin : p < t.sequenceLength
  · have hout : (tableRemove t (some ((p + 1 : Nat) : Int))).2 = values.getD p .nil := by
      rw [(tableRemove_spec hin).1, hl.slot_eq hn hin]
    rw [← removes_iff ht hl hn hin]
    exact ⟨fun h => h.2, fun h => ⟨hout, h⟩⟩
  · have hout : (tableRemove t (some ((p + 1 : Nat) : Int))).2 = .nil := by
      rw [tableRemove_outside (by omega)]
    refine iff_of_false (fun h => ?_) fun h => by omega
    exact hl.item_ne hp (h.1.symm.trans hout)

theorem tableRemove_none (t : Table) :
    tableRemove t none = tableRemove t (some (t.sequenceLength : Int)) :=
  rfl

theorem removeLast_iff (ht : Formed hash t) (hl : t.IsList hash values) (hn : values.length + 1 < 2 ^ 31)
    (hne : values ≠ []) :
    (tableRemove t none).2 = values.getLastD .nil ∧
      (tableRemove t none).1.IsList hash values.dropLast ∧
      KeepsOthers hash t (tableRemove t none).1 values.length ↔
        t.sequenceLength = values.length ∧
          t.hashValue hash (numberKeyString (.ofNat values.length)) = .nil := by
  have hlen := hl.length_le hn
  have hpos : 0 < values.length := List.length_pos_iff.mpr hne
  obtain ⟨last, hlast⟩ : ∃ last, values.length = last + 1 := ⟨values.length - 1, by omega⟩
  have hgetLast : values.getLastD .nil = values.getD last .nil := by
    rw [List.getLastD_eq_getLast?, List.getLast?_eq_getElem?, List.getD_eq_getElem?_getD, hlast]
    rfl
  have hdrop : values.dropLast = values.eraseIdx last := (List.eraseIdx_eq_dropLast hlast.symm).symm
  rw [tableRemove_none]
  by_cases hm : t.sequenceLength = values.length
  · have h := removeAt_iff ht hl hn (p := last) (by omega)
    rw [← hlast, ← hm] at h
    rw [hgetLast, hdrop, ← hm]
    exact h
  · refine iff_of_false (fun h => ?_) fun h => hm h.1
    by_cases hzero : t.sequenceLength = 0
    · have hout : (tableRemove t (some (t.sequenceLength : Int))).2 = .nil := by
        unfold tableRemove
        dsimp only
        rw [Option.getD_some, if_pos (by omega)]
      rw [hout, hgetLast] at h
      exact hl.item_ne (by omega) h.1.symm
    · obtain ⟨end', hend⟩ : ∃ end', t.sequenceLength = end' + 1 := ⟨t.sequenceLength - 1, by omega⟩
      obtain ⟨-, hw⟩ := tableRemove_spec (t := t) (p := end') (by omega)
      rw [hend] at h
      have hf : slotsRemoved t.slot t.sequenceLength end' last = t.slot last :=
        slotsRemoved_behind t.slot (by omega)
      exact hw.not_shorter ht hl hn hlast hf (by rw [List.length_dropLast]; omega) h.2.1

/-- Every edit makes the list that it should exactly where the end that it finds is the end of the list, and
a removal where no value in the hash part has waited behind the last one. -/
theorem editsRight_iff (ht : Formed hash t) (hl : t.IsList hash values) (hn : values.length + 1 < 2 ^ 31)
    {e : Edit} (he : e.Fits values) : EditsRight hash t values e ↔ e.FindsEnd hash t values := by
  cases e with
  | insertAt p v =>
    obtain ⟨hp, hle, hv⟩ := he
    rw [editsRight_of_run rfl]
    exact (and_iff_right rfl).trans (insertAt_iff ht hl hn hp hle hv)
  | insert v =>
    rw [editsRight_of_run rfl]
    have hw := tableInsert_end ht.bounded he (t := t)
    rw [← update_eq_slotsInserted] at hw
    exact (and_iff_right rfl).trans (insertEnd_iff ht hl hn hw he)
  | append v =>
    obtain ⟨t', hrun, hw⟩ := append_spec hash t v
    have hrun' : (Edit.append v).run hash t = some (t', .nil) :=
      congrArg (Option.map fun t => (t, Value.nil)) hrun
    rw [editsRight_of_run hrun']
    exact (and_iff_right rfl).trans (insertEnd_iff ht hl hn hw he)
  | push v =>
    rw [editsRight_of_run rfl]
    exact (and_iff_right rfl).trans (insertEnd_iff ht hl hn (push_spec t v) he)
  | removeAt p =>
    obtain ⟨hp, hle⟩ := he
    obtain ⟨p, rfl⟩ : ∃ q, p = q + 1 := ⟨p - 1, by omega⟩
    rw [editsRight_of_run rfl]
    exact removeAt_iff ht hl hn (by omega)
  | remove =>
    rw [editsRight_of_run rfl]
    exact removeLast_iff ht hl hn he

end Edits

namespace SampleTable

theorem unsorted_hashValue {i : Nat} (hi : i + 1 < 2 ^ 31) (hne : i ≠ 1) :
    unsorted.hashValue host.hash (numberKeyString (.ofNat (i + 1))) = .nil := by
  have hset : tableSet host.hash initTable [0x1F, 110, 50] (.number one) =
      some (⟨1, unsorted.entries, 1, [], 0⟩, true) := by decide
  have hinit : initTable.Represents host.hash fun _ => none := initTable_represents
  obtain ⟨t, ht, hr, -⟩ := tableSet_spec hinit [0x1F, 110, 50] (.number one)
  rw [hset] at ht
  obtain ⟨rfl, -⟩ := Prod.mk.inj (Option.some.inj ht)
  have hr' : unsorted.Represents host.hash _ := hr.of_hash rfl rfl
  have hkey : numberKeyString (.ofNat (i + 1)) ≠ [0x1F, 110, 50] := by
    intro hkey
    have htwo : numberKeyString (.ofNat (1 + 1)) = [0x1F, 110, 50] := by decide +kernel
    have hplace := place_of_numberKeyString (hkey.trans htwo.symm)
    rw [place_ofNat hi, place_ofNat (by decide)] at hplace
    exact hne (Option.some.inj hplace)
  rw [hashValue_eq hr', Function.update_of_ne hkey]
  rfl

theorem unsorted_list : unsorted.IsList host.hash [.number two, .number one] := by
  rw [← unsorted_elements]
  refine Table.IsList.of_elements (fun v hv => ?_) fun i hle hi => ?_
  · rw [unsorted_elements] at hv
    obtain rfl | rfl := numbers_two_one hv
    · exact fun h => nomatch h
    · exact fun h => nomatch h
  · have hslot : unsorted.slot i = .nil := by
      exact getD_append_replicate [.number two] 7 i |>.trans (getD_behind (by simp; omega))
    rw [element_eq hi, if_pos hslot, unsorted_hashValue hi (by omega)]

/-- The 1 of `t[2]` is lost: the end is taken to be behind `t[1]`. -/
theorem unsorted_insert_loses : unsorted.IsList host.hash [.number two, .number one] ∧
    (Edit.insert (.bool true)).Fits [.number two, .number one] ∧
    ¬ EditsRight host.hash unsorted [.number two, .number one] (.insert (.bool true)) := by
  have hfits : (Edit.insert (.bool true)).Fits [.number two, .number one] := by
    intro h
    cases h
  refine ⟨unsorted_list, hfits, ?_⟩
  intro h
  obtain ⟨t', hrun, hl, -⟩ := h
  obtain ⟨rfl, -⟩ := Prod.mk.inj (Option.some.inj hrun)
  have hitem := hl.item 2 (by decide)
  revert hitem
  decide +kernel

theorem descending_list : descending.IsList host.hash [.number two, .number one] := by
  have hhash (s : Bytes) : descending.hashValue host.hash s = .nil := by
    have hr : descending.Represents host.hash _ := initTable_represents.of_hash rfl rfl
    rw [hashValue_eq hr]
    rfl
  rw [← descending_elements]
  refine Table.IsList.of_elements (fun v hv => ?_) fun i hle hi => ?_
  · rw [descending_elements] at hv
    obtain rfl | rfl := numbers_two_one hv
    · exact fun h => nomatch h
    · exact fun h => nomatch h
  · have hslot : descending.slot i = .nil := by
      exact getD_append_replicate [.number two, .number one] 6 i |>.trans (getD_behind (by simp; omega))
    rw [element_eq hi, if_pos hslot, hhash]

/-- `[2, true, 1]` -/
theorem descending_insert : EditsRight host.hash descending [.number two, .number one] (.insertAt 2 (.bool true)) :=
  have hv : Value.bool true ≠ .nil := by
    intro h
    cases h
  (editsRight_iff (e := .insertAt 2 (.bool true)) descending_formed descending_list (by decide)
    ⟨by decide, by decide, hv⟩).mpr descending_sequenceLength

end SampleTable

end ToiLang
