import ToiLang.Contents

namespace ToiLang

section Append

variable (hash : Bytes → UInt32)

/-- The search for the first index from `i` on that has no value; no place is behind the array. -/
def firstFree (t : Table) : Nat → Nat → Nat
  | 0, i => i
  | fuel + 1, i => if (tableGetArray t i).isSome then firstFree t fuel (i + 1) else i

/-- `len_a` and `len_b`. -/
def Table.sequenceLength (t : Table) : Nat := firstFree t t.arrayCapacity 1 - 1

/-- The loop of `table_add_local` that copies the values from index `i` on behind `offset` others. -/
def copyArray (t : Table) (offset : Nat) : Nat → Nat → Table → Table
  | 0, _, result => result
  | n + 1, i, result =>
    let val := (tableGetArray t i).getD .nil
    copyArray t offset n (i + 1) ((tableSetArray result ((offset + i : Nat) : Int) val).getD result)

def tableAddLocal (ta tb result : Table) : Option Table := do
  let result := copyArray ta 0 ta.sequenceLength 1 result
  let result := copyArray tb ta.sequenceLength tb.sequenceLength 1 result
  let result ← tableAddAll hash ta result
  tableAddAll hash tb result

/-- The loop of `table_add_inplace_local` that reads from the table at `b` and writes to the one at
`a`; none where it does not end. -/
def appendFrom (a b : Nat) : Nat → (Nat → Table) → Nat → Nat → Option (Nat → Table)
  | 0, _, _, _ => none
  | fuel + 1, tables, dst, src =>
    match tableGetArray (tables b) src with
    | none => some tables
    | some val =>
      match tableSetArray (tables a) dst val with
      | some t => appendFrom a b fuel (Function.update tables a t) (dst + 1) (src + 1)
      | none => do
        let (t, _) ← tableSet hash (tables a) (numberKeyString (.ofNat dst)) val
        appendFrom a b fuel (Function.update tables a t) (dst + 1) (src + 1)

/-- `table_add_all` on tables that may be the same one. -/
def addAllFrom (a b : Nat) : Nat → (Nat → Table) → Nat → Option (Nat → Table)
  | 0, _, _ => none
  | fuel + 1, tables, i =>
    match (tables b).entries[i]? with
    | none => some tables
    | some entry => do
      let t ← addEntry hash (tables a) entry
      addAllFrom a b fuel (Function.update tables a t) (i + 1)

def tableAddInplaceLocal (fuel : Nat) (tables : Nat → Table) (a b : Nat) : Option (Nat → Table) := do
  let tables ← appendFrom hash a b fuel tables (firstFree (tables a) (tables a).arrayCapacity 1) 1
  addAllFrom hash a b fuel tables 0

/-- `a += b` ends, makes `a` what `a + b` was and leaves the other tables. -/
def AppendsSum (tables : Nat → Table) (a b : Nat) : Prop :=
  ∃ fuel tables' sum, tableAddInplaceLocal hash fuel tables a b = some tables' ∧
    tableAddLocal hash (tables a) (tables b) initTable = some sum ∧
    (∀ k, (tables' a).contents hash k = sum.contents hash k) ∧
    ∀ c, c ≠ a → tables' c = tables c

/-- What the hash part of the sum has for a key. -/
def sumHashValue (ta tb : Table) (s : Bytes) : Value :=
  match tableGet hash tb s with
  | some (some v) => v
  | _ => ta.hashValue hash s

/-- Each value that the array part of `ta` has behind both sequences is also in the hash part. -/
def NothingBehind (ta tb : Table) : Prop :=
  ∀ (k : KeyId) (i : Nat), k.place = some i → ta.sequenceLength + tb.sequenceLength ≤ i →
    ta.slot i ≠ .nil → sumHashValue hash ta tb k.label.2 = ta.slot i

/-- `table.push`: a value, be it nil, behind the highest index. -/
def tablePush (t : Table) (value : Value) : Table :=
  { t with array := (growArray t.array t.arrayMax).set t.arrayMax value, arrayMax := t.arrayMax + 1 }

/-- `table.reserve`: room for `n` indices. -/
def tableReserve (t : Table) (n : Nat) : Table :=
  if n ≤ t.arrayCapacity then t
  else
    let newCapacity := arrayGrowth (n - 1) n (if t.arrayCapacity = 0 then 8 else t.arrayCapacity)
    { t with array := t.array ++ List.replicate (newCapacity - t.arrayCapacity) .nil }

/-- The tables that the operations on the two parts lead to. -/
inductive Formed : Table → Prop
  | init : Formed initTable
  | set {t t' : Table} {key : Bytes} {value : Value} {isNewKey : Bool} (h : Formed t)
      (hs : tableSet hash t key value = some (t', isNewKey)) : Formed t'
  | delete {t t' : Table} {key : Bytes} {found : Bool} (h : Formed t)
      (hs : tableDelete hash t key = some (t', found)) : Formed t'
  | setArray {t t' : Table} {index : Int} {value : Value} (h : Formed t)
      (hs : tableSetArray t index value = some t') : Formed t'
  | push {t : Table} {value : Value} (h : Formed t) : Formed (tablePush t value)
  | reserve {t : Table} {n : Nat} (h : Formed t) : Formed (tableReserve t n)

end Append

/-- No value of the array part is behind `array_max`. -/
def Table.Bounded (t : Table) : Prop := ∀ i, t.slot i ≠ .nil → i < t.arrayMax

section Formed

variable {hash : Bytes → UInt32} {t t' : Table}

theorem slot_of_array (h : t'.array = t.array) : t'.slot = t.slot := by
  unfold Table.slot
  rw [h]

/-- The search for the highest index stops at the last value below where it starts. -/
theorem lt_lastIndex {array : List Value} {n i : Nat} (hi : i < n) (hv : array.getD i .nil ≠ .nil) :
    i < lastIndex array n := by
  induction n with
  | zero => omega
  | succ n ih =>
    unfold lastIndex
    split
    next hnil =>
      refine ih ?_
      rcases Nat.lt_or_eq_of_le (Nat.le_of_lt_succ hi) with hlt | rfl
      · exact hlt
      · rw [List.getD_eq_getElem?_getD, hnil.2] at hv
        exact absurd rfl hv
    next => exact hi

theorem Table.Bounded.setArray {index : Int} {value : Value} (hb : t.Bounded)
    (hs : tableSetArray t index value = some t') : t'.Bounded := by
  have htakes : t.takes index = true := by
    by_contra hn
    rw [tableSetArray_leaves value (Bool.eq_false_iff.mpr hn)] at hs
    cases hs
  obtain ⟨u, hu, -, -, -, hslot⟩ := tableSetArray_takes value htakes
  rw [hu] at hs
  cases hs
  have h1 : 1 ≤ index := (of_decide_eq_true htakes).1
  intro i hi
  by_cases hv : value = .nil
  · subst hv
    rw [hslot i] at hi
    by_cases hidx : i = (index - 1).toNat
    · rw [if_pos hidx] at hi
      exact absurd rfl hi
    · have hold := hi
      rw [if_neg hidx] at hold
      have hlt := hb i hold
      have hcell : t'.array.getD i .nil ≠ .nil := by
        rw [← hslot i] at hi
        exact hi
      have hroom := (of_decide_eq_true htakes).2
      have hfits : ¬(index > t.arrayMax + 1 ∧ index > t.arrayCapacity) := by omega
      unfold tableSetArray at hu
      dsimp only at hu
      rw [if_neg (by omega), if_neg hfits, if_neg (fun h => h rfl)] at hu
      cases Option.some.inj hu
      dsimp only at hcell ⊢
      split
      next hmax => exact lt_lastIndex (by omega) hcell
      next => exact hlt
  · rw [arrayMax_set hv hu]
    rw [hslot i] at hi
    by_cases hidx : i = (index - 1).toNat
    · omega
    · rw [if_neg hidx] at hi
      have hlt := hb i hi
      omega

theorem tablePush_slot (t : Table) (value : Value) (i : Nat) :
    (tablePush t value).slot i = if i = t.arrayMax then value else t.slot i := by
  obtain ⟨hlt, hsame⟩ := growArray_spec t.array t.arrayMax
  unfold tablePush Table.slot
  dsimp only
  rw [List.getD_eq_getElem?_getD, List.getElem?_set]
  by_cases hi : i = t.arrayMax
  · rw [if_pos hi.symm, if_pos hlt, if_pos hi]
    rfl
  · rw [if_neg (Ne.symm hi), if_neg hi, ← List.getD_eq_getElem?_getD, hsame]

theorem Table.Bounded.push (hb : t.Bounded) (value : Value) : (tablePush t value).Bounded := by
  intro i hi
  change i < t.arrayMax + 1
  rw [tablePush_slot] at hi
  by_cases hlast : i = t.arrayMax
  · omega
  · rw [if_neg hlast] at hi
    have hlt := hb i hi
    omega

theorem tableReserve_spec (t : Table) (n : Nat) :
    (tableReserve t n).count = t.count ∧ (tableReserve t n).entries = t.entries ∧
      (tableReserve t n).arrayMax = t.arrayMax ∧ ∀ i, (tableReserve t n).slot i = t.slot i := by
  unfold tableReserve
  by_cases hn : n ≤ t.arrayCapacity
  · rw [if_pos hn]
    exact ⟨rfl, rfl, rfl, fun _ => rfl⟩
  · rw [if_neg hn]
    refine ⟨rfl, rfl, rfl, fun i => ?_⟩
    unfold Table.slot
    exact getD_append_replicate _ _ _

theorem Formed.represents (h : Formed hash t) : ∃ m, t.Represents hash m := by
  induction h with
  | init => exact ⟨_, initTable_represents⟩
  | set _ hs ih =>
    obtain ⟨m, hm⟩ := ih
    obtain ⟨u, hu, hr, -⟩ := tableSet_spec hm _ _
    rw [hu] at hs
    cases hs
    exact ⟨_, hr⟩
  | delete _ hs ih =>
    obtain ⟨m, hm⟩ := ih
    obtain ⟨u, hu, hr, -⟩ := tableDelete_spec hm _
    rw [hu] at hs
    cases hs
    exact ⟨_, hr⟩
  | @setArray t t' index value _ hs ih =>
    obtain ⟨m, hm⟩ := ih
    have htakes : t.takes index = true := by
      by_contra hn
      rw [tableSetArray_leaves value (Bool.eq_false_iff.mpr hn)] at hs
      cases hs
    obtain ⟨u, hu, hcount, hentries, -⟩ := tableSetArray_takes value htakes
    rw [hu] at hs
    cases hs
    exact ⟨m, hm.of_hash hcount hentries⟩
  | push _ ih =>
    obtain ⟨m, hm⟩ := ih
    exact ⟨m, hm.of_hash rfl rfl⟩
  | @reserve t n _ ih =>
    obtain ⟨m, hm⟩ := ih
    obtain ⟨hcount, hentries, -⟩ := tableReserve_spec t n
    exact ⟨m, hm.of_hash hcount hentries⟩

end Formed

theorem Formed.bounded {hash : Bytes → UInt32} {t : Table} (h : Formed hash t) : t.Bounded := by
  induction h with
  | init => exact fun i hi => absurd rfl hi
  | set h hs ih =>
    obtain ⟨m, hm⟩ := h.represents
    obtain ⟨u, hu, -, -, harray, hmax⟩ := tableSet_spec hm _ _
    rw [hu] at hs
    cases hs
    unfold Table.Bounded
    rwa [slot_of_array harray, hmax]
  | delete h hs ih =>
    obtain ⟨m, hm⟩ := h.represents
    obtain ⟨u, hu, -, harray, hmax, -⟩ := tableDelete_spec hm _
    rw [hu] at hs
    cases hs
    unfold Table.Bounded
    rwa [slot_of_array harray, hmax]
  | setArray _ hs ih => exact ih.setArray hs
  | push _ ih => exact ih.push _
  | @reserve t n _ ih =>
    obtain ⟨-, -, hmax, hslot⟩ := tableReserve_spec t n
    intro i hi
    rw [hslot] at hi
    rw [hmax]
    exact ih i hi

section Sequence

variable {t r : Table}

theorem slot_behind {i : Nat} (h : t.arrayCapacity ≤ i) : t.slot i = .nil := by
  unfold Table.slot
  rw [List.getD_eq_getElem?_getD, List.getElem?_eq_none h]
  rfl

theorem tableGetArray_succ (t : Table) (i : Nat) :
    tableGetArray t ((i + 1 : Nat) : Int) = if t.slot i ≠ .nil then some (t.slot i) else none := by
  have hi : (((i + 1 : Nat) : Int) - 1).toNat = i := by omega
  have h1 : (1 : Int) ≤ ((i + 1 : Nat) : Int) := by omega
  rw [tableGetArray_eq, hi]
  simp only [h1, true_and]

theorem firstFree_spec {fuel i : Nat} (hcap : t.arrayCapacity ≤ fuel + i)
    (hvalues : ∀ x, x < i → t.slot x ≠ .nil) :
    ∃ n, firstFree t fuel (i + 1) = n + 1 ∧ (∀ x, x < n → t.slot x ≠ .nil) ∧ t.slot n = .nil := by
  induction fuel generalizing i with
  | zero => exact ⟨i, rfl, hvalues, slot_behind (by omega)⟩
  | succ fuel ih =>
    unfold firstFree
    rw [tableGetArray_succ]
    by_cases hv : t.slot i = .nil
    · exact ⟨i, by simp [hv], hvalues, hv⟩
    · simp only [ne_eq, hv, not_false_eq_true, ↓reduceIte, Option.isSome_some]
      refine ih (by omega) fun x hx => ?_
      rcases Nat.lt_or_eq_of_le (Nat.le_of_lt_succ hx) with hlt | rfl
      · exact hvalues x hlt
      · exact hv

theorem sequenceLength_spec (t : Table) :
    firstFree t t.arrayCapacity 1 = t.sequenceLength + 1 ∧
      (∀ x, x < t.sequenceLength → t.slot x ≠ .nil) ∧ t.slot t.sequenceLength = .nil := by
  obtain ⟨n, hn, hvalues, hfree⟩ := @firstFree_spec t t.arrayCapacity 0 (Nat.le_refl _)
    fun x hx => absurd hx (Nat.not_lt_zero x)
  have hlen : t.sequenceLength = n := by
    unfold Table.sequenceLength
    rw [hn]
    omega
  rw [hlen]
  exact ⟨hn, hvalues, hfree⟩

/-- What a loop leaves that puts `n` values of `t` into the array part at the places from `start` on. -/
structure Copied (t r r' : Table) (start source n : Nat) : Prop where
  count : r'.count = r.count
  entries : r'.entries = r.entries
  slot : ∀ y, r'.slot y = if start ≤ y ∧ y < start + n then t.slot (y - start + source) else r.slot y

theorem Copied.refl (start source : Nat) : Copied t r r start source 0 :=
  ⟨rfl, rfl, fun y => (if_neg (by omega)).symm⟩

/-- One value more at the front. -/
theorem Copied.cons {u r' : Table} {start source n : Nat} (hcount : u.count = r.count)
    (hentries : u.entries = r.entries)
    (hslot : ∀ y, u.slot y = if y = start then t.slot source else r.slot y)
    (h : Copied t u r' (start + 1) (source + 1) n) : Copied t r r' start source (n + 1) := by
  refine ⟨h.count.trans hcount, h.entries.trans hentries, fun y => ?_⟩
  rw [h.slot y]
  by_cases hfirst : y = start
  · subst hfirst
    rw [if_neg (by omega), if_pos (by omega), hslot y, if_pos rfl, Nat.sub_self, Nat.zero_add]
  · by_cases hrange : start + 1 ≤ y ∧ y < start + 1 + n
    · rw [if_pos hrange, if_pos (by omega)]
      congr 1
      omega
    · rw [if_neg hrange, if_neg (by omega), hslot y, if_neg hfirst]

/-- A value at the first place that has none. -/
theorem setArray_first {dst : Nat} {v : Value} (hb : r.Bounded) (hv : v ≠ .nil)
    (hvalues : ∀ x, x < dst → r.slot x ≠ .nil) :
    ∃ u, tableSetArray r ((dst + 1 : Nat) : Int) v = some u ∧ u.count = r.count ∧ u.entries = r.entries ∧
      u.Bounded ∧ (∀ y, u.slot y = if y = dst then v else r.slot y) ∧
      ∀ x, x < dst + 1 → u.slot x ≠ .nil := by
  have hmax : dst ≤ r.arrayMax := by
    rcases Nat.eq_zero_or_pos dst with rfl | hpos
    · exact Nat.zero_le _
    · have h := hb (dst - 1) (hvalues (dst - 1) (by omega))
      omega
  have htakes : r.takes ((dst + 1 : Nat) : Int) = true := decide_eq_true ⟨by omega, .inl (by omega)⟩
  obtain ⟨u, hu, hcount, hentries, -, hslot⟩ := tableSetArray_takes v htakes
  have hplace : (((dst + 1 : Nat) : Int) - 1).toNat = dst := by omega
  rw [hplace] at hslot
  refine ⟨u, hu, hcount, hentries, hb.setArray hu, hslot, fun x hx => ?_⟩
  rw [hslot x]
  by_cases hx' : x = dst
  · rwa [if_pos hx']
  · rw [if_neg hx']
    exact hvalues x (by omega)

theorem copyArray_spec {offset n i : Nat} (hb : r.Bounded) (hsource : ∀ x, i ≤ x → x < i + n → t.slot x ≠ .nil)
    (hvalues : ∀ x, x < offset + i → r.slot x ≠ .nil) :
    (copyArray t offset n (i + 1) r).Bounded ∧
      Copied t r (copyArray t offset n (i + 1) r) (offset + i) i n ∧
      ∀ x, x < offset + i + n → (copyArray t offset n (i + 1) r).slot x ≠ .nil := by
  induction n generalizing i r with
  | zero => exact ⟨hb, .refl _ _, hvalues⟩
  | succ n ih =>
    have hv := hsource i (Nat.le_refl _) (by omega)
    obtain ⟨u, hu, hcount, hentries, hbu, hslot, hvu⟩ := setArray_first hb hv hvalues
    unfold copyArray
    dsimp only
    rw [tableGetArray_succ, if_pos hv, Option.getD_some, ← Nat.add_assoc, hu, Option.getD_some]
    obtain ⟨hb', hp, hv'⟩ := ih (i := i + 1) hbu (fun x hx hlt => hsource x (by omega) (by omega)) hvu
    refine ⟨hb', hp.cons hcount hentries hslot, fun x hx => hv' x (by omega)⟩

end Sequence

section Loops

variable {hash : Bytes → UInt32} {tables : Nat → Table} {a b : Nat}

theorem appendFrom_ne (hab : a ≠ b) {n dst src fuel : Nat} (hfuel : n < fuel) (hb : (tables a).Bounded)
    (hvalues : ∀ x, x < dst → (tables a).slot x ≠ .nil)
    (hsource : ∀ x, src ≤ x → x < src + n → (tables b).slot x ≠ .nil)
    (hend : (tables b).slot (src + n) = .nil) :
    ∃ t', appendFrom hash a b fuel tables (dst + 1) (src + 1) = some (Function.update tables a t') ∧
      Copied (tables b) (tables a) t' dst src n := by
  induction n generalizing tables dst src fuel with
  | zero =>
    obtain ⟨fuel, rfl⟩ := Nat.exists_eq_succ_of_ne_zero (Nat.ne_of_gt hfuel)
    refine ⟨tables a, ?_, .refl _ _⟩
    unfold appendFrom
    rw [tableGetArray_succ, if_neg (fun h => h hend), Function.update_eq_self]
  | succ n ih =>
    obtain ⟨fuel, rfl⟩ := Nat.exists_eq_succ_of_ne_zero (by omega : fuel ≠ 0)
    have hv := hsource src (Nat.le_refl _) (by omega)
    obtain ⟨u, hu, hcount, hentries, hbu, hslot, hvu⟩ := setArray_first hb hv hvalues
    have hold : Function.update tables a u b = tables b := Function.update_of_ne hab.symm _ _
    obtain ⟨t', ht', hp⟩ := @ih (Function.update tables a u) (dst + 1) (src + 1) fuel (by omega) (by rwa [Function.update_self]) (by rwa [Function.update_self])
      (fun x hx hlt => by rw [hold]; exact hsource x (by omega) (by omega))
      (by rw [hold, ← hend]; congr 1; omega)
    rw [Function.update_idem] at ht'
    rw [hold, Function.update_self] at hp
    refine ⟨t', ?_, hp.cons hcount hentries hslot⟩
    unfold appendFrom
    rw [tableGetArray_succ, if_pos hv]
    dsimp only
    rw [hu]
    exact ht'

/-- The values that are read are the ones that were just written: the loop does not end. -/
theorem appendFrom_self {fuel dst src : Nat} (hlt : src < dst) (hb : (tables a).Bounded)
    (hvalues : ∀ x, x < dst → (tables a).slot x ≠ .nil) :
    appendFrom hash a a fuel tables (dst + 1) (src + 1) = none := by
  induction fuel generalizing tables dst src with
  | zero => rfl
  | succ fuel ih =>
    have hv := hvalues src hlt
    obtain ⟨u, hu, -, -, hbu, -, hvu⟩ := setArray_first hb hv hvalues
    unfold appendFrom
    rw [tableGetArray_succ, if_pos hv]
    dsimp only
    rw [hu]
    exact ih (by omega) (by rwa [Function.update_self]) (by rwa [Function.update_self])

theorem addAllFrom_ne (hab : a ≠ b) {fuel i : Nat} (hfuel : (tables b).entries.length - i < fuel) :
    addAllFrom hash a b fuel tables i =
      (((tables b).entries.drop i).foldlM (addEntry hash) (tables a)).map (Function.update tables a) := by
  induction fuel generalizing tables i with
  | zero => exact absurd hfuel (Nat.not_lt_zero _)
  | succ fuel ih =>
    unfold addAllFrom
    cases he : (tables b).entries[i]? with
    | none =>
      have hle := List.getElem?_eq_none_iff.mp he
      rw [List.drop_eq_nil_of_le hle]
      simp
    | some entry =>
      obtain ⟨hlt, hget⟩ := List.getElem?_eq_some_iff.mp he
      rw [List.drop_eq_getElem_cons hlt, hget, List.foldlM_cons]
      cases ht : addEntry hash (tables a) entry with
      | none => simp [ht]
      | some t =>
        have hold : Function.update tables a t b = tables b := Function.update_of_ne hab.symm _ _
        have h := @ih (Function.update tables a t) (i + 1) (by rw [hold]; omega)
        have hsame : Function.update (Function.update tables a t) a = Function.update tables a := by
          funext v
          rw [Function.update_idem]
        rw [hold, Function.update_self, hsame] at h
        simpa [ht] using h

/-- No write of a key that is there makes the table grow. -/
def Table.Roomy (t : Table) : Prop := 4 * (t.count + 1) ≤ 3 * t.capacity

theorem tableSet_roomy {t t' : Table} {key : Bytes} {v : Value} (hroom : t.Roomy)
    (hs : tableSet hash t key v = some (t', false)) : t'.Roomy ∧ t'.capacity = t.capacity := by
  have hgrow : growTable hash t = some t := if_neg (Nat.not_lt.mpr hroom)
  simp only [tableSet, hgrow, Option.bind_eq_bind, Option.bind_some] at hs
  obtain ⟨index, -, hs⟩ := Option.bind_eq_some_iff.mp hs
  obtain ⟨entry, -, hs⟩ := Option.bind_eq_some_iff.mp hs
  obtain ⟨ht, hnew⟩ := Prod.mk.inj (Option.some.inj hs)
  have hold : entry.key ≠ none := of_decide_eq_false hnew
  subst ht
  have hcap : (t.entries.set index ⟨some key, v⟩).length = t.entries.length := List.length_set
  refine ⟨?_, hcap⟩
  unfold Table.Roomy Table.capacity
  dsimp only
  rw [hcap, if_neg (fun h => hold (of_decide_eq_true h.1))]
  exact hroom

theorem tableSet_old {t : Table} {m : Bytes → Option Value} {key : Bytes} {v : Value}
    (hm : t.Represents hash m) (hkey : m key = some v) :
    ∃ t', tableSet hash t key v = some (t', false) ∧ t'.Represents hash m ∧ t'.array = t.array ∧
      t'.Roomy ∧ (t.Roomy → t'.capacity = t.capacity) := by
  obtain ⟨t', hs, hr, -, harray, -⟩ := tableSet_spec hm key v
  rw [hkey, Option.isNone_some] at hs
  rw [← hkey, Function.update_eq_self] at hr
  obtain ⟨u, hu, -, hpos, hroom, -, -, -⟩ := growTable_spec hm
  have hroomy : u.Roomy := hroom
  have hgrown : growTable hash u = some u := if_neg (Nat.not_lt.mpr hroom)
  have hsame : tableSet hash u key v = tableSet hash t key v := by
    simp only [tableSet, hu, hgrown, Option.bind_eq_bind, Option.bind_some]
  refine ⟨t', hs, hr, harray, (tableSet_roomy hroomy (hsame.trans hs)).1, fun h => ?_⟩
  exact (tableSet_roomy h hs).2

/-- One turn of `table_add_all` on one table: what it writes is there already. -/
theorem addEntry_self {t : Table} {m : Bytes → Option Value} {i : Nat} {e : Entry} (hm : t.Represents hash m)
    (he : t.entries[i]? = some e) :
    ∃ t', addEntry hash t e = some t' ∧ t'.Represents hash m ∧ t'.array = t.array ∧
      (t' = t ∨ t'.Roomy) ∧ (t.Roomy → t'.Roomy ∧ t'.capacity = t.capacity) := by
  obtain ⟨key, v⟩ := e
  cases key with
  | none => exact ⟨t, rfl, hm, rfl, .inl rfl, fun h => ⟨h, rfl⟩⟩
  | some key =>
    have hkey : m key = some v := by
      refine hm.holds.get (i := i) ?_
      rw [slots_getElem?, he]
      rfl
    obtain ⟨t', hs, hr, harray, hroomy, hcap⟩ := tableSet_old hm hkey
    exact ⟨t', by simp [addEntry, hs], hr, harray, .inr hroomy, fun h => ⟨hroomy, hcap h⟩⟩

/-- What adding a table to itself leaves. -/
def KeepsSelf (hash : Bytes → UInt32) (tables : Nat → Table) (a : Nat) (m : Bytes → Option Value)
    (tables' : Nat → Table) : Prop :=
  ∃ t', tables' = Function.update tables a t' ∧ t'.Represents hash m ∧ t'.array = (tables a).array

theorem addAllFrom_roomy {m : Bytes → Option Value} {d i : Nat} (hm : (tables a).Represents hash m)
    (hroom : (tables a).Roomy) (hd : (tables a).capacity ≤ i + d) :
    ∃ tables', addAllFrom hash a a (d + 1) tables i = some tables' ∧ KeepsSelf hash tables a m tables' := by
  induction d generalizing tables i with
  | zero =>
    refine ⟨tables, ?_, tables a, (Function.update_eq_self _ _).symm, hm, rfl⟩
    unfold addAllFrom
    rw [List.getElem?_eq_none (by unfold Table.capacity at hd; omega)]
  | succ d ih =>
    unfold addAllFrom
    cases he : (tables a).entries[i]? with
    | none => exact ⟨tables, rfl, tables a, (Function.update_eq_self _ _).symm, hm, rfl⟩
    | some e =>
      obtain ⟨t', hs, hr, harray, -, hroomy⟩ := addEntry_self hm he
      obtain ⟨hroom', hcap⟩ := hroomy hroom
      obtain ⟨tables', ht, u, hu, hru, hau⟩ := @ih (Function.update tables a t') (i + 1)
        (by rwa [Function.update_self]) (by rwa [Function.update_self])
        (by rw [Function.update_self, hcap]; omega)
      rw [Function.update_idem] at hu
      rw [Function.update_self] at hau
      refine ⟨tables', ?_, u, hu, hru, hau.trans harray⟩
      simpa [hs] using ht

theorem addAllFrom_self {m : Bytes → Option Value} {d i : Nat} (hm : (tables a).Represents hash m)
    (hd : (tables a).capacity ≤ i + d) :
    ∃ fuel tables', addAllFrom hash a a (fuel + 1) tables i = some tables' ∧
      KeepsSelf hash tables a m tables' := by
  induction d generalizing i with
  | zero =>
    refine ⟨0, tables, ?_, tables a, (Function.update_eq_self _ _).symm, hm, rfl⟩
    unfold addAllFrom
    rw [List.getElem?_eq_none (by unfold Table.capacity at hd; omega)]
  | succ d ih =>
    cases he : (tables a).entries[i]? with
    | none =>
      refine ⟨0, tables, ?_, tables a, (Function.update_eq_self _ _).symm, hm, rfl⟩
      unfold addAllFrom
      rw [he]
    | some e =>
      obtain ⟨t', hs, hr, harray, hcase, -⟩ := addEntry_self hm he
      have hturn (fuel : Nat) : addAllFrom hash a a (fuel + 1) tables i =
          addAllFrom hash a a fuel (Function.update tables a t') (i + 1) := by
        rw [addAllFrom, he]
        simp [hs]
      rcases hcase with rfl | hroomy
      · -- an entry without a key
        obtain ⟨fuel, tables', ht, hk⟩ := ih (i := i + 1) (by omega)
        refine ⟨fuel + 1, tables', ?_, hk⟩
        rw [hturn, Function.update_eq_self]
        exact ht
      · -- the table may have grown, and does not grow again
        obtain ⟨tables', ht, u, hu, hru, hau⟩ :=
          @addAllFrom_roomy hash (Function.update tables a t') a m t'.capacity (i + 1) (by rwa [Function.update_self]) (by rwa [Function.update_self])
            (by rw [Function.update_self]; omega)
        rw [Function.update_idem] at hu
        rw [Function.update_self] at hau
        refine ⟨t'.capacity + 1, tables', ?_, u, hu, hru, hau.trans harray⟩
        rw [hturn]
        exact ht

end Loops

theorem addEntries_array {hash : Bytes → UInt32} {es : List Entry} {t t' : Table} {m : Bytes → Option Value}
    (hm : t.Represents hash m) (hs : es.foldlM (addEntry hash) t = some t') : t'.array = t.array := by
  induction es generalizing t m with
  | nil =>
    cases Option.some.inj hs
    rfl
  | cons e es ih =>
    rw [List.foldlM_cons] at hs
    obtain ⟨u, hu, hs⟩ := Option.bind_eq_some_iff.mp hs
    obtain ⟨key, v⟩ := e
    cases key with
    | none =>
      cases Option.some.inj hu
      exact ih hm hs
    | some key =>
      obtain ⟨w, hw, hr, -, harray, -⟩ := tableSet_spec hm key v
      simp only [addEntry, hw, Option.map_some, Option.some.injEq] at hu
      subst hu
      exact (ih hr hs).trans harray

section Sum

variable {hash : Bytes → UInt32} {ta tb : Table} {ma mb : Bytes → Option Value}

/-- The sum of two tables. -/
theorem tableAddLocal_spec (ha : ta.Represents hash ma) (hb : tb.Represents hash mb) :
    ∃ sum, tableAddLocal hash ta tb initTable = some sum ∧ sum.Represents hash (override mb ma) ∧
      ∀ y, sum.slot y =
        if y < ta.sequenceLength then ta.slot y
        else if y < ta.sequenceLength + tb.sequenceLength then tb.slot (y - ta.sequenceLength)
        else .nil := by
  obtain ⟨-, hva, -⟩ := sequenceLength_spec ta
  obtain ⟨-, hvb, -⟩ := sequenceLength_spec tb
  have hinit : initTable.Bounded := fun i hi => absurd rfl hi
  obtain ⟨hb₁, hp₁, hv₁⟩ := @copyArray_spec ta initTable 0 ta.sequenceLength 0 hinit
    (fun x _ hx => hva x (by omega)) fun x hx => absurd hx (by omega)
  generalize hr₁ : copyArray ta 0 ta.sequenceLength (0 + 1) initTable = r₁ at hb₁ hp₁ hv₁
  obtain ⟨hb₂, hp₂, -⟩ := @copyArray_spec tb r₁ ta.sequenceLength tb.sequenceLength 0 hb₁ (fun x _ hx => hvb x (by omega)) fun x hx => hv₁ x (by omega)
  generalize hr₂ : copyArray tb ta.sequenceLength tb.sequenceLength (0 + 1) r₁ = r₂ at hb₂ hp₂
  have hempty : r₂.Represents hash fun _ => none :=
    initTable_represents.of_hash (hp₂.count.trans hp₁.count) (hp₂.entries.trans hp₁.entries)
  obtain ⟨r₃, h₃, hr₃⟩ := tableAddAll_spec ha hempty
  obtain ⟨sum, hsum, hrep⟩ := tableAddAll_spec hb hr₃
  have harray : sum.array = r₂.array := (addEntries_array hr₃ hsum).trans (addEntries_array hempty h₃)
  have hmap : override mb (override ma fun _ => none) = override mb ma := by
    funext k
    simp [override]
  refine ⟨sum, ?_, hmap ▸ hrep, fun y => ?_⟩
  · unfold tableAddLocal
    dsimp only
    rw [Nat.zero_add] at hr₁ hr₂
    rw [hr₁, hr₂, h₃]
    exact hsum
  · rw [slot_of_array harray, hp₂.slot y]
    by_cases hya : y < ta.sequenceLength
    · rw [if_neg (by omega), hp₁.slot y, if_pos (by omega), if_pos hya]
      rfl
    · rw [if_neg hya]
      by_cases hyb : y < ta.sequenceLength + tb.sequenceLength
      · rw [if_pos (by omega), if_pos hyb]
        rfl
      · rw [if_neg (by omega), if_neg hyb, hp₁.slot y, if_neg (by omega)]
        rfl

theorem sumHashValue_eq (ha : ta.Represents hash ma) (hb : tb.Represents hash mb) (s : Bytes) :
    sumHashValue hash ta tb s = (override mb ma s).getD .nil := by
  unfold sumHashValue override
  rw [tableGet_eq hb, hashValue_eq ha]
  cases mb s with
  | some v => rfl
  | none => rfl

/-- What `a += b` leaves at `a`, where it ends. -/
structure Appended (hash : Bytes → UInt32) (ta tb : Table) (m : Bytes → Option Value) (t : Table) : Prop where
  represents : t.Represents hash m
  slot : ∀ y, t.slot y =
    if ta.sequenceLength ≤ y ∧ y < ta.sequenceLength + tb.sequenceLength then tb.slot (y - ta.sequenceLength)
    else ta.slot y

/-- It has the contents of the sum exactly where nothing is behind the two sequences. -/
theorem Appended.contents_iff {t sum : Table} (ha : ta.Represents hash ma) (hb : tb.Represents hash mb)
    (ht : Appended hash ta tb (override mb ma) t) (hsum : tableAddLocal hash ta tb initTable = some sum) :
    (∀ k, t.contents hash k = sum.contents hash k) ↔ NothingBehind hash ta tb := by
  obtain ⟨sum', hsum', hrep, hslot⟩ := tableAddLocal_spec ha hb
  rw [hsum] at hsum'
  cases hsum'
  have hhash (s : Bytes) : t.hashValue hash s = sum.hashValue hash s := by
    rw [hashValue_eq ht.represents, hashValue_eq hrep]
  have hvalue (s : Bytes) : sum.hashValue hash s = sumHashValue hash ta tb s := by
    rw [hashValue_eq hrep, sumHashValue_eq ha hb]
  have hfront {y : Nat} (hy : y < ta.sequenceLength + tb.sequenceLength) : t.slot y = sum.slot y := by
    rw [ht.slot y, hslot y]
    by_cases hya : y < ta.sequenceLength
    · rw [if_neg (by omega), if_pos hya]
    · rw [if_pos (by omega), if_neg hya, if_pos hy]
  have hback {y : Nat} (hy : ta.sequenceLength + tb.sequenceLength ≤ y) :
      t.slot y = ta.slot y ∧ sum.slot y = .nil := by
    rw [ht.slot y, hslot y]
    rw [if_neg (by omega), if_neg (by omega), if_neg (by omega)]
    exact ⟨rfl, rfl⟩
  constructor
  · intro hsame k i hk hi hv
    cases k with
    | string s => cases hk
    | number x =>
      obtain ⟨hold, hnone⟩ := hback hi
      have hx := hsame (.number x)
      rw [contents_number, contents_number, arrayValue_place hk, arrayValue_place hk, hold, hnone, if_neg hv,
        if_pos rfl, hvalue] at hx
      exact hx.symm
  · intro hn k
    cases k with
    | string s => rw [contents_string, contents_string, hhash]
    | number x =>
      rw [contents_number, contents_number, hhash]
      cases hk : (KeyId.number x).place with
      | none =>
        have hnil (r : Table) : r.arrayValue (.number x) = .nil := by
          simp only [Table.arrayValue, hk]
        rw [hnil t, hnil sum]
      | some i =>
        rw [arrayValue_place hk, arrayValue_place hk]
        by_cases hi : i < ta.sequenceLength + tb.sequenceLength
        · rw [hfront hi]
        · obtain ⟨hold, hnone⟩ := hback (Nat.not_lt.mp hi)
          rw [hold, hnone, if_pos rfl]
          by_cases hv : ta.slot i = .nil
          · rw [if_pos hv]
          · rw [if_neg hv, hvalue]
            exact (hn _ i hk (Nat.not_lt.mp hi) hv).symm

end Sum

section InPlace

variable {hash : Bytes → UInt32} {tables : Nat → Table} {a b : Nat}

/-- A run that ends leaves the same with more fuel. -/
theorem appendFrom_more {fuel dst src : Nat} {tables' : Nat → Table} (k : Nat)
    (h : appendFrom hash a b fuel tables dst src = some tables') :
    appendFrom hash a b (fuel + k) tables dst src = some tables' := by
  induction fuel generalizing tables dst src with
  | zero => cases h
  | succ fuel ih =>
    rw [Nat.succ_add]
    unfold appendFrom at h ⊢
    cases hv : tableGetArray (tables b) src with
    | none =>
      rw [hv] at h
      exact h
    | some v =>
      simp only [hv] at h ⊢
      cases hs : tableSetArray (tables a) dst v with
      | some t =>
        simp only [hs] at h ⊢
        exact ih h
      | none =>
        simp only [hs] at h ⊢
        obtain ⟨u, hu, h⟩ := Option.bind_eq_some_iff.mp h
        exact Option.bind_eq_some_iff.mpr ⟨u, hu, ih h⟩

theorem addAllFrom_more {fuel i : Nat} {tables' : Nat → Table} (k : Nat)
    (h : addAllFrom hash a b fuel tables i = some tables') :
    addAllFrom hash a b (fuel + k) tables i = some tables' := by
  induction fuel generalizing tables i with
  | zero => cases h
  | succ fuel ih =>
    rw [Nat.succ_add]
    unfold addAllFrom at h ⊢
    cases he : (tables b).entries[i]? with
    | none =>
      rw [he] at h
      exact h
    | some e =>
      simp only [he] at h ⊢
      obtain ⟨u, hu, h⟩ := Option.bind_eq_some_iff.mp h
      exact Option.bind_eq_some_iff.mpr ⟨u, hu, ih h⟩

theorem tableAddInplaceLocal_more {fuel : Nat} {tables' : Nat → Table} (k : Nat)
    (h : tableAddInplaceLocal hash fuel tables a b = some tables') :
    tableAddInplaceLocal hash (fuel + k) tables a b = some tables' := by
  obtain ⟨between, happend, hadd⟩ := Option.bind_eq_some_iff.mp h
  exact Option.bind_eq_some_iff.mpr ⟨between, appendFrom_more k happend, addAllFrom_more k hadd⟩

/-- Two runs that end leave the same. -/
theorem tableAddInplaceLocal_unique {n m : Nat} {tables₁ tables₂ : Nat → Table}
    (h₁ : tableAddInplaceLocal hash n tables a b = some tables₁)
    (h₂ : tableAddInplaceLocal hash m tables a b = some tables₂) : tables₁ = tables₂ := by
  have hl := tableAddInplaceLocal_more m h₁
  have hr := tableAddInplaceLocal_more n h₂
  rw [Nat.add_comm] at hr
  exact Option.some.inj (hl.symm.trans hr)

theorem appended_ne (hab : a ≠ b) (ha : (tables a).Bounded) {ma mb : Bytes → Option Value}
    (hma : (tables a).Represents hash ma) (hmb : (tables b).Represents hash mb) :
    ∃ fuel t, tableAddInplaceLocal hash fuel tables a b = some (Function.update tables a t) ∧
      Appended hash (tables a) (tables b) (override mb ma) t := by
  obtain ⟨hfirst, hva, -⟩ := sequenceLength_spec (tables a)
  obtain ⟨-, hvb, hend⟩ := sequenceLength_spec (tables b)
  obtain ⟨fuel, hfuel⟩ : ∃ fuel, fuel = (tables b).sequenceLength + (tables b).entries.length + 1 := ⟨_, rfl⟩
  have hlt : (tables b).sequenceLength < fuel := by omega
  obtain ⟨u, hu, hp⟩ := @appendFrom_ne hash tables a b hab _ _ 0 fuel hlt ha hva
    (fun x _ hx => hvb x (by omega)) (by rw [Nat.zero_add]; exact hend)
  have hur : u.Represents hash ma := hma.of_hash hp.count hp.entries
  obtain ⟨t, ht, hr⟩ := tableAddAll_spec hmb hur
  have hold : Function.update tables a u b = tables b := Function.update_of_ne hab.symm _ _
  refine ⟨fuel, t, ?_, hr, fun y => ?_⟩
  · unfold tableAddInplaceLocal
    rw [hfirst, hu, Option.bind_eq_bind, Option.bind_some,
      addAllFrom_ne hab (by rw [hold]; omega), hold, Function.update_self, List.drop_zero]
    rw [tableAddAll] at ht
    rw [ht, Option.map_some, Function.update_idem]
  · rw [slot_of_array (addEntries_array hur ht), hp.slot y, Nat.add_zero]

theorem appended_self {ma : Bytes → Option Value} (hma : (tables a).Represents hash ma)
    (hzero : (tables a).sequenceLength = 0) :
    ∃ fuel t, tableAddInplaceLocal hash fuel tables a a = some (Function.update tables a t) ∧
      Appended hash (tables a) (tables a) (override ma ma) t := by
  obtain ⟨hfirst, -, hend⟩ := sequenceLength_spec (tables a)
  rw [hzero] at hfirst hend
  obtain ⟨fuel, tables', ht, t, rfl, hr, harray⟩ :=
    @addAllFrom_self hash tables a ma (tables a).capacity 0 hma (Nat.le_add_left _ 0)
  have hmap : override ma ma = ma := by
    funext k
    unfold override
    cases ma k with
    | none => rfl
    | some v => rfl
  have hstop : appendFrom hash a a (fuel + 1) tables (0 + 1) (0 + 1) = some tables := by
    unfold appendFrom
    rw [tableGetArray_succ, if_neg (fun h => h hend)]
  refine ⟨fuel + 1, t, ?_, hmap.symm ▸ hr, fun y => ?_⟩
  · unfold tableAddInplaceLocal
    rw [hfirst]
    exact Option.bind_eq_some_iff.mpr ⟨tables, hstop, ht⟩
  · rw [slot_of_array harray, hzero, if_neg (by omega)]

/-- A table with a sequence is never added to itself. -/
theorem tableAddInplaceLocal_self (ha : (tables a).Bounded) (hpos : (tables a).sequenceLength ≠ 0) (fuel : Nat) :
    tableAddInplaceLocal hash fuel tables a a = none := by
  obtain ⟨hfirst, hvalues, -⟩ := sequenceLength_spec (tables a)
  have hloop := @appendFrom_self hash tables a fuel (tables a).sequenceLength 0 (by omega) ha hvalues
  unfold tableAddInplaceLocal
  rw [hfirst]
  simp only [Nat.zero_add] at hloop
  rw [hloop]
  rfl

/-- Where it ends, what is behind the two sequences decides. -/
theorem AppendsSum.iff_of_run {ma mb : Bytes → Option Value} (hma : (tables a).Represents hash ma)
    (hmb : (tables b).Represents hash mb) {fuel : Nat} {t : Table}
    (hrun : tableAddInplaceLocal hash fuel tables a b = some (Function.update tables a t))
    (ht : Appended hash (tables a) (tables b) (override mb ma) t) :
    AppendsSum hash tables a b ↔ NothingBehind hash (tables a) (tables b) := by
  obtain ⟨sum, hsum, -⟩ := tableAddLocal_spec hma hmb
  rw [← ht.contents_iff hma hmb hsum]
  constructor
  · intro ⟨fuel', tables', sum', hrun', hsum', hsame, _⟩
    rw [hsum] at hsum'
    cases hsum'
    rw [tableAddInplaceLocal_unique hrun' hrun, Function.update_self] at hsame
    exact hsame
  · intro hsame
    refine ⟨fuel, _, sum, hrun, hsum, ?_, fun c hc => Function.update_of_ne hc _ _⟩
    rwa [Function.update_self]

/-- Two tables. -/
theorem AppendsSum.iff_of_ne (hab : a ≠ b) (ha : Formed hash (tables a)) (hb : Formed hash (tables b)) :
    AppendsSum hash tables a b ↔ NothingBehind hash (tables a) (tables b) := by
  obtain ⟨ma, hma⟩ := ha.represents
  obtain ⟨mb, hmb⟩ := hb.represents
  obtain ⟨fuel, t, hrun, ht⟩ := appended_ne hab ha.bounded hma hmb
  exact AppendsSum.iff_of_run hma hmb hrun ht

theorem not_appendsSum_self (ha : (tables a).Bounded) (hpos : (tables a).sequenceLength ≠ 0) :
    ¬AppendsSum hash tables a a := by
  intro ⟨fuel, tables', _, hrun, _⟩
  rw [tableAddInplaceLocal_self ha hpos fuel] at hrun
  cases hrun

/-- `a += b` does what `a + b` says exactly where `b` is another table or `a` has no sequence, and
nothing is behind the two sequences. -/
theorem appendsSum_iff (hash : Bytes → UInt32) (tables : Nat → Table) (a b : Nat) (ha : Formed hash (tables a))
    (hb : Formed hash (tables b)) :
    AppendsSum hash tables a b ↔
      (a = b → (tables a).sequenceLength = 0) ∧ NothingBehind hash (tables a) (tables b) := by
  by_cases hab : a = b
  · subst hab
    by_cases hzero : (tables a).sequenceLength = 0
    · obtain ⟨ma, hma⟩ := ha.represents
      obtain ⟨fuel, t, hrun, ht⟩ := appended_self hma hzero
      rw [AppendsSum.iff_of_run hma hma hrun ht]
      exact ⟨fun h => ⟨fun _ => hzero, h⟩, fun h => h.2⟩
    · have hn : ¬AppendsSum hash tables a a := not_appendsSum_self ha.bounded hzero
      exact ⟨fun h => absurd h hn, fun h => absurd (h.1 rfl) hzero⟩
  · rw [AppendsSum.iff_of_ne hab ha hb]
    exact ⟨fun h => ⟨fun heq => absurd heq hab, h⟩, fun h => h.2⟩

end InPlace

/-- `[true]` -/
def truth : Table := tablePush initTable (.bool true)

/-- `[true]`, then a nil and a value pushed. -/
def holed : Table := tablePush (tablePush truth .nil) (.bool true)

theorem truth_formed : Formed SampleTable.host.hash truth := .push .init

/-- `[true] += [true]` -/
theorem appendsSum_truth : AppendsSum SampleTable.host.hash (fun _ => truth) 0 1 := by
  apply (appendsSum_iff SampleTable.host.hash (fun _ => truth) 0 1 truth_formed truth_formed).mpr
  refine ⟨fun h => absurd h (by decide), fun k i _ hi hv => ?_⟩
  have hlt := truth_formed.bounded i hv
  have hlen : truth.sequenceLength + truth.sequenceLength = 2 := by decide
  have hmax : truth.arrayMax = 1 := by decide
  omega

/-- `a += a` does not end, and a value behind a hole stays where `a + b` has none. -/
theorem appendsSum_false : ¬AppendsSum SampleTable.host.hash (fun _ => truth) 0 0 ∧
    ¬AppendsSum SampleTable.host.hash (Function.update (fun _ => truth) 0 holed) 0 1 := by
  constructor
  · exact not_appendsSum_self truth_formed.bounded (by decide)
  · have hholed : Formed SampleTable.host.hash holed := .push (.push truth_formed)
    intro happends
    have hn := (@AppendsSum.iff_of_ne SampleTable.host.hash (Function.update (fun _ => truth) 0 holed) 0 1
      (by decide) hholed truth_formed).mp happends
    have h := hn (.number (.ofNat 3)) 2 (by decide) (by decide) (by decide)
    revert h
    decide

end ToiLang
