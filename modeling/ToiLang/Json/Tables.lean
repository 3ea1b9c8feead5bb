import ToiLang.Json.Tree
import ToiLang.TableIterate

namespace ToiLang

namespace Json

/-! The tables that the decoder fills. -/

section Growth

variable {array : List Value}

/-- The array part grows to twice its length at the first index behind its end. -/
theorem growArray_length {i : Nat} (hi : i ≤ array.length) : (growArray array i).length =
    if i < array.length then array.length else if array.length = 0 then 8 else array.length * 2 := by
  unfold growArray
  by_cases hlt : i < array.length
  · rw [if_neg (by omega), if_pos hlt]
  · have heq : i = array.length := by omega
    have hfirst (fuel capacity : Nat) (h : i < capacity) : arrayGrowth i fuel capacity = capacity := by
      cases fuel with
      | zero => rfl
      | succ fuel => exact if_neg (by omega)
    rw [if_pos (by omega), if_neg hlt]
    dsimp only
    rw [hfirst _ _ (by split <;> omega), List.length_append, List.length_replicate]
    split <;> omega

theorem tableSetArray_next {t t' : Table} {i : Nat} {v : Value} (hmax : t.arrayMax ≤ i)
    (hset : tableSetArray t ((i + 1 : Nat) : Int) v = some t') :
    t'.array.length = (growArray t.array i).length ∧
      t'.arrayMax = if v = .nil then t.arrayMax else i + 1 := by
  have hraw : (((i + 1 : Nat) : Int) - 1).toNat = i := by omega
  have hindex : ((i + 1 : Nat) : Int).toNat = i + 1 := by omega
  unfold tableSetArray at hset
  dsimp only at hset
  rw [hraw, hindex, if_neg (by omega)] at hset
  split at hset
  next => cases hset
  next =>
    cases hset
    refine ⟨List.length_set, ?_⟩
    dsimp only
    by_cases hv : v = .nil
    · rw [if_neg (not_not.mpr hv), if_neg (by omega), if_pos hv]
    · rw [if_pos hv, if_neg hv]
      omega

end Growth

section Elements

variable {hash : Bytes → UInt32} {t : Table} {done : List Tree} {x : Tree} {v : Value} {i : Nat}

/-- The element in front of an index is not null. -/
def Solid (done : List Tree) (i : Nat) : Prop := (done.getD (i - 1) .null).isNull = false

theorem solid_append (h : i ≤ done.length) (hi : 0 < i) : Solid (done ++ [x]) i ↔ Solid done i := by
  unfold Solid
  rw [List.getD_eq_getElem?_getD, List.getD_eq_getElem?_getD, List.getElem?_append_left (by omega)]

/-- The array part of a table to which the elements `done` were given, at the capacity `8 * 2 ^ k`. -/
structure Grown (t : Table) (done : List Tree) (k : Nat) : Prop where
  capacity : t.array.length = 8 * 2 ^ k
  reached : ∀ j < k, 8 * 2 ^ j < done.length
  solid : ∀ j < k, Solid done (8 * 2 ^ j)
  cut : 8 * 2 ^ k < done.length → ¬ Solid done (8 * 2 ^ k)
  max_le : t.arrayMax ≤ 8 * 2 ^ k ∧ t.arrayMax ≤ done.length
  max_eq : 8 * 2 ^ k ≤ done.length → (t.arrayMax = 8 * 2 ^ k ↔ Solid done (8 * 2 ^ k))

/-- A table to which the decoder gave the elements `done`. -/
structure Lined (hash : Bytes → UInt32) (t : Table) (done : List Tree) : Prop where
  represents : t.Represents hash fun _ => none
  behind : ∀ i, done.length ≤ i → t.slot i = .nil
  array : done = [] ∧ t.array = [] ∧ t.arrayMax = 0 ∨ done ≠ [] ∧ ∃ k, Grown t done k

theorem initTable_lined : Lined hash initTable [] where
  represents := initTable_represents
  behind := fun _ _ => rfl
  array := .inl ⟨rfl, rfl, rfl⟩

theorem two_pow_mono {j k : Nat} (h : j < k) : 8 * 2 ^ j < 8 * 2 ^ k :=
  Nat.mul_lt_mul_of_pos_left (Nat.pow_lt_pow_right (by decide) h) (by decide)

theorem Grown.keeps_iff {k : Nat} (hg : Grown t done k) :
    Keeps done done.length ↔ done.length < 8 * 2 ^ k ∨ done.length = 8 * 2 ^ k ∧ Solid done (8 * 2 ^ k) := by
  constructor
  · intro h
    by_contra hn
    have hk : k < 8 * 2 ^ k := by
      have := Nat.lt_two_pow_self (n := k)
      omega
    have hle : 8 * 2 ^ k ≤ done.length := by omega
    have hsolid : Solid done (8 * 2 ^ k) := h k (by omega) hle
    by_cases heq : done.length = 8 * 2 ^ k
    · exact hn (.inr ⟨heq, hsolid⟩)
    · exact hg.cut (by omega) hsolid
  · intro h j _ hle
    rcases Nat.lt_trichotomy j k with hlt | rfl | hgt
    · exact hg.solid j hlt
    · rcases h with h | h
      · omega
      · exact h.2
    · have := two_pow_mono hgt
      omega

theorem Lined.max_le (h : Lined hash t done) : t.arrayMax ≤ done.length := by
  rcases h.array with ⟨-, -, h0⟩ | ⟨-, k, hg⟩
  · omega
  · exact hg.max_le.2

/-- The array part takes the next element unless one at 8, 16, 32, … was null. -/
theorem Lined.takes_iff (h : Lined hash t done) :
    t.takes ((done.length + 1 : Nat) : Int) = true ↔ Keeps done done.length := by
  unfold Table.takes Table.arrayCapacity
  rw [decide_eq_true_iff]
  rcases h.array with ⟨rfl, hnil, hmax⟩ | ⟨-, k, hg⟩
  · rw [hnil, hmax]
    exact ⟨fun _ k hk => absurd hk (Nat.not_lt_zero k), fun _ => by decide⟩
  · rw [hg.keeps_iff, hg.capacity]
    have hle := hg.max_le
    have heq := hg.max_eq
    constructor
    · rintro ⟨-, hnext | hroom⟩
      · by_cases hlt : done.length < 8 * 2 ^ k
        · exact .inl hlt
        · exact .inr ⟨by omega, (heq (by omega)).mp (by omega)⟩
      · exact .inl (by omega)
    · rintro (hlt | ⟨hlen, hsolid⟩)
      · exact ⟨by omega, .inr (by omega)⟩
      · have := (heq (by omega)).mpr hsolid
        exact ⟨by omega, .inl (by omega)⟩

theorem solid_last (hi : i = done.length + 1) : Solid (done ++ [x]) i ↔ x.isNull = false := by
  subst hi
  unfold Solid
  rw [Nat.add_sub_cancel, List.getD_eq_getElem?_getD, List.getElem?_concat_length]
  rfl

theorem Grown.next {k : Nat} {t' : Table} (hg : Grown t done k) (hv : v = .nil ↔ x.isNull = true)
    (hset : tableSetArray t ((done.length + 1 : Nat) : Int) v = some t') (hlen : done ≠ [])
    (hkeeps : Keeps done done.length) : ∃ k, Grown t' (done ++ [x]) k := by
  have hmaxle := hg.max_le
  have hpos : 0 < done.length := List.length_pos_iff.mpr hlen
  obtain ⟨hlength, hmax⟩ := tableSetArray_next hmaxle.2 hset
  have hkept : ∀ {j}, 8 * 2 ^ j ≤ done.length → (Solid (done ++ [x]) (8 * 2 ^ j) ↔ Solid done (8 * 2 ^ j)) :=
    fun hle => solid_append hle (by positivity)
  have hbound : done.length ≤ t.array.length := by
    rw [hg.capacity]
    rcases hg.keeps_iff.mp hkeeps with h | h <;> omega
  rw [growArray_length hbound, hg.capacity] at hlength
  have hnull : (if v = .nil then t.arrayMax else done.length + 1) = done.length + 1 ↔ x.isNull = false := by
    by_cases hnil : v = .nil
    · rw [if_pos hnil, hv.mp hnil]
      constructor
      · intro h
        omega
      · intro h
        cases h
    · rw [if_neg hnil]
      exact ⟨fun _ => by simpa [hv] using hnil, fun _ => rfl⟩
  by_cases hlt : done.length < 8 * 2 ^ k
  · refine ⟨k, ?_, fun j hj => ?_, fun j hj => ?_, fun hcut => ?_, ?_, fun hle => ?_⟩
    · rw [hlength, if_pos hlt]
    · have := hg.reached j hj
      rw [List.length_append]
      omega
    · exact (hkept (hg.reached j hj).le).mpr (hg.solid j hj)
    · rw [List.length_append, List.length_singleton] at hcut
      omega
    · rw [hmax, List.length_append, List.length_singleton]
      split <;> omega
    · rw [List.length_append, List.length_singleton] at hle
      have heq : 8 * 2 ^ k = done.length + 1 := by omega
      rw [heq, hmax, solid_last rfl]
      exact hnull
  · rcases hg.keeps_iff.mp hkeeps with h | ⟨heq, hsolid⟩
    · exact absurd h hlt
    · have hpow : 8 * 2 ^ (k + 1) = 8 * 2 ^ k * 2 := by rw [Nat.pow_succ, Nat.mul_assoc]
      refine ⟨k + 1, ?_, fun j hj => ?_, fun j hj => ?_, fun hcut => ?_, ?_, fun hle => ?_⟩
      · rw [hlength, if_neg hlt, if_neg (by omega), hpow]
      · rw [List.length_append, List.length_singleton]
        rcases Nat.lt_succ_iff_lt_or_eq.mp hj with hj | rfl
        · have := hg.reached j hj
          omega
        · omega
      · rcases Nat.lt_succ_iff_lt_or_eq.mp hj with hj | rfl
        · exact (hkept (hg.reached j hj).le).mpr (hg.solid j hj)
        · exact (hkept heq.ge).mpr hsolid
      · rw [List.length_append, List.length_singleton] at hcut
        omega
      · rw [hmax, List.length_append, List.length_singleton]
        split <;> omega
      · rw [List.length_append, List.length_singleton] at hle
        omega

/-- An element that the array part refuses changes nothing. -/
theorem Grown.refused {k : Nat} (hg : Grown t done k) (hkeeps : ¬ Keeps done done.length) :
    Grown t (done ++ [x]) k := by
  have hmaxle := hg.max_le
  have hn := fun h => hkeeps (hg.keeps_iff.mpr h)
  have hge : 8 * 2 ^ k ≤ done.length := by
    by_contra hlt
    exact hn (.inl (by omega))
  have hloose : ¬ Solid done (8 * 2 ^ k) := by
    intro hsolid
    by_cases heq : done.length = 8 * 2 ^ k
    · exact hn (.inr ⟨heq, hsolid⟩)
    · exact hg.cut (by omega) hsolid
  have hkept : ∀ {j}, 8 * 2 ^ j ≤ done.length → (Solid (done ++ [x]) (8 * 2 ^ j) ↔ Solid done (8 * 2 ^ j)) :=
    fun hle => solid_append hle (by positivity)
  refine ⟨hg.capacity, fun j hj => ?_, fun j hj => ?_, fun _ => ?_, ?_, fun _ => ?_⟩
  · have := hg.reached j hj
    rw [List.length_append]
    omega
  · exact (hkept (hg.reached j hj).le).mpr (hg.solid j hj)
  · rwa [hkept hge]
  · rw [List.length_append]
    omega
  · rw [hkept hge]
    exact hg.max_eq hge

theorem Grown.first {t' : Table} (hnil : t.array = []) (hmax : t.arrayMax = 0)
    (hset : tableSetArray t 1 v = some t') : Grown t' [x] 0 := by
  obtain ⟨hlength, hmax'⟩ := tableSetArray_next (i := 0) hmax.le hset
  rw [hnil] at hlength
  refine ⟨hlength, fun j hj => absurd hj (Nat.not_lt_zero j), fun j hj => absurd hj (Nat.not_lt_zero j),
    fun hcut => absurd hcut (by simp), ?_, fun hle => absurd hle (by simp)⟩
  rw [hmax', hmax]
  split <;> simp

/-- What the decoder does with the next element. -/
theorem Lined.next (h : Lined hash t done) (hv : v = .nil ↔ x.isNull = true) :
    ∃ t', (tableSetArray t ((done.length + 1 : Nat) : Int) v).getD t = t' ∧ Lined hash t' (done ++ [x]) ∧
      (Keeps done done.length → ∀ i, t'.slot i = Function.update t.slot done.length v i) ∧
      (¬ Keeps done done.length → t' = t) := by
  have hindex : (((done.length + 1 : Nat) : Int) - 1).toNat = done.length := by omega
  by_cases hkeeps : Keeps done done.length
  · obtain ⟨t', hset, hcount, hentries, -, hslot⟩ := tableSetArray_takes v (h.takes_iff.mpr hkeeps)
    rw [hindex] at hslot
    refine ⟨t', by rw [hset]; rfl, ⟨h.represents.of_hash hcount hentries, fun i hi => ?_, .inr ⟨by simp, ?_⟩⟩,
      fun _ i => by rw [hslot i, Function.update_apply], fun hn => absurd hkeeps hn⟩
    · rw [List.length_append, List.length_singleton] at hi
      rw [hslot i, if_neg (by omega)]
      exact h.behind i (by omega)
    · rcases h.array with ⟨rfl, hnil, hmax⟩ | ⟨hne, k, hg⟩
      · exact ⟨0, Grown.first hnil hmax hset⟩
      · exact hg.next hv hset hne hkeeps
  · have hrefused := tableSetArray_leaves v (Bool.eq_false_iff.mpr fun ht => hkeeps (h.takes_iff.mp ht))
    refine ⟨t, by rw [hrefused]; rfl, ⟨h.represents, fun i hi => ?_, .inr ⟨by simp, ?_⟩⟩,
      fun hk => absurd hk hkeeps, fun _ => rfl⟩
    · rw [List.length_append] at hi
      exact h.behind i (by omega)
    · rcases h.array with ⟨rfl, -, -⟩ | ⟨-, k, hg⟩
      · exact absurd (fun k hk => absurd hk (Nat.not_lt_zero k)) hkeeps
      · exact ⟨k, hg.refused hkeeps⟩

variable {H₀ H H' : TableHeap}

theorem place_of_label {k k' : KeyId} (h : k'.label = k.label) : k'.place = k.place := by
  cases k with
  | string s =>
    cases k' with
    | string s' => rfl
    | number => cases h
  | number x =>
    cases k' with
    | string => cases h
    | number y => exact place_of_numberKeyString (congrArg Prod.snd h)

theorem keeps_append {i : Nat} (hi : i ≤ done.length) : Keeps (done ++ [x]) i ↔ Keeps done i := by
  refine forall_congr' fun k => forall_congr' fun _ => forall_congr' fun hle => ?_
  exact solid_append (by omega) (by positivity)

theorem elementAt_some (i : Nat) :
    elementAt done (some i) = if Keeps done i then done.getD i .null else .null := rfl

theorem elementAt_behind (hi : done.length ≤ i) : elementAt done (some i) = .null := by
  rw [elementAt_some, List.getD_eq_getElem?_getD, List.getElem?_eq_none hi]
  exact ite_self _

theorem elementAt_last : elementAt (done ++ [x]) (some done.length) = if Keeps done done.length then x else .null := by
  rw [elementAt_some, List.getD_eq_getElem?_getD, List.getElem?_concat_length]
  exact if_congr (keeps_append (Nat.le_refl _)) rfl rfl

theorem elementAt_append (hi : i ≠ done.length) : elementAt (done ++ [x]) (some i) = elementAt done (some i) := by
  by_cases hlt : i < done.length
  · rw [elementAt_some, elementAt_some, List.getD_eq_getElem?_getD, List.getD_eq_getElem?_getD,
      List.getElem?_append_left hlt]
    exact if_congr (keeps_append hlt.le) rfl rfl
  · have hbehind : (done ++ [x]).length ≤ i := by
      rw [List.length_append, List.length_singleton]
      omega
    rw [elementAt_behind hbehind, elementAt_behind (by omega)]

/-- What a list of elements holds with one more. -/
theorem at_array_append {key : KeyId} (hkey : key.place = some done.length) (k : KeyId) :
    (Tree.array (done ++ [x])).at k =
      if k.label = key.label ∧ Keeps done done.length then x else (Tree.array done).at k := by
  rw [at_array, at_array]
  by_cases hk : k.label = key.label
  · rw [place_of_label hk, hkey, elementAt_last, elementAt_behind (Nat.le_refl _)]
    exact if_congr (and_iff_right hk).symm rfl rfl
  · rw [if_neg fun h => hk h.1]
    cases hplace : k.place with
    | none => rfl
    | some j =>
      refine elementAt_append ?_
      rintro rfl
      exact hk (congrArg KeyId.label (KeyId.place_inj hplace hkey))

theorem contents_of_array (hr : t.Represents hash fun _ => none) (k : KeyId) : t.contents hash k = t.arrayValue k := by
  cases k with
  | string s =>
    rw [contents_string, hashValue_eq hr]
    exact ite_self _
  | number x =>
    rw [contents_number, hashValue_eq hr]
    split
    next h => exact h.symm
    next => rfl

/-- The new table after one more element. -/
theorem filled_element (hf : Filled hash Stands H₀ H (Tree.array done).at) (hm : Made hash Stands H H' x v)
    (hl : Lined hash (H.tables H₀.next) done) (hsize : done.length + 1 < 2 ^ 31) :
    ∃ t', (tableSetArray (H'.tables H₀.next) ((done.length + 1 : Nat) : Int) v).getD (H'.tables H₀.next) = t' ∧
      Lined hash t' (done ++ [x]) ∧
      Filled hash Stands H₀ (H'.set H₀.next t') (Tree.array (done ++ [x])).at := by
  have hplace := place_ofNat hsize
  have hat := at_array_append (x := x) hplace
  rw [hm.frame _ hf.grows]
  obtain ⟨t', ht', hl', htaken, hrefused⟩ := hl.next hm.stands.nil_iff
  refine ⟨t', ht', hl', ?_⟩
  by_cases hkeeps : Keeps done done.length
  · have hwrite := hf.write stands_framed hm hl'.represents fun k' => by
      rw [contents_of_array hl'.represents, contents_of_array hl.represents,
        arrayValue_update hplace (htaken hkeeps), Function.update_apply]
      exact if_congr ⟨fun h => congrArg KeyId.label h,
        fun h => KeyId.place_inj ((place_of_label h).trans hplace) hplace⟩ rfl rfl
    have heq : (Tree.array (done ++ [x])).at = fun k' => if k'.label = (KeyId.number (Double.ofNat (done.length + 1))).label
        then x else (Tree.array done).at k' := by
      funext k'
      rw [hat k']
      exact if_congr (and_iff_left hkeeps) rfl rfl
    rw [heq]
    exact hwrite
  · have heq : (Tree.array (done ++ [x])).at = (Tree.array done).at := by
      funext k'
      rw [hat k', if_neg fun h => hkeeps h.2]
    rw [heq, hrefused hkeeps, ← hm.frame _ hf.grows]
    have hself : H'.set H₀.next (H'.tables H₀.next) = H' := by
      unfold TableHeap.set
      rw [Function.update_eq_self]
    rw [hself]
    exact hf.mono stands_framed hm

end Elements

section Members

variable {hash : Bytes → UInt32} {done : List (Bytes × Tree)} {x : Tree} {v : Value} {H₀ H H' : TableHeap}

theorem at_object_append (key : Bytes) (k : KeyId) : (Tree.object (done ++ [(key, x)])).at k =
    if k.label = (entryKey key).label then x else (Tree.object done).at k := by
  rw [at_object, memberAt, List.foldl_append]
  rfl

theorem entryKey_label (key : Bytes) : (entryKey key).label.2 = key := by
  unfold entryKey
  cases h : numberKey? key with
  | none => rfl
  | some y => exact numberKey?_eq_some h

theorem entryKey_proper (key : Bytes) : (entryKey key).Proper := by
  unfold entryKey
  cases h : numberKey? key with
  | none => exact h
  | some y => trivial

/-- The new table after one more member. -/
theorem filled_member (hf : Filled hash Stands H₀ H (Tree.object done).at) (hm : Made hash Stands H H' x v)
    (hempty : (H.tables H₀.next).array = []) (key : Bytes) :
    ∃ t', (tableSet hash (H'.tables H₀.next) key v).map Prod.fst = some t' ∧ t'.array = [] ∧
      Filled hash Stands H₀ (H'.set H₀.next t') (Tree.object (done ++ [(key, x)])).at := by
  rw [hm.frame _ hf.grows]
  obtain ⟨h, hr⟩ := hf.sound.represents H₀.next (Nat.le_refl _) hf.grows
  obtain ⟨t', hset, hr', -, harray, -⟩ := tableSet_spec hr key v
  refine ⟨t', by rw [hset]; rfl, harray.trans hempty, ?_⟩
  have hnil : (H.tables H₀.next).arrayValue (entryKey key) = .nil := by
    unfold Table.arrayValue Table.slot
    rw [hempty]
    split <;> rfl
  have hwrite := hf.write stands_framed hm hr' (contents_hash_write hr (entryKey_proper key)
    (by rw [entryKey_label]; exact hr') harray hnil)
  have heq : (Tree.object (done ++ [(key, x)])).at = fun k' => if k'.label = (entryKey key).label then x
      else (Tree.object done).at k' := funext fun k' => at_object_append key k'
  rw [heq]
  exact hwrite

end Members

end Json

end ToiLang
