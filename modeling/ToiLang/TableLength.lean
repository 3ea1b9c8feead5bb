import ToiLang.TableAccess

namespace ToiLang

open OpenAddressing

/-- `is_falsey_local`; `tables` are the table objects by their addresses. -/
def isFalseyLocal (tables : Nat → Table) : Value → Bool
  | .nil => true
  | .bool b => !b
  | .number x => x.isZero
  | .string s => s.length == 0
  | .table a =>
    if (tables a).count > 0 then false else (tables a).array.all fun v => decide (v = .nil)
  | _ => false

/-- `vm_handle_op_length`: none is the error "Length operator (#) requires string or table.". -/
def vmHandleOpLength (tables : Nat → Table) : Value → Option Nat
  | .string s => some s.length
  | .table a => some ((tables a).count + (tables a).array.countP fun v => decide (v ≠ .nil))
  | _ => none

/-- The keys whose value is not nil. -/
def live (m : KeyId → Value) : Set KeyId := {k | m k ≠ .nil}

/-- Length and truthiness are those of the live keys. -/
def CountsLive (t : Table) (m : KeyId → Value) : Prop :=
  ∀ (tables : Nat → Table) (a : Nat), tables a = t →
    (∃ n : Nat, vmHandleOpLength tables (.table a) = some n ∧ (n : ℕ∞) = (live m).encard) ∧
      (isFalseyLocal tables (.table a) = true ↔ live m = ∅)

section Run

variable {H : Host} {o o' : TableObject} {m : KeyId → Value} {h : Bytes → Option Value}

/-- No other key that the hash part would take for this one has a value there. -/
def Alone (H : Host) (t : Table) (m : KeyId → Value) (k : KeyId) : Prop :=
  ∀ k', k' ≠ k → k'.text H = k.text H → t.arrayValue k' = .nil → m k' = .nil

/-- A key that goes to the hash part is alone there. -/
def TableOp.Separate (H : Host) (o : TableObject) (m : KeyId → Value) : TableOp → Prop
  | get .. => True
  | set key _ => key.inArray o.table = false → Alone H o.table m (key.id H)
  | delete key => o.table.arrayValue (key.id H) = .nil → Alone H o.table m (key.id H)

/-- What leaves `count` true: no nil is written to the hash part, the array part takes no index
whose value the hash part has, and nothing is deleted from the hash part. -/
def TableOp.KeepsCount (H : Host) (o : TableObject) (m : KeyId → Value) : TableOp → Prop
  | get .. => True
  | set key value =>
    if key.inArray o.table then m (key.id H) ≠ .nil → o.table.arrayValue (key.id H) ≠ .nil
    else value ≠ .nil
  | delete key => o.table.arrayValue (key.id H) ≠ .nil ∨ m (key.id H) = .nil

/-- The runs of such operations on a new table, with the map of the latest writes. -/
def CountRun (H : Host) : TableObject → (KeyId → Value) → Prop :=
  OpRun H fun o m op => op.Separate H o m ∧ op.KeepsCount H o m

/-- Every filled slot is of a live key, and every live key has one place. -/
structure Counted (H : Host) (t : Table) (m : KeyId → Value) (h : Bytes → Option Value) :
    Prop where
  represents : t.Represents H.hash h
  clean : t.Clean
  hashed : ∀ s v, h s = some v → v ≠ .nil ∧ ∃ k : KeyId, k.text H = s ∧ m k = v ∧ t.arrayValue k = .nil
  placed : ∀ i, t.slot i ≠ .nil → ∃ k : KeyId, k.place = some i
  array : ∀ k, t.arrayValue k ≠ .nil → m k = t.arrayValue k
  bound : ∀ k, m k ≠ .nil → t.arrayValue k = .nil → h (k.text H) = some (m k)
  apart : ∀ k k' : KeyId, m k ≠ .nil → m k' ≠ .nil → t.arrayValue k = .nil → t.arrayValue k' = .nil →
    k.text H = k'.text H → k = k'

theorem place_of_arrayValue {t : Table} {k : KeyId} (hv : t.arrayValue k ≠ .nil) :
    ∃ i, k.place = some i := by
  cases hp : k.place with
  | some i => exact ⟨i, rfl⟩
  | none =>
    refine absurd ?_ hv
    simp only [Table.arrayValue, hp]

theorem newTable_counted : Counted H newTable.table (fun _ => .nil) fun _ => none where
  represents := initTable_represents
  clean := by simp [Table.Clean, newTable, initTable, slots]
  hashed := by
    intro s v hs
    cases hs
  placed := by
    intro i hi
    exact absurd rfl hi
  array := by
    intro k hk
    obtain ⟨i, hp⟩ := place_of_arrayValue hk
    rw [arrayValue_place hp] at hk
    exact absurd rfl hk
  bound := by
    intro k hk
    exact absurd rfl hk
  apart := by
    intro k k' hk
    exact absurd rfl hk

theorem slot_ne_nil_iff (t : Table) (i : Nat) :
    t.slot i ≠ .nil ↔ ∃ v, t.array[i]? = some v ∧ decide (v ≠ .nil) = true := by
  unfold Table.slot
  rw [List.getD_eq_getElem?_getD]
  cases t.array[i]? with
  | none => simp
  | some v => simp

/-- The length counts the keys of the hash part and the places of the array part. -/
theorem length_eq_encard {t : Table} (hr : t.Represents H.hash h) (hc : t.Clean) :
    ((t.count + t.array.countP fun v => decide (v ≠ .nil) : Nat) : ℕ∞) =
      {s | h s ≠ none}.encard + {i | t.slot i ≠ .nil}.encard := by
  rw [Nat.cast_add, hr.count_eq_encard hc, countP_eq_encard]
  congr 2
  ext i
  exact (slot_ne_nil_iff t i).symm

theorem Counted.live_eq {t : Table} (hc : Counted H t m h) :
    (live m).encard = {s | h s ≠ none}.encard + {i | t.slot i ≠ .nil}.encard := by
  have hsplit : live m = {k | m k ≠ .nil ∧ t.arrayValue k = .nil} ∪ {k | t.arrayValue k ≠ .nil} := by
    ext k
    constructor
    · intro hk
      by_cases hv : t.arrayValue k = .nil
      · exact .inl ⟨hk, hv⟩
      · exact .inr hv
    · intro hk
      obtain ⟨hk, -⟩ | hk := hk
      · exact hk
      · change m k ≠ .nil
        rw [hc.array k hk]
        exact hk
  have hdisjoint : Disjoint {k | m k ≠ .nil ∧ t.arrayValue k = .nil}
      {k | t.arrayValue k ≠ .nil} := by
    rw [Set.disjoint_left]
    intro k hk hk'
    exact hk' hk.2
  have htext : KeyId.text H '' {k | m k ≠ .nil ∧ t.arrayValue k = .nil} = {s | h s ≠ none} := by
    ext s
    constructor
    · rintro ⟨k, ⟨hk, hv⟩, rfl⟩
      change h (k.text H) ≠ none
      rw [hc.bound k hk hv]
      exact Option.some_ne_none (m k)
    · intro hs
      obtain ⟨v, hv⟩ := Option.ne_none_iff_exists'.mp hs
      obtain ⟨hne, k, hk, hm, ha⟩ := hc.hashed s v hv
      exact ⟨k, ⟨hm ▸ hne, ha⟩, hk⟩
  have hinj : Set.InjOn (KeyId.text H) {k | m k ≠ .nil ∧ t.arrayValue k = .nil} := by
    intro k hk k' hk' hkk
    exact hc.apart k k' hk.1 hk'.1 hk.2 hk'.2 hkk
  have hplace : KeyId.place '' {k | t.arrayValue k ≠ .nil} = some '' {i | t.slot i ≠ .nil} := by
    ext i
    constructor
    · rintro ⟨k, hk, rfl⟩
      obtain ⟨i, hp⟩ := place_of_arrayValue hk
      refine ⟨i, ?_, hp.symm⟩
      change t.arrayValue k ≠ .nil at hk
      rwa [arrayValue_place hp] at hk
    · rintro ⟨i, hi, rfl⟩
      obtain ⟨k, hp⟩ := hc.placed i hi
      refine ⟨k, ?_, hp⟩
      change t.arrayValue k ≠ .nil
      rwa [arrayValue_place hp]
  have hplaceInj : Set.InjOn KeyId.place {k | t.arrayValue k ≠ .nil} := by
    intro k hk k' hk' hkk
    obtain ⟨i, hp⟩ := place_of_arrayValue hk
    exact KeyId.place_inj hp (hkk ▸ hp)
  rw [hsplit, Set.encard_union_eq hdisjoint, ← hinj.encard_image, htext, ← hplaceInj.encard_image,
    hplace, Function.Injective.encard_image (Option.some_injective Nat)]

theorem falsey_iff (tables : Nat → Table) (a : Nat) :
    isFalseyLocal tables (.table a) = true ↔
      (tables a).count + (tables a).array.countP (fun v => decide (v ≠ .nil)) = 0 := by
  unfold isFalseyLocal
  dsimp only
  split
  next hpos =>
    constructor
    · intro hf
      cases hf
    · intro hz
      omega
  next hpos =>
    have hzero : (tables a).count = 0 := by omega
    rw [hzero, Nat.zero_add, List.countP_eq_zero, List.all_eq_true]
    simp

theorem countsLive_iff {t : Table} :
    CountsLive t m ↔
      ((t.count + t.array.countP fun v => decide (v ≠ .nil) : Nat) : ℕ∞) = (live m).encard := by
  constructor
  · intro hl
    obtain ⟨⟨n, hn, hlive⟩, -⟩ := hl (fun _ => t) 0 rfl
    cases Option.some.inj hn
    exact hlive
  · rintro hl tables a rfl
    refine ⟨⟨_, rfl, hl⟩, ?_⟩
    rw [falsey_iff, ← Set.encard_eq_zero, ← hl]
    norm_cast

theorem Counted.countsLive {t : Table} (hc : Counted H t m h) : CountsLive t m := by
  rw [countsLive_iff, length_eq_encard hc.represents hc.clean, hc.live_eq]

theorem live_update_nil (k : KeyId) : live (Function.update m k .nil) = live m \ {k} := by
  ext k'
  by_cases hk : k' = k
  · subst hk
    simp [live]
  · simp [live, hk]

theorem live_update {k : KeyId} {v : Value} (hv : v ≠ .nil) :
    live (Function.update m k v) = insert k (live m) := by
  ext k'
  by_cases hk : k' = k
  · subst hk
    simp [live, hv]
  · simp [live, hk]

/-- Another number counts the live keys when one of them goes. -/
theorem ne_encard_sdiff {n : Nat} {s : Set KeyId} {k : KeyId} (hn : (n : ℕ∞) = s.encard)
    (hk : k ∈ s) : (n : ℕ∞) ≠ (s \ {k}).encard := by
  intro hs
  have hadd := Set.encard_sdiff_singleton_add_one hk
  rw [← hs, ← hn] at hadd
  norm_cast at hadd
  omega

theorem Counted.mem_live_iff {t : Table} (hc : Counted H t m h) {k : KeyId}
    (hnil : t.arrayValue k = .nil) (ha : Alone H t m k) : k ∈ live m ↔ h (k.text H) ≠ none := by
  constructor
  · intro hk
    rw [hc.bound k hk hnil]
    exact Option.some_ne_none (m k)
  · intro hs
    obtain ⟨v, hv⟩ := Option.ne_none_iff_exists'.mp hs
    obtain ⟨hne, k', hk', hm, ha'⟩ := hc.hashed _ v hv
    have hkk : k' = k := by
      by_contra hkk
      rw [ha k' hkk hk' ha'] at hm
      exact hne hm.symm
    subst hkk
    change m k' ≠ .nil
    rwa [hm]

theorem Counted.writeArray {t t' : Table} {k : KeyId} {i : Nat} {v : Value}
    (hc : Counted H t m h) (hr : t'.Represents H.hash h) (he : t'.entries = t.entries)
    (hp : k.place = some i) (hslot : ∀ j, t'.slot j = Function.update t.slot i v j)
    (hk : m k ≠ .nil → t.arrayValue k ≠ .nil) : Counted H t' (Function.update m k v) h := by
  have hval := arrayValue_update hp hslot
  have hother {k' : KeyId} (hm : Function.update m k v k' ≠ .nil) (ha : t'.arrayValue k' = .nil) :
      k' ≠ k := by
    rintro rfl
    rw [hval, Function.update_self] at ha
    rw [Function.update_self] at hm
    exact hm ha
  constructor
  · exact hr
  · unfold Table.Clean
    rw [he]
    exact hc.clean
  · intro s w hs
    obtain ⟨hne, k', hk', hm, ha⟩ := hc.hashed s w hs
    have hkk : k' ≠ k := by
      rintro rfl
      exact hk (hm ▸ hne) ha
    refine ⟨hne, k', hk', ?_, ?_⟩
    · rw [Function.update_of_ne hkk, hm]
    · rw [hval, Function.update_of_ne hkk, ha]
  · intro j hj
    by_cases hji : j = i
    · exact ⟨k, hji ▸ hp⟩
    · rw [hslot, Function.update_of_ne hji] at hj
      exact hc.placed j hj
  · intro k' hk'
    rw [hval] at hk' ⊢
    by_cases hkk : k' = k
    · rw [hkk, Function.update_self, Function.update_self]
    · rw [Function.update_of_ne hkk] at hk' ⊢
      rw [Function.update_of_ne hkk]
      exact hc.array k' hk'
  · intro k' hm ha
    have hkk := hother hm ha
    rw [hval, Function.update_of_ne hkk] at ha
    rw [Function.update_of_ne hkk] at hm ⊢
    exact hc.bound k' hm ha
  · intro k₁ k₂ hm₁ hm₂ ha₁ ha₂ htext
    have h₁ := hother hm₁ ha₁
    have h₂ := hother hm₂ ha₂
    rw [hval, Function.update_of_ne h₁] at ha₁
    rw [hval, Function.update_of_ne h₂] at ha₂
    rw [Function.update_of_ne h₁] at hm₁
    rw [Function.update_of_ne h₂] at hm₂
    exact hc.apart k₁ k₂ hm₁ hm₂ ha₁ ha₂ htext

theorem Counted.writeHash {t t' : Table} {k : KeyId} {v : Value} (hc : Counted H t m h)
    (hr : t'.Represents H.hash (Function.update h (k.text H) (some v))) (hclean : t'.Clean)
    (harr : t'.array = t.array) (hnil : t.arrayValue k = .nil) (hv : v ≠ .nil)
    (hk : Alone H t m k) :
    Counted H t' (Function.update m k v) (Function.update h (k.text H) (some v)) := by
  have hslot (i : Nat) : t'.slot i = t.slot i := by
    unfold Table.slot
    rw [harr]
  have hval (k' : KeyId) : t'.arrayValue k' = t.arrayValue k' := by
    simp only [Table.arrayValue, hslot]
  have htext {k' : KeyId} (hkk : k' ≠ k) (hm : m k' ≠ .nil) (ha : t.arrayValue k' = .nil) :
      k'.text H ≠ k.text H := fun ht => hm (hk k' hkk ht ha)
  constructor
  · exact hr
  · exact hclean
  · intro s w hs
    by_cases hsk : s = k.text H
    · subst hsk
      rw [Function.update_self] at hs
      cases Option.some.inj hs
      exact ⟨hv, k, rfl, Function.update_self k v m, by rw [hval, hnil]⟩
    · rw [Function.update_of_ne hsk] at hs
      obtain ⟨hne, k', hk', hm, ha⟩ := hc.hashed s w hs
      have hkk : k' ≠ k := by
        rintro rfl
        exact hsk hk'.symm
      exact ⟨hne, k', hk', by rw [Function.update_of_ne hkk, hm], by rw [hval, ha]⟩
  · intro i hi
    rw [hslot] at hi
    exact hc.placed i hi
  · intro k' hk'
    rw [hval] at hk' ⊢
    have hkk : k' ≠ k := by
      rintro rfl
      exact hk' hnil
    rw [Function.update_of_ne hkk]
    exact hc.array k' hk'
  · intro k' hm ha
    rw [hval] at ha
    by_cases hkk : k' = k
    · rw [hkk, Function.update_self, Function.update_self]
    · rw [Function.update_of_ne hkk] at hm ⊢
      rw [Function.update_of_ne (htext hkk hm ha)]
      exact hc.bound k' hm ha
  · intro k₁ k₂ hm₁ hm₂ ha₁ ha₂ ht
    rw [hval] at ha₁ ha₂
    by_cases h₁ : k₁ = k
    · by_cases h₂ : k₂ = k
      · rw [h₁, h₂]
      · rw [Function.update_of_ne h₂] at hm₂
        exact absurd (ht.symm.trans (congrArg _ h₁)) (htext h₂ hm₂ ha₂)
    · rw [Function.update_of_ne h₁] at hm₁
      by_cases h₂ : k₂ = k
      · exact absurd (ht.trans (congrArg _ h₂)) (htext h₁ hm₁ ha₁)
      · rw [Function.update_of_ne h₂] at hm₂
        exact hc.apart k₁ k₂ hm₁ hm₂ ha₁ ha₂ ht

/-- A nil in the hash part is counted. -/
theorem Counted.nil_counted {t t' : Table} {k : KeyId} (hc : Counted H t m h)
    (hr : t'.Represents H.hash (Function.update h (k.text H) (some .nil))) (hclean : t'.Clean)
    (harr : t'.array = t.array) (hnil : t.arrayValue k = .nil) (hk : Alone H t m k) :
    ¬ CountsLive t' (Function.update m k .nil) := by
  have hslot : {i | t'.slot i ≠ .nil} = {i | t.slot i ≠ .nil} := by
    simp only [Table.slot, harr]
  have hkeys : {s | Function.update h (k.text H) (some .nil) s ≠ none} =
      insert (k.text H) {s | h s ≠ none} := by
    ext s
    by_cases hs : s = k.text H
    · subst hs
      simp
    · simp [hs]
  have hlen := length_eq_encard hr hclean
  rw [hkeys, hslot] at hlen
  rw [countsLive_iff, live_update_nil]
  by_cases hmem : k ∈ live m
  · have hbound := (hc.mem_live_iff hnil hk).mp hmem
    have hinsert : insert (k.text H) {s | h s ≠ none} = {s | h s ≠ none} :=
      Set.insert_eq_self.mpr hbound
    rw [hinsert, ← hc.live_eq] at hlen
    exact ne_encard_sdiff hlen hmem
  · have hbound : k.text H ∉ {s | h s ≠ none} := fun hs => hmem ((hc.mem_live_iff hnil hk).mpr hs)
    rw [Set.encard_insert_of_notMem hbound, add_right_comm, ← hc.live_eq] at hlen
    rw [Set.sdiff_singleton_eq_self hmem]
    intro hlive
    rw [← hlive] at hlen
    norm_cast at hlen
    omega

/-- A key that the hash part has is counted again in the array part. -/
theorem Counted.array_counted {t t' : Table} {k : KeyId} {i : Nat} {v : Value}
    (hc : Counted H t m h) (hr : t'.Represents H.hash h) (he : t'.entries = t.entries)
    (hp : k.place = some i) (hslot : ∀ j, t'.slot j = Function.update t.slot i v j)
    (hm : m k ≠ .nil) (hnil : t.arrayValue k = .nil) :
    ¬ CountsLive t' (Function.update m k v) := by
  have hclean : t'.Clean := by
    unfold Table.Clean
    rw [he]
    exact hc.clean
  have hlen := length_eq_encard hr hclean
  have hmem : k ∈ live m := hm
  have hi : t.slot i = .nil := by rw [← arrayValue_place hp, hnil]
  rw [countsLive_iff]
  by_cases hv : v = .nil
  · have hsame : {j | t'.slot j ≠ .nil} = {j | t.slot j ≠ .nil} := by
      ext j
      by_cases hj : j = i
      · subst hj
        simp [hslot, hi, hv]
      · simp [hslot, hj]
    rw [hsame, ← hc.live_eq] at hlen
    rw [hv, live_update_nil]
    exact ne_encard_sdiff hlen hmem
  · have hone : {j | t'.slot j ≠ .nil} = insert i {j | t.slot j ≠ .nil} := by
      ext j
      by_cases hj : j = i
      · subst hj
        simp [hslot, hv]
      · simp [hslot, hj]
    have hnot : i ∉ {j | t.slot j ≠ .nil} := fun hni => hni hi
    rw [hone, Set.encard_insert_of_notMem hnot, ← add_assoc, ← hc.live_eq] at hlen
    rw [live_update hv, Set.insert_eq_self.mpr hmem]
    intro hlive
    rw [← hlive] at hlen
    norm_cast at hlen
    omega

/-- A key deleted from the hash part stays counted. -/
theorem Counted.tombstone_counted {t t' : Table} {k : KeyId} (hc : Counted H t m h)
    (hcount : t'.count = t.count) (harr : t'.array = t.array) (hm : m k ≠ .nil) :
    ¬ CountsLive t' (Function.update m k .nil) := by
  have hlen := length_eq_encard hc.represents hc.clean
  rw [← hc.live_eq] at hlen
  rw [countsLive_iff, live_update_nil, hcount, harr]
  exact ne_encard_sdiff hlen hm

theorem setTable_counted {t : TableObject} (hc : Counted H t.table m h) {key : Key} {v : Value}
    (hn : key.NonNegative) (hs : (TableOp.set key v).Separate H t m) :
    ∃ o', H.setTable t key v = some o' ∧
      ((TableOp.set key v).KeepsCount H t m →
        ∃ h', Counted H o'.table (Function.update m (key.id H) v) h') ∧
      (¬ (TableOp.set key v).KeepsCount H t m →
        ¬ CountsLive o'.table (Function.update m (key.id H) v)) := by
  unfold TableOp.KeepsCount
  dsimp only
  cases hin : key.inArray t.table with
  | true =>
    obtain ⟨t', i, ht', hr, -, he, -, hp, hslot⟩ := setTable_array hc.represents hn hin v
    refine ⟨_, ht', fun hk => ⟨h, hc.writeArray hr he hp hslot (by simpa using hk)⟩, fun hk => ?_⟩
    have hk : m (key.id H) ≠ .nil ∧ t.table.arrayValue (key.id H) = .nil := by simpa using hk
    exact hc.array_counted hr he hp hslot hk.1 hk.2
  | false =>
    obtain ⟨ht', hnil⟩ := setTable_hash (H := H) hn hin v
    obtain ⟨t', hset, hr, -, harr, -⟩ := tableSet_spec hc.represents ((key.id H).text H) v
    have hclean := tableSet_clean hc.clean hset
    refine ⟨{ t with table := t' }, ?_, fun hk => ⟨_, hc.writeHash hr hclean harr hnil ?_ (hs hin)⟩,
      fun hk => ?_⟩
    · rw [ht']
      simp [Host.setHash, hset]
    · simpa using hk
    · have hv : v = .nil := by simpa using hk
      subst hv
      exact hc.nil_counted hr hclean harr hnil (hs hin)

theorem deleteTable_counted {t : TableObject} (hc : Counted H t.table m h) {key : Key}
    (hn : key.NonNegative) (hs : (TableOp.delete key).Separate H t m) :
    ∃ o' found, H.deleteTable t key = some (o', found) ∧
      ((TableOp.delete key).KeepsCount H t m →
        ∃ h', Counted H o'.table (Function.update m (key.id H) .nil) h') ∧
      (¬ (TableOp.delete key).KeepsCount H t m →
        ¬ CountsLive o'.table (Function.update m (key.id H) .nil)) := by
  unfold TableOp.KeepsCount
  dsimp only
  by_cases hnil : t.table.arrayValue (key.id H) = .nil
  · rw [deleteTable_hash t hn hnil]
    by_cases hm : m (key.id H) = .nil
    · have hmiss : h ((key.id H).text H) = none := by
        by_contra hs'
        exact (hc.mem_live_iff hnil (hs hnil)).mpr hs' hm
      have hdel := tableDelete_missing hc.represents hmiss
      refine ⟨t, false, by simp [Host.deleteHash, hdel], fun _ => ⟨h, ?_⟩, fun hk => ?_⟩
      · rwa [← hm, Function.update_eq_self]
      · exact absurd (.inr hm) hk
    · obtain ⟨t', hdel, -, harr, -⟩ := tableDelete_spec hc.represents ((key.id H).text H)
      refine ⟨{ t with table := t' }, _, by simp [Host.deleteHash, hdel]; rfl, fun hk => ?_,
        fun _ => hc.tombstone_counted (tableDelete_count hdel) harr hm⟩
      obtain hk | hk := hk
      · exact absurd hnil hk
      · exact absurd hk hm
  · obtain ⟨t', i, ht', hr, -, he, -, hp, hslot⟩ := deleteTable_array hc.represents hn hnil
    refine ⟨_, true, ht', fun _ => ⟨h, hc.writeArray hr he hp hslot fun _ => hnil⟩, fun hk => ?_⟩
    exact absurd (.inl hnil) hk

/-- One operation: a step that keeps the count leaves every live key counted once, and no other
step leaves the length right. -/
theorem exec_counted (hc : Counted H o.table m h) {op : TableOp} (hn : op.key.NonNegative)
    (hs : op.Separate H o m) :
    ∃ o' v, H.exec o op = some (o', v) ∧
      (op.KeepsCount H o m → ∃ h', Counted H o'.table (op.record H m) h') ∧
      (¬ op.KeepsCount H o m → ¬ CountsLive o'.table (op.record H m)) := by
  cases op with
  | get site key obj =>
    obtain ⟨o', v, ho', ht⟩ := getTable_leaves hc.represents site key obj
    exact ⟨o', v, ho', fun _ => ⟨h, ht ▸ hc⟩, fun hk => absurd trivial hk⟩
  | set key value =>
    change key.NonNegative at hn
    obtain ⟨o', ho', hrest⟩ := setTable_counted hc hn hs
    exact ⟨o', value, by simp [Host.exec, ho'], hrest⟩
  | delete key =>
    change key.NonNegative at hn
    obtain ⟨o', found, ho', hrest⟩ := deleteTable_counted hc hn hs
    exact ⟨o', .nil, by simp [Host.exec, ho'], hrest⟩

theorem CountRun.counted (hr : CountRun H o m) : ∃ h, Counted H o.table m h := by
  induction hr with
  | start => exact ⟨_, newTable_counted⟩
  | step hr hn hp he ih =>
    obtain ⟨hs, hk⟩ := hp
    obtain ⟨h, ih⟩ := ih
    obtain ⟨o₁, v₁, ho₁, hkeep, -⟩ := exec_counted ih hn hs
    rw [ho₁] at he
    cases he
    exact hkeep hk

/-- In every run of operations that keep the count, length and truthiness are those of the live
keys; the next operation leaves them so if and only if it keeps the count. -/
theorem length_counts_live (hr : CountRun H o m) :
    CountsLive o.table m ∧
    ∀ op : TableOp, op.key.NonNegative → op.Separate H o m →
      ∃ o' v, H.exec o op = some (o', v) ∧
        (CountsLive o'.table (op.record H m) ↔ op.KeepsCount H o m) := by
  obtain ⟨h, hc⟩ := hr.counted
  refine ⟨hc.countsLive, fun op hn hs => ?_⟩
  obtain ⟨o', v, ho', hkeep, hnot⟩ := exec_counted hc hn hs
  refine ⟨o', v, ho', fun hl => ?_, fun hk => ?_⟩
  · by_contra hk
    exact hnot hk hl
  · obtain ⟨h', hc'⟩ := hkeep hk
    exact hc'.countsLive

end Run

namespace SampleTable

/-- `t["a"] = 1; del t["a"]` leaves a length of 1 with no live key. -/
theorem length_after_delete :
    ∃ o m, host.execAll [.set (.string 97) (.number one), .delete (.string 97)] = some (o, m) ∧
      live m = ∅ ∧ vmHandleOpLength (fun _ => o.table) (.table 0) = some 1 ∧
      isFalseyLocal (fun _ => o.table) (.table 0) = false := by
  refine ⟨_, _, rfl, ?_, by decide, by decide⟩
  ext k
  simp [live, TableOp.record, Key.id, host]

/-- `t["a"] = 1`: length and truthiness are those of the one key. -/
theorem length_counts_live_one :
    ∃ o, host.exec newTable (.set (.string 97) (.number one)) = some (o, .number one) ∧
      CountsLive o.table (Function.update (fun _ => .nil) (.string [97]) (.number one)) := by
  have hs : (TableOp.set (.string 97) (.number one)).Separate host newTable fun _ => .nil :=
    fun _ _ _ _ _ => rfl
  have hk : (TableOp.set (.string 97) (.number one)).KeepsCount host newTable fun _ => .nil :=
    fun hv => nomatch hv
  have hr : CountRun host _ _ :=
    @OpRun.step host _ _ _ _ (.set (.string 97) (.number one)) _ .start trivial ⟨hs, hk⟩ rfl
  exact ⟨_, rfl, (length_counts_live hr).1⟩

end SampleTable

end ToiLang
