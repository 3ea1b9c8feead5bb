import Mathlib.Data.List.Basic
import Mathlib.Data.Set.Card
import Mathlib.Logic.Function.Basic

/- Hash tables with open addressing, linear probing and tombstones. -/
namespace OpenAddressing

/-- A slot of a table. A slot that was deleted from does not end a probe. -/
inductive Slot (K V : Type)
  | empty
  | deleted
  | used (k : K) (v : V)
  deriving DecidableEq, Repr

variable {K V : Type}

def Slot.isFilled : Slot K V → Bool
  | empty => false
  | _ => true

/-- The search for a key from a slot on: the slot with the key, or the first slot where it may be
put. -/
def search [DecidableEq K] (slots : List (Slot K V)) (key : K) : Nat → Nat → Option Nat → Option Nat
  | 0, _, _ => none
  | fuel + 1, index, free =>
    match slots[index]? with
    | some (.used k _) =>
      if k = key then some index else search slots key fuel ((index + 1) % slots.length) free
    | some .deleted =>
      search slots key fuel ((index + 1) % slots.length) (free <|> some index)
    | some .empty => some (free.getD index)
    | none => none

/-- The slot that the `d`-th probe from `s` looks at. -/
def probe (n s d : Nat) : Nat := (s + d) % n

theorem probe_lt {n : Nat} (hn : 0 < n) (s d : Nat) : probe n s d < n := Nat.mod_lt _ hn

theorem probe_succ (n s d : Nat) : (probe n s d + 1) % n = probe n s (d + 1) := by
  simp [probe, Nat.add_assoc]

theorem probe_eq {n s d : Nat} (hs : s < n) (hd : d < n) :
    probe n s d = if s + d < n then s + d else s + d - n := by
  unfold probe
  split
  next h => exact Nat.mod_eq_of_lt h
  next h =>
    rw [Nat.mod_eq_sub_mod (by omega)]
    exact Nat.mod_eq_of_lt (by omega)

/-- The probes reach every slot. -/
theorem exists_probe {n s i : Nat} (hs : s < n) (hi : i < n) : ∃ d, d < n ∧ probe n s d = i := by
  refine ⟨if s ≤ i then i - s else i + n - s, ?_, ?_⟩
  · split <;> omega
  · rw [probe_eq hs (by split <;> omega)]
    split_ifs <;> omega

/-- Every key can be found: no slot is empty between where its probes start and where it is, and
no key has two slots. -/
structure Valid (start : K → Nat) (slots : List (Slot K V)) : Prop where
  path : ∀ (i : Nat) (k : K) (v : V), slots[i]? = some (Slot.used k v) →
    ∃ d, d < slots.length ∧ probe slots.length (start k) d = i ∧
      ∀ j, j < d → slots[probe slots.length (start k) j]? ≠ some Slot.empty
  unique : ∀ (i j : Nat) (k : K) (v w : V), slots[i]? = some (Slot.used k v) →
    slots[j]? = some (Slot.used k w) → i = j

/-- The slots hold the bindings of a map. -/
def Holds (slots : List (Slot K V)) (m : K → Option V) : Prop :=
  ∀ k v, m k = some v ↔ ∃ i : Nat, slots[i]? = some (Slot.used k v)

def Absent (slots : List (Slot K V)) (key : K) : Prop :=
  ∀ (j : Nat) (v : V), slots[j]? ≠ some (Slot.used key v)

/-- A slot where a key may be put. -/
structure Place (start : K → Nat) (slots : List (Slot K V)) (key : K) (i : Nat) : Prop where
  free : slots[i]? = some Slot.empty ∨ slots[i]? = some Slot.deleted
  path : ∃ d, d < slots.length ∧ probe slots.length (start key) d = i ∧
    ∀ j, j < d → slots[probe slots.length (start key) j]? ≠ some Slot.empty

/-- What a search finds: the slot of the key or, when no slot has it, a place for it. -/
inductive Found (start : K → Nat) (slots : List (Slot K V)) (key : K) (i : Nat) : Prop
  | present (v : V) (h : slots[i]? = some (Slot.used key v))
  | absent (hp : Place start slots key i) (h : Absent slots key)

variable {start : K → Nat} {slots : List (Slot K V)} {key : K} {m : K → Option V}

/-- What the search has seen after `d` probes. -/
structure Seen (start : K → Nat) (slots : List (Slot K V)) (key : K) (d : Nat) (free : Option Nat) :
    Prop where
  other : ∀ j, j < d → slots[probe slots.length (start key) j]? ≠ some Slot.empty ∧
    ∀ v : V, slots[probe slots.length (start key) j]? ≠ some (Slot.used key v)
  place : ∀ i, free = some i → Place start slots key i

theorem Seen.succ {d : Nat} {free free' : Option Nat} (hs : Seen start slots key d free)
    (hne : slots[probe slots.length (start key) d]? ≠ some Slot.empty)
    (hk : ∀ v : V, slots[probe slots.length (start key) d]? ≠ some (Slot.used key v))
    (hf : ∀ i, free' = some i → Place start slots key i) : Seen start slots key (d + 1) free' := by
  refine ⟨fun j hj => ?_, hf⟩
  rcases Nat.lt_succ_iff_lt_or_eq.mp hj with hj | rfl
  · exact hs.other j hj
  · exact ⟨hne, hk⟩

theorem Seen.absent {d : Nat} {free : Option Nat} (hv : Valid start slots)
    (hs : Seen start slots key d free)
    (hempty : slots[probe slots.length (start key) d]? = some Slot.empty) : Absent slots key := by
  intro j v hj
  obtain ⟨c, hc, hcj, hcp⟩ := hv.path j key v hj
  rcases Nat.lt_or_ge c d with h | h
  · exact (hs.other c h).2 v (hcj ▸ hj)
  · rcases Nat.lt_or_eq_of_le h with h | rfl
    · exact hcp d h hempty
    · rw [hcj, hj] at hempty
      cases hempty

/-- A search with an empty slot ahead ends: there, or before it at the key. -/
theorem search_from [DecidableEq K] (hv : Valid start slots) {fuel d e : Nat} {free : Option Nat}
    (hs : Seen start slots key d free) (hde : d ≤ e) (he : e < slots.length)
    (hstop : slots[probe slots.length (start key) e]? = some Slot.empty) (hfuel : e < d + fuel) :
    ∃ i, search slots key fuel (probe slots.length (start key) d) free = some i ∧
      Found start slots key i := by
  induction fuel generalizing d free with
  | zero => omega
  | succ fuel ih =>
    have hlt : probe slots.length (start key) d < slots.length := probe_lt (by omega) _ _
    have hget := List.getElem?_eq_getElem hlt
    have hnext (hne : slots[probe slots.length (start key) d]? ≠ some Slot.empty) : d + 1 ≤ e := by
      rcases Nat.lt_or_eq_of_le hde with h | rfl
      · exact h
      · exact absurd hstop hne
    cases hslot : slots[probe slots.length (start key) d] with
    | empty =>
      rw [hslot] at hget
      have hplace : Place start slots key (probe slots.length (start key) d) :=
        ⟨.inl hget, d, by omega, rfl, fun j hj => (hs.other j hj).1⟩
      refine ⟨free.getD (probe slots.length (start key) d), by simp [search, hget],
        .absent ?_ (hs.absent hv hget)⟩
      cases free with
      | none => exact hplace
      | some i => exact hs.place i rfl
    | deleted =>
      rw [hslot] at hget
      have hne : slots[probe slots.length (start key) d]? ≠ some Slot.empty := by simp [hget]
      simp only [search, hget, probe_succ]
      refine ih (hs.succ hne (fun v => by simp [hget]) fun i hi => ?_) (hnext hne) (by omega)
      cases free with
      | some f => exact hs.place i hi
      | none =>
        cases Option.some.inj hi
        exact ⟨.inr hget, d, by omega, rfl, fun j hj => (hs.other j hj).1⟩
    | used k v =>
      rw [hslot] at hget
      have hne : slots[probe slots.length (start key) d]? ≠ some Slot.empty := by simp [hget]
      by_cases hk : k = key
      · subst hk
        exact ⟨probe slots.length (start k) d, by simp [search, hget], .present v hget⟩
      · simp only [search, hget, probe_succ, hk, ↓reduceIte]
        refine ih (hs.succ hne (fun w hw => hk ?_) hs.place) (hnext hne) (by omega)
        rw [hget] at hw
        cases hw
        rfl

/-- With an empty slot the search ends after at most as many probes as there are slots. -/
theorem search_spec [DecidableEq K] (hv : Valid start slots) (hempty : Slot.empty ∈ slots)
    (hstart : start key < slots.length) :
    ∃ i, search slots key slots.length (start key) none = some i ∧ Found start slots key i := by
  obtain ⟨i, hi, hie⟩ := List.getElem_of_mem hempty
  obtain ⟨e, he, hei⟩ := exists_probe hstart hi
  have hstop : slots[probe slots.length (start key) e]? = some Slot.empty := by
    rw [hei, List.getElem?_eq_getElem hi, hie]
  have hs : Seen start slots key 0 none := ⟨fun j hj => by omega, fun i hi => by cases hi⟩
  have h := search_from hv hs (Nat.zero_le e) he hstop (show e < 0 + slots.length by omega)
  have hz : probe slots.length (start key) 0 = start key := by simp [probe, Nat.mod_eq_of_lt hstart]
  rwa [hz] at h

theorem Found.lt {i : Nat} (h : Found start slots key i) : i < slots.length := by
  cases h with
  | present v h => exact (List.getElem?_eq_some_iff.mp h).1
  | absent hp h =>
    obtain hf | hf := hp.free
    · exact (List.getElem?_eq_some_iff.mp hf).1
    · exact (List.getElem?_eq_some_iff.mp hf).1

/-- The slot that a search found has no other key. -/
theorem Found.key_eq {i : Nat} {k : K} {v : V} (h : Found start slots key i)
    (hk : slots[i]? = some (Slot.used k v)) : k = key := by
  cases h with
  | present w hw =>
    rw [hk] at hw
    cases hw
    rfl
  | absent hp h =>
    obtain hf | hf := hp.free
    · rw [hk] at hf
      cases hf
    · rw [hk] at hf
      cases hf

theorem Found.path {i : Nat} (hv : Valid start slots) (h : Found start slots key i) :
    ∃ d, d < slots.length ∧ probe slots.length (start key) d = i ∧
      ∀ j, j < d → slots[probe slots.length (start key) j]? ≠ some Slot.empty := by
  cases h with
  | present v h => exact hv.path i key v h
  | absent hp h => exact hp.path

/-- The key has no slot but the one that a search found. -/
theorem Found.eq {i j : Nat} {v : V} (hv : Valid start slots) (h : Found start slots key i)
    (hj : slots[j]? = some (Slot.used key v)) : i = j := by
  cases h with
  | present w hw => exact hv.unique i j key w v hw hj
  | absent hp h => exact absurd hj (h j v)

theorem Valid.ne_empty_set {s : Slot K V} {i j : Nat} (hs : s ≠ Slot.empty)
    (h : slots[j]? ≠ some Slot.empty) : (slots.set i s)[j]? ≠ some Slot.empty := by
  rw [List.getElem?_set]
  split_ifs with hij hlt
  · simpa using hs
  · simp
  · exact h

/-- A key put into the slot that its search found. -/
theorem Valid.put {i : Nat} (hv : Valid start slots) (hf : Found start slots key i) (v : V) :
    Valid start (slots.set i (.used key v)) := by
  have hset {j : Nat} (h : slots[j]? ≠ some Slot.empty) :=
    Valid.ne_empty_set (i := i) (s := Slot.used key v) (by simp) h
  constructor
  · intro j k w hj
    rw [List.length_set]
    by_cases hij : i = j
    · subst hij
      rw [List.getElem?_set_self hf.lt] at hj
      cases hj
      obtain ⟨d, hd, hdi, hdp⟩ := hf.path hv
      exact ⟨d, hd, hdi, fun c hc => hset (hdp c hc)⟩
    · rw [List.getElem?_set_ne hij] at hj
      obtain ⟨d, hd, hdi, hdp⟩ := hv.path j k w hj
      exact ⟨d, hd, hdi, fun c hc => hset (hdp c hc)⟩
  · intro a b k x y ha hb
    by_cases hia : i = a
    · by_cases hib : i = b
      · omega
      · subst hia
        rw [List.getElem?_set_self hf.lt] at ha
        rw [List.getElem?_set_ne hib] at hb
        cases ha
        exact hf.eq hv hb
    · rw [List.getElem?_set_ne hia] at ha
      by_cases hib : i = b
      · subst hib
        rw [List.getElem?_set_self hf.lt] at hb
        cases hb
        exact (hf.eq hv ha).symm
      · rw [List.getElem?_set_ne hib] at hb
        exact hv.unique a b k x y ha hb

theorem Holds.put [DecidableEq K] {i : Nat} (hv : Valid start slots) (hm : Holds slots m)
    (hf : Found start slots key i) (v : V) :
    Holds (slots.set i (.used key v)) (Function.update m key (some v)) := by
  intro k w
  by_cases hk : k = key
  · subst hk
    rw [Function.update_self]
    constructor
    · intro h
      cases h
      exact ⟨i, List.getElem?_set_self hf.lt⟩
    · rintro ⟨j, hj⟩
      by_cases hij : i = j
      · subst hij
        rw [List.getElem?_set_self hf.lt] at hj
        cases hj
        rfl
      · rw [List.getElem?_set_ne hij] at hj
        exact absurd (hf.eq hv hj) hij
  · rw [Function.update_of_ne hk, hm k w]
    constructor
    · rintro ⟨j, hj⟩
      have hij : i ≠ j := fun h => hk (hf.key_eq (h ▸ hj))
      exact ⟨j, by rw [List.getElem?_set_ne hij, hj]⟩
    · rintro ⟨j, hj⟩
      by_cases hij : i = j
      · subst hij
        rw [List.getElem?_set_self hf.lt] at hj
        cases hj
        exact absurd rfl hk
      · rw [List.getElem?_set_ne hij] at hj
        exact ⟨j, hj⟩

/-- A slot that a tombstone replaces. -/
theorem Valid.remove {i : Nat} (hv : Valid start slots) : Valid start (slots.set i .deleted) := by
  have hset {j : Nat} (h : slots[j]? ≠ some Slot.empty) :=
    Valid.ne_empty_set (i := i) (s := (Slot.deleted : Slot K V)) (by simp) h
  have hget {j : Nat} {k : K} {v : V} (h : (slots.set i .deleted)[j]? = some (Slot.used k v)) :
      slots[j]? = some (Slot.used k v) := by
    rw [List.getElem?_set] at h
    split_ifs at h
    · cases h
    · exact h
  constructor
  · intro j k w hj
    rw [List.length_set]
    obtain ⟨d, hd, hdi, hdp⟩ := hv.path j k w (hget hj)
    exact ⟨d, hd, hdi, fun c hc => hset (hdp c hc)⟩
  · intro a b k x y ha hb
    exact hv.unique a b k x y (hget ha) (hget hb)

theorem Holds.remove [DecidableEq K] {i : Nat} {v : V} (hv : Valid start slots) (hm : Holds slots m)
    (hi : slots[i]? = some (Slot.used key v)) :
    Holds (slots.set i .deleted) (Function.update m key none) := by
  have hlt : i < slots.length := (List.getElem?_eq_some_iff.mp hi).1
  intro k w
  by_cases hk : k = key
  · subst hk
    rw [Function.update_self]
    constructor
    · intro h
      cases h
    · rintro ⟨j, hj⟩
      by_cases hij : i = j
      · subst hij
        rw [List.getElem?_set_self hlt] at hj
        cases hj
      · rw [List.getElem?_set_ne hij] at hj
        exact absurd (hv.unique i j k v w hi hj) hij
  · rw [Function.update_of_ne hk, hm k w]
    constructor
    · rintro ⟨j, hj⟩
      have hij : i ≠ j := by
        rintro rfl
        rw [hi] at hj
        cases hj
        exact hk rfl
      exact ⟨j, by rw [List.getElem?_set_ne hij, hj]⟩
    · rintro ⟨j, hj⟩
      by_cases hij : i = j
      · subst hij
        rw [List.getElem?_set_self hlt] at hj
        cases hj
      · rw [List.getElem?_set_ne hij] at hj
        exact ⟨j, hj⟩

theorem Holds.get {i : Nat} {v : V} (hm : Holds slots m) (h : slots[i]? = some (Slot.used key v)) :
    m key = some v := (hm key v).mpr ⟨i, h⟩

theorem Holds.get_absent (hm : Holds slots m) (h : Absent slots key) : m key = none := by
  cases hk : m key with
  | none => rfl
  | some v =>
    obtain ⟨i, hi⟩ := (hm key v).mp hk
    exact absurd hi (h i v)

/-- The slots that are not empty; a load factor below one leaves an empty slot. -/
def filled (slots : List (Slot K V)) : Nat := slots.countP Slot.isFilled

theorem exists_empty (h : filled slots < slots.length) : Slot.empty ∈ slots := by
  have hne : ¬ ∀ s ∈ slots, s.isFilled = true := by
    intro hall
    have := List.countP_eq_length.mpr hall
    unfold filled at h
    omega
  push Not at hne
  obtain ⟨s, hs, hsf⟩ := hne
  cases s with
  | empty => exact hs
  | deleted => exact absurd rfl hsf
  | used k v => exact absurd rfl hsf

theorem filled_set {i : Nat} {s t : Slot K V} (hi : slots[i]? = some s) :
    filled (slots.set i t) + (if s.isFilled then 1 else 0) =
      filled slots + if t.isFilled then 1 else 0 := by
  obtain ⟨hlt, hs⟩ := List.getElem?_eq_some_iff.mp hi
  have h := List.countP_set (p := Slot.isFilled) (l := slots) (i := i) (a := t) hlt
  rw [hs] at h
  have hpos (hf : s.isFilled = true) : 0 < slots.countP Slot.isFilled :=
    List.countP_pos_iff.mpr ⟨s, List.mem_of_getElem? hi, hf⟩
  unfold filled
  rw [h]
  cases hsf : s.isFilled with
  | false => simp
  | true =>
    have := hpos hsf
    simp only [↓reduceIte]
    omega

theorem valid_replicate (n : Nat) : Valid start (List.replicate n (Slot.empty : Slot K V)) := by
  have hne {i : Nat} {k : K} {v : V}
      (h : (List.replicate n (Slot.empty : Slot K V))[i]? = some (.used k v)) : False := by
    rw [List.getElem?_replicate] at h
    split_ifs at h
    cases h
  constructor
  · intro i k v h
    exact (hne h).elim
  · intro i j k v w h
    exact (hne h).elim

theorem holds_replicate (n : Nat) :
    Holds (List.replicate n (Slot.empty : Slot K V)) fun _ => none := by
  intro k v
  constructor
  · intro h
    cases h
  · rintro ⟨i, hi⟩
    rw [List.getElem?_replicate] at hi
    split_ifs at hi
    cases hi

theorem filled_replicate (n : Nat) : filled (List.replicate n (Slot.empty : Slot K V)) = 0 := by
  simp [filled, List.countP_replicate, Slot.isFilled]

def Slot.key? : Slot K V → Option K
  | used k _ => some k
  | _ => none

/-- The elements that `countP` counts, by their places. -/
theorem countP_eq_encard {α : Type} (p : α → Bool) (l : List α) :
    (l.countP p : ℕ∞) = {i : Nat | ∃ a, l[i]? = some a ∧ p a = true}.encard := by
  induction l with
  | nil => simp
  | cons a l ih =>
    have htail : {i : Nat | ∃ b, (a :: l)[i]? = some b ∧ p b = true} =
        (if p a then {0} else ∅) ∪ Nat.succ '' {i : Nat | ∃ b, l[i]? = some b ∧ p b = true} := by
      ext i
      cases i with
      | zero => by_cases ha : p a <;> simp [ha]
      | succ i => by_cases ha : p a <;> simp [ha]
    have hdisjoint : Disjoint (if p a then {0} else ∅ : Set Nat)
        (Nat.succ '' {i : Nat | ∃ b, l[i]? = some b ∧ p b = true}) := by
      rw [Set.disjoint_left]
      rintro i hi ⟨j, -, rfl⟩
      split at hi
      · cases hi
      · exact hi
    rw [htail, Set.encard_union_eq hdisjoint, Function.Injective.encard_image Nat.succ_injective,
      ← ih]
    by_cases ha : p a
    · simp [ha, add_comm]
    · simp [ha]

/-- Without tombstones the filled slots are the keys. -/
theorem Valid.filled_eq_encard (hv : Valid start slots) (hm : Holds slots m)
    (hd : Slot.deleted ∉ slots) : (filled slots : ℕ∞) = {k | m k ≠ none}.encard := by
  have hused {i : Nat} {s : Slot K V} (hs : slots[i]? = some s) (hf : s.isFilled = true) :
      ∃ k v, s = .used k v := by
    cases s with
    | empty => cases hf
    | deleted => exact absurd (List.mem_of_getElem? hs) hd
    | used k v => exact ⟨k, v, rfl⟩
  have hinj : Set.InjOn (fun i : Nat => slots[i]?.bind Slot.key?)
      {i : Nat | ∃ s, slots[i]? = some s ∧ s.isFilled = true} := by
    rintro i ⟨s, hi, hs⟩ j ⟨t, hj, ht⟩ hij
    obtain ⟨k, v, rfl⟩ := hused hi hs
    obtain ⟨l, w, rfl⟩ := hused hj ht
    simp only [hi, hj, Option.bind_some, Slot.key?, Option.some.injEq] at hij
    subst hij
    exact hv.unique i j k v w hi hj
  have himage : (fun i : Nat => slots[i]?.bind Slot.key?) ''
      {i : Nat | ∃ s, slots[i]? = some s ∧ s.isFilled = true} = some '' {k | m k ≠ none} := by
    ext k
    constructor
    · rintro ⟨i, ⟨s, hi, hs⟩, rfl⟩
      obtain ⟨k, v, rfl⟩ := hused hi hs
      refine ⟨k, ?_, by simp [hi, Slot.key?]⟩
      change m k ≠ none
      rw [hm.get hi]
      exact Option.some_ne_none v
    · rintro ⟨k, hk, rfl⟩
      obtain ⟨v, hkv⟩ := Option.ne_none_iff_exists'.mp hk
      obtain ⟨i, hi⟩ := (hm k v).mp hkv
      exact ⟨i, ⟨_, hi, rfl⟩, by simp [hi, Slot.key?]⟩
  rw [filled, countP_eq_encard, ← hinj.encard_image, himage,
    Function.Injective.encard_image (Option.some_injective K)]

end OpenAddressing
