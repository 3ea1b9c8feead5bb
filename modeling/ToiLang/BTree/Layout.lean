import Mathlib.Algebra.Order.BigOperators.Group.List
import ToiLang.BTree.Page

namespace ToiLang

/-- `n` bytes of a page from an offset on. -/
def bytesAt (page : Bytes) (off n : Nat) : Bytes := (page.drop off).take n

theorem setBytes_length {page bs : Bytes} {off : Nat} (h : off + bs.length ≤ page.length) :
    (setBytes page off bs).length = page.length := by
  simp only [setBytes, List.length_append, List.length_take, List.length_drop]
  omega

theorem setBytes_getElem? {page bs : Bytes} {off : Nat} (h : off + bs.length ≤ page.length)
    (i : Nat) : (setBytes page off bs)[i]? =
      if i < off then page[i]? else if i < off + bs.length then bs[i - off]? else page[i]? := by
  unfold setBytes
  have htake : (page.take off).length = off := by
    rw [List.length_take]
    omega
  rw [List.append_assoc]
  split_ifs with h₁ h₂
  · rw [List.getElem?_append_left (by omega), List.getElem?_take_of_lt h₁]
  · rw [List.getElem?_append_right (by omega), htake, List.getElem?_append_left (by omega)]
  · rw [List.getElem?_append_right (by omega), htake, List.getElem?_append_right (by omega),
      List.getElem?_drop]
    congr 1
    omega

theorem bytesAt_getElem? (page : Bytes) (off n i : Nat) :
    (bytesAt page off n)[i]? = if i < n then page[off + i]? else none := by
  unfold bytesAt
  split_ifs with h
  · rw [List.getElem?_take_of_lt h, List.getElem?_drop]
  · exact List.getElem?_take_eq_none (by omega)

theorem bytesAt_set_self {page bs : Bytes} {off : Nat} (h : off + bs.length ≤ page.length) :
    bytesAt (setBytes page off bs) off bs.length = bs := by
  apply List.ext_getElem?
  intro i
  rw [bytesAt_getElem?]
  split_ifs with hi
  · rw [setBytes_getElem? h, if_neg (by omega), if_pos (by omega), Nat.add_sub_cancel_left]
  · rw [List.getElem?_eq_none (by omega)]

theorem bytesAt_set_of_disjoint {page bs : Bytes} {off off' n : Nat}
    (h : off + bs.length ≤ page.length) (hd : off' + n ≤ off ∨ off + bs.length ≤ off') :
    bytesAt (setBytes page off bs) off' n = bytesAt page off' n := by
  apply List.ext_getElem?
  intro i
  rw [bytesAt_getElem?, bytesAt_getElem?]
  split_ifs with hi
  · rw [setBytes_getElem? h]
    split_ifs
    · rfl
    · omega
    · rfl
  · rfl

theorem drop_eq_of_bytesAt {page bs : Bytes} {off n : Nat} (h : bytesAt page off n = bs) :
    page.drop off = bs ++ page.drop (off + n) := by
  have := List.take_append_drop n (page.drop off)
  rw [← this, List.drop_drop]
  unfold bytesAt at h
  rw [h]

theorem rdU16_wrU16 {v : Nat} (h : v < 65536) (rest : Bytes) : rdU16 (wrU16 v ++ rest) = v := by
  unfold rdU16 wrU16
  rw [leValue_leBytes]
  exact Nat.mod_eq_of_lt h

theorem rdU32_wrU32 (v : UInt32) (rest : Bytes) : rdU32 (wrU32 v ++ rest) = v := by
  unfold rdU32 wrU32
  have hlt : v.toNat < 256 ^ 4 := v.toNat_lt
  rw [leValue_leBytes, Nat.mod_eq_of_lt hlt, UInt32.ofNat_toNat]

theorem rdDouble_doubleBytes (x : Double) (rest : Bytes) :
    rdDouble (doubleBytes x ++ rest) = x := by
  unfold rdDouble doubleBytes
  have hlt : UInt64.toNat x < 256 ^ 8 := UInt64.toNat_lt x
  rw [leValue_leBytes, Nat.mod_eq_of_lt hlt, UInt64.ofNat_toNat]

@[simp] theorem wrU16_length (v : Nat) : (wrU16 v).length = 2 := leBytes_length 2 v
@[simp] theorem wrU32_length (v : UInt32) : (wrU32 v).length = 4 := leBytes_length 4 v.toNat
@[simp] theorem doubleBytes_length (x : Double) : (doubleBytes x).length = 8 :=
  leBytes_length 8 x.toNat

theorem atomEncode_length (a : BTreeAtom) : (atomEncode a).length = atomEncodedSize a := by
  cases a with
  | number x => simp [atomEncode, atomEncodedSize]
  | string s =>
    simp [atomEncode, atomEncodedSize]
    omega

/-- What was encoded is decoded from whatever follows it. -/
theorem atomDecode_encode {a : BTreeAtom} (ha : a.Valid) {rest : Bytes} {inSize : Nat}
    (h : atomEncodedSize a ≤ inSize) :
    atomDecode (atomEncode a ++ rest) inSize = .ok (atomEncodedSize a, a) := by
  cases a with
  | number x =>
    simp only [atomEncodedSize] at h
    have h₁ : ¬ inSize < 1 := by omega
    have h₂ : ¬ inSize < 9 := by omega
    have h₃ : ¬ (doubleBytes x ++ rest).length < 8 := by simp
    simp only [atomDecode, atomEncode, List.cons_append, h₁, h₂, h₃, ↓reduceIte,
      rdDouble_doubleBytes, atomEncodedSize]
  | string s =>
    have hs : s.length < 2 ^ 31 := ha
    simp only [atomEncodedSize] at h
    have hlen : (rdU32 (wrU32 (UInt32.ofNat s.length) ++ (s ++ rest))).toNat = s.length := by
      rw [rdU32_wrU32, UInt32.toNat_ofNat']
      omega
    have hmod : (5 + s.length) % 2 ^ 32 = 5 + s.length := Nat.mod_eq_of_lt (by omega)
    have hdrop : (wrU32 (UInt32.ofNat s.length) ++ (s ++ rest)).drop 4 = s ++ rest :=
      List.drop_left' (wrU32_length _)
    have h₁ : ¬ inSize < 1 := by omega
    have h₂ : ¬ inSize < 5 := by omega
    have h₃ : ¬ (wrU32 (UInt32.ofNat s.length) ++ (s ++ rest)).length < 4 := by simp
    have h₄ : ¬ inSize < 5 + s.length := by omega
    have h₅ : ¬ (s ++ rest).length < s.length := by simp
    have htwo : ¬ (2 : UInt8) = 1 := by decide
    simp only [atomDecode, atomEncode, List.cons_append, List.append_assoc, h₁, h₂, h₃, h₄, h₅,
      htwo, ↓reduceIte, hlen, hmod, hdrop, List.take_left', atomEncodedSize]

theorem rdU16_of_bytesAt {page : Bytes} {off v : Nat} (h : bytesAt page off 2 = wrU16 v)
    (hv : v < 65536) : rdU16 (page.drop off) = v := by
  rw [drop_eq_of_bytesAt h, rdU16_wrU16 hv]

theorem rdU32_of_bytesAt {page : Bytes} {off : Nat} {v : UInt32}
    (h : bytesAt page off 4 = wrU32 v) : rdU32 (page.drop off) = v := by
  rw [drop_eq_of_bytesAt h, rdU32_wrU32]

def recordsSize (recs : List Bytes) : Nat := (recs.map List.length).sum

/-- A page with a header, the slots of some records and the records. -/
structure Packed (type : UInt8) (leftChild : UInt32) (recs : List Bytes) (page : Bytes) : Prop where
  length : page.length = 4096
  room : 16 + recs.length * 2 + recordsSize recs ≤ 4096
  type : bytesAt page 0 1 = [type]
  leftChild : bytesAt page 8 4 = wrU32 leftChild
  nkeys : bytesAt page 2 2 = wrU16 recs.length
  freeStart : bytesAt page 4 2 = wrU16 (16 + recs.length * 2)
  freeEnd : bytesAt page 6 2 = wrU16 (4096 - recordsSize recs)
  slot : ∀ i rec, recs[i]? = some rec → ∃ off, bytesAt page (slotOffset i) 2 = wrU16 off ∧
    4096 - recordsSize recs ≤ off ∧ off + rec.length ≤ 4096 ∧ bytesAt page off rec.length = rec

/-- A write into a page: what is read back there and elsewhere. -/
theorem setBytes_spec {page bs : Bytes} {n : Nat} (off : Nat) (hp : page.length = 4096)
    (hn : bs.length = n) (h : off + n ≤ 4096) :
    (setBytes page off bs).length = 4096 ∧ bytesAt (setBytes page off bs) off n = bs ∧
      ∀ off' k, off' + k ≤ off ∨ off + n ≤ off' →
        bytesAt (setBytes page off bs) off' k = bytesAt page off' k := by
  subst hn
  have hle : off + bs.length ≤ page.length := by omega
  refine ⟨?_, bytesAt_set_self hle, fun off' k hd => bytesAt_set_of_disjoint hle hd⟩
  rw [setBytes_length hle, hp]

theorem pageInit_packed (type : UInt8) (leftChild : UInt32) :
    Packed type leftChild [] (pageInit type leftChild) := by
  have h₀ : (List.replicate btreePageSize (0 : UInt8)).length = 4096 := List.length_replicate
  unfold pageInit
  dsimp only
  obtain ⟨h₁, s₁, d₁⟩ := setBytes_spec 0 h₀
    (show [type].length = 1 from rfl) (by decide)
  obtain ⟨h₂, s₂, d₂⟩ := setBytes_spec 2 h₁ (wrU16_length 0) (by decide)
  obtain ⟨h₃, s₃, d₃⟩ := setBytes_spec 4 h₂ (wrU16_length pageHeaderSize) (by decide)
  obtain ⟨h₄, s₄, d₄⟩ := setBytes_spec 6 h₃ (wrU16_length btreePageSize) (by decide)
  obtain ⟨h₅, s₅, d₅⟩ := setBytes_spec 8 h₄ (wrU32_length leftChild) (by decide)
  constructor
  · exact h₅
  · decide
  · rw [d₅ 0 1 (by omega), d₄ 0 1 (by omega), d₃ 0 1 (by omega), d₂ 0 1 (by omega), s₁]
  · exact s₅
  · rw [d₅ 2 2 (by omega), d₄ 2 2 (by omega), d₃ 2 2 (by omega), s₂]
    rfl
  · rw [d₅ 4 2 (by omega), d₄ 4 2 (by omega), s₃]
    rfl
  · rw [d₅ 6 2 (by omega), s₄]
    rfl
  · intro i rec hi
    cases hi

theorem recordsSize_append (recs : List Bytes) (rec : Bytes) :
    recordsSize (recs ++ [rec]) = recordsSize recs + rec.length := by
  simp [recordsSize]

variable {type : UInt8} {leftChild : UInt32} {recs : List Bytes} {page : Bytes}

theorem Packed.header (h : Packed type leftChild recs page) :
    pageGetType page = type ∧ pageGetNkeys page = recs.length ∧
      pageGetFreeStart page = 16 + recs.length * 2 ∧
      pageGetFreeEnd page = 4096 - recordsSize recs ∧ pageGetLeftChild page = leftChild := by
  have hroom := h.room
  refine ⟨?_, rdU16_of_bytesAt h.nkeys (by omega), rdU16_of_bytesAt h.freeStart (by omega),
    rdU16_of_bytesAt h.freeEnd (by omega), rdU32_of_bytesAt h.leftChild⟩
  have hdrop := drop_eq_of_bytesAt h.type
  rw [List.drop_zero] at hdrop
  unfold pageGetType
  rw [hdrop]
  rfl

/-- A record is added exactly when it and its slot have room. -/
theorem Packed.add (h : Packed type leftChild recs page) (rec : Bytes)
    (hroom : 16 + (recs.length + 1) * 2 + (recordsSize recs + rec.length) ≤ 4096) :
    ∃ page', pageAddRecord page recs.length rec = some page' ∧
      Packed type leftChild (recs ++ [rec]) page' := by
  obtain ⟨-, hn, hfs, hfe, -⟩ := h.header
  have hshift (p : Bytes) : shiftSlots p recs.length recs.length = p := by
    cases hr : recs.length with
    | zero => rfl
    | succ n => simp [shiftSlots]
  unfold pageAddRecord
  rw [hn, hfs, hfe]
  dsimp only
  rw [if_neg (by omega), if_neg (by unfold slotSize; omega), hshift]
  have hslot (i : Nat) : slotOffset i = 16 + i * 2 := rfl
  rw [pageSetSlot, hslot]
  refine ⟨_, rfl, ?_⟩
  obtain ⟨h₁, s₁, d₁⟩ := setBytes_spec (4096 - recordsSize recs - rec.length) h.length rfl
    (show _ + rec.length ≤ 4096 by omega)
  obtain ⟨h₂, s₂, d₂⟩ := setBytes_spec (16 + recs.length * 2) h₁
    (wrU16_length (4096 - recordsSize recs - rec.length)) (by omega)
  obtain ⟨h₃, s₃, d₃⟩ := setBytes_spec 2 h₂ (wrU16_length (recs.length + 1)) (by omega)
  obtain ⟨h₄, s₄, d₄⟩ := setBytes_spec 4 h₃
    (wrU16_length (16 + recs.length * 2 + slotSize)) (by omega)
  obtain ⟨h₅, s₅, d₅⟩ := setBytes_spec 6 h₄
    (wrU16_length (4096 - recordsSize recs - rec.length)) (by omega)
  constructor
  · exact h₅
  · rw [recordsSize_append, List.length_append, List.length_singleton]
    exact hroom
  · rw [d₅ 0 1 (by omega), d₄ 0 1 (by omega), d₃ 0 1 (by omega), d₂ 0 1 (by omega),
      d₁ 0 1 (by omega), h.type]
  · rw [d₅ 8 4 (by omega), d₄ 8 4 (by omega), d₃ 8 4 (by omega), d₂ 8 4 (by omega),
      d₁ 8 4 (by omega), h.leftChild]
  · rw [d₅ 2 2 (by omega), d₄ 2 2 (by omega)]
    rw [List.length_append, List.length_singleton]
    exact s₃
  · rw [d₅ 4 2 (by omega), List.length_append, List.length_singleton]
    rw [show 16 + (recs.length + 1) * 2 = 16 + recs.length * 2 + slotSize by unfold slotSize; omega]
    exact s₄
  · rw [recordsSize_append, ← Nat.sub_sub]
    exact s₅
  · intro i r hi
    rw [recordsSize_append]
    rcases Nat.lt_or_ge i recs.length with hlt | hge
    · rw [List.getElem?_append_left hlt] at hi
      obtain ⟨off, hoff, hle, hend, hrec⟩ := h.slot i r hi
      rw [hslot] at hoff ⊢
      refine ⟨off, ?_, by omega, hend, ?_⟩
      · rw [d₅ _ 2 (by omega), d₄ _ 2 (by omega), d₃ _ 2 (by omega),
          d₂ _ 2 (by omega), d₁ _ 2 (by omega), hoff]
      · rw [d₅ _ _ (by omega), d₄ _ _ (by omega), d₃ _ _ (by omega),
          d₂ _ _ (by omega), d₁ _ _ (by omega), hrec]
    · have hlt := (List.getElem?_eq_some_iff.mp hi).1
      rw [List.length_append, List.length_singleton] at hlt
      have hieq : i = recs.length := by omega
      subst hieq
      rw [List.getElem?_append_right (Nat.le_refl _), Nat.sub_self] at hi
      cases hi
      rw [hslot]
      refine ⟨4096 - recordsSize recs - rec.length, ?_, by omega, by omega, ?_⟩
      · rw [d₅ _ 2 (by omega), d₄ _ 2 (by omega), d₃ _ 2 (by omega)]
        exact s₂
      · rw [d₅ _ _ (by omega), d₄ _ _ (by omega), d₃ _ _ (by omega), d₂ _ _ (by omega)]
        exact s₁

theorem Packed.add_none (h : Packed type leftChild recs page) (rec : Bytes)
    (hroom : ¬ 16 + (recs.length + 1) * 2 + (recordsSize recs + rec.length) ≤ 4096) :
    pageAddRecord page recs.length rec = none := by
  obtain ⟨-, hn, hfs, hfe, -⟩ := h.header
  have hpos := h.room
  unfold pageAddRecord
  rw [hn, hfs, hfe]
  dsimp only
  rw [if_neg (by omega), if_pos (by unfold slotSize; omega)]

/-- One turn of the loop of `node_write`. -/
def addRecord (page : Bytes) (rec : Option Bytes × Nat) : Option Bytes := do
  let bytes ← rec.1
  pageAddRecord page rec.2 bytes

theorem addRecords_eq (page : Bytes) (rs : List (Option Bytes)) :
    addRecords page rs = (rs.zipIdx 0).foldlM addRecord page := rfl

theorem Packed.addAll (h : Packed type leftChild recs page) (rest : List Bytes)
    (hroom : 16 + (recs.length + rest.length) * 2 + (recordsSize recs + recordsSize rest) ≤ 4096) :
    ∃ page', ((rest.map some).zipIdx recs.length).foldlM addRecord page = some page' ∧
      Packed type leftChild (recs ++ rest) page' := by
  induction rest generalizing recs page with
  | nil => exact ⟨page, rfl, by rwa [List.append_nil]⟩
  | cons rec rest ih =>
    have hsize : recordsSize (rec :: rest) = rec.length + recordsSize rest := by simp [recordsSize]
    rw [hsize, List.length_cons] at hroom
    obtain ⟨page₁, h₁, hp₁⟩ := h.add rec (by omega)
    obtain ⟨page₂, h₂, hp₂⟩ := ih hp₁ (by
      rw [recordsSize_append, List.length_append, List.length_singleton]
      omega)
    rw [List.length_append, List.length_singleton] at h₂
    refine ⟨page₂, ?_, by rwa [List.append_assoc, List.singleton_append] at hp₂⟩
    rw [List.map_cons, List.zipIdx_cons, List.foldlM_cons]
    simp only [addRecord, Option.bind_eq_bind, Option.bind_some, h₁]
    exact h₂

/-- The loop ends well only when every record was made and all have room. -/
theorem Packed.addAll_room (h : Packed type leftChild recs page) {rs : List (Option Bytes)}
    {page' : Bytes} (hr : (rs.zipIdx recs.length).foldlM addRecord page = some page') :
    ∃ rest, rs = rest.map some ∧
      16 + (recs.length + rest.length) * 2 + (recordsSize recs + recordsSize rest) ≤ 4096 := by
  induction rs generalizing recs page with
  | nil => exact ⟨[], rfl, h.room⟩
  | cons r rs ih =>
    rw [List.zipIdx_cons, List.foldlM_cons] at hr
    obtain ⟨page₁, h₁, hr⟩ := Option.bind_eq_some_iff.mp hr
    obtain ⟨rec, hrec, h₁⟩ := Option.bind_eq_some_iff.mp h₁
    dsimp only at hrec h₁
    by_cases hroom : 16 + (recs.length + 1) * 2 + (recordsSize recs + rec.length) ≤ 4096
    · obtain ⟨page₂, h₂, hp₂⟩ := h.add rec hroom
      rw [h₁] at h₂
      cases h₂
      obtain ⟨rest, hrest, hfit⟩ := ih hp₂ (by
        rw [List.length_append, List.length_singleton]
        exact hr)
      rw [recordsSize_append, List.length_append, List.length_singleton] at hfit
      have hsize : recordsSize (rec :: rest) = rec.length + recordsSize rest := by
        simp [recordsSize]
      refine ⟨rec :: rest, by rw [hrec, hrest]; rfl, ?_⟩
      rw [hsize, List.length_cons]
      omega
    · rw [h.add_none rec hroom] at h₁
      cases h₁

theorem mapM_range_ok {α : Type} {f : Nat → Reading α} (xs : List α) (k : Nat)
    (h : ∀ i x, xs[i]? = some x → f (k + i) = .ok x) :
    (List.range' k xs.length).mapM f = .ok xs := by
  induction xs generalizing k with
  | nil => rfl
  | cons x xs ih =>
    have hx : f k = .ok x := h 0 x rfl
    have hxs := ih (k + 1) (fun i y hy => by
      rw [Nat.add_assoc, Nat.add_comm 1 i]
      exact h (i + 1) y hy)
    rw [List.length_cons, List.range'_succ, List.mapM_cons, hx, Nat.add_comm]
    rw [Nat.add_comm] at hxs
    simp only [hxs]
    rfl

/-- The size of a page with a node's records, their slots and the header. -/
def NodeData.size : NodeData → Nat
  | leaf _ entries => 16 + entries.length * 2 + (entries.map leafRecordSize).sum
  | internal _ entries => 16 + entries.length * 2 + (entries.map internalRecordSize).sum

def LeafEntry.Valid (e : LeafEntry) : Prop := e.key.Valid ∧ e.value.Valid

def NodeData.Valid : NodeData → Prop
  | leaf _ entries => ∀ e ∈ entries, e.Valid
  | internal _ entries => ∀ e ∈ entries, e.key.Valid

def leafRecord (e : LeafEntry) : Bytes := atomEncode e.key ++ atomEncode e.value
def internalRecord (e : InternalEntry) : Bytes := atomEncode e.key ++ wrU32 e.child

theorem leafRecord_length (e : LeafEntry) : (leafRecord e).length = leafRecordSize e := by
  simp [leafRecord, leafRecordSize, atomEncode_length]

theorem internalRecord_length (e : InternalEntry) :
    (internalRecord e).length = internalRecordSize e := by
  simp [internalRecord, internalRecordSize, atomEncode_length]

theorem encodeLeafRecord_eq (e : LeafEntry) (h : leafRecordSize e ≤ 65535) :
    encodeLeafRecord e = some (leafRecord e) := by
  unfold leafRecordSize at h
  have hmod : (atomEncodedSize e.key + atomEncodedSize e.value) % 2 ^ 32 =
      atomEncodedSize e.key + atomEncodedSize e.value := Nat.mod_eq_of_lt (by omega)
  unfold encodeLeafRecord
  dsimp only
  rw [hmod, if_neg (by omega), if_neg (by omega), if_neg (by omega)]
  rfl

theorem encodeLeafRecord_some {e : LeafEntry} {rec : Bytes}
    (h : encodeLeafRecord e = some rec) : rec = leafRecord e := by
  unfold encodeLeafRecord at h
  dsimp only at h
  split_ifs at h
  exact (Option.some.inj h).symm

theorem encodeInternalRecord_eq (e : InternalEntry) (h : internalRecordSize e ≤ 65535) :
    encodeInternalRecord e = some (internalRecord e) := by
  unfold internalRecordSize at h
  have hmod : (atomEncodedSize e.key + 4) % 2 ^ 32 = atomEncodedSize e.key + 4 :=
    Nat.mod_eq_of_lt (by omega)
  unfold encodeInternalRecord
  dsimp only
  rw [hmod, if_neg (by omega), if_neg (by omega)]
  rfl

theorem encodeInternalRecord_some {e : InternalEntry} {rec : Bytes}
    (h : encodeInternalRecord e = some rec) : rec = internalRecord e := by
  unfold encodeInternalRecord at h
  dsimp only at h
  split_ifs at h
  exact (Option.some.inj h).symm

section Records

variable {α : Type} {enc : α → Option Bytes} {rec : α → Bytes} {size : α → Nat}

theorem recordsSize_map (hlen : ∀ e, (rec e).length = size e) (es : List α) :
    recordsSize (es.map rec) = (es.map size).sum := by
  unfold recordsSize
  rw [List.map_map]
  congr 1
  exact List.map_congr_left fun e _ => hlen e

theorem addRecords_packed (hlen : ∀ e, (rec e).length = size e)
    (henc : ∀ e, size e ≤ 65535 → enc e = some (rec e)) {es : List α} (type : UInt8)
    (leftChild : UInt32) (hroom : 16 + es.length * 2 + (es.map size).sum ≤ 4096) :
    ∃ page, addRecords (pageInit type leftChild) (es.map enc) = some page ∧
      Packed type leftChild (es.map rec) page := by
  have hmap : es.map enc = (es.map rec).map some := by
    rw [List.map_map]
    refine List.map_congr_left fun e he => ?_
    have hle : size e ≤ (es.map size).sum := 
      List.single_le_sum (fun _ _ => Nat.zero_le _) _ (List.mem_map_of_mem he)
    exact henc e (by omega)
  obtain ⟨page, hp, hpacked⟩ := (pageInit_packed type leftChild).addAll (es.map rec) (by
    rw [recordsSize_map hlen, List.length_map, List.length_nil]
    have hnil : recordsSize [] = 0 := rfl
    omega)
  refine ⟨page, ?_, hpacked⟩
  rw [addRecords_eq, hmap]
  exact hp

theorem addRecords_room (hlen : ∀ e, (rec e).length = size e)
    (henc : ∀ e bytes, enc e = some bytes → bytes = rec e) {es : List α} {type : UInt8}
    {leftChild : UInt32} {page : Bytes}
    (h : addRecords (pageInit type leftChild) (es.map enc) = some page) :
    16 + es.length * 2 + (es.map size).sum ≤ 4096 := by
  rw [addRecords_eq] at h
  obtain ⟨rest, hrest, hfit⟩ := (pageInit_packed type leftChild).addAll_room h
  have hrec : rest = es.map rec := by
    have hsome : rest.map some = (es.map rec).map some := by
      rw [← hrest, List.map_map]
      refine List.map_congr_left fun e he => ?_
      have hmem : enc e ∈ rest.map some := hrest ▸ List.mem_map_of_mem he
      obtain ⟨bytes, -, hbytes⟩ := List.mem_map.mp hmem
      rw [Function.comp_apply, ← hbytes, henc e bytes hbytes.symm]
    exact List.map_injective_iff.mpr (Option.some_injective _) hsome
  have hnil : recordsSize [] = 0 := rfl
  rw [hrec, recordsSize_map hlen, List.length_map, List.length_nil] at hfit
  omega

end Records

/-- The record behind a slot, with what follows it. -/
theorem Packed.record (h : Packed type leftChild recs page) {i : Nat} {rec : Bytes}
    (hi : recs[i]? = some rec) (hpos : 0 < rec.length) :
    ∃ off, pageSlot page i = .ok off ∧ off + rec.length ≤ 4096 ∧
      page.drop off = rec ++ page.drop (off + rec.length) := by
  obtain ⟨off, hoff, -, hend, hrec⟩ := h.slot i rec hi
  have hlt := (List.getElem?_eq_some_iff.mp hi).1
  have hroom := h.room
  have hlen := h.length
  refine ⟨off, ?_, hend, drop_eq_of_bytesAt hrec⟩
  unfold pageSlot
  rw [if_neg (by unfold slotOffset pageHeaderSize slotSize; omega),
    rdU16_of_bytesAt hoff (by omega)]

theorem atomEncodedSize_pos (a : BTreeAtom) : 0 < atomEncodedSize a := by
  cases a <;> simp [atomEncodedSize]

theorem Packed.loadLeaf (h : Packed type leftChild recs page) {i : Nat} {e : LeafEntry}
    (hv : e.Valid) (hi : recs[i]? = some (leafRecord e)) : loadLeafEntry page i = .ok e := by
  have hlen := leafRecord_length e
  have hk := atomEncodedSize_pos e.key
  unfold leafRecordSize at hlen
  obtain ⟨off, hslot, hend, hdrop⟩ := h.record hi (by omega)
  have hvalue : page.drop (off + atomEncodedSize e.key) =
      atomEncode e.value ++ page.drop (off + (leafRecord e).length) := by
    rw [← List.drop_drop, hdrop, leafRecord, List.append_assoc]
    exact List.drop_left' (atomEncode_length e.key)
  unfold loadLeafEntry
  rw [hslot]
  simp only [bind, Except.bind]
  rw [if_neg (by unfold btreePageSize; omega), hdrop, leafRecord, List.append_assoc,
    atomDecode_encode hv.1 (by unfold btreePageSize; omega)]
  dsimp only
  rw [hvalue, atomDecode_encode hv.2 (by unfold btreePageSize; omega)]
  rfl

theorem Packed.loadInternal (h : Packed type leftChild recs page) {i : Nat} {e : InternalEntry}
    (hv : e.key.Valid) (hi : recs[i]? = some (internalRecord e)) :
    loadInternalEntry page i = .ok e := by
  have hlen := internalRecord_length e
  have hk := atomEncodedSize_pos e.key
  unfold internalRecordSize at hlen
  obtain ⟨off, hslot, hend, hdrop⟩ := h.record hi (by omega)
  have hchild : page.drop (off + atomEncodedSize e.key) =
      wrU32 e.child ++ page.drop (off + (internalRecord e).length) := by
    rw [← List.drop_drop, hdrop, internalRecord, List.append_assoc]
    exact List.drop_left' (atomEncode_length e.key)
  unfold loadInternalEntry
  rw [hslot]
  simp only [bind, Except.bind]
  rw [if_neg (by unfold btreePageSize; omega), hdrop, internalRecord, List.append_assoc,
    atomDecode_encode hv (by unfold btreePageSize; omega)]
  dsimp only
  rw [if_neg (by unfold btreePageSize; omega), hchild, if_neg (by simp), rdU32_wrU32]
  rfl

/-- What `node_write` writes, `node_load` reads back. -/
theorem nodePage_load {n : NodeData} (hv : n.Valid) (hs : n.size ≤ 4096) :
    ∃ page, nodePage n = some page ∧ loadNode page = .ok n ∧ page.length = 4096 := by
  cases n with
  | leaf leftChild entries =>
    obtain ⟨page, hp, hpacked⟩ := addRecords_packed leafRecord_length encodeLeafRecord_eq
      pageTypeLeaf leftChild hs
    refine ⟨page, hp, ?_, hpacked.length⟩
    obtain ⟨htype, hn, hfs, hfe, hleft⟩ := hpacked.header
    have hroom := hpacked.room
    have hentries := mapM_range_ok entries 0 (f := loadLeafEntry page) (fun i e hi => by
      rw [Nat.zero_add]
      refine hpacked.loadLeaf (hv e (List.mem_of_getElem? hi)) ?_
      rw [List.getElem?_map, hi]
      rfl)
    rw [List.length_map] at hn
    unfold loadNode
    simp only [htype, hn, hfs, hfe, hleft]
    rw [if_neg (by simp), if_neg (by unfold pageHeaderSize btreePageSize; omega),
      if_neg (by unfold pageHeaderSize btreePageSize; omega), if_pos trivial,
      List.range_eq_range', hentries]
    rfl
  | internal leftChild entries =>
    obtain ⟨page, hp, hpacked⟩ := addRecords_packed internalRecord_length encodeInternalRecord_eq
      pageTypeInternal leftChild hs
    refine ⟨page, hp, ?_, hpacked.length⟩
    obtain ⟨htype, hn, hfs, hfe, hleft⟩ := hpacked.header
    have hroom := hpacked.room
    have hentries := mapM_range_ok entries 0 (f := loadInternalEntry page) (fun i e hi => by
      rw [Nat.zero_add]
      refine hpacked.loadInternal (hv e (List.mem_of_getElem? hi)) ?_
      rw [List.getElem?_map, hi]
      rfl)
    rw [List.length_map] at hn
    unfold loadNode
    simp only [htype, hn, hfs, hfe, hleft]
    rw [if_neg (by simp), if_neg (by unfold pageHeaderSize btreePageSize; omega),
      if_neg (by unfold pageHeaderSize btreePageSize; omega), if_neg (by decide),
      List.range_eq_range', hentries]
    rfl

theorem nodePage_size {n : NodeData} {page : Bytes} (h : nodePage n = some page) :
    n.size ≤ 4096 := by
  cases n with
  | leaf leftChild entries =>
    exact addRecords_room leafRecord_length (fun _ _ => encodeLeafRecord_some) h
  | internal leftChild entries =>
    exact addRecords_room internalRecord_length (fun _ _ => encodeInternalRecord_some) h

end ToiLang
