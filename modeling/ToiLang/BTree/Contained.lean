import ToiLang.BTree.Layout

namespace ToiLang

/-! What `node_load` makes of any page. -/

theorem wrU32_rdU32 {p : Bytes} (h : 4 ≤ p.length) : wrU32 (rdU32 p) = p.take 4 := by
  have hlt : leValue 4 p < 2 ^ 32 := leValue_lt 4 p
  rw [wrU32, rdU32, UInt32.toNat_ofNat', Nat.mod_eq_of_lt hlt]
  exact leBytes_leValue h

theorem doubleBytes_rdDouble {p : Bytes} (h : 8 ≤ p.length) : doubleBytes (rdDouble p) = p.take 8 := by
  have hlt : leValue 8 p < 2 ^ 64 := leValue_lt 8 p
  have hnat : UInt64.toNat (rdDouble p) = leValue 8 p := by
    rw [rdDouble, UInt64.toNat_ofNat', Nat.mod_eq_of_lt hlt]
  rw [doubleBytes, hnat]
  exact leBytes_leValue h

/-- A string whose length and the 5 bytes before it are too much for 32 bits. -/
def Wrapped (p : Bytes) : Prop :=
  ∃ rest, p = 2 :: rest ∧ 4 ≤ rest.length ∧ 2 ^ 32 - 5 ≤ (rdU32 rest).toNat

variable {p page : Bytes}

theorem string_prefix_iff {s rest : Bytes} (hp : rest.length < 4096) :
    atomEncode (.string s) <+: 2 :: rest ↔
      4 ≤ rest.length ∧ (rdU32 rest).toNat = s.length ∧ s <+: rest.drop 4 := by
  rw [atomEncode, List.cons_append, List.cons_prefix_cons]
  constructor
  · rintro ⟨-, t, ht⟩
    rw [List.append_assoc] at ht
    have hlen := congrArg List.length ht
    simp only [List.length_append, wrU32_length] at hlen
    have hrd : rdU32 rest = UInt32.ofNat s.length := by
      rw [← ht]
      exact rdU32_wrU32 _ _
    refine ⟨by omega, ?_, t, ?_⟩
    · rw [hrd, UInt32.toNat_ofNat']
      omega
    · rw [← ht]
      exact (List.drop_left' (wrU32_length _)).symm
  · rintro ⟨h4, hlen, t, ht⟩
    refine ⟨rfl, t, ?_⟩
    rw [← hlen, UInt32.ofNat_toNat, wrU32_rdU32 h4, List.append_assoc, ht, List.take_append_drop]

theorem Wrapped.not_prefix (h : Wrapped p) (hp : p.length ≤ 4096) (a : BTreeAtom) : ¬atomEncode a <+: p := by
  obtain ⟨rest, rfl, -, hbig⟩ := h
  intro ha
  cases a with
  | number x => exact absurd (List.cons_prefix_cons.mp ha).1 (by decide)
  | string s =>
    rw [List.length_cons] at hp
    obtain ⟨-, hlen, hs⟩ := (string_prefix_iff (by omega)).mp ha
    have hle := hs.length_le
    rw [List.length_drop] at hle
    omega

theorem prefix_unique (hp : p.length ≤ 4096) {a b : BTreeAtom} (ha : atomEncode a <+: p)
    (hb : atomEncode b <+: p) : a = b := by
  cases p with
  | nil => cases a <;> cases List.prefix_nil.mp ha
  | cons c rest =>
    rw [List.length_cons] at hp
    cases a with
    | number x =>
      cases b with
      | number y =>
        obtain ⟨-, hx⟩ := List.cons_prefix_cons.mp ha
        obtain ⟨-, hy⟩ := List.cons_prefix_cons.mp hb
        have hsame : doubleBytes x = doubleBytes y := by
          rw [List.prefix_iff_eq_take.mp hx, List.prefix_iff_eq_take.mp hy, doubleBytes_length,
            doubleBytes_length]
        have hxy := congrArg rdDouble hsame
        rw [← List.append_nil (doubleBytes x), ← List.append_nil (doubleBytes y), rdDouble_doubleBytes,
          rdDouble_doubleBytes] at hxy
        rw [hxy]
      | string s =>
        obtain ⟨hx, -⟩ := List.cons_prefix_cons.mp ha
        obtain ⟨hs, -⟩ := List.cons_prefix_cons.mp hb
        exact absurd (hx.trans hs.symm) (by decide)
    | string s =>
      obtain ⟨rfl, -⟩ := List.cons_prefix_cons.mp ha
      cases b with
      | number y => exact absurd (List.cons_prefix_cons.mp hb).1 (by decide)
      | string t =>
        obtain ⟨-, hls, hs⟩ := (string_prefix_iff (by omega)).mp ha
        obtain ⟨-, hlt, ht⟩ := (string_prefix_iff (by omega)).mp hb
        rw [List.prefix_iff_eq_take.mp hs, List.prefix_iff_eq_take.mp ht, ← hls, ← hlt]

/-- What a reader makes of a page: it leaves it, or it finds what is there, or nothing is. -/
inductive Reads {α : Type} (found : α → Prop) (out : Prop) (r : Reading α) : Prop
  | out : out → (∀ a, ¬found a) → r = .error .outOfBounds → Reads found out r
  | found (a : α) : ¬out → found a → r = .ok a → Reads found out r
  | failed : ¬out → (∀ a, ¬found a) → r = .error .failed → Reads found out r

namespace Reads

variable {α : Type} {found : α → Prop} {out : Prop} {r : Reading α}

theorem out_iff (h : Reads found out r) : r = .error .outOfBounds ↔ out := by
  cases h with
  | out ho _ hr => exact iff_of_true hr ho
  | found a ho _ hr => exact iff_of_false (by rw [hr]; nofun) ho
  | failed ho _ hr => exact iff_of_false (by rw [hr]; nofun) ho

theorem ok (h : Reads found out r) {a : α} (hr : r = .ok a) : found a ∧ ¬out := by
  cases h with
  | out _ _ hr' => exact absurd (hr.symm.trans hr') nofun
  | found b ho hb hr' =>
    cases hr.symm.trans hr'
    exact ⟨hb, ho⟩
  | failed _ _ hr' => exact absurd (hr.symm.trans hr') nofun

end Reads

/-- An atom and the bytes that it takes. -/
def AtomAt (p : Bytes) (r : Nat × BTreeAtom) : Prop := atomEncode r.2 <+: p ∧ r.1 = (atomEncode r.2).length

theorem atomAt {a : BTreeAtom} (h : atomEncode a <+: p) : AtomAt p ((atomEncode a).length, a) := ⟨h, rfl⟩

/-- `atom_decode` on the rest of a page. -/
theorem atomDecode_reads (hp : p.length ≤ 4096) :
    Reads (AtomAt p) (Wrapped p) (atomDecode p p.length) := by
  have hwrapped : Wrapped p → ∀ r, ¬AtomAt p r := fun hw r hr => hw.not_prefix hp _ hr.1
  have hatom : ∀ a, atomEncode a <+: p → atomDecode p p.length = .ok ((atomEncode a).length, a) →
      Reads (AtomAt p) (Wrapped p) (atomDecode p p.length) :=
    fun a ha hr => .found _ (fun hw => hw.not_prefix hp a ha) ⟨ha, rfl⟩ hr
  have hnone : (∀ a, ¬atomEncode a <+: p) → ∀ r, ¬AtomAt p r := fun h r hr => h _ hr.1
  cases p with
  | nil =>
    refine .failed ?_ (hnone ?_) rfl
    · rintro ⟨rest, h, -, -⟩
      cases h
    · intro a ha
      cases a <;> cases List.prefix_nil.mp ha
  | cons c rest =>
    rw [List.length_cons] at hp
    have hpos : ¬rest.length + 1 < 1 := by omega
    by_cases h1 : c = 1
    · subst h1
      have hno : ¬Wrapped (1 :: rest) := by
        rintro ⟨rest', h, -, -⟩
        exact absurd (List.cons.inj h).1 (by decide)
      by_cases h8 : rest.length < 8
      · refine .failed hno (hnone ?_) ?_
        · intro a ha
          cases a with
          | number x =>
            have hle := ha.length_le
            simp only [atomEncode, List.length_cons, doubleBytes_length] at hle
            omega
          | string s => exact absurd (List.cons_prefix_cons.mp ha).1 (by decide)
        · simp only [atomDecode, List.length_cons, hpos, ↓reduceIte]
          rw [if_pos (by omega)]
      · have hbytes := doubleBytes_rdDouble (p := rest) (by omega)
        refine hatom (.number (rdDouble rest)) ?_ ?_
        · rw [atomEncode, hbytes]
          exact List.cons_prefix_cons.mpr ⟨rfl, List.take_prefix 8 rest⟩
        · have h9 : ¬rest.length + 1 < 9 := by omega
          simp only [atomDecode, List.length_cons, hpos, h9, h8, ↓reduceIte, atomEncode, doubleBytes_length]
    · by_cases h2 : c = 2
      · subst h2
        have htwo : ¬(2 : UInt8) = 1 := by decide
        by_cases h4 : rest.length < 4
        · refine .failed ?_ (hnone ?_) ?_
          · rintro ⟨rest', h, hlen, -⟩
            obtain ⟨-, rfl⟩ := List.cons.inj h
            omega
          · intro a ha
            cases a with
            | number x => exact absurd (List.cons_prefix_cons.mp ha).1 (by decide)
            | string s =>
              have hlen := ((string_prefix_iff (by omega)).mp ha).1
              omega
          · have h5 : rest.length + 1 < 5 := by omega
            simp only [atomDecode, List.length_cons, hpos, htwo, h5, ↓reduceIte]
        · have h5 : ¬rest.length + 1 < 5 := by omega
          have hword := (rdU32 rest).toNat_lt
          by_cases hwrap : 2 ^ 32 - 5 ≤ (rdU32 rest).toNat
          · have hw : Wrapped (2 :: rest) := ⟨rest, rfl, by omega, hwrap⟩
            refine .out hw (hwrapped hw) ?_
            have hused : ¬rest.length + 1 < (5 + (rdU32 rest).toNat) % 2 ^ 32 := by omega
            have hshort : (rest.drop 4).length < (rdU32 rest).toNat := by
              rw [List.length_drop]
              omega
            simp only [atomDecode, List.length_cons, hpos, htwo, h5, h4, hused, hshort, ↓reduceIte]
          · have hno : ¬Wrapped (2 :: rest) := by
              rintro ⟨rest', h, -, hbig⟩
              obtain ⟨-, rfl⟩ := List.cons.inj h
              exact hwrap hbig
            have hmod : (5 + (rdU32 rest).toNat) % 2 ^ 32 = 5 + (rdU32 rest).toNat :=
              Nat.mod_eq_of_lt (by omega)
            by_cases hfit : rest.length + 1 < 5 + (rdU32 rest).toNat
            · refine .failed hno (hnone ?_) ?_
              · intro a ha
                cases a with
                | number x => exact absurd (List.cons_prefix_cons.mp ha).1 (by decide)
                | string s =>
                  obtain ⟨-, hlen, hs⟩ := (string_prefix_iff (by omega)).mp ha
                  have hle := hs.length_le
                  rw [List.length_drop] at hle
                  omega
              · simp only [atomDecode, List.length_cons, hpos, htwo, h5, h4, hmod, hfit, ↓reduceIte]
            · have htake : ((rest.drop 4).take (rdU32 rest).toNat).length = (rdU32 rest).toNat := by
                rw [List.length_take, List.length_drop]
                omega
              refine hatom (.string ((rest.drop 4).take (rdU32 rest).toNat)) ?_ ?_
              · exact (string_prefix_iff (by omega)).mpr
                  ⟨by omega, htake.symm, List.take_prefix _ _⟩
              · have hlong : ¬(rest.drop 4).length < (rdU32 rest).toNat := by
                  rw [List.length_drop]
                  omega
                simp only [atomDecode, List.length_cons, hpos, htwo, h5, h4, hmod, hfit, hlong, ↓reduceIte,
                  atomEncode_length, atomEncodedSize, htake]
      · refine .failed ?_ (hnone ?_) ?_
        · rintro ⟨rest', h, -, -⟩
          exact h2 (List.cons.inj h).1
        · intro a ha
          cases a with
          | number x => exact h1 (List.cons_prefix_cons.mp ha).1.symm
          | string s => exact h2 (List.cons_prefix_cons.mp ha).1.symm
        · simp only [atomDecode, List.length_cons, hpos, h1, h2, ↓reduceIte]

/-- The offset in a slot of a page. -/
def slotOf (page : Bytes) (i : Nat) : Nat := rdU16 (page.drop (slotOffset i))

/-- The slot is in the page and a record of the entry begins at its offset. -/
def LeafAt (page : Bytes) (i : Nat) (e : LeafEntry) : Prop :=
  slotOffset i + 2 ≤ 4096 ∧ leafRecord e <+: page.drop (slotOf page i)

def InternalAt (page : Bytes) (i : Nat) (e : InternalEntry) : Prop :=
  slotOffset i + 2 ≤ 4096 ∧ internalRecord e <+: page.drop (slotOf page i)

/-- The slot is behind the page, or the length of its key or value is wrapped. -/
def LeafOut (page : Bytes) (i : Nat) : Prop :=
  4096 < slotOffset i + 2 ∨ Wrapped (page.drop (slotOf page i)) ∨
    ∃ key, atomEncode key <+: page.drop (slotOf page i) ∧
      Wrapped (page.drop (slotOf page i + (atomEncode key).length))

def InternalOut (page : Bytes) (i : Nat) : Prop :=
  4096 < slotOffset i + 2 ∨ Wrapped (page.drop (slotOf page i))

theorem append_prefix {a b p : Bytes} : a ++ b <+: p ↔ a <+: p ∧ b <+: p.drop a.length := by
  constructor
  · rintro ⟨t, rfl⟩
    refine ⟨⟨b ++ t, by rw [List.append_assoc]⟩, ⟨t, ?_⟩⟩
    rw [List.append_assoc, List.drop_left]
  · rintro ⟨⟨s, rfl⟩, t, ht⟩
    rw [List.drop_left] at ht
    exact ⟨t, by rw [← ht, List.append_assoc]⟩

theorem not_wrapped_nil : ¬Wrapped [] := by
  rintro ⟨rest, h, -⟩
  cases h

theorem atomEncode_not_prefix_nil (a : BTreeAtom) : ¬atomEncode a <+: [] := by
  intro h
  cases a <;> cases List.prefix_nil.mp h

theorem leafAt_iff {i : Nat} {e : LeafEntry} : LeafAt page i e ↔
    slotOffset i + 2 ≤ 4096 ∧ atomEncode e.key <+: page.drop (slotOf page i) ∧
      atomEncode e.value <+: page.drop (slotOf page i + (atomEncode e.key).length) := by
  rw [LeafAt, leafRecord, append_prefix, List.drop_drop]

theorem internalAt_iff {i : Nat} {e : InternalEntry} : InternalAt page i e ↔
    slotOffset i + 2 ≤ 4096 ∧ atomEncode e.key <+: page.drop (slotOf page i) ∧
      wrU32 e.child <+: page.drop (slotOf page i + (atomEncode e.key).length) := by
  rw [InternalAt, internalRecord, append_prefix, List.drop_drop]

theorem pageSlot_in {i : Nat} (hlen : page.length = 4096) (h : slotOffset i + 2 ≤ 4096) :
    pageSlot page i = .ok (slotOf page i) := by
  rw [pageSlot, if_neg (by omega)]
  rfl

theorem loadLeafEntry_reads (hlen : page.length = 4096) (i : Nat) :
    Reads (LeafAt page i) (LeafOut page i) (loadLeafEntry page i) := by
  by_cases hslot : slotOffset i + 2 ≤ 4096
  · have hinside : ¬4096 < slotOffset i + 2 := by omega
    have hslotOf := pageSlot_in hlen hslot
    have hsize : btreePageSize - slotOf page i = (page.drop (slotOf page i)).length := by
      rw [List.length_drop, hlen, btreePageSize]
    have hrun : loadLeafEntry page i =
        if slotOf page i ≥ btreePageSize then .error .failed
        else (atomDecode (page.drop (slotOf page i)) (btreePageSize - slotOf page i)).bind fun r =>
          (atomDecode (page.drop (slotOf page i + r.1)) (btreePageSize - slotOf page i - r.1)).bind fun v =>
            .ok ⟨r.2, v.2⟩ := by
      rw [loadLeafEntry, hslotOf]
      rfl
    by_cases hoff : slotOf page i ≥ btreePageSize
    · have hnil : page.drop (slotOf page i) = [] := by
        rw [List.drop_eq_nil_iff, hlen]
        exact hoff
      refine .failed ?_ ?_ (by rw [hrun, if_pos hoff])
      · rintro (hout | hw | ⟨key, hkey, -⟩)
        · exact hinside hout
        · rw [hnil] at hw
          exact not_wrapped_nil hw
        · rw [hnil] at hkey
          exact atomEncode_not_prefix_nil key hkey
      · intro e he
        have hkey := (leafAt_iff.mp he).2.1
        rw [hnil] at hkey
        exact atomEncode_not_prefix_nil e.key hkey
    · rw [if_neg hoff, hsize] at hrun
      have hshort : ∀ n, (page.drop n).length ≤ 4096 := by
        intro n
        rw [List.length_drop]
        omega
      have hkeyReads := atomDecode_reads (hshort (slotOf page i))
      cases hkeyReads with
      | out hw hnone hr =>
        refine .out (.inr (.inl hw)) ?_ (by rw [hrun, hr]; rfl)
        intro e he
        exact hnone _ (atomAt (leafAt_iff.mp he).2.1)
      | failed hw hnone hr =>
        refine .failed ?_ ?_ (by rw [hrun, hr]; rfl)
        · rintro (hout | hw' | ⟨key, hkey, -⟩)
          · exact hinside hout
          · exact hw hw'
          · exact hnone _ (atomAt hkey)
        · intro e he
          exact hnone _ (atomAt (leafAt_iff.mp he).2.1)
      | found r hw hr hok =>
        obtain ⟨used, key⟩ := r
        obtain ⟨hkey, hused⟩ := hr
        dsimp only at hkey hused
        subst hused
        have hsize' : (page.drop (slotOf page i)).length - (atomEncode key).length =
            (page.drop (slotOf page i + (atomEncode key).length)).length := by
          rw [List.length_drop, List.length_drop]
          omega
        rw [hok] at hrun
        simp only [Except.bind, hsize'] at hrun
        have hsame : ∀ key', atomEncode key' <+: page.drop (slotOf page i) → key' = key :=
          fun key' h => prefix_unique (hshort _) h hkey
        cases atomDecode_reads (hshort (slotOf page i + (atomEncode key).length)) with
        | out hv hnone hr =>
          refine .out (.inr (.inr ⟨key, hkey, hv⟩)) ?_ (by rw [hrun, hr])
          intro e he
          obtain ⟨-, hk, hval⟩ := leafAt_iff.mp he
          rw [hsame _ hk] at hval
          exact hnone _ (atomAt hval)
        | failed hv hnone hr =>
          refine .failed ?_ ?_ (by rw [hrun, hr])
          · rintro (hout | hw' | ⟨key', hk, hv'⟩)
            · exact hinside hout
            · exact hw hw'
            · rw [hsame _ hk] at hv'
              exact hv hv'
          · intro e he
            obtain ⟨-, hk, hval⟩ := leafAt_iff.mp he
            rw [hsame _ hk] at hval
            exact hnone _ (atomAt hval)
        | found v hv hval hr =>
          refine .found ⟨key, v.2⟩ ?_ (leafAt_iff.mpr ⟨hslot, hkey, hval.1⟩) (by rw [hrun, hr])
          rintro (hout | hw' | ⟨key', hk, hv'⟩)
          · exact hinside hout
          · exact hw hw'
          · rw [hsame _ hk] at hv'
            exact hv hv'
  · refine .out (.inl (by omega)) (fun e he => hslot he.1) ?_
    have hout : pageSlot page i = .error .outOfBounds := by
      rw [pageSlot, if_pos (by omega)]
    rw [loadLeafEntry, hout]
    rfl

theorem loadInternalEntry_reads (hlen : page.length = 4096) (i : Nat) :
    Reads (InternalAt page i) (InternalOut page i) (loadInternalEntry page i) := by
  by_cases hslot : slotOffset i + 2 ≤ 4096
  · have hinside : ¬4096 < slotOffset i + 2 := by omega
    have hslotOf := pageSlot_in hlen hslot
    have hsize : btreePageSize - slotOf page i = (page.drop (slotOf page i)).length := by
      rw [List.length_drop, hlen, btreePageSize]
    have hrun : loadInternalEntry page i =
        if slotOf page i ≥ btreePageSize then .error .failed
        else (atomDecode (page.drop (slotOf page i)) (btreePageSize - slotOf page i)).bind fun r =>
          if btreePageSize - slotOf page i - r.1 < 4 then .error .failed
          else if (page.drop (slotOf page i + r.1)).length < 4 then .error .outOfBounds
          else .ok ⟨r.2, rdU32 (page.drop (slotOf page i + r.1))⟩ := by
      rw [loadInternalEntry, hslotOf]
      rfl
    by_cases hoff : slotOf page i ≥ btreePageSize
    · have hnil : page.drop (slotOf page i) = [] := by
        rw [List.drop_eq_nil_iff, hlen]
        exact hoff
      refine .failed ?_ ?_ (by rw [hrun, if_pos hoff])
      · rintro (hout | hw)
        · exact hinside hout
        · rw [hnil] at hw
          exact not_wrapped_nil hw
      · intro e he
        have hkey := (internalAt_iff.mp he).2.1
        rw [hnil] at hkey
        exact atomEncode_not_prefix_nil e.key hkey
    · rw [if_neg hoff, hsize] at hrun
      have hshort : (page.drop (slotOf page i)).length ≤ 4096 := by
        rw [List.length_drop]
        omega
      cases atomDecode_reads hshort with
      | out hw hnone hr =>
        refine .out (.inr hw) ?_ (by rw [hrun, hr]; rfl)
        intro e he
        exact hnone _ (atomAt (internalAt_iff.mp he).2.1)
      | failed hw hnone hr =>
        refine .failed ?_ ?_ (by rw [hrun, hr]; rfl)
        · rintro (hout | hw')
          · exact hinside hout
          · exact hw hw'
        · intro e he
          exact hnone _ (atomAt (internalAt_iff.mp he).2.1)
      | found r hw hr hok =>
        obtain ⟨used, key⟩ := r
        obtain ⟨hkey, hused⟩ := hr
        dsimp only at hkey hused
        subst hused
        have hsize' : (page.drop (slotOf page i)).length - (atomEncode key).length =
            (page.drop (slotOf page i + (atomEncode key).length)).length := by
          rw [List.length_drop, List.length_drop]
          omega
        rw [hok] at hrun
        simp only [Except.bind, hsize'] at hrun
        have hno : ¬InternalOut page i := by
          rintro (hout | hw')
          · exact hinside hout
          · exact hw hw'
        have hsame : ∀ key', atomEncode key' <+: page.drop (slotOf page i) → key' = key :=
          fun key' h => prefix_unique hshort h hkey
        by_cases h4 : (page.drop (slotOf page i + (atomEncode key).length)).length < 4
        · refine .failed hno ?_ (by rw [hrun, if_pos h4])
          intro e he
          obtain ⟨-, hk, hchild⟩ := internalAt_iff.mp he
          rw [hsame _ hk] at hchild
          have hle := hchild.length_le
          rw [wrU32_length] at hle
          omega
        · refine .found _ hno (internalAt_iff.mpr ⟨hslot, hkey, ?_⟩) (by rw [hrun, if_neg h4, if_neg h4])
          dsimp only
          rw [wrU32_rdU32 (by omega)]
          exact List.take_prefix 4 _
  · refine .out (.inl (by omega)) (fun e he => hslot he.1) ?_
    have hout : pageSlot page i = .error .outOfBounds := by
      rw [pageSlot, if_pos (by omega)]
    rw [loadInternalEntry, hout]
    rfl

section Entries

variable {α : Type} {found : Nat → α → Prop} {out : Nat → Prop} {f : Nat → Reading α}

/-- A list whose members are found under the numbers from `k` on. -/
def FoundFrom (found : Nat → α → Prop) (k : Nat) : List α → Prop
  | [] => True
  | e :: es => found k e ∧ FoundFrom found (k + 1) es

/-- The loop over the entries: it ends at the first that is not found. -/
theorem mapM_reads (hf : ∀ i, Reads (found i) (out i) (f i)) (k n : Nat) :
    Reads (fun es => es.length = n ∧ FoundFrom found k es)
      (∃ i < n, (∀ j < i, ∃ e, found (k + j) e) ∧ out (k + i)) ((List.range' k n).mapM f) := by
  induction n generalizing k with
  | zero =>
    refine .found [] ?_ ⟨rfl, trivial⟩ rfl
    rintro ⟨i, hi, -⟩
    exact absurd hi (Nat.not_lt_zero i)
  | succ n ih =>
    have hrun : (List.range' k (n + 1)).mapM f =
        (f k).bind fun e => ((List.range' (k + 1) n).mapM f).bind fun es => .ok (e :: es) := by
      rw [List.range'_succ, List.mapM_cons]
      rfl
    have htail : ∀ {P : Nat → Prop}, (∃ i < n + 1, (∀ j < i, ∃ e, found (k + j) e) ∧ P (k + i)) →
        ¬P k → ∃ i < n, (∀ j < i, ∃ e, found (k + 1 + j) e) ∧ P (k + 1 + i) := by
      rintro P ⟨i, hi, hbefore, hP⟩ hk
      cases i with
      | zero => exact absurd hP hk
      | succ i =>
        refine ⟨i, by omega, fun j hj => ?_, ?_⟩
        · have hfound := hbefore (j + 1) (by omega)
          rwa [Nat.add_assoc, Nat.add_comm 1 j]
        · rwa [Nat.add_assoc, Nat.add_comm 1 i]
    cases hf k with
    | out ho hnone hr =>
      refine .out ⟨0, by omega, fun j hj => absurd hj (Nat.not_lt_zero j), ho⟩ ?_ (by rw [hrun, hr]; rfl)
      rintro es ⟨hlen, hfound⟩
      cases es with
      | nil => cases hlen
      | cons e es => exact hnone e hfound.1
    | failed ho hnone hr =>
      refine .failed ?_ ?_ (by rw [hrun, hr]; rfl)
      · rintro ⟨i, hi, hbefore, hout⟩
        cases i with
        | zero => exact ho hout
        | succ i =>
          obtain ⟨e, he⟩ := hbefore 0 (by omega)
          exact hnone e he
      · rintro es ⟨hlen, hfound⟩
        cases es with
        | nil => cases hlen
        | cons e es => exact hnone e hfound.1
    | found e ho he hr =>
      cases ih (k + 1) with
      | out hout hnone hrest =>
        obtain ⟨i, hi, hbefore, hout⟩ := hout
        refine .out ⟨i + 1, by omega, fun j hj => ?_, ?_⟩ ?_ (by rw [hrun, hr, hrest]; rfl)
        · cases j with
          | zero => exact ⟨e, he⟩
          | succ j =>
            have hfound := hbefore j (by omega)
            rwa [Nat.add_assoc, Nat.add_comm 1 j] at hfound
        · rwa [Nat.add_assoc, Nat.add_comm 1 i] at hout
        · rintro es ⟨hlen, hfound⟩
          cases es with
          | nil => cases hlen
          | cons e' es => exact hnone es ⟨Nat.succ.inj hlen, hfound.2⟩
      | failed hno hnone hrest =>
        refine .failed (fun hout => hno (htail hout ho)) ?_ (by rw [hrun, hr, hrest]; rfl)
        rintro es ⟨hlen, hfound⟩
        cases es with
        | nil => cases hlen
        | cons e' es => exact hnone es ⟨Nat.succ.inj hlen, hfound.2⟩
      | found es hno hes hrest =>
        refine .found (e :: es) (fun hout => hno (htail hout ho)) ⟨?_, he, hes.2⟩
          (by rw [hrun, hr, hrest]; rfl)
        rw [List.length_cons, hes.1]

end Entries

/-- The checks of `node_load` on the header. -/
def HeaderOk (page : Bytes) : Prop :=
  pageHeaderSize ≤ pageGetFreeStart page ∧ pageGetFreeStart page ≤ btreePageSize ∧
    pageHeaderSize ≤ pageGetFreeEnd page ∧ pageGetFreeEnd page ≤ btreePageSize

/-- The page says the node. -/
def NodeAt (page : Bytes) : NodeData → Prop
  | .leaf leftChild entries => HeaderOk page ∧ pageGetType page = pageTypeLeaf ∧
      pageGetLeftChild page = leftChild ∧ entries.length = pageGetNkeys page ∧
      FoundFrom (LeafAt page) 0 entries
  | .internal leftChild entries => HeaderOk page ∧ pageGetType page = pageTypeInternal ∧
      pageGetLeftChild page = leftChild ∧ entries.length = pageGetNkeys page ∧
      FoundFrom (InternalAt page) 0 entries

/-- Behind records that are whole, there is none whose slot is behind the page or whose length is
wrapped. -/
def Contained (page : Bytes) : Prop :=
  HeaderOk page →
    (pageGetType page = pageTypeLeaf → ∀ i < pageGetNkeys page,
      (∀ j < i, ∃ e, LeafAt page j e) → ¬LeafOut page i) ∧
    (pageGetType page = pageTypeInternal → ∀ i < pageGetNkeys page,
      (∀ j < i, ∃ e, InternalAt page j e) → ¬InternalOut page i)

theorem NodeAt.headerOk {n : NodeData} (h : NodeAt page n) : HeaderOk page := by
  cases n with
  | leaf => exact h.1
  | internal => exact h.1

/-- A page that is no tree page, or whose header is wrong. -/
theorem loadNode_refused (h : ¬HeaderOk page ∨
      pageGetType page ≠ pageTypeLeaf ∧ pageGetType page ≠ pageTypeInternal) :
    Reads (NodeAt page) (¬Contained page) (loadNode page) := by
  have hcontained : Contained page := by
    intro hok
    rcases h with h | ⟨hleaf, hinternal⟩
    · exact absurd hok h
    · exact ⟨fun ht => absurd ht hleaf, fun ht => absurd ht hinternal⟩
  refine .failed (not_not_intro hcontained) ?_ ?_
  · intro n hn
    rcases h with h | ⟨hleaf, hinternal⟩
    · exact h hn.headerOk
    · cases n with
      | leaf => exact hleaf hn.2.1
      | internal => exact hinternal hn.2.1
  · unfold loadNode
    dsimp only
    rcases h with h | h
    · split_ifs with h1 h2 h3 h4
      · rfl
      · rfl
      · rfl
      all_goals
        refine absurd ?_ h
        unfold HeaderOk
        omega
    · rw [if_pos h]

theorem loadNode_reads (hlen : page.length = 4096) :
    Reads (NodeAt page) (¬Contained page) (loadNode page) := by
  by_cases hok : HeaderOk page
  · have hfs : ¬(pageGetFreeStart page < pageHeaderSize ∨ pageGetFreeStart page > btreePageSize) := by
      unfold HeaderOk at hok
      omega
    have hfe : ¬(pageGetFreeEnd page > btreePageSize ∨ pageGetFreeEnd page < pageHeaderSize) := by
      unfold HeaderOk at hok
      omega
    by_cases hleaf : pageGetType page = pageTypeLeaf
    · have hrun : loadNode page = ((List.range' 0 (pageGetNkeys page)).mapM (loadLeafEntry page)).bind
          fun es => .ok (.leaf (pageGetLeftChild page) es) := by
        unfold loadNode
        dsimp only
        rw [if_neg (fun h => h.1 hleaf), if_neg hfs, if_neg hfe, if_pos hleaf, List.range_eq_range']
        rfl
      have hother : pageGetType page ≠ pageTypeInternal := by
        rw [hleaf]
        decide
      have hiff : ¬Contained page ↔
          ∃ i < pageGetNkeys page, (∀ j < i, ∃ e, LeafAt page (0 + j) e) ∧ LeafOut page (0 + i) := by
        simp only [Nat.zero_add]
        constructor
        · intro h
          by_contra hno
          refine h fun _ => ⟨fun _ i hi hbefore hout => hno ⟨i, hi, hbefore, hout⟩, fun ht => absurd ht hother⟩
        · rintro ⟨i, hi, hbefore, hout⟩ h
          exact (h hok).1 hleaf i hi hbefore hout
      rw [hiff]
      cases mapM_reads (loadLeafEntry_reads hlen) 0 (pageGetNkeys page) with
      | out ho hnone hr =>
        refine .out ho ?_ (by rw [hrun, hr]; rfl)
        intro n hn
        cases n with
        | leaf leftChild es => exact hnone es hn.2.2.2
        | internal => exact hother hn.2.1
      | failed ho hnone hr =>
        refine .failed ho ?_ (by rw [hrun, hr]; rfl)
        intro n hn
        cases n with
        | leaf leftChild es => exact hnone es hn.2.2.2
        | internal => exact hother hn.2.1
      | found es ho hes hr => exact .found (.leaf (pageGetLeftChild page) es) ho ⟨hok, hleaf, rfl, hes⟩ (by rw [hrun, hr]; rfl)
    · by_cases hinternal : pageGetType page = pageTypeInternal
      · have hrun : loadNode page = ((List.range' 0 (pageGetNkeys page)).mapM (loadInternalEntry page)).bind
            fun es => .ok (.internal (pageGetLeftChild page) es) := by
          unfold loadNode
          dsimp only
          rw [if_neg (fun h => h.2 hinternal), if_neg hfs, if_neg hfe, if_neg hleaf, List.range_eq_range']
          rfl
        have hiff : ¬Contained page ↔ ∃ i < pageGetNkeys page,
            (∀ j < i, ∃ e, InternalAt page (0 + j) e) ∧ InternalOut page (0 + i) := by
          simp only [Nat.zero_add]
          constructor
          · intro h
            by_contra hno
            refine h fun _ => ⟨fun ht => absurd ht hleaf, fun _ i hi hbefore hout => hno ⟨i, hi, hbefore, hout⟩⟩
          · rintro ⟨i, hi, hbefore, hout⟩ h
            exact (h hok).2 hinternal i hi hbefore hout
        rw [hiff]
        cases mapM_reads (loadInternalEntry_reads hlen) 0 (pageGetNkeys page) with
        | out ho hnone hr =>
          refine .out ho ?_ (by rw [hrun, hr]; rfl)
          intro n hn
          cases n with
          | leaf => exact hleaf hn.2.1
          | internal leftChild es => exact hnone es hn.2.2.2
        | failed ho hnone hr =>
          refine .failed ho ?_ (by rw [hrun, hr]; rfl)
          intro n hn
          cases n with
          | leaf => exact hleaf hn.2.1
          | internal leftChild es => exact hnone es hn.2.2.2
        | found es ho hes hr =>
          exact .found (.internal (pageGetLeftChild page) es) ho ⟨hok, hinternal, rfl, hes⟩ (by rw [hrun, hr]; rfl)
      · exact loadNode_refused (.inr ⟨hleaf, hinternal⟩)
  · exact loadNode_refused (.inl hok)

theorem leafAt_unique (hlen : page.length = 4096) {i : Nat} {e e' : LeafEntry} (h : LeafAt page i e)
    (h' : LeafAt page i e') : e = e' := by
  have hshort : ∀ n, (page.drop n).length ≤ 4096 := by
    intro n
    rw [List.length_drop]
    omega
  obtain ⟨-, hk, hv⟩ := leafAt_iff.mp h
  obtain ⟨-, hk', hv'⟩ := leafAt_iff.mp h'
  have hkey := prefix_unique (hshort _) hk hk'
  rw [← hkey] at hv'
  have hvalue := prefix_unique (hshort _) hv hv'
  cases e
  cases e'
  dsimp only at hkey hvalue
  rw [hkey, hvalue]

theorem internalAt_unique (hlen : page.length = 4096) {i : Nat} {e e' : InternalEntry}
    (h : InternalAt page i e) (h' : InternalAt page i e') : e = e' := by
  obtain ⟨-, hk, hc⟩ := internalAt_iff.mp h
  obtain ⟨-, hk', hc'⟩ := internalAt_iff.mp h'
  have hshort : (page.drop (slotOf page i)).length ≤ 4096 := by
    rw [List.length_drop]
    omega
  have hkey := prefix_unique hshort hk hk'
  rw [← hkey] at hc'
  have hword : wrU32 e.child = wrU32 e'.child := by
    rw [List.prefix_iff_eq_take.mp hc, List.prefix_iff_eq_take.mp hc', wrU32_length, wrU32_length]
  have hchild := congrArg rdU32 hword
  rw [← List.append_nil (wrU32 e.child), ← List.append_nil (wrU32 e'.child), rdU32_wrU32,
    rdU32_wrU32] at hchild
  cases e
  cases e'
  dsimp only at hkey hchild
  rw [hkey, hchild]

theorem foundFrom_unique {α : Type} {found : Nat → α → Prop}
    (hu : ∀ i a b, found i a → found i b → a = b) {k : Nat} {es es' : List α} (hlen : es.length = es'.length)
    (h : FoundFrom found k es) (h' : FoundFrom found k es') : es = es' := by
  induction es generalizing k es' with
  | nil => exact (List.length_eq_zero_iff.mp hlen.symm).symm
  | cons e es ih =>
    cases es' with
    | nil => cases hlen
    | cons e' es' => rw [hu k e e' h.1 h'.1, ih (Nat.succ.inj hlen) h.2 h'.2]

theorem nodeAt_unique (hlen : page.length = 4096) {n n' : NodeData} (h : NodeAt page n)
    (h' : NodeAt page n') : n = n' := by
  cases n with
  | leaf leftChild entries =>
    cases n' with
    | leaf leftChild' entries' =>
      obtain ⟨-, -, rfl, hn, hes⟩ := h
      obtain ⟨-, -, rfl, hn', hes'⟩ := h'
      have hu : ∀ i a b, LeafAt page i a → LeafAt page i b → a = b := fun _ _ _ => leafAt_unique hlen
      rw [foundFrom_unique hu (hn.trans hn'.symm) hes hes']
    | internal leftChild' entries' => exact absurd (h.2.1.symm.trans h'.2.1) (by decide)
  | internal leftChild entries =>
    cases n' with
    | leaf leftChild' entries' => exact absurd (h.2.1.symm.trans h'.2.1) (by decide)
    | internal leftChild' entries' =>
      obtain ⟨-, -, rfl, hn, hes⟩ := h
      obtain ⟨-, -, rfl, hn', hes'⟩ := h'
      have hu : ∀ i a b, InternalAt page i a → InternalAt page i b → a = b := fun _ _ _ => internalAt_unique hlen
      rw [foundFrom_unique hu (hn.trans hn'.symm) hes hes']

end ToiLang
