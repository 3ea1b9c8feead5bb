import ToiLang.Struct

namespace ToiLang.Struct

/-- The bytes that the codes of a format take. -/
def Format.size : Format → Nat
  | .done => 0
  | .error _ => 0
  | .code rep c rest =>
    (if c = 120 ∨ c = 115 then repetitions rep else repetitions rep * ((item c).map Item.size).getD 0) +
      rest.size

/-- The value that comes back for an argument: for the integer codes the same number, for `d` the same
bits. -/
def Item.Returns : Item → Value → Value → Prop
  | .float, .number x, .number y => y = Double.ofSingle x.toSingle
  | .double, .number x, .number y => y = x
  | .int _ _ _ _, .number x, .number y => y.eq x = true
  | .uint _ _ _, .number x, .number y => y.eq x = true
  | _, _, _ => False

/-- The values that come back for the arguments of a format. -/
inductive Format.Returns : Format → List Value → List Value → Prop
  | done : Format.Returns .done [] []
  | pad {rep : Nat} {rest : Format} {args vs : List Value} :
    Format.Returns rest args vs → Format.Returns (.code rep 120 rest) args vs
  | string {rep : Nat} {rest : Format} {args vs : List Value} (s : Bytes) : Format.Returns rest args vs →
    Format.Returns (.code rep 115 rest) (.string s :: args) (.string (padded (repetitions rep) s) :: vs)
  | items {rep : Nat} {c : UInt8} {it : Item} {rest : Format} {used back args vs : List Value} :
    item c = some it → used.length = repetitions rep → List.Forall₂ it.Returns used back →
    Format.Returns rest args vs → Format.Returns (.code rep c rest) (used ++ args) (back ++ vs)

/-- The bounds of the integer codes are those of their sizes. -/
def Item.Bounded : Item → Prop
  | .int size minv maxv _ => size ∈ [1, 2, 4, 8] ∧ minv = -(256 ^ size / 2 : Nat) ∧ maxv = (256 ^ size / 2 : Nat) - 1
  | .uint size maxv _ => maxv = 256 ^ size - 1
  | _ => True

theorem item_bounded {c : UInt8} {it : Item} (h : item c = some it) : it.Bounded ∧ 0 < it.size := by
  unfold item at h
  split_ifs at h
  all_goals
    cases Option.some.inj h
    simp [Item.Bounded, Item.size]

theorem repetitions_pos (rep : Nat) : 0 < repetitions rep := by
  unfold repetitions
  split_ifs with h
  · exact h
  · exact Nat.one_pos

variable {C : Conversions} {little : Bool}

@[simp] theorem writeInt_length (u size : Nat) : (writeInt little u size).length = size := by
  unfold writeInt
  split_ifs
  · exact leBytes_length size u
  · rw [List.length_reverse, leBytes_length]

theorem readUint_writeInt (u size : Nat) : readUint little (writeInt little u size) = u % 256 ^ size := by
  unfold readUint
  rw [writeInt_length]
  unfold writeInt
  cases little with
  | true =>
    have h := leValue_leBytes size u []
    rw [List.append_nil] at h
    exact h
  | false => exact beValue_leBytes_reverse size u

/-- An integer in the range of its size comes back from its lowest bytes. -/
theorem signed_emod {size : Nat} {i : Int} (hsize : size ∈ [1, 2, 4, 8])
    (hmin : -(256 ^ size / 2 : Nat) ≤ i) (hmax : i ≤ (256 ^ size / 2 : Nat) - 1) :
    signed size ((i % 256 ^ size).toNat % 256 ^ size) = i := by
  have hne : size ≠ 0 := by
    intro heq
    rw [heq] at hsize
    exact absurd hsize (by decide)
  obtain ⟨half, heven⟩ : 2 ∣ 256 ^ size := dvd_pow (by decide) hne
  have hpow : (256 : Int) ^ size = 2 * half := by exact_mod_cast heven
  rw [heven, Nat.mul_div_cancel_left _ Nat.two_pos] at hmin hmax
  have hmod : i % (2 * (half : Int)) = if 0 ≤ i then i else i + 2 * half := by
    split_ifs with h
    · exact Int.emod_eq_of_lt h (by omega)
    · rw [← Int.add_emod_right]
      exact Int.emod_eq_of_lt (by omega) (by omega)
  unfold signed
  rw [heven, hpow, hmod, Nat.mul_div_cancel_left _ Nat.two_pos, Nat.mod_eq_of_lt (by split_ifs <;> omega)]
  split_ifs <;> omega

theorem parseIntArg_some {minv maxv i : Int} {v : Value} (h : parseIntArg C minv maxv v = some i) :
    ∃ x, v = .number x ∧ (Double.ofInt64 i).eq x = true ∧ minv ≤ i ∧ i ≤ maxv := by
  cases v with
  | number x =>
    simp only [parseIntArg] at h
    split_ifs at h with hf he hr
    cases Option.some.inj h
    exact ⟨x, rfl, he, by omega, by omega⟩
  | _ => cases h

theorem parseUintArg_some {maxv u : Nat} {v : Value} (h : parseUintArg C maxv v = some u) :
    ∃ x, v = .number x ∧ (Double.ofUint64 u).eq x = true ∧ u ≤ maxv := by
  cases v with
  | number x =>
    simp only [parseUintArg] at h
    split_ifs at h with hf he hr
    cases Option.some.inj h
    exact ⟨x, rfl, he, by omega⟩
  | _ => cases h

theorem unpackItem_packItem {it : Item} {v : Value} {bs : Bytes} (hb : it.Bounded)
    (h : packItem C little it v = some bs) :
    bs.length = it.size ∧ it.Returns v (unpackItem little it bs) := by
  cases it with
  | int size minv maxv expects =>
    obtain ⟨i, hi, rfl⟩ := Option.map_eq_some_iff.mp h
    obtain ⟨x, rfl, heq, hmin, hmax⟩ := parseIntArg_some hi
    obtain ⟨hsize, rfl, rfl⟩ := hb
    refine ⟨writeInt_length _ _, ?_⟩
    simp only [unpackItem, readUint_writeInt, signed_emod hsize hmin hmax]
    exact heq
  | uint size maxv expects =>
    obtain ⟨u, hu, rfl⟩ := Option.map_eq_some_iff.mp h
    obtain ⟨x, rfl, heq, hmax⟩ := parseUintArg_some hu
    have hlt : u < 256 ^ size := by
      have hpos := Nat.pow_pos (n := size) (show 0 < 256 by decide)
      unfold Item.Bounded at hb
      omega
    refine ⟨writeInt_length _ _, ?_⟩
    simp only [unpackItem, readUint_writeInt, Nat.mod_eq_of_lt hlt]
    exact heq
  | float =>
    cases v with
    | number x =>
      cases Option.some.inj h
      have hlt : x.toSingle.toNat < 256 ^ 4 := x.toSingle.toNat_lt
      refine ⟨writeInt_length _ _, ?_⟩
      simp only [unpackItem, readUint_writeInt, Nat.mod_eq_of_lt hlt, UInt32.ofNat_toNat]
      rfl
    | _ => cases h
  | double =>
    cases v with
    | number x =>
      cases Option.some.inj h
      have hlt : UInt64.toNat x < 256 ^ 8 := UInt64.toNat_lt x
      refine ⟨writeInt_length _ _, ?_⟩
      simp only [unpackItem, readUint_writeInt, Nat.mod_eq_of_lt hlt, UInt64.ofNat_toNat]
      rfl
    | _ => cases h

@[simp] theorem padded_length (count : Nat) (s : Bytes) : (padded count s).length = count := by
  unfold padded
  rw [List.length_append, List.length_take, List.length_replicate]
  omega

theorem readBytes_append (front bs back : Bytes) :
    readBytes (front ++ (bs ++ back)) front.length bs.length = some bs := by
  unfold readBytes
  rw [if_pos (by simp only [List.length_append]; omega), List.drop_left, List.take_left]

theorem not_short (front bs back : Bytes) : ¬(front ++ (bs ++ back)).length < front.length + bs.length := by
  simp only [List.length_append]
  omega

theorem map_eq_ok {α β ε : Type} {f : α → β} {x : Except ε α} {y : β} (h : x.map f = .ok y) :
    ∃ a, x = .ok a ∧ f a = y := by
  cases x with
  | error message => cases h
  | ok a => exact ⟨a, rfl, Except.ok.inj h⟩

theorem packItems_succ {c : UInt8} {n : Nat} {args left : List Value} {out : Bytes}
    (h : packItems C little c (n + 1) args = .ok (out, left)) :
    ∃ it v bs args' out', item c = some it ∧ packItem C little it v = some bs ∧
      packItems C little c n args' = .ok (out', left) ∧ args = v :: args' ∧ out = bs ++ out' := by
  cases args with
  | nil => cases h
  | cons v args =>
    unfold packItems at h
    split at h
    · cases h
    · next it hit =>
      split at h
      · cases h
      · next bs hv =>
        obtain ⟨r, hr, heq⟩ := map_eq_ok h
        cases heq
        exact ⟨it, v, bs, args, r.1, hit, hv, hr, rfl, rfl⟩

/-- The values of the arguments that one code takes come back from their bytes. -/
theorem packItems_spec {c : UInt8} {it : Item} (hit : item c = some it) {n : Nat} {args left : List Value}
    {out : Bytes} (h : packItems C little c n args = .ok (out, left)) :
    ∃ used, args = used ++ left ∧ used.length = n ∧ out.length = n * it.size ∧
      ∀ front back, ∃ vs, List.Forall₂ it.Returns used vs ∧
        unpackItems little (front ++ (out ++ back)) c n front.length =
          some (.ok (vs, front.length + out.length)) := by
  induction n generalizing args out with
  | zero =>
    cases h
    exact ⟨[], rfl, rfl, by simp, fun front back => ⟨[], .nil, rfl⟩⟩
  | succ n ih =>
    obtain ⟨it', v, bs, args', out', hit', hv, hr, rfl, rfl⟩ := packItems_succ h
    cases Option.some.inj (hit.symm.trans hit')
    obtain ⟨hlen, hback⟩ := unpackItem_packItem (item_bounded hit).1 hv
    obtain ⟨used, rfl, hused, hout, hunpack⟩ := ih hr
    refine ⟨v :: used, rfl, by rw [List.length_cons, hused], ?_, fun front back => ?_⟩
    · rw [List.length_append, hlen, hout, Nat.succ_mul, Nat.add_comm]
    · obtain ⟨vs, hvs, hu⟩ := hunpack (front ++ bs) back
      have hshort := not_short front bs (out' ++ back)
      have hread := readBytes_append front bs (out' ++ back)
      rw [hlen] at hshort hread
      simp only [List.append_assoc, List.length_append, hlen] at hu
      refine ⟨unpackItem little it bs :: vs, .cons hback hvs, ?_⟩
      simp only [unpackItems, hit, List.append_assoc, if_neg hshort, hread, hu]
      rw [List.length_append, hlen, Nat.add_assoc]
      rfl

theorem packFormat_spec {f : Format} {args left : List Value} {out : Bytes}
    (h : packFormat C little f args = .ok (out, left)) :
    ∃ used, args = used ++ left ∧ out.length = f.size ∧
      ∀ front back, ∃ vs, f.Returns used vs ∧
        unpackFormat little (front ++ (out ++ back)) f front.length =
          some (.ok (vs, front.length + out.length)) := by
  induction f generalizing args out with
  | done =>
    cases h
    exact ⟨[], rfl, rfl, fun front back => ⟨[], .done, rfl⟩⟩
  | error message => cases h
  | code rep c rest ih =>
    simp only [packFormat] at h
    split_ifs at h with hx hs
    · obtain ⟨r, hr, heq⟩ := map_eq_ok h
      cases heq
      obtain ⟨used, rfl, hlen, hunpack⟩ := ih hr
      refine ⟨used, rfl, ?_, fun front back => ?_⟩
      · simp only [Format.size, hx, List.length_append, List.length_replicate, true_or, ↓reduceIte, hlen]
      · obtain ⟨vs, hvs, hu⟩ := hunpack (front ++ List.replicate (repetitions rep) 0) back
        have hshort := not_short front (List.replicate (repetitions rep) 0) (r.1 ++ back)
        simp only [List.append_assoc, List.length_append, List.length_replicate] at hu hshort
        refine ⟨vs, hx ▸ .pad hvs, ?_⟩
        simp only [unpackFormat, if_pos hx, List.append_assoc, List.length_append, List.length_replicate,
          if_neg hshort, hu, Nat.add_assoc]
    · split at h
      · cases h
      · next s args =>
        obtain ⟨r, hr, heq⟩ := map_eq_ok h
        cases heq
        obtain ⟨used, rfl, hlen, hunpack⟩ := ih hr
        refine ⟨.string s :: used, rfl, ?_, fun front back => ?_⟩
        · simp only [Format.size, hs, List.length_append, padded_length, or_true, ↓reduceIte, hlen]
        · obtain ⟨vs, hvs, hu⟩ := hunpack (front ++ padded (repetitions rep) s) back
          have hshort := not_short front (padded (repetitions rep) s) (r.1 ++ back)
          have hread := readBytes_append front (padded (repetitions rep) s) (r.1 ++ back)
          rw [padded_length] at hshort hread
          simp only [List.append_assoc, List.length_append, padded_length] at hu
          refine ⟨.string (padded (repetitions rep) s) :: vs, hs ▸ .string s hvs, ?_⟩
          simp only [unpackFormat, if_neg hx, if_pos hs, List.append_assoc, if_neg hshort, hread, hu]
          rw [List.length_append, padded_length, Nat.add_assoc]
          rfl
      · cases h
    · split at h
      · cases h
      · next bs args' hitems =>
        obtain ⟨r, hr, heq⟩ := map_eq_ok h
        cases heq
        have hcount := Nat.ne_of_gt (repetitions_pos rep)
        obtain ⟨it, hit⟩ : ∃ it, item c = some it := by
          obtain ⟨n, hn⟩ := Nat.exists_eq_succ_of_ne_zero hcount
          rw [hn] at hitems
          obtain ⟨it, -, -, -, -, hit, -⟩ := packItems_succ hitems
          exact ⟨it, hit⟩
        obtain ⟨used', rfl, hused', hlen', hunpack'⟩ := packItems_spec hit hitems
        obtain ⟨used, rfl, hlen, hunpack⟩ := ih hr
        refine ⟨used' ++ used, by rw [List.append_assoc], ?_, fun front back => ?_⟩
        · simp only [Format.size, hx, hs, or_self, ↓reduceIte, hit, Option.map_some, Option.getD_some,
            List.length_append, hlen, hlen']
        · obtain ⟨vs', hvs', hu'⟩ := hunpack' front (r.1 ++ back)
          obtain ⟨vs, hvs, hu⟩ := hunpack (front ++ bs) back
          simp only [List.append_assoc, List.length_append] at hu
          refine ⟨vs' ++ vs, .items hit hused' hvs' hvs, ?_⟩
          simp only [unpackFormat, if_neg hx, if_neg hs, List.append_assoc, hu']
          simp only [Option.bind_eq_bind, Option.bind_some, hu, List.length_append, Nat.add_assoc]
          rfl

variable {bytes : Bytes}

theorem readBytes_some {start n : Nat} (h : start + n ≤ bytes.length) :
    ∃ bs, readBytes bytes start n = some bs := ⟨_, if_pos h⟩

/-- The values of one code are read inside of the buffer. -/
theorem unpackItems_bounds {c : UInt8} (n start : Nat) :
    ∃ r, unpackItems little bytes c n start = some r ∧ ∀ vs stop, r = .ok (vs, stop) →
      stop = start + n * ((item c).map Item.size).getD 0 ∧ (n = 0 ∨ stop ≤ bytes.length) := by
  induction n generalizing start with
  | zero =>
    refine ⟨_, rfl, fun vs stop h => ?_⟩
    cases h
    exact ⟨by simp, .inl rfl⟩
  | succ n ih =>
    unfold unpackItems
    split
    · refine ⟨_, rfl, fun vs stop h => ?_⟩
      cases h
    · next it hit =>
      split_ifs with hshort
      · refine ⟨_, rfl, fun vs stop h => ?_⟩
        cases h
      · have hroom : start + it.size ≤ bytes.length := Nat.le_of_not_lt hshort
        obtain ⟨bs, hbs⟩ := readBytes_some hroom
        obtain ⟨r, hr, hspec⟩ := ih (start + it.size)
        rw [hbs, hr]
        refine ⟨_, rfl, fun vs stop h => ?_⟩
        obtain ⟨⟨ws, stop'⟩, rfl, heq⟩ := map_eq_ok h
        cases heq
        obtain ⟨hstop, hle⟩ := hspec ws stop' rfl
        simp only [hit, Option.map_some, Option.getD_some] at hstop ⊢
        refine ⟨by rw [hstop, Nat.succ_mul]; omega, .inr ?_⟩
        rcases hle with rfl | hle
        · rw [hstop]
          omega
        · exact hle

theorem unpackFormat_bounds (f : Format) (start : Nat) :
    ∃ r, unpackFormat little bytes f start = some r ∧ ∀ vs stop, r = .ok (vs, stop) →
      stop = start + f.size ∧ (f.size = 0 ∨ stop ≤ bytes.length) := by
  induction f generalizing start with
  | done =>
    refine ⟨_, rfl, fun vs stop h => ?_⟩
    cases h
    exact ⟨rfl, .inl rfl⟩
  | error message =>
    refine ⟨_, rfl, fun vs stop h => ?_⟩
    cases h
  | code rep c rest ih =>
    have hpos := repetitions_pos rep
    by_cases hx : c = 120
    · have hsize : (Format.code rep c rest).size = repetitions rep + rest.size := by
        simp only [Format.size, hx, true_or, ↓reduceIte]
      simp only [unpackFormat, if_pos hx, hsize]
      by_cases hshort : bytes.length < start + repetitions rep
      · refine ⟨_, if_pos hshort, fun vs stop h => ?_⟩
        cases h
      · obtain ⟨r, hr, hspec⟩ := ih (start + repetitions rep)
        rw [if_neg hshort]
        refine ⟨r, hr, fun vs stop h => ?_⟩
        obtain ⟨hstop, hle⟩ := hspec vs stop h
        exact ⟨by omega, by omega⟩
    by_cases hs : c = 115
    · have hsize : (Format.code rep c rest).size = repetitions rep + rest.size := by
        simp only [Format.size, hs, or_true, ↓reduceIte]
      simp only [unpackFormat, if_neg hx, if_pos hs, hsize]
      by_cases hshort : bytes.length < start + repetitions rep
      · refine ⟨_, if_pos hshort, fun vs stop h => ?_⟩
        cases h
      · obtain ⟨bs, hbs⟩ := readBytes_some (Nat.le_of_not_lt hshort)
        obtain ⟨r, hr, hspec⟩ := ih (start + repetitions rep)
        rw [if_neg hshort, hbs, hr]
        refine ⟨_, rfl, fun vs stop h => ?_⟩
        obtain ⟨⟨ws, stop'⟩, rfl, heq⟩ := map_eq_ok h
        cases heq
        obtain ⟨hstop, hle⟩ := hspec ws stop' rfl
        exact ⟨by omega, by omega⟩
    · have hsize : (Format.code rep c rest).size =
          repetitions rep * ((item c).map Item.size).getD 0 + rest.size := by
        simp only [Format.size, hx, hs, or_self, ↓reduceIte]
      obtain ⟨r, hr, hspec⟩ := @unpackItems_bounds little bytes c (repetitions rep) start
      simp only [unpackFormat, if_neg hx, if_neg hs, hsize, hr]
      cases r with
      | error message =>
        refine ⟨_, rfl, fun vs stop h => ?_⟩
        cases h
      | ok items =>
        obtain ⟨vs, stop⟩ := items
        obtain ⟨hstop, hle⟩ := hspec vs stop rfl
        obtain ⟨r, hr, hspec⟩ := ih stop
        simp only [Option.bind_eq_bind, Option.bind_some, hr]
        refine ⟨_, rfl, fun vs stop h => ?_⟩
        obtain ⟨⟨ws, stop'⟩, rfl, heq⟩ := map_eq_ok h
        cases heq
        obtain ⟨hstop', hle'⟩ := hspec ws stop' rfl
        exact ⟨by omega, by omega⟩

/-- The bytes that `struct.pack` writes for a format. -/
def formatSize (fmt : Bytes) : Nat := (parsedFormat fmt).size

/-- The arguments come back from the packed bytes, with any bytes in front of them and behind. -/
def RoundTrips (C : Conversions) (fmt : Bytes) (args : List Value) : Prop :=
  ∃ packed, structPack C fmt args = some (.ok packed) ∧
    ∀ front back, (front ++ (packed ++ back)).length ≤ maxLength →
      ∃ vs, structUnpack C fmt (front ++ (packed ++ back)) (some (Double.ofNat (front.length + 1))) =
        some (.ok vs) ∧ (parsedFormat fmt).Returns args vs

theorem copyOut_some {out packed : Bytes} (h : copyOut out = some packed) : packed.length ≤ maxLength := by
  unfold copyOut at h
  split_ifs at h with hlen
  cases Option.some.inj h
  exact Nat.le_trans (List.length_take_le _ _) hlen

theorem copyOut_short {out : Bytes} (h : out.length ≤ maxLength) : copyOut out = some out := by
  have hmod : out.length % 2 ^ 32 = out.length := Nat.mod_eq_of_lt (Nat.lt_of_le_of_lt h (by decide))
  unfold copyOut
  rw [hmod, if_pos h, List.take_length]

theorem startOffset_ofNat {n : Nat} (h : n ≤ maxLength) :
    startOffset C (some (Double.ofNat (n + 1))) = n + 1 := by
  have hlt : n + 1 < 2 ^ 31 := Nat.lt_of_le_of_lt (Nat.succ_le_succ h) (by decide)
  simp only [startOffset, Option.map_some, Option.getD_some, C.int_ofNat (Nat.succ_ne_zero n) hlt]
  exact Int.natCast_succ n

/-- A format that needs more bytes than there are from the offset on is refused, and no read goes past
the end. -/
theorem structUnpack_bounds (C : Conversions) (fmt bytes : Bytes) (offset : Option Double) :
    structUnpack C fmt bytes offset ≠ none ∧
      ((bytes.drop (startOffset C offset - 1).toNat).length < formatSize fmt →
        ∃ message, structUnpack C fmt bytes offset = some (.error message)) := by
  unfold structUnpack
  split_ifs with hoffset
  · exact ⟨by simp, fun _ => ⟨_, rfl⟩⟩
  · obtain ⟨r, hr, hspec⟩ := @unpackFormat_bounds (byteOrder fmt).1 bytes (parsedFormat fmt)
      (startOffset C offset - 1).toNat
    rw [hr]
    refine ⟨by simp, fun hshort => ?_⟩
    cases r with
    | error message => exact ⟨message, rfl⟩
    | ok r =>
      obtain ⟨hstop, hle⟩ := hspec r.1 r.2 rfl
      rw [List.length_drop, formatSize] at hshort
      omega

/-- What `struct.pack` accepts comes back exactly where the packed bytes fit into a string. -/
theorem struct_round_trip_iff {fmt : Bytes} {args : List Value}
    (h : ∀ message, structPack C fmt args ≠ some (.error message)) :
    RoundTrips C fmt args ↔ formatSize fmt ≤ maxLength := by
  have hpack : ∃ out, packFormat C (byteOrder fmt).1 (parsedFormat fmt) args = .ok (out, []) ∧
      structPack C fmt args = (copyOut out).map .ok := by
    unfold structPack at h ⊢
    split at h
    · next message _ => exact absurd rfl (h message)
    · next out hout => exact ⟨out, hout, rfl⟩
    · exact absurd rfl (h _)
  obtain ⟨out, hout, hpack⟩ := hpack
  obtain ⟨used, hargs, hlen, hunpack⟩ := packFormat_spec hout
  rw [List.append_nil] at hargs
  constructor
  · rintro ⟨packed, hpacked, hback⟩
    obtain ⟨packed', hcopy, heq⟩ := Option.map_eq_some_iff.mp (hpack.symm.trans hpacked)
    cases Except.ok.inj heq
    have hmax := copyOut_some hcopy
    obtain ⟨vs, hvs, -⟩ := hback [] [] (by simpa using hmax)
    by_contra hlong
    have hstart := startOffset_ofNat (C := C) (Nat.zero_le maxLength)
    have hshort : (([] ++ (packed ++ [])).drop (startOffset C (some (Double.ofNat (([] : Bytes).length + 1))) -
        1).toNat).length < formatSize fmt := by
      rw [List.length_nil, hstart]
      simp only [List.nil_append, List.append_nil, List.length_drop]
      omega
    obtain ⟨message, herror⟩ := (structUnpack_bounds C fmt _ _).2 hshort
    rw [herror] at hvs
    cases hvs
  · intro hsize
    have hcopy : copyOut out = some out := copyOut_short (by rw [hlen]; exact hsize)
    refine ⟨out, by rw [hpack, hcopy]; rfl, fun front back hmax => ?_⟩
    obtain ⟨vs, hvs, hu⟩ := hunpack front back
    have hfront : front.length ≤ maxLength := by
      rw [List.length_append] at hmax
      omega
    have hstart := startOffset_ofNat (C := C) hfront
    refine ⟨vs, ?_, hargs ▸ hvs⟩
    have hplace : (startOffset C (some (Double.ofNat (front.length + 1))) - 1).toNat = front.length := by
      rw [hstart]
      omega
    unfold structUnpack
    rw [if_neg (by rw [hstart]; omega), hplace, hu]
    rfl

theorem struct_round_trip_and_bounds (C : Conversions) :
    (∀ fmt args, (∀ message, structPack C fmt args ≠ some (.error message)) →
      (RoundTrips C fmt args ↔ formatSize fmt ≤ maxLength)) ∧
    ∀ fmt bytes offset, structUnpack C fmt bytes offset ≠ none ∧
      ((bytes.drop (startOffset C offset - 1).toNat).length < formatSize fmt →
        ∃ message, structUnpack C fmt bytes offset = some (.error message)) :=
  ⟨fun _ _ h => struct_round_trip_iff h, structUnpack_bounds C⟩

/-- The indefinite integers of x86-64. -/
def indefinite : Conversions := ⟨fun _ => -2 ^ 31, fun _ => -2 ^ 63, fun _ => 2 ^ 63⟩

theorem sample_arguments_come_back :
    RoundTrips indefinite (ascii ">hB4sx") [.number 0xC000000000000000, .number 0x406FE00000000000, .string [97]] := by
  have hpack : structPack indefinite (ascii ">hB4sx")
      [.number 0xC000000000000000, .number 0x406FE00000000000, .string [97]] =
        some (.ok [255, 254, 255, 97, 0, 0, 0, 0]) := by decide +kernel
  refine ((struct_round_trip_and_bounds indefinite).1 _ _ fun message h => ?_).mpr (by decide +kernel)
  rw [hpack] at h
  cases h

/-- A format of 2^32 pad bytes. -/
def longFormat : Bytes := ascii "1000000000x1000000000x1000000000x1000000000x294967296x"

theorem packFormat_pad (rep : Nat) {rest : Format} {out : Bytes} {args left : List Value}
    (h : packFormat C little rest args = .ok (out, left)) :
    packFormat C little (.code rep 120 rest) args =
      .ok (List.replicate (repetitions rep) 0 ++ out, left) := by
  simp only [packFormat, h]
  rfl

theorem structPack_of_copy {fmt out bs : Bytes} {args : List Value}
    (hout : packFormat C (byteOrder fmt).1 (parsedFormat fmt) args = .ok (out, []))
    (hcopy : copyOut out = some bs) : structPack C fmt args = some (.ok bs) := by
  simp only [structPack, hout, hcopy, Option.map_some]

/-- The length of the packed bytes is cut to 32 bits. -/
theorem long_pack_is_empty : structPack indefinite longFormat [] = some (.ok []) ∧
    structUnpack indefinite longFormat [] none = some (.error tooShort) := by
  have hformat : parsedFormat longFormat = .code 1000000000 120 (.code 1000000000 120
      (.code 1000000000 120 (.code 1000000000 120 (.code 294967296 120 .done)))) := by
    rw [longFormat, ascii_ofList]
    decide +kernel
  have hpack : ∃ out, packFormat indefinite (byteOrder longFormat).1 (parsedFormat longFormat) [] =
      .ok (out, []) := by
    rw [hformat]
    exact ⟨_, packFormat_pad _ (packFormat_pad _ (packFormat_pad _ (packFormat_pad _ (packFormat_pad _ rfl))))⟩
  obtain ⟨out, hout⟩ := hpack
  obtain ⟨-, -, hlen, -⟩ := packFormat_spec hout
  have hsize : (parsedFormat longFormat).size = 2 ^ 32 := by
    rw [hformat]
    rfl
  have hcopy : copyOut out = some [] := by
    unfold copyOut
    rw [hlen, hsize, Nat.mod_self, if_pos (Nat.zero_le _), List.take_zero]
  refine ⟨structPack_of_copy hout hcopy, ?_⟩
  rw [longFormat, ascii_ofList]
  decide +kernel

end ToiLang.Struct
