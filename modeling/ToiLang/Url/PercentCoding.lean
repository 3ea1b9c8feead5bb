import ToiLang.Lexer
import ToiLang.Struct

namespace ToiLang.Url

/-! The percent coding of URLs: one encoder and two decoders. -/

/-- `isalnum` in the C locale. -/
def isAlnum (c : UInt8) : Bool := isAlpha c || isDigit c

def isHex (c : UInt8) : Bool := (hexDigit c).isSome

def hexToInt (c : UInt8) : Nat := (hexDigit c).getD 0

def isUnreserved (c : UInt8) : Bool :=
  isAlnum c || c = byte '-' || c = byte '.' || c = byte '_' || c = byte '~'

def hexChar (n : UInt8) : UInt8 := if n < 10 then 48 + n else 55 + n

def encodeByte (c : UInt8) : Bytes :=
  if isUnreserved c then [c] else [byte '%', hexChar (c >>> 4 &&& 0x0F), hexChar (c &&& 0x0F)]

/-- `url.encode`; `none` where the length of the result is no length of a string. -/
def urlEncode (s : Bytes) : Option Bytes :=
  let out := s.flatMap encodeByte
  if out.length ≤ Struct.maxLength then some out else none

/-- The byte that two hexadecimal digits stand for. -/
def unescape (h l : UInt8) : UInt8 := UInt8.ofNat (hexToInt h * 16 + hexToInt l)

def urlDecode : Bytes → Bytes
  | c :: h :: l :: rest =>
    if c = byte '%' ∧ isHex h ∧ isHex l then unescape h l :: urlDecode rest
    else c :: urlDecode (h :: l :: rest)
  | s => s

/-- `strtol` in base 16 of a text of at most two characters; a prefix `0x` needs a third. -/
def strtolHex (s : Bytes) : Int :=
  let (minus, rest) := Strtod.sign (s.dropWhile isSpace)
  let n : Int := Strtod.hexNat (rest.takeWhile isHex)
  if minus then -n else n

def plusToSpace (c : UInt8) : UInt8 := if c = byte '+' then byte ' ' else c

/-- `http.urldecode` -/
def httpUrldecode : Bytes → Bytes
  | c :: h :: l :: rest =>
    if c = byte '%' then UInt8.ofInt (strtolHex [h, l]) :: httpUrldecode rest
    else plusToSpace c :: httpUrldecode (h :: l :: rest)
  | s => s.map plusToSpace

/-- A text of unreserved characters and escapes. -/
inductive Coded : Bytes → Prop
  | nil : Coded []
  | unreserved {c : UInt8} {s : Bytes} : isUnreserved c → Coded s → Coded (c :: s)
  | escape {h l : UInt8} {s : Bytes} : isHex h → isHex l → Coded s → Coded (byte '%' :: h :: l :: s)

/-- What stands behind a `%` makes it an escape. -/
def StartsEscape : Bytes → Prop
  | h :: l :: _ => isHex h ∧ isHex l
  | _ => False

/-- Both decoders take an encoded text back to the string. -/
def EncodesBack (s : Bytes) : Prop :=
  ∃ out, urlEncode s = some out ∧ Coded out ∧ urlDecode out = s ∧ httpUrldecode out = s

/-- The decoders agree on a text, a `+` apart, and keep a `%` that starts no escape. -/
structure DecodesAlike (t : Bytes) : Prop where
  agree : (∀ a b, t = a ++ byte '%' :: b → StartsEscape b) →
    httpUrldecode t = urlDecode (t.map plusToSpace)
  kept : ∀ a b, t = a ++ byte '%' :: b → ¬ StartsEscape b →
    urlDecode t = urlDecode a ++ byte '%' :: urlDecode b ∧
      httpUrldecode t = httpUrldecode a ++ byte '%' :: httpUrldecode b

/-- Every `%` that two characters follow starts an escape. -/
def NoStray (t : Bytes) : Prop := ∀ a h l b, t = a ++ byte '%' :: h :: l :: b → isHex h ∧ isHex l

section Bytes

variable {c h l : UInt8} {s t rest : Bytes}

theorem hexDigit_hexChar {n : UInt8} (hn : n.toNat < 16) : hexDigit (hexChar n) = some n.toNat := by
  have hall : ∀ k < 16, hexDigit (hexChar (UInt8.ofNat k)) = some k := by decide
  have h := hall n.toNat hn
  rwa [UInt8.ofNat_toNat] at h

theorem unescape_hexChar (c : UInt8) :
    isHex (hexChar (c >>> 4 &&& 0x0F)) ∧ isHex (hexChar (c &&& 0x0F)) ∧
      unescape (hexChar (c >>> 4 &&& 0x0F)) (hexChar (c &&& 0x0F)) = c := by
  have hmod (d : UInt8) : (d &&& 0x0F).toNat = d.toNat % 16 := by
    rw [UInt8.toNat_and]
    exact Nat.and_two_pow_sub_one_eq_mod d.toNat 4
  have hdiv : (c >>> 4).toNat = c.toNat / 16 := by
    rw [UInt8.toNat_shiftRight]
    exact Nat.shiftRight_eq_div_pow c.toNat 4
  have hhigh := hexDigit_hexChar (n := c >>> 4 &&& 0x0F) (hmod _ ▸ Nat.mod_lt _ (by decide))
  have hlow := hexDigit_hexChar (n := c &&& 0x0F) (hmod _ ▸ Nat.mod_lt _ (by decide))
  have hlt := c.toNat_lt
  refine ⟨by rw [isHex, hhigh]; rfl, by rw [isHex, hlow]; rfl, ?_⟩
  rw [unescape, hexToInt, hexToInt, hhigh, hlow, hmod, hmod, hdiv, Option.getD_some, Option.getD_some,
    show c.toNat / 16 % 16 * 16 + c.toNat % 16 = c.toNat by omega, UInt8.ofNat_toNat]

theorem isUnreserved_ne (hc : isUnreserved c) : c ≠ byte '%' ∧ plusToSpace c = c := by
  have hne {d : UInt8} (hd : isUnreserved d = false) : c ≠ d := by
    intro heq
    rw [heq, hd] at hc
    cases hc
  exact ⟨hne (by decide), if_neg (hne (by decide))⟩

theorem isHex_ne (hc : isHex c) :
    c ≠ byte '%' ∧ plusToSpace c = c ∧ isSpace c = false ∧ c ≠ 45 ∧ c ≠ 43 := by
  have hne {d : UInt8} (hd : isHex d = false) : c ≠ d := by
    intro heq
    rw [heq, hd] at hc
    cases hc
  exact ⟨hne (by decide), if_neg (hne (by decide)), hexDigit_not_space hc, hne (by decide), hne (by decide)⟩

theorem plusToSpace_eq_percent : plusToSpace c = byte '%' ↔ c = byte '%' := by
  unfold plusToSpace
  split_ifs with h
  · rw [h]
    decide
  · exact Iff.rfl

theorem isHex_plusToSpace : isHex (plusToSpace c) = isHex c := by
  unfold plusToSpace
  split_ifs with h
  · rw [h]
    rfl
  · rfl

theorem plusToSpace_percent : plusToSpace (byte '%') = byte '%' := rfl

theorem hexNat_one (h : UInt8) : Strtod.hexNat [h] = hexToInt h := by
  simp [Strtod.hexNat, hexToInt]

theorem hexNat_two (h l : UInt8) : Strtod.hexNat [h, l] = hexToInt h * 16 + hexToInt l := by
  simp only [Strtod.hexNat, List.foldl, hexToInt]
  omega

theorem hexToInt_lt (c : UInt8) : hexToInt c < 16 := by
  unfold hexToInt
  cases hc : hexDigit c with
  | none => simp
  | some d => simpa using hexDigit_lt hc

/-- On two digits `strtol` reads what `url.decode` reads. -/
theorem strtolHex_digits (hh : isHex h) (hl : isHex l) : UInt8.ofInt (strtolHex [h, l]) = unescape h l := by
  obtain ⟨-, -, hspace, hminus, hplus⟩ := isHex_ne hh
  have hdrop : [h, l].dropWhile isSpace = [h, l] := by rw [List.dropWhile_cons_of_neg (by simp [hspace])]
  have htake : [h, l].takeWhile isHex = [h, l] := by
    rw [List.takeWhile_cons_of_pos hh, List.takeWhile_cons_of_pos hl, List.takeWhile_nil]
  unfold strtolHex
  rw [hdrop, Strtod.sign, if_neg hminus, if_neg hplus]
  simp only [htake, hexNat_two, Bool.false_eq_true, if_false]
  have hh := hexToInt_lt h
  have hl := hexToInt_lt l
  rw [UInt8.ofInt, unescape]
  congr 1
  omega

theorem sign_length (s : Bytes) : (Strtod.sign s).2.length ≤ s.length := by
  cases s with
  | nil => exact Nat.le_refl 0
  | cons c s =>
    simp only [Strtod.sign]
    split_ifs <;> simp

/-- Without two digits `strtol` reads one at most. -/
theorem strtolHex_digits_length (hn : ¬ (isHex h ∧ isHex l)) :
    ((Strtod.sign ([h, l].dropWhile isSpace)).2.takeWhile isHex).length ≤ 1 := by
  have hlen : ∀ s : Bytes, s.length ≤ 1 → (s.takeWhile isHex).length ≤ 1 := fun s hs =>
    (List.takeWhile_prefix isHex).length_le.trans hs
  by_cases hspace : isSpace h
  · rw [List.dropWhile_cons_of_pos hspace]
    have hdrop := (List.dropWhile_sublist isSpace (l := [l])).length_le
    exact hlen _ ((sign_length _).trans hdrop)
  · rw [List.dropWhile_cons_of_neg hspace]
    simp only [Strtod.sign]
    split_ifs
    · exact hlen _ (by simp)
    · exact hlen _ (by simp)
    · by_cases hh : isHex h
      · have hl : ¬ isHex l := fun hl => hn ⟨hh, hl⟩
        rw [List.takeWhile_cons_of_pos hh, List.takeWhile_cons_of_neg hl]
        simp
      · rw [List.takeWhile_cons_of_neg hh]
        simp

theorem strtolHex_small (hn : ¬ (isHex h ∧ isHex l)) : (strtolHex [h, l]).natAbs < 16 := by
  have hdigits := strtolHex_digits_length hn
  have hlt : Strtod.hexNat ((Strtod.sign ([h, l].dropWhile isSpace)).2.takeWhile isHex) < 16 := by
    match hd : (Strtod.sign ([h, l].dropWhile isSpace)).2.takeWhile isHex with
    | [] => decide
    | [d] => rw [hexNat_one]; exact hexToInt_lt d
    | d :: e :: ds => rw [hd] at hdigits; simp at hdigits
  unfold strtolHex
  dsimp only
  split_ifs <;> omega

/-- A pair that is no escape is never read as a `%`. -/
theorem strtolHex_ne_percent (hn : ¬ (isHex h ∧ isHex l)) : UInt8.ofInt (strtolHex [h, l]) ≠ byte '%' := by
  have hsmall := strtolHex_small hn
  generalize strtolHex [h, l] = i at hsmall
  have hall : ∀ n : Fin 31, UInt8.ofInt ((n : Nat) - 15 : Int) ≠ byte '%' := by decide
  have hi := hall ⟨(i + 15).toNat, by omega⟩
  have heq : (((i + 15).toNat : Nat) : Int) - 15 = i := by omega
  rwa [heq] at hi

/-! ## The two decoders -/

theorem urlDecode_keeps (hc : ¬ (c = byte '%' ∧ StartsEscape s)) : urlDecode (c :: s) = c :: urlDecode s := by
  match s, hc with
  | [], _ => rfl
  | [h], _ => rfl
  | h :: l :: rest, hc =>
    rw [urlDecode]
    exact if_neg hc

theorem urlDecode_escape (hh : isHex h) (hl : isHex l) (s : Bytes) :
    urlDecode (byte '%' :: h :: l :: s) = unescape h l :: urlDecode s := by
  rw [urlDecode, if_pos ⟨rfl, hh, hl⟩]

theorem httpUrldecode_cons (hc : c ≠ byte '%') (s : Bytes) :
    httpUrldecode (c :: s) = plusToSpace c :: httpUrldecode s := by
  match s with
  | [] => rfl
  | [h] => rfl
  | h :: l :: rest => rw [httpUrldecode, if_neg hc]

theorem httpUrldecode_percent (h l : UInt8) (s : Bytes) :
    httpUrldecode (byte '%' :: h :: l :: s) = UInt8.ofInt (strtolHex [h, l]) :: httpUrldecode s := by
  rw [httpUrldecode, if_pos rfl]

theorem httpUrldecode_escape (hh : isHex h) (hl : isHex l) (s : Bytes) :
    httpUrldecode (byte '%' :: h :: l :: s) = unescape h l :: httpUrldecode s := by
  rw [httpUrldecode_percent, strtolHex_digits hh hl]

/-! ## The law of the encoder -/

theorem coded_encodeByte (c : UInt8) (hs : Coded s) : Coded (encodeByte c ++ s) := by
  unfold encodeByte
  split_ifs with hc
  · exact .unreserved hc hs
  · obtain ⟨hh, hl, -⟩ := unescape_hexChar c
    exact .escape hh hl hs

theorem urlDecode_encodeByte (c : UInt8) (s : Bytes) : urlDecode (encodeByte c ++ s) = c :: urlDecode s := by
  unfold encodeByte
  split_ifs with hc
  · exact urlDecode_keeps fun he => (isUnreserved_ne hc).1 he.1
  · obtain ⟨hh, hl, hbyte⟩ := unescape_hexChar c
    exact (urlDecode_escape hh hl s).trans (by rw [hbyte])

theorem httpUrldecode_encodeByte (c : UInt8) (s : Bytes) :
    httpUrldecode (encodeByte c ++ s) = c :: httpUrldecode s := by
  unfold encodeByte
  split_ifs with hc
  · obtain ⟨hne, hplus⟩ := isUnreserved_ne hc
    exact (httpUrldecode_cons hne s).trans (by rw [hplus])
  · obtain ⟨hh, hl, hbyte⟩ := unescape_hexChar c
    exact (httpUrldecode_escape hh hl s).trans (by rw [hbyte])

theorem encoded_spec (s : Bytes) :
    Coded (s.flatMap encodeByte) ∧ urlDecode (s.flatMap encodeByte) = s ∧
      httpUrldecode (s.flatMap encodeByte) = s := by
  induction s with
  | nil => exact ⟨.nil, rfl, rfl⟩
  | cons c s ih =>
    obtain ⟨hcoded, hurl, hhttp⟩ := ih
    rw [List.flatMap_cons]
    exact ⟨coded_encodeByte c hcoded, by rw [urlDecode_encodeByte, hurl],
      by rw [httpUrldecode_encodeByte, hhttp]⟩

theorem encoded_length (s : Bytes) :
    (s.flatMap encodeByte).length = s.length + 2 * s.countP (fun c => !isUnreserved c) := by
  induction s with
  | nil => rfl
  | cons c s ih =>
    rw [List.flatMap_cons, List.length_append, ih, List.countP_cons, List.length_cons]
    unfold encodeByte
    by_cases hc : isUnreserved c
    · simp only [hc, if_true, List.length_singleton]
      simp
      omega
    · simp only [hc, Bool.false_eq_true, if_false]
      simp
      omega

theorem encodesBack_iff (s : Bytes) :
    EncodesBack s ↔ s.length + 2 * s.countP (fun c => !isUnreserved c) ≤ Struct.maxLength := by
  rw [← encoded_length]
  constructor
  · intro ⟨out, hout, _⟩
    unfold urlEncode at hout
    dsimp only at hout
    split_ifs at hout with hlen
    exact hlen
  · intro hlen
    refine ⟨_, ?_, encoded_spec s⟩
    unfold urlEncode
    exact if_pos hlen

/-! ## The law of the decoders -/

theorem not_startsEscape_percent (b : Bytes) : ¬ StartsEscape (byte '%' :: b) := by
  cases b with
  | nil => exact id
  | cons d b => exact fun he => (isHex_ne he.1).1 rfl

/-- A `%` belongs to no escape that begins in front of it. -/
theorem urlDecode_append (a b : Bytes) :
    urlDecode (a ++ byte '%' :: b) = urlDecode a ++ urlDecode (byte '%' :: b) := by
  fun_induction urlDecode a with
  | case1 c h l rest hc ih =>
    obtain ⟨rfl, hh, hl⟩ := hc
    rw [List.cons_append, List.cons_append, List.cons_append, urlDecode_escape hh hl, ih, List.cons_append]
  | case2 c h l rest hc ih =>
    rw [List.cons_append, List.cons_append, List.cons_append, urlDecode, if_neg hc, ← List.cons_append,
      ← List.cons_append, ih, List.cons_append]
  | case3 a hshort =>
    match a, hshort with
    | [], _ => rfl
    | [c], _ =>
      exact urlDecode_keeps fun he => not_startsEscape_percent b he.2
    | [c, d], _ =>
      have hd : ¬ StartsEscape (d :: byte '%' :: b) := fun he => (isHex_ne he.2).1 rfl
      have hrest := urlDecode_keeps (c := d) fun he => not_startsEscape_percent b he.2
      exact (urlDecode_keeps fun he => hd he.2).trans (by rw [hrest]; rfl)
    | c :: h :: l :: rest, hshort => exact absurd rfl (hshort c h l rest)

theorem urlDecode_kept {a b : Bytes} (hb : ¬ StartsEscape b) :
    urlDecode (a ++ byte '%' :: b) = urlDecode a ++ byte '%' :: urlDecode b := by
  rw [urlDecode_append, urlDecode_keeps fun he => hb he.2]

theorem startsEscape_map (s : Bytes) : StartsEscape (s.map plusToSpace) ↔ StartsEscape s := by
  match s with
  | [] => exact Iff.rfl
  | [h] => exact Iff.rfl
  | h :: l :: rest => simp only [List.map_cons, StartsEscape, isHex_plusToSpace]

theorem NoStray.tail (ht : NoStray (c :: t)) : NoStray t := fun a h l b hs =>
  ht (c :: a) h l b (by rw [hs]; rfl)

/-- Where each `%` with two characters behind it starts an escape, `http.urldecode` is `url.decode`
of the text with spaces for its plus signs. -/
theorem httpUrldecode_eq (ht : NoStray t) : httpUrldecode t = urlDecode (t.map plusToSpace) := by
  fun_induction httpUrldecode t with
  | case1 h l rest ih =>
    obtain ⟨hh, hl⟩ := ht [] h l rest rfl
    obtain ⟨-, hplush, -⟩ := isHex_ne hh
    obtain ⟨-, hplusl, -⟩ := isHex_ne hl
    rw [strtolHex_digits hh hl, ih ht.tail.tail.tail]
    simp only [List.map_cons, plusToSpace_percent, hplush, hplusl]
    rw [urlDecode_escape hh hl]
  | case2 c h l rest hc ih =>
    have hne : plusToSpace c ≠ byte '%' := fun he => hc (plusToSpace_eq_percent.mp he)
    rw [ih ht.tail, List.map_cons]
    exact (urlDecode_keeps fun he => hne he.1).symm
  | case3 t hshort =>
    match t, hshort with
    | [], _ => rfl
    | [c], _ => rfl
    | [c, d], _ => rfl
    | c :: h :: l :: rest, hshort => exact absurd rfl (hshort c h l rest)

theorem NoStray.front {a b : Bytes} (ht : NoStray (a ++ b)) : NoStray a := fun x h l y hs =>
  ht x h l (y ++ b) (by rw [hs, List.append_assoc]; rfl)

theorem NoStray.behind {a b : Bytes} (ht : NoStray (a ++ b)) : NoStray b := fun x h l y hs =>
  ht (a ++ x) h l y (by rw [hs, List.append_assoc])

theorem DecodesAlike.of_noStray (ht : NoStray t) : DecodesAlike t where
  agree := fun _ => httpUrldecode_eq ht
  kept := by
    intro a b hs hb
    subst hs
    refine ⟨urlDecode_kept hb, ?_⟩
    rw [httpUrldecode_eq ht, httpUrldecode_eq ht.front, httpUrldecode_eq ht.behind.tail, List.map_append,
      List.map_cons, plusToSpace_percent]
    exact urlDecode_kept fun he => hb ((startsEscape_map b).mp he)

/-- Where `http.urldecode` keeps every `%` that starts no escape, each with two characters behind it
starts one. -/
theorem noStray_of_kept (hkept : ∀ a b, t = a ++ byte '%' :: b → ¬ StartsEscape b →
    httpUrldecode t = httpUrldecode a ++ byte '%' :: httpUrldecode b) : NoStray t := by
  fun_induction httpUrldecode t with
  | case1 h l rest ih =>
    have hex : isHex h ∧ isHex l := by
      by_contra hn
      have hhead := hkept [] (h :: l :: rest) rfl hn
      exact strtolHex_ne_percent hn (List.cons.inj hhead).1
    have hrest : NoStray rest := by
      refine ih fun a b hs hb => ?_
      have hall := hkept (byte '%' :: h :: l :: a) b (by rw [hs]; rfl) hb
      rw [httpUrldecode_percent, List.cons_append] at hall
      exact (List.cons.inj hall).2
    intro a h' l' b hs
    match a, hs with
    | [], hs =>
      obtain ⟨rfl, rfl, -⟩ : h = h' ∧ l = l' ∧ rest = b := by simpa using hs
      exact hex
    | [x], hs =>
      obtain ⟨-, rfl, -⟩ : byte '%' = x ∧ h = byte '%' ∧ _ := by simpa using hs
      exact absurd rfl (isHex_ne hex.1).1
    | [x, y], hs =>
      obtain ⟨-, -, rfl, -⟩ : byte '%' = x ∧ h = y ∧ l = byte '%' ∧ _ := by simpa using hs
      exact absurd rfl (isHex_ne hex.2).1
    | x :: y :: z :: a, hs =>
      obtain ⟨-, -, -, hs⟩ : byte '%' = x ∧ h = y ∧ l = z ∧ rest = _ := by simpa using hs
      exact hrest a h' l' b hs
  | case2 c h l rest hc ih =>
    have hrest : NoStray (h :: l :: rest) := by
      refine ih fun a b hs hb => ?_
      have hall := hkept (c :: a) b (by rw [hs]; rfl) hb
      rw [httpUrldecode_cons hc, List.cons_append] at hall
      exact (List.cons.inj hall).2
    intro a h' l' b hs
    match a, hs with
    | [], hs => exact absurd (List.cons.inj hs).1 hc
    | x :: a, hs => exact hrest a h' l' b (List.cons.inj hs).2
  | case3 t hshort =>
    intro a h l b hs
    subst hs
    match a, hshort with
    | [], hshort => exact absurd rfl (hshort _ _ _ _)
    | [x], hshort => exact absurd rfl (hshort _ _ _ _)
    | [x, y], hshort => exact absurd rfl (hshort _ _ _ _)
    | x :: y :: z :: a, hshort => exact absurd rfl (hshort _ _ _ _)

/-- The laws of the percent coding hold just where the encoded text is no longer than a string can
be, and where no `%` with two characters behind it is without its two digits. -/
theorem percentCoding_iff (s t : Bytes) :
    EncodesBack s ∧ DecodesAlike t ↔
      s.length + 2 * s.countP (fun c => !isUnreserved c) ≤ Struct.maxLength ∧ NoStray t := by
  rw [encodesBack_iff]
  constructor
  · intro ⟨hs, ht⟩
    exact ⟨hs, noStray_of_kept fun a b h hb => (ht.kept a b h hb).2⟩
  · intro ⟨hs, ht⟩
    exact ⟨hs, .of_noStray ht⟩

/-- `http.urldecode` makes a zero byte of `%zz`. -/
theorem percentCoding_false : ¬ DecodesAlike [byte '%', byte 'z', byte 'z'] := by
  intro h
  have hkept := (h.kept [] [byte 'z', byte 'z'] rfl fun he => absurd he.1 (by decide)).2
  exact absurd hkept (by decide)

end Bytes

end ToiLang.Url
