import ToiLang.Http.Build
import ToiLang.Http.Route
import ToiLang.Strings.Search

namespace ToiLang.Http

/-! The `Range` header of a request for a mounted file. -/

/-- The `long` that `int` makes of a string. -/
def longOf (s : Bytes) : Option Int :=
  match strtol (s.takeWhile (· ≠ 0)) with
  | none => none
  | some (n, rest) => if rest.dropWhile isSpace = [] then some n else none

/-- The number before it becomes a double; what it is compared with is below `2 ^ 53`. -/
def parseNonnegInt (raw : Bytes) : Option Int :=
  let token := stringTrim raw
  if token = [] then none
  else
    match longOf token with
    | none => none
    | some n => if n < 0 then none else some n

/-- `string.sub` with an `end` or without one. -/
def stringSub (s : Bytes) (start : Int) (stop : Option Int) : Bytes :=
  let len : Int := s.length
  let start := if start - 1 < 0 then len + (start - 1) + 1 else start - 1
  let stop := if stop.getD len < 0 then len + stop.getD len + 1 else stop.getD len
  let start := if start < 0 then 0 else start
  let stop := if stop > len then len else stop
  if stop - start ≤ 0 then [] else (s.drop start.toNat).take (stop - start).toNat

/-- The results of `parse_single_byte_range`. -/
inductive ParsedRange
  | absent
  | range (start stop : Int)
  | invalid
  | unsat
  deriving DecidableEq

/-- `start_raw` and `end_raw`; none where the text is refused before them. -/
def rangeParts (value : Bytes) : Option (Bytes × Bytes) :=
  if (value.take 6).map toLower ≠ ascii "bytes=" then none
  else
    let spec := stringTrim (value.drop 6)
    if (strstr spec [44]).isSome = true then none
    else
      match strstr spec [45] with
      | none => none
      | some i =>
        some (stringTrim (stringSub spec 1 (some i)), stringTrim (stringSub spec (i + 2) none))

def rangeOf (startRaw endRaw : Bytes) (size : Int) : ParsedRange :=
  if startRaw = [] ∧ endRaw = [] then .invalid
  else if startRaw = [] then
    match parseNonnegInt endRaw with
    | none => .invalid
    | some suffixLen =>
      if suffixLen ≤ 0 then .invalid
      else if size = 0 then .unsat
      else if suffixLen ≥ size then .range 0 (size - 1)
      else .range (size - suffixLen) (size - 1)
  else
    match parseNonnegInt startRaw with
    | none => .invalid
    | some start =>
      if start ≥ size then .unsat
      else
        match if endRaw ≠ [] then parseNonnegInt endRaw else some (size - 1) with
        | none => .invalid
        | some stop =>
          if stop < start then .unsat
          else .range start (if stop ≥ size then size - 1 else stop)

/-- A header that is not a string is none. -/
def parseSingleByteRange (rawRange : Option Bytes) (size : Int) : ParsedRange :=
  match rawRange with
  | none => .absent
  | some raw =>
    let size := if size < 0 then 0 else size
    if stringTrim raw = [] then .absent
    else
      match rangeParts (stringTrim raw) with
      | none => .invalid
      | some (startRaw, endRaw) => rangeOf startRaw endRaw size

/-- What `serve_mount_file` answers with after the conditional headers: status 200, 206, 416 or 400. -/
inductive RangeAnswer
  | full (body : Bytes)
  | part (contentRange body : Bytes)
  | unsatisfiable (contentRange : Bytes)
  | badRequest
  deriving DecidableEq

def serveRange (rangeReq : Option Bytes) (body : Bytes) : RangeAnswer :=
  match rangeReq with
  | none => .full body
  | some raw =>
    if raw = [] then .full body
    else
      match parseSingleByteRange (some raw) body.length with
      | .absent => .full body
      | .invalid => .badRequest
      | .unsat => .unsatisfiable (ascii "bytes */" ++ intText body.length)
      | .range start stop =>
        .part (ascii "bytes " ++ intText start ++ [45] ++ intText stop ++ [47] ++ intText body.length)
          (stringSub body (start + 1) (some (stop + 1)))

/-- The single ranges of RFC 7233: `first-last` and `first-`, and `-length`. -/
inductive RangeSpec
  | span (first : Nat) (last : Option Nat)
  | suffix (length : Nat)

/-- `1*DIGIT` -/
structure IsNumber (ds : Bytes) (n : Nat) : Prop where
  ne : ds ≠ []
  digits : ∀ c ∈ ds, isDigit c = true
  value : Double.natOf ds = n

/-- The text of a range, without the unit. -/
inductive SpecText : Bytes → RangeSpec → Prop
  | between {ds es : Bytes} {first last : Nat} (hf : IsNumber ds first) (hl : IsNumber es last) :
    SpecText (ds ++ 45 :: es) (.span first (some last))
  | onward {ds : Bytes} {first : Nat} (hf : IsNumber ds first) : SpecText (ds ++ [45]) (.span first none)
  | suffix {es : Bytes} {length : Nat} (hl : IsNumber es length) : SpecText (45 :: es) (.suffix length)

/-- The header is one valid range in the unit `bytes`, in upper or lower case. -/
def Denotes (raw : Bytes) (spec : RangeSpec) : Prop :=
  ∃ unit text, stringTrim raw = unit ++ text ∧ unit.map toLower = ascii "bytes=" ∧ SpecText text spec

/-- The first and the last byte of `n` that a range selects, if there is one. -/
def RangeSpec.selects (n : Nat) : RangeSpec → Option (Nat × Nat)
  | .span first last =>
    if first < n ∧ ∀ l, last = some l → first ≤ l then some (first, min (last.getD n) (n - 1)) else none
  | .suffix length => if length = 0 ∨ n = 0 then none else some (n - length, n - 1)

/-- The bytes from `first` to `last` with their `Content-Range`. -/
def partAnswer (body : Bytes) (first last : Nat) : RangeAnswer :=
  .part (ascii "bytes " ++ Double.natText first ++ [45] ++ Double.natText last ++ [47] ++
    Double.natText body.length) ((body.drop first).take (last - first + 1))

def unsatAnswer (body : Bytes) : RangeAnswer :=
  .unsatisfiable (ascii "bytes */" ++ Double.natText body.length)

/-- What RFC 7233 has as the answer to a range. -/
def RangeSpec.answer (body : Bytes) (spec : RangeSpec) : RangeAnswer :=
  match spec.selects body.length with
  | some (first, last) => partAnswer body first last
  | none => unsatAnswer body

/-- The answers there may be to a header: the whole file without a range, bytes of the file, nothing
of a valid range, or 400. -/
inductive Fitting (rangeReq : Option Bytes) (body : Bytes) : RangeAnswer → Prop
  | full (h : ∀ raw, rangeReq = some raw → stringTrim raw = []) : Fitting rangeReq body (.full body)
  | part {first last : Nat} (hle : first ≤ last) (hlt : last < body.length) :
    Fitting rangeReq body (partAnswer body first last)
  | unsatisfiable {raw : Bytes} {spec : RangeSpec} (hraw : rangeReq = some raw) (hd : Denotes raw spec)
    (hs : spec.selects body.length = none) : Fitting rangeReq body (unsatAnswer body)
  | badRequest : Fitting rangeReq body .badRequest

/-- The answer is a fitting one, and to a valid range it is that of the RFC. -/
def RangesRight (rangeReq : Option Bytes) (body : Bytes) : Prop :=
  Fitting rangeReq body (serveRange rangeReq body) ∧
    ∀ raw spec, rangeReq = some raw → Denotes raw spec →
      serveRange rangeReq body = spec.answer body

/-- The numbers of a range as `int` reads them are behind the file or in the wrong order. -/
def Outside (startRaw endRaw : Bytes) (size : Int) : Prop :=
  (startRaw ≠ [] ∧ ∃ start, parseNonnegInt startRaw = some start ∧
    (size ≤ start ∨ ∃ stop, parseNonnegInt endRaw = some stop ∧ stop < start)) ∨
  (startRaw = [] ∧ size = 0 ∧ ∃ length, parseNonnegInt endRaw = some length ∧ 0 < length)

section Numbers

variable {ds : Bytes} {n : Nat}

theorem isDigit_iff {c : UInt8} : isDigit c = true ↔ 48 ≤ c ∧ c ≤ 57 := by
  unfold isDigit
  simp

theorem digit_ne {c d : UInt8} (hc : isDigit c = true) (hd : isDigit d = false) : c ≠ d := by
  rintro rfl
  rw [hc] at hd
  cases hd

theorem digit_plain {c : UInt8} (hc : isDigit c = true) :
    isSpace c = false ∧ isBlank c = false ∧ c ≠ 0 := by
  obtain ⟨h1, h2⟩ := isDigit_iff.mp hc
  have h1 : 48 ≤ c.toNat := UInt8.le_iff_toNat_le.mp h1
  have h2 : c.toNat ≤ 57 := UInt8.le_iff_toNat_le.mp h2
  refine ⟨?_, ?_, digit_ne hc (by decide)⟩
  · unfold isSpace
    have hne : c ≠ 32 := digit_ne hc (by decide)
    have hnot : ¬ c ≤ 13 := fun hle => by
      have hle : c.toNat ≤ 13 := UInt8.le_iff_toNat_le.mp hle
      omega
    simp [hne, hnot]
  · unfold isBlank
    have h32 : c ≠ 32 := digit_ne hc (by decide)
    have h9 : c ≠ 9 := digit_ne hc (by decide)
    have h10 : c ≠ 10 := digit_ne hc (by decide)
    have h13 : c ≠ 13 := digit_ne hc (by decide)
    simp [h32, h9, h10, h13]

theorem takeWhile_digits (hd : ∀ c ∈ ds, isDigit c = true) :
    ds.takeWhile isDigit = ds ∧ ds.dropWhile isDigit = [] :=
  ⟨List.takeWhile_eq_self_iff.mpr hd, List.dropWhile_eq_nil_iff.mpr hd⟩

theorem strtol_digits (h : IsNumber ds n) : strtol ds = some (min (2 ^ 63 - 1) (n : Int), []) := by
  obtain ⟨hne, hd, hvalue⟩ := h
  cases ds with
  | nil => exact absurd rfl hne
  | cons c ds =>
    have hc := hd c List.mem_cons_self
    have hspace : (c :: ds).dropWhile isSpace = c :: ds :=
      List.dropWhile_cons_of_neg (by simp [(digit_plain hc).1])
    have hsign : Strtod.sign (c :: ds) = (false, c :: ds) := by
      have hminus : c ≠ 45 := digit_ne hc (by decide)
      have hplus : c ≠ 43 := digit_ne hc (by decide)
      simp only [Strtod.sign, hminus, hplus, if_false]
    obtain ⟨htake, hdrop⟩ := takeWhile_digits hd
    unfold strtol
    rw [hspace, hsign]
    dsimp only
    rw [htake, hdrop, if_neg (List.cons_ne_nil _ _), hvalue]
    simp only [Bool.false_eq_true, ↓reduceIte]
    congr 2
    omega

theorem parseNonnegInt_digits (h : IsNumber ds n) :
    parseNonnegInt ds = some (min (2 ^ 63 - 1) (n : Int)) := by
  have hplain : stringTrim ds = ds := stringTrim_plain fun c hc => (digit_plain (h.digits c hc)).2.1
  have hzero : ds.takeWhile (· ≠ 0) = ds :=
    List.takeWhile_eq_self_iff.mpr fun c hc => by simpa using (digit_plain (h.digits c hc)).2.2
  have hlong : longOf ds = some (min (2 ^ 63 - 1) (n : Int)) := by
    unfold longOf
    rw [hzero, strtol_digits h]
    rfl
  unfold parseNonnegInt
  dsimp only
  rw [hplain, if_neg h.ne, hlong]
  dsimp only
  rw [if_neg (by omega)]

theorem parseNonnegInt_nonneg {raw : Bytes} {m : Int} (h : parseNonnegInt raw = some m) : 0 ≤ m := by
  unfold parseNonnegInt at h
  dsimp only at h
  split at h
  next => cases h
  next =>
    split at h
    next => cases h
    next =>
      split at h
      next => cases h
      next hm =>
        cases h
        omega

theorem parseNonnegInt_nil : parseNonnegInt [] = none := rfl

end Numbers

section Sub

variable {s : Bytes}

theorem stringSub_eq {a b : Nat} (hb : b ≤ s.length) :
    stringSub s (a + 1 : Int) (some (b : Int)) = (s.drop a).take (b - a) := by
  have hstart : ¬ (a : Int) + 1 - 1 < 0 := by omega
  have hstop : ¬ (b : Int) < 0 := by omega
  have hend : ¬ (b : Int) > (s.length : Int) := by omega
  simp only [stringSub, Option.getD_some, hstart, hstop, hend, if_false]
  by_cases hab : b ≤ a
  · rw [if_pos (by omega), Nat.sub_eq_zero_of_le hab, List.take_zero]
  · rw [if_neg (by omega)]
    congr 2 <;> omega

theorem stringSub_take {i : Nat} (hi : i ≤ s.length) : stringSub s 1 (some (i : Int)) = s.take i := by
  have h := stringSub_eq (a := 0) hi
  rwa [Nat.sub_zero, List.drop_zero] at h

theorem stringSub_drop (i : Nat) : stringSub s (i + 2 : Int) none = s.drop (i + 1) := by
  have h : stringSub s (i + 2 : Int) none = stringSub s ((i + 1 : Nat) + 1 : Int) (some (s.length : Int)) := by
    unfold stringSub
    have hi : (((i + 1 : Nat) : Int) + 1) = (i : Int) + 2 := by omega
    rw [hi]
    rfl
  rw [h, stringSub_eq (Nat.le_refl _)]
  exact List.take_of_length_le (by simp)

end Sub

section Parsed

variable {startRaw endRaw body : Bytes} {size : Int}

theorem rangeParts_digits {unit ds es : Bytes} (hu : unit.map toLower = ascii "bytes=")
    (hds : ∀ c ∈ ds, isDigit c = true) (hes : ∀ c ∈ es, isDigit c = true) :
    rangeParts (unit ++ (ds ++ 45 :: es)) = some (ds, es) := by
  have hlen : unit.length = 6 := by
    have h := congrArg List.length hu
    rwa [List.length_map] at h
  have hmem : ∀ c ∈ ds ++ 45 :: es, isDigit c = true ∨ c = 45 := by
    intro c hc
    rcases List.mem_append.mp hc with hc | hc
    · exact .inl (hds c hc)
    · rcases List.mem_cons.mp hc with hc | hc
      · exact .inr hc
      · exact .inl (hes c hc)
  have hplain : stringTrim (ds ++ 45 :: es) = ds ++ 45 :: es := by
    refine stringTrim_plain fun c hc => ?_
    rcases hmem c hc with hc | rfl
    · exact (digit_plain hc).2.1
    · rfl
  have hcomma : strstr (ds ++ 45 :: es) [44] = none := by
    refine strstr_absent fun c hc => ?_
    rcases hmem c hc with hc | rfl
    · exact digit_ne hc (by decide)
    · decide
  have hdash : strstr (ds ++ 45 :: es) [45] = some ds.length :=
    strstr_char (fun c hc => ⟨digit_ne (hds c hc) (by decide), (digit_plain (hds c hc)).2.2⟩)
      (by decide) es
  have hfront : stringSub (ds ++ 45 :: es) 1 (some (ds.length : Int)) = ds := by
    rw [stringSub_take (by simp), List.take_left]
  have hback : stringSub (ds ++ 45 :: es) (ds.length + 2 : Int) none = es := by
    rw [stringSub_drop]
    simp
  unfold rangeParts
  rw [← hlen, List.take_left, List.drop_left, if_neg (fun h => h hu)]
  dsimp only
  rw [hplain, hcomma, hdash, if_neg (by decide)]
  dsimp only
  rw [hfront, hback, stringTrim_plain fun c hc => (digit_plain (hds c hc)).2.1,
    stringTrim_plain fun c hc => (digit_plain (hes c hc)).2.1]

/-- Where the range is refused as one behind the file. -/
theorem rangeOf_unsat_iff : rangeOf startRaw endRaw size = .unsat ↔ Outside startRaw endRaw size := by
  unfold rangeOf Outside
  by_cases hs : startRaw = []
  · by_cases he : endRaw = []
    · rw [if_pos ⟨hs, he⟩, he, parseNonnegInt_nil]
      simp [hs]
    · rw [if_neg (fun h => he h.2), if_pos hs]
      cases hp : parseNonnegInt endRaw with
      | none => simp [hs]
      | some length =>
        dsimp only
        split
        next hle =>
          simp only [reduceCtorEq, hs, ne_eq, not_true_eq_false, false_and, Option.some.injEq,
            exists_eq_left', true_and, false_or, false_iff]
          omega
        next hlt =>
          split
          next h0 => simp [hs, h0, show 0 < length by omega]
          next h0 => split <;> simp [hs, h0]
  · rw [if_neg (fun h => hs h.1), if_neg hs]
    cases hp : parseNonnegInt startRaw with
    | none => simp [hs]
    | some start =>
      dsimp only
      split
      next hle => simp [hs, show size ≤ start by omega]
      next hlt =>
        by_cases he : endRaw = []
        · rw [if_neg (fun h => h he), he, parseNonnegInt_nil]
          dsimp only
          rw [if_neg (by omega)]
          simp [hs, show ¬ size ≤ start by omega]
        · rw [if_pos he]
          cases hq : parseNonnegInt endRaw with
          | none => simp [hs, show ¬ size ≤ start by omega]
          | some stop =>
            dsimp only
            split
            next hback => simp [hs, hback]
            next hfront => simp [hs, hfront, show ¬ size ≤ start by omega]

/-- A range that is taken lies in the file. -/
theorem rangeOf_range {start stop : Int} (hsize : 0 ≤ size)
    (h : rangeOf startRaw endRaw size = .range start stop) : 0 ≤ start ∧ start ≤ stop ∧ stop < size := by
  unfold rangeOf at h
  split at h
  next => cases h
  next =>
    split at h
    next =>
      cases hp : parseNonnegInt endRaw with
      | none =>
        rw [hp] at h
        cases h
      | some length =>
        rw [hp] at h
        dsimp only at h
        split at h
        next => cases h
        next =>
          split at h
          next => cases h
          next =>
            split at h <;> cases h <;> omega
    next =>
      cases hp : parseNonnegInt startRaw with
      | none =>
        rw [hp] at h
        cases h
      | some first =>
        have hfirst := parseNonnegInt_nonneg hp
        rw [hp] at h
        dsimp only at h
        split at h
        next => cases h
        next =>
          split at h
          next => cases h
          next last _ =>
            split at h
            next => cases h
            next =>
              cases h
              split <;> omega

theorem rangeOf_between {ds es : Bytes} {first last n : Nat} (hn : n < 2 ^ 31)
    (hf : IsNumber ds first) (hl : IsNumber es last) :
    rangeOf ds es n = match (RangeSpec.span first (some last)).selects n with
      | some (a, b) => .range a b
      | none => .unsat := by
  unfold rangeOf RangeSpec.selects
  rw [if_neg (fun h => hf.ne h.1), if_neg hf.ne, parseNonnegInt_digits hf, if_pos hl.ne,
    parseNonnegInt_digits hl]
  dsimp only
  by_cases hlt : first < n
  · rw [if_neg (by omega)]
    by_cases hle : first ≤ last
    · have hselects : first < n ∧ ∀ l, some last = some l → first ≤ l :=
        ⟨hlt, fun l hl => Option.some.inj hl ▸ hle⟩
      rw [if_neg (by omega), if_pos hselects, Option.getD_some]
      dsimp only
      split <;> congr 1 <;> omega
    · rw [if_pos (by omega), if_neg (fun h => hle (h.2 last rfl))]
  · rw [if_pos (by omega), if_neg (fun h => hlt h.1)]

theorem rangeOf_onward {ds : Bytes} {first n : Nat} (hn : n < 2 ^ 31) (hf : IsNumber ds first) :
    rangeOf ds [] n = match (RangeSpec.span first none).selects n with
      | some (a, b) => .range a b
      | none => .unsat := by
  unfold rangeOf RangeSpec.selects
  rw [if_neg (fun h => hf.ne h.1), if_neg hf.ne, parseNonnegInt_digits hf, if_neg (fun h => h rfl)]
  dsimp only
  by_cases hlt : first < n
  · have hselects : first < n ∧ ∀ l, none = some l → first ≤ l := ⟨hlt, nofun⟩
    rw [if_neg (by omega), if_pos hselects, if_neg (by omega), Option.getD_none]
    dsimp only
    split <;> congr 1 <;> omega
  · rw [if_pos (by omega), if_neg (fun h => hlt h.1)]

theorem rangeOf_suffix {es : Bytes} {length n : Nat} (hn : n < 2 ^ 31) (hl : IsNumber es length)
    (hpos : length ≠ 0) :
    rangeOf [] es n = match (RangeSpec.suffix length).selects n with
      | some (a, b) => .range a b
      | none => .unsat := by
  unfold rangeOf RangeSpec.selects
  rw [if_neg (fun h => hl.ne h.2), if_pos rfl, parseNonnegInt_digits hl]
  dsimp only
  rw [if_neg (by omega)]
  by_cases h0 : n = 0
  · rw [if_pos (by omega), if_pos (.inr h0)]
  · rw [if_neg (by omega), if_neg (c := length = 0 ∨ n = 0) (fun h => h.elim hpos h0)]
    dsimp only
    split <;> congr 1 <;> omega

theorem rangeOf_suffix_zero {es : Bytes} (hl : IsNumber es 0) (size : Int) :
    rangeOf [] es size = .invalid := by
  unfold rangeOf
  rw [if_neg (fun h => hl.ne h.2), if_pos rfl, parseNonnegInt_digits hl]
  rfl

end Parsed

section Served

variable {body : Bytes}

/-- The answer to what was parsed. -/
def ParsedRange.answer (body : Bytes) : ParsedRange → RangeAnswer
  | .absent => .full body
  | .invalid => .badRequest
  | .unsat => .unsatisfiable (ascii "bytes */" ++ intText body.length)
  | .range start stop =>
    .part (ascii "bytes " ++ intText start ++ [45] ++ intText stop ++ [47] ++ intText body.length)
      (stringSub body (start + 1) (some (stop + 1)))

theorem serveRange_eq (raw : Bytes) :
    serveRange (some raw) body = (parseSingleByteRange (some raw) body.length).answer body := by
  unfold serveRange
  dsimp only
  by_cases h : raw = []
  · rw [if_pos h, h]
    rfl
  · rw [if_neg h]
    cases parseSingleByteRange (some raw) body.length <;> rfl

theorem intText_ofNat (n : Nat) : intText n = Double.natText n := by
  unfold intText
  rw [if_neg (by omega), Int.natAbs_natCast]
  rfl

theorem answer_unsat : ParsedRange.unsat.answer body = unsatAnswer body := by
  unfold ParsedRange.answer unsatAnswer
  rw [intText_ofNat]

theorem answer_range {first last : Nat} (hle : first ≤ last) (hlt : last < body.length) :
    (ParsedRange.range first last).answer body = partAnswer body first last := by
  have hsub : stringSub body ((first : Int) + 1) (some ((last : Int) + 1)) =
      (body.drop first).take (last + 1 - first) :=
    stringSub_eq (b := last + 1) (by omega)
  have hlen : last + 1 - first = last - first + 1 := by omega
  unfold ParsedRange.answer partAnswer
  dsimp only
  rw [hsub, hlen, intText_ofNat, intText_ofNat, intText_ofNat]

/-- The texts of ranges other than `-0` are taken as the RFC has them. -/
theorem parse_denotes {raw : Bytes} {spec : RangeSpec} {n : Nat} (hn : n < 2 ^ 31) (hd : Denotes raw spec)
    (hzero : ¬ Denotes raw (.suffix 0)) :
    parseSingleByteRange (some raw) n = match spec.selects n with
      | some (a, b) => .range a b
      | none => .unsat := by
  obtain ⟨unit, text, htrim, hu, ht⟩ := hd
  have hne : stringTrim raw ≠ [] := by
    rw [htrim]
    intro hnil
    rw [(List.append_eq_nil_iff.mp hnil).1] at hu
    cases hu
  unfold parseSingleByteRange
  dsimp only
  rw [if_neg (show ¬ (n : Int) < 0 by omega), if_neg hne, htrim]
  cases ht with
  | between hf hl =>
    rw [rangeParts_digits hu hf.digits hl.digits]
    exact rangeOf_between hn hf hl
  | @onward ds first hf =>
    have hparts : rangeParts (unit ++ (ds ++ 45 :: [])) = some (ds, []) :=
      rangeParts_digits hu hf.digits fun c hc => by cases hc
    rw [hparts]
    exact rangeOf_onward hn hf
  | @suffix es length hl =>
    have hpos : length ≠ 0 := by
      rintro rfl
      exact hzero ⟨unit, 45 :: es, htrim, hu, .suffix hl⟩
    have hparts : rangeParts (unit ++ 45 :: es) = some ([], es) :=
      @rangeParts_digits unit [] es hu (fun c hc => by cases hc) hl.digits
    rw [hparts]
    exact rangeOf_suffix hn hl hpos

theorem parse_suffix_zero {raw : Bytes} (hd : Denotes raw (.suffix 0)) (size : Int) :
    parseSingleByteRange (some raw) size = .invalid := by
  obtain ⟨unit, text, htrim, hu, ht⟩ := hd
  have hne : stringTrim raw ≠ [] := by
    rw [htrim]
    intro hnil
    rw [(List.append_eq_nil_iff.mp hnil).1] at hu
    cases hu
  cases ht with
  | @suffix es _ hl =>
    have hparts : rangeParts (unit ++ 45 :: es) = some ([], es) :=
      @rangeParts_digits unit [] es hu (fun c hc => by cases hc) hl.digits
    unfold parseSingleByteRange
    dsimp only
    rw [if_neg hne, htrim, hparts]
    exact rangeOf_suffix_zero hl _

theorem selects_lt {spec : RangeSpec} {n a b : Nat} (h : spec.selects n = some (a, b)) : a ≤ b ∧ b < n := by
  cases spec with
  | span first last =>
    unfold RangeSpec.selects at h
    dsimp only at h
    split at h
    next hsel =>
      cases h
      cases last with
      | none =>
        rw [Option.getD_none]
        omega
      | some l =>
        have hle := hsel.2 l rfl
        rw [Option.getD_some]
        omega
    next => cases h
  | suffix length =>
    unfold RangeSpec.selects at h
    dsimp only at h
    split at h
    next => cases h
    next =>
      cases h
      omega

theorem serveRange_denotes {raw : Bytes} {spec : RangeSpec} (hn : body.length < 2 ^ 31)
    (hd : Denotes raw spec) (hzero : ¬ Denotes raw (.suffix 0)) :
    serveRange (some raw) body = spec.answer body := by
  rw [serveRange_eq, parse_denotes hn hd hzero]
  unfold RangeSpec.answer
  cases hs : spec.selects body.length with
  | none => exact answer_unsat
  | some p =>
    obtain ⟨a, b⟩ := p
    obtain ⟨hle, hlt⟩ := selects_lt hs
    exact answer_range hle hlt

theorem rangeParts_nil : rangeParts [] = none := rfl

theorem parse_cases (raw : Bytes) (n : Nat) :
    (stringTrim raw = [] ∧ parseSingleByteRange (some raw) n = .absent) ∨
    parseSingleByteRange (some raw) n = .invalid ∨
    ∃ startRaw endRaw, rangeParts (stringTrim raw) = some (startRaw, endRaw) ∧
      parseSingleByteRange (some raw) n = rangeOf startRaw endRaw n := by
  have hn : ¬ (n : Int) < 0 := by omega
  unfold parseSingleByteRange
  dsimp only
  rw [if_neg hn]
  by_cases hnil : stringTrim raw = []
  · exact .inl ⟨hnil, if_pos hnil⟩
  · rw [if_neg hnil]
    cases hparts : rangeParts (stringTrim raw) with
    | none => exact .inr (.inl rfl)
    | some p => exact .inr (.inr ⟨p.1, p.2, rfl, rfl⟩)

theorem rangeOf_ne_absent (startRaw endRaw : Bytes) (size : Int) :
    rangeOf startRaw endRaw size ≠ .absent := by
  unfold rangeOf
  intro h
  repeat' split at h
  all_goals cases h

theorem not_fitting_unsat {rangeReq : Option Bytes} {body : Bytes}
    (h : Fitting rangeReq body (unsatAnswer body)) : ∃ raw spec, rangeReq = some raw ∧ Denotes raw spec := by
  generalize hans : unsatAnswer body = ans at h
  cases h with
  | unsatisfiable hraw hd => exact ⟨_, _, hraw, hd⟩
  | full => cases hans
  | part => cases hans
  | badRequest => cases hans

theorem specText_bytes {text : Bytes} {spec : RangeSpec} (h : SpecText text spec) :
    ∀ c ∈ text, isDigit c = true ∨ c = 45 := by
  intro c hc
  cases h with
  | between hf hl =>
    rcases List.mem_append.mp hc with hc | hc
    · exact .inl (hf.digits c hc)
    · exact (List.mem_cons.mp hc).elim .inr fun hc => .inl (hl.digits c hc)
  | onward hf =>
    rcases List.mem_append.mp hc with hc | hc
    · exact .inl (hf.digits c hc)
    · exact .inr (List.mem_singleton.mp hc)
  | suffix hl => exact (List.mem_cons.mp hc).elim .inr fun hc => .inl (hl.digits c hc)

/-- The text of the range is behind the six bytes of the unit. -/
theorem Denotes.text {raw : Bytes} {spec : RangeSpec} (h : Denotes raw spec) :
    SpecText ((stringTrim raw).drop 6) spec := by
  obtain ⟨unit, text, htrim, hu, ht⟩ := h
  have hlen : unit.length = 6 := by
    have h := congrArg List.length hu
    rwa [List.length_map] at h
  rw [htrim, ← hlen, List.drop_left]
  exact ht

end Served

end ToiLang.Http
