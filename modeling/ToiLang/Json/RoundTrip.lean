import ToiLang.Json.Parses
import ToiLang.Remainder

namespace ToiLang

namespace Json

open Http (intText)
open Strings (concatElements)
open Double (withPoint exponentText digits IsDigits isDigits_digits natText)

/-! What is encoded is read back. -/

section Text

variable {str rest : Bytes}

theorem control_text (n : Nat) (hn : n < 32) :
    codepointText (strtol16 [48, 48, hexText (UInt8.ofNat n / 16), hexText (UInt8.ofNat n % 16)]) = [UInt8.ofNat n] := by
  revert n
  decide

/-- A character comes back from what it is encoded as. -/
theorem chars_encodeChar (c : UInt8) {s chars rest : Bytes} (h : Chars s chars rest) :
    Chars (encodeChar c ++ s) (c :: chars) rest := by
  unfold encodeChar
  by_cases h34 : c = 34
  · subst h34
    exact .escape (by decide) h
  by_cases h92 : c = 92
  · subst h92
    exact .escape (by decide) h
  by_cases h8 : c = 8
  · subst h8
    exact .escape (by decide) h
  by_cases h12 : c = 12
  · subst h12
    exact .escape (by decide) h
  by_cases h10 : c = 10
  · subst h10
    exact .escape (by decide) h
  by_cases h13 : c = 13
  · subst h13
    exact .escape (by decide) h
  by_cases h9 : c = 9
  · subst h9
    exact .escape (by decide) h
  rw [if_neg h34, if_neg h92, if_neg h8, if_neg h12, if_neg h10, if_neg h13, if_neg h9]
  by_cases hlow : c < 32
  · rw [if_pos hlow]
    have hcontrol := control_text c.toNat (UInt8.lt_iff_toNat_lt.mp hlow)
    rw [UInt8.ofNat_toNat] at hcontrol
    have hread := @Chars.codepoint [48, 48, hexText (c / 16), hexText (c % 16)] s chars rest rfl h
    rw [hcontrol] at hread
    exact hread
  · rw [if_neg hlow]
    exact .plain h34 h92 h

theorem chars_text (str rest : Bytes) : Chars (str.flatMap encodeChar ++ 34 :: rest) str rest := by
  induction str with
  | nil => exact .close rest
  | cons c str ih =>
    rw [List.flatMap_cons, List.append_assoc]
    exact chars_encodeChar c ih

theorem quoted_text (str rest : Bytes) : Quoted (stringText str ++ rest) str rest := by
  refine ⟨str.flatMap encodeChar ++ 34 :: rest, ?_, chars_text str rest⟩
  unfold stringText
  rw [List.cons_append, List.append_assoc]
  rfl

/-- What follows a number does not go on with it. -/
def Ends (rest : Bytes) : Prop := ∀ c ∈ rest.head?, isDigit c = false ∧ c ≠ 46 ∧ c ≠ 101 ∧ c ≠ 69

/-- The exponent of a number, or none. -/
def IsExponent (e : Bytes) : Prop :=
  e = [] ∨ ∃ sign ds, (sign = 43 ∨ sign = 45) ∧ IsDigits ds ∧ e = 101 :: sign :: ds

theorem isExponent_text (i : Nat) : IsExponent (exponentText i) := by
  have hdigits (n : Nat) : IsDigits (if n < 100 then digits 2 n else digits 3 n) := by
    split <;> exact isDigits_digits _ _
  unfold exponentText
  refine .inr ⟨_, _, ?_, ?_, rfl⟩
  · split
    · exact .inr rfl
    · exact .inl rfl
  · exact hdigits _

theorem afterNumber_exponent {e : Bytes} (he : IsExponent e) (hr : Ends rest) :
    (if (e ++ rest).head? = some 101 ∨ (e ++ rest).head? = some 69 then
      (if (e ++ rest).tail.head? = some 43 ∨ (e ++ rest).tail.head? = some 45 then (e ++ rest).tail.tail
        else (e ++ rest).tail).dropWhile isDigit
      else e ++ rest) = rest := by
  rcases he with rfl | ⟨sign, ds, hsign, hds, rfl⟩
  · rw [List.nil_append, if_neg]
    rintro (h | h)
    · exact (hr 101 h).2.2.1 rfl
    · exact (hr 69 h).2.2.2 rfl
  · have hdrop := (Strtod.digits_prefix hds fun c hc => (hr c hc).1).2
    rw [List.cons_append, List.cons_append, if_pos (.inl rfl)]
    rcases hsign with rfl | rfl
    · rw [if_pos (.inl rfl)]
      exact hdrop
    · rw [if_pos (.inr rfl)]
      exact hdrop

/-- A number of this form is read to its end. -/
theorem afterNumber_text {sign whole fractional e : Bytes} (hsign : sign = [] ∨ sign = [45]) (hw : IsDigits whole)
    (hne : whole ≠ []) (hf : IsDigits fractional) (he : IsExponent e) (hr : Ends rest) :
    afterNumber (sign ++ (withPoint whole fractional ++ e) ++ rest) = rest := by
  have hhead : ∀ c ∈ (e ++ rest).head?, isDigit c = false ∧ c ≠ 46 := by
    rcases he with rfl | ⟨sign, ds, -, -, rfl⟩
    · exact fun c hc => ⟨(hr c hc).1, (hr c hc).2.1⟩
    · intro c hc
      cases hc
      decide
  have hsigned : (if (sign ++ (withPoint whole fractional ++ e) ++ rest).head? = some 45 then
      (sign ++ (withPoint whole fractional ++ e) ++ rest).tail else sign ++ (withPoint whole fractional ++ e) ++ rest) =
      withPoint whole fractional ++ (e ++ rest) := by
    rcases hsign with rfl | rfl
    · obtain ⟨c, t, htext, hc⟩ := Strtod.head_withPoint fractional (e ++ rest) hw hne
      rw [List.nil_append, List.append_assoc, htext, if_neg]
      intro h
      rw [Option.some.inj h] at hc
      exact absurd hc (by decide)
    · rw [List.append_assoc, List.append_assoc]
      exact if_pos rfl
  have hfraction : (if ((withPoint whole fractional ++ (e ++ rest)).dropWhile isDigit).head? = some 46 then
      ((withPoint whole fractional ++ (e ++ rest)).dropWhile isDigit).tail.dropWhile isDigit
      else (withPoint whole fractional ++ (e ++ rest)).dropWhile isDigit) = e ++ rest := by
    unfold withPoint
    by_cases hnil : fractional = []
    · rw [if_pos hnil, (Strtod.digits_prefix hw fun c hc => (hhead c hc).1).2, if_neg]
      exact fun h => (hhead 46 h).2 rfl
    · rw [if_neg hnil, List.append_assoc, (Strtod.digits_prefix hw fun c hc => by cases hc; rfl).2, List.cons_append,
        List.head?_cons, if_pos rfl, List.tail_cons]
      exact (Strtod.digits_prefix hf fun c hc => (hhead c hc).1).2
  unfold afterNumber
  dsimp only
  rw [hsigned, hfraction]
  exact afterNumber_exponent he hr

/-- The form of the texts of numbers. -/
theorem encodeNumber_layout {x : Double} (hx : x.IsFinite) : ∃ sign whole fractional e,
    encodeNumber x = sign ++ (withPoint whole fractional ++ e) ∧ (sign = [] ∨ sign = [45]) ∧ IsDigits whole ∧
      whole ≠ [] ∧ IsDigits fractional ∧ IsExponent e ∧ strtod (encodeNumber x) = (x, []) := by
  have hsign : (if x.negative then [45] else []) = ([] : Bytes) ∨ (if x.negative then [45] else []) = ([45] : Bytes) := by
    split
    · exact .inr rfl
    · exact .inl rfl
  unfold encodeNumber
  rw [if_neg (not_not.mpr hx)]
  split
  next h =>
    refine ⟨_, natText (Double.roundHalfEven x.numerator x.denominator), [], [], ?_, hsign, Double.isDigits_natText _,
      Double.natText_ne_nil _, ?_, .inl rfl, strtod_formatF0 hx h.1⟩
    · unfold Double.formatF0 withPoint
      rw [if_pos rfl, List.append_nil]
    · intro c hc
      cases hc
  next =>
    have hread := strtod_formatG17 hx
    obtain ⟨whole, fractional, e, htext, hw, hne, hf, he⟩ :=
      Strtod.magnitudeText_layout (Double.abs_finite hx) x.abs_negative
    have hlayout : x.formatG17 = (if x.negative then [45] else []) ++ (withPoint whole fractional ++ e) := by
      unfold Double.formatG17
      rw [Double.isNaN_of_finite hx]
      simp only [Bool.false_eq_true, ↓reduceIte]
      rw [if_neg hx, ← htext, Double.abs_magnitudeText]
    refine ⟨_, whole, fractional, e, hlayout, hsign, hw, hne, hf, ?_, hread⟩
    rcases he with rfl | ⟨i, -, rfl⟩
    · exact .inl rfl
    · exact isExponent_text i

theorem number_text {x : Double} (hx : x.IsFinite) (hr : Ends rest) :
    Reads (encodeNumber x ++ rest) (.number x) rest := by
  obtain ⟨sign, whole, fractional, e, htext, hsign, hw, hne, hf, he, hread⟩ := encodeNumber_layout hx
  have hafter : afterNumber (encodeNumber x ++ rest) = rest := by
    rw [htext]
    exact afterNumber_text hsign hw hne hf he hr
  have hvalue : numberOf (encodeNumber x ++ rest) = x := by
    unfold numberOf
    rw [hafter, List.length_append, Nat.add_sub_cancel, List.take_left, hread]
  have hstart : ∃ c t, encodeNumber x ++ rest = c :: t ∧ StartsNumber c := by
    rw [htext]
    rcases hsign with rfl | rfl
    · obtain ⟨c, t, hcons, hc⟩ := Strtod.head_withPoint fractional (e ++ rest) hw hne
      refine ⟨c, t, ?_, .inr hc⟩
      rw [List.nil_append, List.append_assoc, hcons]
    · exact ⟨45, _, rfl, .inl rfl⟩
  obtain ⟨c, t, hcons, hc⟩ := hstart
  have hblanks : blanks (encodeNumber x ++ rest) = c :: t := by
    rw [hcons]
    refine List.dropWhile_cons_of_neg ?_
    rcases hc with rfl | hc
    · decide
    · have hdigit := isDigit_iff.mp hc
      unfold isWhitespace
      have hne (d : UInt8) (hd : d.toNat < 48) : c ≠ d := by
        rintro rfl
        omega
      simp [hne 32 (by decide), hne 9 (by decide), hne 10 (by decide), hne 13 (by decide)]
  have hreads := Reads.number hblanks hc
  rwa [← hcons, hvalue, hafter] at hreads

theorem ends_mark {c : UInt8} (hc : c = 44 ∨ c = 93 ∨ c = 125) (rest : Bytes) : Ends (c :: rest) := by
  rintro d hd
  cases hd
  rcases hc with rfl | rfl | rfl <;> decide

theorem elements_text {x : Tree} {xs : List Tree}
    (h : ∀ y ∈ x :: xs, ∀ {rest}, Ends rest → Reads (y.text ++ rest) y rest) (rest : Bytes) :
    ReadsElements (x.text ++ elementsText false xs ++ 93 :: rest) (x :: xs) (93 :: rest) := by
  induction xs generalizing x with
  | nil =>
    have hlast := h x List.mem_cons_self (ends_mark (.inr (.inl rfl)) rest)
    rw [elementsText, List.append_nil]
    exact .last hlast
  | cons y ys ih =>
    have hfirst := h x List.mem_cons_self (ends_mark (.inl rfl) (y.text ++ elementsText false ys ++ 93 :: rest))
    have hmore := ih fun z hz => h z (List.mem_cons_of_mem _ hz)
    have htext : x.text ++ elementsText false (y :: ys) ++ 93 :: rest =
        x.text ++ 44 :: (y.text ++ elementsText false ys ++ 93 :: rest) := by
      rw [elementsText, comma]
      simp
    rw [htext]
    exact .more hfirst rfl hmore

theorem keyed_text (key rest : Bytes) : Keyed (stringText key ++ 58 :: rest) key rest :=
  ⟨58 :: rest, quoted_text key _, rfl⟩

theorem members_text {m : Bytes × Tree} {ms : List (Bytes × Tree)}
    (h : ∀ y ∈ m :: ms, ∀ {rest}, Ends rest → Reads (y.2.text ++ rest) y.2 rest) (rest : Bytes) :
    ReadsMembers (memberText m ++ membersText false ms ++ 125 :: rest) (m :: ms) (125 :: rest) := by
  obtain ⟨key, x⟩ := m
  induction ms generalizing key x with
  | nil =>
    have hlast := h (key, x) List.mem_cons_self (ends_mark (.inr (.inr rfl)) rest)
    rw [membersText, List.append_nil, memberText, List.append_assoc]
    exact .last (keyed_text key _) hlast
  | cons m' ms ih =>
    obtain ⟨key', y⟩ := m'
    have hfirst := h (key, x) List.mem_cons_self
      (ends_mark (.inl rfl) (memberText (key', y) ++ membersText false ms ++ 125 :: rest))
    have hmore := ih key' y fun z hz => h z (List.mem_cons_of_mem _ hz)
    have htext : memberText (key, x) ++ membersText false ((key', y) :: ms) ++ 125 :: rest =
        stringText key ++ 58 :: (x.text ++ 44 :: (memberText (key', y) ++ membersText false ms ++ 125 :: rest)) := by
      rw [membersText, memberText, comma]
      simp
    rw [htext]
    exact .more (keyed_text key _) hfirst rfl hmore

/-- The text of a tree is read as the tree. -/
theorem reads_text {tree : Tree} (hf : tree.Finite) : ∀ {rest}, Ends rest → Reads (tree.text ++ rest) tree rest := by
  induction hf with
  | null => exact fun _ => .null rfl
  | bool b =>
    intro rest _
    refine .bool b ?_
    cases b <;> rfl
  | number h => exact fun hr => number_text h hr
  | string str => exact fun _ => .string (quoted_text str _)
  | @array elements _ ih =>
    intro rest _
    cases elements with
    | nil => exact @Reads.noElements _ (93 :: rest) rest rfl rfl
    | cons x xs =>
      have htext : (Tree.array (x :: xs)).text ++ rest = 91 :: (x.text ++ elementsText false xs ++ 93 :: rest) := by
        rw [Tree.text, elementsText, comma]
        simp
      rw [htext]
      exact .array rfl (elements_text ih rest) rfl
  | @object members _ ih =>
    intro rest _
    cases members with
    | nil => exact @Reads.noMembers _ (125 :: rest) rest rfl rfl
    | cons m ms =>
      have htext : (Tree.object (m :: ms)).text ++ rest = 123 :: (memberText m ++ membersText false ms ++ 125 :: rest) := by
        rw [Tree.text, membersText, comma]
        simp
      rw [htext]
      exact .object rfl (members_text ih rest) rfl

theorem accepts_text {tree : Tree} (hf : tree.Finite) : Accepts tree.text tree := by
  have hread := reads_text hf (show Ends [] from fun c hc => by cases hc)
  rw [List.append_nil] at hread
  exact ⟨[], hread, rfl⟩

end Text

section Encoded

variable {tables : Nat → Table} {t : Table} {encode : Value → List Bytes} {tree : Value → Tree}

theorem treeOf_finite (tables : Nat → Table) (room : Nat) (v : Value) : (treeOf tables room v).Finite := by
  induction room generalizing v with
  | zero =>
    cases v with
    | bool b => exact .bool b
    | number x =>
      rw [treeOf]
      split
      next h => exact .number h
      next => exact .null
    | string str => exact .string str
    | _ => exact .null
  | succ room ih =>
    cases v with
    | bool b => exact .bool b
    | number x =>
      rw [treeOf]
      split
      next h => exact .number h
      next => exact .null
    | string str => exact .string str
    | table a =>
      rw [treeOf, tableTree]
      split
      next =>
        refine .array fun element helement => ?_
        obtain ⟨v, -, rfl⟩ := List.mem_map.mp helement
        exact ih v
      next =>
        refine .object fun member hmember => ?_
        rcases List.mem_append.mp hmember with h | h
        · obtain ⟨entry, -, rfl⟩ := List.mem_map.mp h
          exact ih entry.2
        · obtain ⟨element, -, rfl⟩ := List.mem_map.mp h
          exact ih element.1
    | _ => exact .null

theorem encodeString_flatten (str : Bytes) : (encodeString str).flatten = stringText str := by
  unfold encodeString stringText
  rw [List.flatten_cons, List.flatten_append, List.flatMap_def]
  rfl

theorem encodeChar_digits {ds : Bytes} (h : IsDigits ds) : ds.flatMap encodeChar = ds := by
  induction ds with
  | nil => rfl
  | cons c ds ih =>
    have hc := h c List.mem_cons_self
    have hne (d : UInt8) (hd : d.toNat < 48 ∨ 57 < d.toNat) : c ≠ d := by
      rintro rfl
      omega
    have hlow : ¬ c < 32 := by
      rw [UInt8.lt_iff_toNat_lt]
      change ¬ c.toNat < 32
      omega
    have hself : encodeChar c = [c] := by
      unfold encodeChar
      rw [if_neg (hne 34 (by decide)), if_neg (hne 92 (by decide)), if_neg (hne 8 (by decide)),
        if_neg (hne 12 (by decide)), if_neg (hne 10 (by decide)), if_neg (hne 13 (by decide)),
        if_neg (hne 9 (by decide)), if_neg hlow]
    rw [List.flatMap_cons, hself, ih fun d hd => h d (List.mem_cons_of_mem c hd)]
    rfl

theorem indexKey_text (i : Nat) : 34 :: (intText (i + 1) ++ [34]) = stringText (intText (i + 1)) := by
  have hdigits : IsDigits (intText (i + 1)) := by
    unfold intText
    rw [if_neg (by omega), List.nil_append]
    exact Double.isDigits_natText _
  unfold stringText
  rw [encodeChar_digits hdigits]

theorem commas_elements (h : ∀ v, (encode v).flatten = (tree v).text) (first : Bool) (vs : List Value) :
    (commas first (vs.map encode)).flatten = elementsText first (vs.map tree) := by
  induction vs generalizing first with
  | nil => rfl
  | cons v vs ih =>
    rw [List.map_cons, List.map_cons, commas, elementsText, List.flatten_append, ih, ← h v, comma]
    cases first <;> rfl

theorem commas_members {turns : List (List Bytes)} {members : List (Bytes × Tree)}
    (h : turns.map List.flatten = members.map memberText) (first : Bool) :
    (commas first turns).flatten = membersText first members := by
  induction turns generalizing members first with
  | nil =>
    cases members with
    | nil => rfl
    | cons => cases h
  | cons turn turns ih =>
    cases members with
    | nil => cases h
    | cons member members =>
      obtain ⟨hturn, hrest⟩ := List.cons.inj h
      rw [commas, membersText, List.flatten_append, ih hrest, ← hturn, comma]
      cases first <;> rfl

theorem hasStringKeys_eq (t : Table) : hasStringKeys t = !(liveEntries t).isEmpty := by
  unfold hasStringKeys liveEntries
  induction t.entries with
  | nil => rfl
  | cons entry entries ih =>
    rw [List.any_cons, List.filterMap_cons, ih]
    by_cases hnil : entry.value = .nil
    · rw [if_pos hnil]
      simp [hnil]
    · rw [if_neg hnil]
      cases hkey : entry.key with
      | none => simp
      | some key => simp [hnil]

theorem encodeTable_flatten (h : ∀ v, (encode v).flatten = (tree v).text) (t : Table) :
    (encodeTable encode t).flatten = (tableTree tree t).text := by
  have hkeys : ¬ hasStringKeys t = true ↔ (liveEntries t).isEmpty = true := by
    rw [hasStringKeys_eq]
    cases (liveEntries t).isEmpty <;> decide
  unfold encodeTable tableTree
  dsimp only
  by_cases harray : 0 < (concatElements t).length ∧ (liveEntries t).isEmpty = true
  · rw [if_pos ⟨harray.1, hkeys.mpr harray.2⟩, if_pos harray, Tree.text, List.flatten_cons, List.flatten_append,
      commas_elements h]
    rfl
  · rw [if_neg fun hc => harray ⟨hc.1, hkeys.mp hc.2⟩, if_neg harray, Tree.text, List.flatten_cons, List.flatten_append,
      commas_members]
    · rfl
    · rw [List.map_append, List.map_append, List.map_map, List.map_map, List.map_map, List.map_map]
      congr 1
      · refine List.map_congr_left fun entry _ => ?_
        dsimp only [Function.comp_apply]
        rw [List.flatten_append, encodeString_flatten, List.flatten_cons, h entry.2, memberText]
        rfl
      · refine List.map_congr_left fun element _ => ?_
        dsimp only [Function.comp_apply]
        rw [List.flatten_cons, List.flatten_cons, h element.1, memberText, indexKey_text]
        rfl

/-- What is encoded is the text of the value's tree. -/
theorem encodeValue_flatten (tables : Nat → Table) (room : Nat) (v : Value) :
    (encodeValue tables room v).flatten = (treeOf tables room v).text := by
  have hnumber (x : Double) : ([encodeNumber x] : List Bytes).flatten = (if x.IsFinite then Tree.number x else .null).text := by
    rw [List.flatten_singleton]
    split
    next => rfl
    next h => exact if_pos h
  induction room generalizing v with
  | zero =>
    cases v with
    | number x => exact hnumber x
    | string str => exact encodeString_flatten str
    | bool b => exact List.append_nil _
    | _ => rfl
  | succ room ih =>
    cases v with
    | number x => exact hnumber x
    | string str => exact encodeString_flatten str
    | bool b => exact List.append_nil _
    | table a => exact encodeTable_flatten ih (tables a)
    | _ => rfl

end Encoded

/-- The text of a tree is decoded to a value that stands for the tree. -/
theorem jsonDecode_text (hash : Bytes → UInt32) {tree : Tree} (hf : tree.Finite) (hsize : tree.text.length < 2 ^ 30)
    (H : TableHeap) : ∃ w H', jsonDecode hash tree.text H = some (.ok (w, H')) ∧ Made hash Stands H H' tree w := by
  have htext := accepts_text hf
  rcases jsonDecode_spec hash tree.text hsize H with ⟨tree', w, H', haccepts, hresult, hmade⟩ | ⟨hnone, -⟩
  · obtain rfl := (haccepts tree).mp htext
    exact ⟨w, H', hresult, hmade⟩
  · exact absurd htext (hnone tree)

theorem jsonEncode_text (tables : Nat → Table) (v : Value) : jsonEncode tables v =
    if (treeOf tables 101 v).text.length < 2 ^ 30 then some (treeOf tables 101 v).text else none := by
  rw [jsonEncode_eq, encodeValue_flatten]

/-- What `json.decode` makes of what `json.encode` gives has the contents of the value exactly where the value
stands for the tree that is encoded, and the text fits in a buffer. -/
theorem json_round_trip_iff (hash : Bytes → UInt32) (tables : Nat → Table) (v : Value) (H : TableHeap) :
    (∃ out w H', jsonEncode tables v = some out ∧ jsonDecode hash out H = some (.ok (w, H')) ∧
        SameContents hash tables H'.tables v w) ↔
      (treeOf tables 101 v).text.length < 2 ^ 30 ∧ Stands (contentsOf hash tables) (treeOf tables 101 v) v := by
  rw [jsonEncode_text]
  constructor
  · rintro ⟨out, w', H'', hout, hdecode, hsame⟩
    split at hout
    next hsize =>
      cases hout
      obtain ⟨w, H', hresult, hmade⟩ := jsonDecode_text hash (treeOf_finite tables 101 v) hsize H
      rw [hresult] at hdecode
      cases hdecode
      exact ⟨hsize, hmade.stands.of_alike hsame⟩
    next => cases hout
  · rintro ⟨hsize, hstands⟩
    obtain ⟨w, H', hresult, hmade⟩ := jsonDecode_text hash (treeOf_finite tables 101 v) hsize H
    exact ⟨_, w, H', if_pos hsize, hresult, hstands.alike hmade.stands⟩

end Json

end ToiLang
