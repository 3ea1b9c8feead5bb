import ToiLang.Database.Keys
import ToiLang.Http.Build
import ToiLang.Slice

namespace ToiLang.Strings

/-! The functions on strings that compute the size of a buffer in one pass and fill it in a second. -/

/-- A string that is made in two passes: the `int` of the first pass, the `int` that is given to
`malloc`, and the bytes that the second pass writes in front of the NUL. -/
structure Buffer where
  size : Int
  allocated : Int
  text : Bytes
  deriving DecidableEq

/-- The sizes are those of the text and its NUL. -/
structure Buffer.Exact (b : Buffer) : Prop where
  size : b.size = b.text.length
  room : b.text.length < b.allocated

/-- `copy_string` of an empty text. -/
def Buffer.empty : Buffer := ⟨0, 1, []⟩

/-- `string.rep` of a number that is `n` as an `int`. -/
def stringRep (s : Bytes) (n : Int) : Buffer :=
  if n ≤ 0 then .empty
  else
    let newLen := wrap (s.length * n)
    ⟨newLen, wrap (newLen + 1), (List.replicate n.toNat s).flatten⟩

section Elements

/-- What a loop over `i`, `i + 1`, … meets before it stops. -/
def elementsFrom (get : Int → Option Value) : Nat → Int → List Value
  | 0, _ => []
  | fuel + 1, i =>
    match get i with
    | none => []
    | some val => val :: elementsFrom get fuel (i + 1)

/-- The elements that the loops of `string.join` meet, in the array part or the hash part. -/
def joinElements (hash : Bytes → UInt32) (t : Table) : List Value :=
  elementsFrom (sliceElement hash t) (t.arrayCapacity + t.capacity) 1

/-- The elements that the loops of `table.concat` meet. -/
def concatElements (t : Table) : List Value := elementsFrom (tableGetArray t) t.arrayCapacity 1

/-- `%g` -/
def formatG (x : Double) : Bytes :=
  (if x.negative then [45] else []) ++
    if x.isNaN then [110, 97, 110]
    else if x.exponent = 2047 then [105, 110, 102]
    else x.magnitudeDigits 6

/-- The text of an element in `string.join`. -/
def joinText (C : Conversions) : Value → Option Bytes
  | .string s => some s
  | .number num =>
    some (if Double.eq num (.ofInt64 (C.int num)) then Http.intText (C.int num) else formatG num)
  | _ => none

/-- The text of an element in `table.concat`. -/
def concatText : Value → Option Bytes
  | .string s => some s
  | _ => none

/-- The `int` that the first pass sums up: the lengths, and the separators between them. -/
def joinedSize (sep : Bytes) (texts : List Bytes) : Int :=
  wrap (texts.foldl (fun totalLen s => wrap (totalLen + s.length)) 0 +
    wrap (sep.length * (texts.length - 1)))

/-- The second pass of `string.join`: a separator in front of each text but the first. -/
def joinWrite (sep : Bytes) (texts : List Bytes) : Bytes :=
  (texts.foldl (fun (acc : Bytes × Bool) s => (acc.1 ++ (if acc.2 then [] else sep) ++ s, false)) ([], true)).1

/-- The second pass of `table.concat`: a separator behind each text but the last. -/
def concatWrite (sep : Bytes) : List Bytes → Bytes
  | [] => []
  | [s] => s
  | s :: texts => s ++ sep ++ concatWrite sep texts

def joinBuffer (write : Bytes → List Bytes → Bytes) (sep : Bytes) (texts : List Bytes) : Buffer :=
  if texts = [] then .empty
  else ⟨joinedSize sep texts, wrap (joinedSize sep texts + 1), write sep texts⟩

def stringJoin (C : Conversions) (hash : Bytes → UInt32) (sep : Bytes) (list : Table) : Except String Buffer :=
  match (joinElements hash list).mapM (joinText C) with
  | none => .error "string.join: list contains non-string/number element"
  | some texts => .ok (joinBuffer joinWrite sep texts)

/-- `table.concat`; the error names the first element that is no string. -/
def tableConcat (t : Table) (sep : Bytes) : Except String Buffer :=
  match (concatElements t).mapM concatText with
  | none =>
    let i := ((concatElements t).takeWhile fun v => (concatText v).isSome).length + 1
    .error ("table.concat: element " ++ toString i ++ " is not a string")
  | some texts => .ok (joinBuffer concatWrite sep texts)

end Elements

/-- A character in `string.escape_html`. -/
def escapeChar (c : UInt8) : Bytes :=
  if c = 38 then ascii "&amp;"
  else if c = 60 then ascii "&lt;"
  else if c = 62 then ascii "&gt;"
  else if c = 34 then ascii "&quot;"
  else if c = 39 then ascii "&#39;"
  else [c]

/-- What the first pass adds for a character. -/
def escapedLength (c : UInt8) : Int :=
  if c = 38 then 5 else if c = 60 then 4 else if c = 62 then 4 else if c = 34 then 6
  else if c = 39 then 5 else 1

/-- `string.escape_html`; `malloc` gives nothing for a size that is negative as an `int`. -/
def stringEscapeHtml (s : Bytes) : Except String Buffer :=
  let outLen := s.foldl (fun outLen c => wrap (outLen + escapedLength c)) 0
  if outLen = s.length then .ok ⟨outLen, s.length + 1, s⟩
  else if outLen < 0 then .error "string.escape_html(): out of memory."
  else .ok ⟨outLen, outLen + 1, s.flatMap escapeChar⟩

/-- `concatenate_local` -/
def concatenateLocal (a b : Bytes) : Buffer :=
  let length := wrap (a.length + b.length)
  ⟨length, length + 1, a ++ b⟩

/-! ## What is claimed of them -/

/-- The buffer has the size of the text and holds it, or an error is raised. -/
def Sized (r : Except String Buffer) (text : Bytes) : Prop :=
  ∀ b, r = .ok b → b.Exact ∧ b.text = text

/-- The arguments of the five functions. -/
structure Arguments where
  repeated : Bytes
  times : Int
  joinSep : Bytes
  joined : Table
  escaped : Bytes
  left : Bytes
  right : Bytes
  concatSep : Bytes
  concatenated : Table

/-- The texts of the elements of a list, if all have one. -/
def joinTexts (C : Conversions) (hash : Bytes → UInt32) (t : Table) : Option (List Bytes) :=
  (joinElements hash t).mapM (joinText C)

def concatTexts (t : Table) : Option (List Bytes) := (concatElements t).mapM concatText

/-- Each of the functions makes its text in a buffer of the right size, or raises an error. -/
structure TwoPass (C : Conversions) (hash : Bytes → UInt32) (x : Arguments) : Prop where
  rep : (stringRep x.repeated x.times).Exact
  rep_length : (stringRep x.repeated x.times).size = x.repeated.length * x.times.toNat
  join : Sized (stringJoin C hash x.joinSep x.joined)
    (x.joinSep.intercalate ((joinTexts C hash x.joined).getD []))
  escape : Sized (stringEscapeHtml x.escaped) (x.escaped.flatMap escapeChar)
  concatenation : (concatenateLocal x.left x.right).Exact
  concat : Sized (tableConcat x.concatenated x.concatSep)
    (x.concatSep.intercalate ((concatTexts x.concatenated).getD []))

/-- The texts are no longer than the `int`s of the functions can say. -/
structure Fits (C : Conversions) (hash : Bytes → UInt32) (x : Arguments) : Prop where
  rep : x.repeated.length * x.times.toNat ≤ Struct.maxLength
  join : ∀ texts ∈ joinTexts C hash x.joined, (x.joinSep.intercalate texts).length ≤ Struct.maxLength
  escape : (x.escaped.flatMap escapeChar).length % 2 ^ 32 < 2 ^ 31 →
    (x.escaped.flatMap escapeChar).length < 2 ^ 31
  concatenation : x.left.length + x.right.length < 2 ^ 31
  concat : ∀ texts ∈ concatTexts x.concatenated,
    (x.concatSep.intercalate texts).length ≤ Struct.maxLength

section Sums

variable {α : Type} {f : α → Int} {v n : Int}

/-- A sum whose parts wrap is the whole sum, wrapped. -/
theorem foldl_wrap (l : List α) (hv : wrap v = v) :
    l.foldl (fun t x => wrap (t + f x)) v = wrap (v + (l.map f).sum) := by
  induction l generalizing v with
  | nil => simp [hv]
  | cons x l ih =>
    have hadd := wrap_mul_add (v + f x) 1 (l.map f).sum
    rw [Int.mul_one, Int.mul_one] at hadd
    rw [List.foldl_cons, ih (wrap_wrap _), hadd, List.map_cons, List.sum_cons, Int.add_assoc]

theorem wrap_add_wrap (a b : Int) : wrap (wrap a + wrap b) = wrap (a + b) := by
  unfold wrap
  exact (Int.add_bmod ..).symm

/-- The size, and the size with one byte more, are right for a text just up to the largest length. -/
theorem exact_iff {text : Bytes} :
    (⟨wrap text.length, wrap (wrap text.length + 1), text⟩ : Buffer).Exact ↔
      text.length ≤ Struct.maxLength := by
  have hsize := wrap_eq_iff (Int.natCast_nonneg text.length)
  constructor
  · intro ⟨hs, hroom⟩
    dsimp only at hs hroom
    have hlt := hsize.mp hs
    rw [hs] at hroom
    by_contra hmax
    have heq : (text.length : Int) + 1 = 2 ^ 31 := by
      unfold Struct.maxLength at hmax
      omega
    rw [heq] at hroom
    have hneg : wrap (2 ^ 31) = -2 ^ 31 := by decide
    omega
  · intro hmax
    unfold Struct.maxLength at hmax
    have hs := hsize.mpr (by omega)
    have hnext := (wrap_eq_iff (n := text.length + 1) (by omega)).mpr (by omega)
    constructor
    · dsimp only
      exact hs
    · dsimp only
      rw [hs, hnext]
      omega

end Sums

section Texts

variable {sep : Bytes} {texts : List Bytes}

theorem joinWrite_eq (sep : Bytes) (texts : List Bytes) : joinWrite sep texts = sep.intercalate texts := by
  have hbehind : ∀ (texts : List Bytes) (buffer : Bytes),
      (texts.foldl (fun (acc : Bytes × Bool) s => (acc.1 ++ (if acc.2 then [] else sep) ++ s, false))
        (buffer, false)).1 = buffer ++ texts.flatMap fun s => sep ++ s := by
    intro texts
    induction texts with
    | nil => simp
    | cons s texts ih =>
      intro buffer
      rw [List.foldl_cons, ih]
      simp
  have hcons : ∀ (texts : List Bytes) (s : Bytes),
      sep.intercalate (s :: texts) = s ++ texts.flatMap fun s => sep ++ s := by
    intro texts
    induction texts with
    | nil => simp
    | cons t texts ih =>
      intro s
      rw [List.intercalate_cons_cons, ih]
      simp
  cases texts with
  | nil => rfl
  | cons s texts =>
    rw [joinWrite, List.foldl_cons, hbehind, hcons]
    rfl

theorem concatWrite_eq (sep : Bytes) (texts : List Bytes) : concatWrite sep texts = sep.intercalate texts := by
  fun_induction concatWrite sep texts with
  | case1 => rfl
  | case2 s => simp
  | case3 s texts hne ih =>
    rw [ih, List.intercalate_cons_of_ne_nil hne]

theorem intercalate_length (h : texts ≠ []) :
    ((sep.intercalate texts).length : Int) =
      (texts.map fun s => (s.length : Int)).sum + sep.length * (texts.length - 1) := by
  induction texts with
  | nil => exact absurd rfl h
  | cons s texts ih =>
    cases texts with
    | nil => simp
    | cons t texts =>
      have htail := ih (by simp)
      rw [List.intercalate_cons_cons, List.length_append, List.length_append, List.map_cons, List.sum_cons,
        List.length_cons]
      push_cast
      rw [htail, List.length_cons]
      push_cast
      ring

theorem wrap_zero : wrap 0 = 0 := rfl

theorem joinedSize_eq (h : texts ≠ []) : joinedSize sep texts = wrap (sep.intercalate texts).length := by
  have hsum := foldl_wrap (f := fun s : Bytes => (s.length : Int)) texts wrap_zero
  rw [joinedSize, hsum, Int.zero_add, wrap_add_wrap, intercalate_length h]

/-- A buffer of joined texts is right just where the whole text is no longer than a string. -/
theorem joinBuffer_exact {write : Bytes → List Bytes → Bytes} (hw : write sep texts = sep.intercalate texts) :
    (joinBuffer write sep texts).text = sep.intercalate texts ∧
      ((joinBuffer write sep texts).Exact ↔ (sep.intercalate texts).length ≤ Struct.maxLength) := by
  unfold joinBuffer
  split_ifs with h
  · subst h
    exact ⟨rfl, iff_of_true ⟨rfl, by decide⟩ (Nat.zero_le _)⟩
  · rw [joinedSize_eq h, hw]
    exact ⟨rfl, exact_iff⟩

/-- The joining functions, as one: the elements are read, and their texts joined if all have one. -/
theorem joined_sized {r : Except String Buffer} {texts : Option (List Bytes)}
    {write : Bytes → List Bytes → Bytes} (hw : ∀ texts, write sep texts = sep.intercalate texts)
    (hnone : texts = none → ∃ message, r = .error message)
    (hsome : ∀ l, texts = some l → r = .ok (joinBuffer write sep l)) :
    Sized r (sep.intercalate (texts.getD [])) ↔
      ∀ l ∈ texts, (sep.intercalate l).length ≤ Struct.maxLength := by
  cases texts with
  | none =>
    obtain ⟨message, rfl⟩ := hnone rfl
    exact iff_of_true (fun b hb => nomatch hb) fun l hl => nomatch hl
  | some l =>
    obtain ⟨htext, hexact⟩ := joinBuffer_exact (hw l)
    rw [hsome l rfl]
    constructor
    · intro h l' hl
      obtain rfl := Option.some.inj hl
      exact hexact.mp (h _ rfl).1
    · intro h b hb
      obtain rfl := Except.ok.inj hb
      exact ⟨hexact.mpr (h l rfl), htext⟩

theorem stringJoin_sized {C : Conversions} {hash : Bytes → UInt32} {list : Table} :
    Sized (stringJoin C hash sep list) (sep.intercalate ((joinTexts C hash list).getD [])) ↔
      ∀ texts ∈ joinTexts C hash list, (sep.intercalate texts).length ≤ Struct.maxLength := by
  refine joined_sized (joinWrite_eq sep) (fun h => ?_) fun l h => ?_
  · exact ⟨_, by rw [stringJoin, show (joinElements hash list).mapM (joinText C) = none from h]⟩
  · rw [stringJoin, show (joinElements hash list).mapM (joinText C) = some l from h]

theorem tableConcat_sized {t : Table} :
    Sized (tableConcat t sep) (sep.intercalate ((concatTexts t).getD [])) ↔
      ∀ texts ∈ concatTexts t, (sep.intercalate texts).length ≤ Struct.maxLength := by
  refine joined_sized (concatWrite_eq sep) (fun h => ?_) fun l h => ?_
  · exact ⟨_, by rw [tableConcat, show (concatElements t).mapM concatText = none from h]⟩
  · rw [tableConcat, show (concatElements t).mapM concatText = some l from h]

end Texts

section Others

variable {s : Bytes} {n : Int}

theorem stringRep_exact :
    (stringRep s n).Exact ∧ (stringRep s n).size = s.length * n.toNat ↔
      s.length * n.toNat ≤ Struct.maxLength := by
  unfold stringRep
  split_ifs with hn
  · have h0 : n.toNat = 0 := by omega
    rw [h0]
    exact iff_of_true ⟨⟨rfl, by decide⟩, by simp [Buffer.empty]⟩ (by simp)
  · have hnat : (List.replicate n.toNat s).flatten.length = s.length * n.toNat := by
      simp [Nat.mul_comm]
    have hlen : ((List.replicate n.toNat s).flatten.length : Int) = s.length * n := by
      rw [hnat]
      push_cast
      rw [Int.toNat_of_nonneg (by omega)]
    dsimp only
    rw [← hlen, exact_iff, ← hnat]
    refine and_iff_left_of_imp fun h => ?_
    have hsize := wrap_eq_iff (Int.natCast_nonneg (List.replicate n.toNat s).flatten.length)
    unfold Struct.maxLength at h
    rw [hsize.mpr (by omega), hnat]
    push_cast
    rfl

theorem escapedLength_eq (c : UInt8) : escapedLength c = (escapeChar c).length := by
  unfold escapedLength escapeChar
  split_ifs <;> rfl

theorem escape_size (s : Bytes) :
    s.foldl (fun outLen c => wrap (outLen + escapedLength c)) 0 = wrap (s.flatMap escapeChar).length := by
  rw [foldl_wrap s wrap_zero, Int.zero_add]
  congr 1
  induction s with
  | nil => rfl
  | cons c s ih =>
    rw [List.map_cons, List.sum_cons, ih, List.flatMap_cons, List.length_append, escapedLength_eq]
    push_cast
    rfl

theorem escapeChar_length (c : UInt8) :
    1 ≤ (escapeChar c).length ∧ ((escapeChar c).length = 1 → escapeChar c = [c]) := by
  unfold escapeChar
  split_ifs
  all_goals simp [ascii]

theorem escape_length_le (s : Bytes) : s.length ≤ (s.flatMap escapeChar).length := by
  induction s with
  | nil => exact Nat.le_refl _
  | cons c s ih =>
    have hpos := (escapeChar_length c).1
    rw [List.flatMap_cons, List.length_append, List.length_cons]
    omega

/-- A text that does not get longer holds nothing to escape. -/
theorem escape_eq_self (s : Bytes) (h : (s.flatMap escapeChar).length = s.length) :
    s.flatMap escapeChar = s := by
  induction s with
  | nil => rfl
  | cons c s ih =>
    have hle := escape_length_le s
    rw [List.flatMap_cons, List.length_append, List.length_cons] at h
    obtain ⟨hpos, hone⟩ := escapeChar_length c
    have hc : escapeChar c = [c] := hone (by omega)
    rw [hc, List.length_singleton] at h
    rw [List.flatMap_cons, hc, ih (by omega)]
    rfl

/-- The residue that a wrapped size has. -/
theorem wrap_nonneg_iff (n : Nat) : 0 ≤ wrap n ↔ n % 2 ^ 32 < 2 ^ 31 := by
  unfold wrap
  rw [Int.bmod_def]
  constructor <;> intro h <;> split_ifs at * <;> omega

theorem wrap_lt (n : Int) : wrap n < 2 ^ 31 := Int.bmod_lt (by decide)

/-- A size that wraps below zero is no size that `malloc` gives, so an error is raised. -/
theorem stringEscapeHtml_sized :
    Sized (stringEscapeHtml s) (s.flatMap escapeChar) ↔
      ((s.flatMap escapeChar).length % 2 ^ 32 < 2 ^ 31 → (s.flatMap escapeChar).length < 2 ^ 31) := by
  have hsize := wrap_eq_iff (Int.natCast_nonneg (s.flatMap escapeChar).length)
  have hsign := wrap_nonneg_iff (s.flatMap escapeChar).length
  have hlt := wrap_lt (s.flatMap escapeChar).length
  unfold stringEscapeHtml
  dsimp only
  rw [escape_size]
  generalize wrap (s.flatMap escapeChar).length = size at hsize hsign hlt
  split_ifs with hsame hneg
  · constructor
    · intro h _
      have htext := congrArg List.length (h _ rfl).2
      dsimp only at htext
      omega
    · intro h b hb
      have hfits := h (hsign.mp (by omega))
      have hself := escape_eq_self s (by omega)
      obtain rfl := Except.ok.inj hb
      exact ⟨⟨hsame, Int.lt_succ _⟩, hself.symm⟩
  · exact iff_of_true (fun b hb => nomatch hb) fun hpos => absurd (hsign.mpr hpos) (by omega)
  · constructor
    · intro h _
      have hexact := (h _ rfl).1.size
      dsimp only at hexact
      omega
    · intro h b hb
      have hfits := h (hsign.mp (by omega))
      have heq := hsize.mpr (by omega)
      obtain rfl := Except.ok.inj hb
      refine ⟨⟨heq, ?_⟩, rfl⟩
      dsimp only
      omega

theorem concatenateLocal_exact {a b : Bytes} :
    (concatenateLocal a b).Exact ↔ a.length + b.length < 2 ^ 31 := by
  have hsize := wrap_eq_iff (Int.natCast_nonneg (a ++ b).length)
  rw [List.length_append] at hsize
  push_cast at hsize
  constructor
  · intro h
    have hs := h.size
    simp only [concatenateLocal, List.length_append] at hs
    push_cast at hs
    omega
  · intro h
    have heq := hsize.mpr (by omega)
    constructor
    · simp only [concatenateLocal, List.length_append]
      push_cast
      exact heq
    · simp only [concatenateLocal, List.length_append]
      push_cast
      omega

end Others

def longRepeat : Arguments :=
  ⟨List.replicate 65536 97, 65536, [], initTable, [], [], [], [], initTable⟩

theorem longRepeat_length : longRepeat.repeated.length = 65536 := List.length_replicate ..

end ToiLang.Strings
