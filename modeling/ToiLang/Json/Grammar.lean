import ToiLang.Json.Decode
import ToiLang.Json.Tables

namespace ToiLang

namespace Json

/-! The texts that the decoder accepts, and what they stand for. -/

/-- A text without its leading blanks. -/
def blanks (s : Bytes) : Bytes := s.dropWhile isWhitespace

/-- A text starts with the characters of a string and its closing quote. -/
inductive Chars : Bytes → Bytes → Bytes → Prop
  | close (rest : Bytes) : Chars (34 :: rest) [] rest
  | plain {c : UInt8} {s chars rest : Bytes} (hquote : c ≠ 34) (hback : c ≠ 92) (h : Chars s chars rest) :
      Chars (c :: s) (c :: chars) rest
  | escape {esc : UInt8} {s chars rest : Bytes} (hu : esc ≠ 117) (h : Chars s chars rest) :
      Chars (92 :: esc :: s) (escaped esc :: chars) rest
  | codepoint {digits s chars rest : Bytes} (hdigits : digits.length = 4) (h : Chars s chars rest) :
      Chars (92 :: 117 :: (digits ++ s)) (codepointText (strtol16 digits) ++ chars) rest

/-- A text starts with blanks and a string. -/
def Quoted (s str rest : Bytes) : Prop := ∃ s', blanks s = 34 :: s' ∧ Chars s' str rest

/-- A text starts with the key of a member and its colon. -/
def Keyed (s key rest : Bytes) : Prop := ∃ s', Quoted s key s' ∧ blanks s' = 58 :: rest

/-- The number that a text starts with. -/
def numberOf (s : Bytes) : Double := (strtod (s.take (s.length - (afterNumber s).length))).1

def StartsNumber (c : UInt8) : Prop := c = 45 ∨ isDigit c = true

instance (c : UInt8) : Decidable (StartsNumber c) := inferInstanceAs (Decidable (_ ∨ _))

mutual

/-- A text starts with a tree: `Reads s tree rest`. -/
inductive Reads : Bytes → Tree → Bytes → Prop
  | string {s str rest : Bytes} (h : Quoted s str rest) : Reads s (.string str) rest
  | number {s s' : Bytes} {c : UInt8} (hs : blanks s = c :: s') (hc : StartsNumber c) :
      Reads s (.number (numberOf (c :: s'))) (afterNumber (c :: s'))
  | bool {s rest : Bytes} (b : Bool) (hs : blanks s = ascii (if b then "true" else "false") ++ rest) :
      Reads s (.bool b) rest
  | null {s rest : Bytes} (hs : blanks s = ascii "null" ++ rest) : Reads s .null rest
  | noElements {s s' rest : Bytes} (hs : blanks s = 91 :: s') (hs' : blanks s' = 93 :: rest) :
      Reads s (.array []) rest
  | array {s s' s'' rest : Bytes} {elements : List Tree} (hs : blanks s = 91 :: s')
      (h : ReadsElements s' elements s'') (hs'' : blanks s'' = 93 :: rest) : Reads s (.array elements) rest
  | noMembers {s s' rest : Bytes} (hs : blanks s = 123 :: s') (hs' : blanks s' = 125 :: rest) :
      Reads s (.object []) rest
  | object {s s' s'' rest : Bytes} {members : List (Bytes × Tree)} (hs : blanks s = 123 :: s')
      (h : ReadsMembers s' members s'') (hs'' : blanks s'' = 125 :: rest) : Reads s (.object members) rest

/-- A text starts with elements that are divided by commas. -/
inductive ReadsElements : Bytes → List Tree → Bytes → Prop
  | last {s rest : Bytes} {element : Tree} (h : Reads s element rest) : ReadsElements s [element] rest
  | more {s s' s'' rest : Bytes} {element : Tree} {elements : List Tree} (h : Reads s element s')
      (hs' : blanks s' = 44 :: s'') (hmore : ReadsElements s'' elements rest) :
      ReadsElements s (element :: elements) rest

/-- A text starts with members that are divided by commas. -/
inductive ReadsMembers : Bytes → List (Bytes × Tree) → Bytes → Prop
  | last {s s₁ key rest : Bytes} {element : Tree} (hkey : Keyed s key s₁) (h : Reads s₁ element rest) :
      ReadsMembers s [(key, element)] rest
  | more {s s₁ s' s'' key rest : Bytes} {element : Tree} {members : List (Bytes × Tree)} (hkey : Keyed s key s₁)
      (h : Reads s₁ element s') (hs' : blanks s' = 44 :: s'') (hmore : ReadsMembers s'' members rest) :
      ReadsMembers s ((key, element) :: members) rest

end

/-- A text is one of the tree, with blanks around it. -/
def Accepts (s : Bytes) (tree : Tree) : Prop := ∃ rest, Reads s tree rest ∧ blanks rest = []

section Shape

variable {s s' str rest : Bytes} {tree : Tree} {c : UInt8}

/-- What a text may be behind its first character. -/
def Shape (c : UInt8) (s : Bytes) (tree : Tree) (rest : Bytes) : Prop :=
  if c = 34 then ∃ str, tree = .string str ∧ Chars s str rest
  else if c = 123 then
    tree = .object [] ∧ blanks s = 125 :: rest ∨
      ∃ members s', tree = .object members ∧ ReadsMembers s members s' ∧ blanks s' = 125 :: rest
  else if c = 91 then
    tree = .array [] ∧ blanks s = 93 :: rest ∨
      ∃ elements s', tree = .array elements ∧ ReadsElements s elements s' ∧ blanks s' = 93 :: rest
  else if StartsNumber c then tree = .number (numberOf (c :: s)) ∧ rest = afterNumber (c :: s)
  else
    (∃ b, tree = .bool b ∧ c :: s = ascii (if b then "true" else "false") ++ rest) ∨
      tree = .null ∧ c :: s = ascii "null" ++ rest

theorem shape_number (hc : StartsNumber c) :
    Shape c s tree rest ↔ tree = .number (numberOf (c :: s)) ∧ rest = afterNumber (c :: s) := by
  have hother (d : UInt8) (hd : ¬ StartsNumber d) : c ≠ d := by
    rintro rfl
    exact hd hc
  rw [Shape, if_neg (hother 34 (by decide)), if_neg (hother 123 (by decide)), if_neg (hother 91 (by decide)),
    if_pos hc]

theorem shape_other (h34 : c ≠ 34) (h123 : c ≠ 123) (h91 : c ≠ 91) (hnumber : ¬ StartsNumber c) :
    Shape c s tree rest ↔ (∃ b, tree = .bool b ∧ c :: s = ascii (if b then "true" else "false") ++ rest) ∨
      tree = .null ∧ c :: s = ascii "null" ++ rest := by
  rw [Shape, if_neg h34, if_neg h123, if_neg h91, if_neg hnumber]

theorem shape_word (hc : c = 116 ∨ c = 102 ∨ c = 110) : Shape c s tree rest ↔
    (∃ b, tree = .bool b ∧ c :: s = ascii (if b then "true" else "false") ++ rest) ∨
      tree = .null ∧ c :: s = ascii "null" ++ rest := by
  have hother (d : UInt8) (hd : 116 ≠ d ∧ 102 ≠ d ∧ 110 ≠ d) : c ≠ d := by
    rcases hc with rfl | rfl | rfl
    · exact hd.1
    · exact hd.2.1
    · exact hd.2.2
  have hnumber : ¬ StartsNumber c := by
    rcases hc with rfl | rfl | rfl <;> decide
  exact shape_other (hother 34 (by decide)) (hother 123 (by decide)) (hother 91 (by decide)) hnumber

theorem reads_iff : Reads s tree rest ↔ ∃ c s', blanks s = c :: s' ∧ Shape c s' tree rest := by
  constructor
  · intro h
    cases h with
    | string h =>
      obtain ⟨s', hs, h⟩ := h
      exact ⟨34, s', hs, _, rfl, h⟩
    | number hs hc => exact ⟨_, _, hs, (shape_number hc).mpr ⟨rfl, rfl⟩⟩
    | bool b hs =>
      cases b with
      | false => exact ⟨102, ascii "alse" ++ rest, hs, (shape_word (.inr (.inl rfl))).mpr (.inl ⟨false, rfl, rfl⟩)⟩
      | true => exact ⟨116, ascii "rue" ++ rest, hs, (shape_word (.inl rfl)).mpr (.inl ⟨true, rfl, rfl⟩)⟩
    | null hs => exact ⟨110, ascii "ull" ++ rest, hs, (shape_word (.inr (.inr rfl))).mpr (.inr ⟨rfl, rfl⟩)⟩
    | noElements hs hs' => exact ⟨91, _, hs, .inl ⟨rfl, hs'⟩⟩
    | array hs h hs'' => exact ⟨91, _, hs, .inr ⟨_, _, rfl, h, hs''⟩⟩
    | noMembers hs hs' => exact ⟨123, _, hs, .inl ⟨rfl, hs'⟩⟩
    | object hs h hs'' => exact ⟨123, _, hs, .inr ⟨_, _, rfl, h, hs''⟩⟩
  · rintro ⟨c, s', hs, h⟩
    unfold Shape at h
    split at h
    next hc =>
      obtain ⟨str, rfl, h⟩ := h
      rw [hc] at hs
      exact .string ⟨s', hs, h⟩
    split at h
    next hc =>
      rw [hc] at hs
      rcases h with ⟨rfl, hrest⟩ | ⟨members, s'', rfl, hmembers, hrest⟩
      · exact .noMembers hs hrest
      · exact .object hs hmembers hrest
    split at h
    next hc =>
      rw [hc] at hs
      rcases h with ⟨rfl, hrest⟩ | ⟨elements, s'', rfl, helements, hrest⟩
      · exact .noElements hs hrest
      · exact .array hs helements hrest
    split at h
    next hc =>
      obtain ⟨rfl, rfl⟩ := h
      exact .number hs hc
    next =>
      rcases h with ⟨b, rfl, hrest⟩ | ⟨rfl, hrest⟩
      · exact .bool b (hs.trans hrest)
      · exact .null (hs.trans hrest)

end Shape

end Json

end ToiLang
