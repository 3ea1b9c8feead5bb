import ToiLang.Http.Split
import ToiLang.Pigment

namespace ToiLang

namespace Cli

open Http (strstr)
open Pigment (made)
open Strings (joinBuffer concatWrite joinWrite)

/-! The markup of `cli.toi`: names of styles between brackets become escape sequences of the terminal. -/

/-- `ESC + "[…m"` -/
def sequenceOf (parameters : String) : Bytes := 27 :: ascii ("[" ++ parameters ++ "m")

def ANSI : List (Bytes × Bytes) :=
  [(ascii "reset", sequenceOf "0"), (ascii "black", sequenceOf "30"), (ascii "red", sequenceOf "31"),
    (ascii "green", sequenceOf "32"), (ascii "yellow", sequenceOf "33"), (ascii "blue", sequenceOf "34"),
    (ascii "magenta", sequenceOf "35"), (ascii "cyan", sequenceOf "36"), (ascii "white", sequenceOf "37"),
    (ascii "bold", sequenceOf "1"), (ascii "dim", sequenceOf "2"), (ascii "underline", sequenceOf "4")]

def reset : Bytes := sequenceOf "0"

/-- The separators of a tag: a plus sign, a comma, a bar or a blank. -/
def isSeparator (ch : UInt8) : Bool := ch = 43 || ch = 44 || ch = 124 || ch = 32

/-- The loop of `_tag_code`, with `token` and `codes`. -/
def tagLoop : Bytes → Bytes → List Bytes → Option (List Bytes)
  | [], token, codes => if token ≠ [] then (ANSI.lookup token).map fun code => codes ++ [code] else some codes
  | ch :: tag, token, codes =>
    if isSeparator ch then
      if token ≠ [] then
        match ANSI.lookup token with
        | none => none
        | some code => tagLoop tag [] (codes ++ [code])
      else tagLoop tag token codes
    else tagLoop tag (token ++ [ch]) codes

/-- The codes that `_tag_code` concatenates, unless the tag is not recognised. -/
def tagCodes (tag : Bytes) : Option (List Bytes) :=
  if tag = ascii "/" ∨ tag = ascii "reset" then some [reset]
  else
    match tagLoop tag [] [] with
    | none => none
    | some codes => if codes.length = 0 then none else some codes

/-- The codes of a tag that starts a text, and the length of the tag in front of its bracket. -/
def tagAt (rest : Bytes) : Option (List Bytes × Nat) :=
  match strstr rest [93] with
  | none => none
  | some k => (tagCodes (rest.take k)).map fun codes => (codes, k)

/-- What is appended to `out` at once: a byte, or the codes of a tag. -/
inductive Piece
  | byte (c : UInt8)
  | tag (codes : List Bytes)

def Piece.isTag : Piece → Bool
  | .byte _ => false
  | .tag _ => true

/-- The loop of `_format` over the text from `i` on; `skip` bytes of it are passed by. -/
def scan : Nat → Bytes → List Piece
  | _, [] => []
  | skip + 1, _ :: rest => scan skip rest
  | 0, c :: rest =>
    if c = 91 then
      -- Behind an escaped bracket the text is searched for a tag as well.
      if rest.head? = some 91 then
        match tagAt rest.tail with
        | some (codes, k) => .byte 91 :: .tag codes :: scan (k + 2) rest
        | none => .byte 91 :: scan 1 rest
      else
        match tagAt rest with
        | some (codes, k) => .tag codes :: scan (k + 1) rest
        | none => .byte c :: scan 0 rest
    else .byte c :: scan 0 rest

def Piece.text : Piece → Option Bytes
  | .byte c => some [c]
  | .tag codes => made (joinBuffer concatWrite [] codes)

/-- `_format`, of what `str` makes of its argument. -/
def format (text : Bytes) : Option Bytes :=
  let pieces := scan 0 text
  (pieces.mapM Piece.text).bind fun out =>
    made (joinBuffer joinWrite [] (if pieces.any Piece.isTag then out ++ [reset] else out))

/-! ### Markup texts -/

/-- A text with every opening bracket doubled. -/
def escape (s : Bytes) : Bytes := s.flatMap fun c => if c = 91 then [91, 91] else [c]

/-- The pieces of a markup text, where a doubled bracket stands for itself and starts no tag. -/
def parse : Nat → Bytes → List Piece
  | _, [] => []
  | skip + 1, _ :: rest => parse skip rest
  | 0, c :: rest =>
    if c = 91 then
      if rest.head? = some 91 then .byte 91 :: parse 1 rest
      else
        match tagAt rest with
        | some (codes, k) => .tag codes :: parse (k + 1) rest
        | none => .byte 91 :: parse 0 rest
    else .byte c :: parse 0 rest

def Piece.plain : Piece → Bytes
  | .byte c => [c]
  | .tag _ => []

def Piece.styled : Piece → Bytes
  | .byte c => [c]
  | .tag codes => codes.flatten

/-- The bytes of the pieces that are no tags. -/
def plain (pieces : List Piece) : Bytes := pieces.flatMap Piece.plain

/-- The bytes of the pieces, the tags as the codes that they stand for. -/
def styled (pieces : List Piece) : Bytes := pieces.flatMap Piece.styled

/-- The output of the pieces: what is styled is reset at its end. -/
def rendered (pieces : List Piece) : Bytes :=
  styled pieces ++ if pieces.any Piece.isTag then reset else []

/-- No doubled bracket stands directly in front of the text of a tag. -/
def clean : Nat → Bytes → Bool
  | _, [] => true
  | skip + 1, _ :: rest => clean skip rest
  | 0, c :: rest =>
    if c = 91 then
      if rest.head? = some 91 then (tagAt rest.tail).isNone && clean 1 rest
      else
        match tagAt rest with
        | some (_, k) => clean (k + 1) rest
        | none => clean 0 rest
    else clean 0 rest

/-- The length of the escape sequence that an escape character starts, behind it. -/
def sequenceLength : Bytes → Option Nat
  | [] => none
  | c :: s =>
    let parameters := s.takeWhile fun c => (48 ≤ c && c ≤ 57) || c = 59
    if c = 91 ∧ (s.drop parameters.length).head? = some 109 then some (parameters.length + 2) else none

/-- A text without the escape sequences that set styles. -/
def stripAnsi : Nat → Bytes → Bytes
  | _, [] => []
  | skip + 1, _ :: rest => stripAnsi skip rest
  | 0, c :: rest =>
    match (if c = 27 then sequenceLength rest else none) with
    | some k => stripAnsi k rest
    | none => c :: stripAnsi 0 rest

/-- The bytes in front of the first tag. -/
def leading : List Piece → Bytes
  | .byte c :: pieces => c :: leading pieces
  | _ => []

/-- No piece of the text between tags has an escape sequence. -/
def quiet : List Piece → Bool
  | [] => true
  | .byte c :: pieces => (c ≠ 27 || (sequenceLength (leading pieces)).isNone) && quiet pieces
  | .tag _ :: pieces => quiet pieces

section

variable {s t : Bytes} {pieces : List Piece}

/-! Passing bytes by. -/

theorem scan_skip (k : Nat) (s : Bytes) : scan k s = scan 0 (s.drop k) := by
  induction s generalizing k with
  | nil =>
    rw [List.drop_nil]
    cases k <;> rfl
  | cons c s ih =>
    cases k with
    | zero => rfl
    | succ k => exact ih k

theorem parse_skip (k : Nat) (s : Bytes) : parse k s = parse 0 (s.drop k) := by
  induction s generalizing k with
  | nil =>
    rw [List.drop_nil]
    cases k <;> rfl
  | cons c s ih =>
    cases k with
    | zero => rfl
    | succ k => exact ih k

theorem clean_skip (k : Nat) (s : Bytes) : clean k s = clean 0 (s.drop k) := by
  induction s generalizing k with
  | nil =>
    rw [List.drop_nil]
    cases k <;> rfl
  | cons c s ih =>
    cases k with
    | zero => rfl
    | succ k => exact ih k

theorem stripAnsi_skip (k : Nat) (s : Bytes) : stripAnsi k s = stripAnsi 0 (s.drop k) := by
  induction s generalizing k with
  | nil =>
    rw [List.drop_nil]
    cases k <;> rfl
  | cons c s ih =>
    cases k with
    | zero => rfl
    | succ k => exact ih k

/-! Tags. -/

/-- The letters, the separators and the slash. -/
def isTagByte (c : UInt8) : Bool := (97 ≤ c && c ≤ 122) || isSeparator c || c = 47

/-- A code is an escape sequence, whatever stands behind it. -/
def IsSequence (code : Bytes) : Prop :=
  ∃ b, code = 27 :: b ∧ ∀ s, sequenceLength (b ++ s) = some b.length

theorem isSequence_of (parameters : Bytes) (h : (parameters.all fun c => (48 ≤ c && c ≤ 57) || c = 59) = true) :
    IsSequence (27 :: 91 :: parameters ++ [109]) := by
  refine ⟨91 :: parameters ++ [109], rfl, fun s => ?_⟩
  have htake : (parameters ++ 109 :: s).takeWhile (fun c => (48 ≤ c && c ≤ 57) || c = 59) = parameters := by
    rw [List.takeWhile_append_of_pos (by simpa using h)]
    rw [List.takeWhile_cons_of_neg (by decide), List.append_nil]
  have happend : 91 :: parameters ++ [109] ++ s = 91 :: (parameters ++ 109 :: s) := by simp
  rw [happend]
  unfold sequenceLength
  dsimp only
  rw [htake, List.drop_left, if_pos ⟨rfl, rfl⟩]
  simp

theorem lookup_spec {token code : Bytes} (h : ANSI.lookup token = some code) :
    (∀ c ∈ token, isTagByte c = true) ∧ IsSequence code := by
  have hmem : (token, code) ∈ ANSI := by
    obtain ⟨l₁, l₂, heq, -⟩ := List.lookup_eq_some_iff.mp h
    rw [heq]
    simp
  have hletters : (ANSI.all fun p => p.1.all isTagByte) = true := rfl
  have hcodes : ∀ p ∈ ANSI, p.2 = 27 :: 91 :: (p.2.drop 2).dropLast ++ [109] ∧
      (((p.2.drop 2).dropLast).all fun c => (48 ≤ c && c ≤ 57) || c = 59) = true := by decide
  obtain ⟨heq, hdigits⟩ := hcodes _ hmem
  refine ⟨List.all_eq_true.mp (List.all_eq_true.mp hletters _ hmem), ?_⟩
  have hseq := isSequence_of _ hdigits
  rwa [← heq] at hseq

theorem reset_isSequence : IsSequence reset := isSequence_of (ascii "0") (by decide)

theorem tagLoop_spec {tag token : Bytes} {codes found : List Bytes} (h : tagLoop tag token codes = some found)
    (hcodes : ∀ code ∈ codes, IsSequence code) :
    (∀ c ∈ token ++ tag, isTagByte c = true) ∧ ∀ code ∈ found, IsSequence code := by
  induction tag generalizing token codes with
  | nil =>
    unfold tagLoop at h
    by_cases hnil : token ≠ []
    · rw [if_pos hnil] at h
      obtain ⟨code, hcode, rfl⟩ := Option.map_eq_some_iff.mp h
      obtain ⟨hbytes, hseq⟩ := lookup_spec hcode
      rw [List.append_nil]
      refine ⟨hbytes, fun c hc => ?_⟩
      rcases List.mem_append.mp hc with hc | hc
      · exact hcodes c hc
      · rw [List.mem_singleton.mp hc]
        exact hseq
    · rw [if_neg hnil] at h
      cases h
      rw [not_not.mp hnil]
      exact ⟨fun c hc => absurd hc List.not_mem_nil, hcodes⟩
  | cons ch tag ih =>
    unfold tagLoop at h
    by_cases hsep : isSeparator ch = true
    · rw [if_pos hsep] at h
      have hch : isTagByte ch = true := by
        unfold isTagByte
        rw [hsep]
        simp
      by_cases hnil : token ≠ []
      · rw [if_pos hnil] at h
        cases hlookup : ANSI.lookup token with
        | none =>
          rw [hlookup] at h
          cases h
        | some code =>
          rw [hlookup] at h
          obtain ⟨hbytes, hseq⟩ := lookup_spec hlookup
          have hall : ∀ c ∈ codes ++ [code], IsSequence c := by
            intro c hc
            rcases List.mem_append.mp hc with hc | hc
            · exact hcodes c hc
            · rw [List.mem_singleton.mp hc]
              exact hseq
          obtain ⟨hrest, hfound⟩ := ih h hall
          refine ⟨fun c hc => ?_, hfound⟩
          rcases List.mem_append.mp hc with hc | hc
          · exact hbytes c hc
          · rcases List.mem_cons.mp hc with rfl | hc
            · exact hch
            · exact hrest c hc
      · rw [if_neg hnil] at h
        obtain ⟨hrest, hfound⟩ := ih h hcodes
        refine ⟨fun c hc => ?_, hfound⟩
        rcases List.mem_append.mp hc with hc | hc
        · exact hrest c (List.mem_append_left _ hc)
        · rcases List.mem_cons.mp hc with rfl | hc
          · exact hch
          · exact hrest c (List.mem_append_right _ hc)
    · rw [if_neg hsep] at h
      obtain ⟨hrest, hfound⟩ := ih h hcodes
      rw [List.append_assoc, List.singleton_append] at hrest
      exact ⟨hrest, hfound⟩

/-- A tag that is recognised has none of the bytes that the scan looks for, and stands for escape sequences. -/
theorem tagCodes_spec {tag : Bytes} {codes : List Bytes} (h : tagCodes tag = some codes) :
    (∀ c ∈ tag, isTagByte c = true) ∧ codes ≠ [] ∧ ∀ code ∈ codes, IsSequence code := by
  unfold tagCodes at h
  split at h
  next hreset =>
    cases h
    refine ⟨?_, List.cons_ne_nil _ _, fun code hcode => ?_⟩
    · have hall : ((ascii "/").all isTagByte && (ascii "reset").all isTagByte) = true := rfl
      rw [Bool.and_eq_true, List.all_eq_true, List.all_eq_true] at hall
      rcases hreset with rfl | rfl
      · exact hall.1
      · exact hall.2
    · rw [List.mem_singleton.mp hcode]
      exact reset_isSequence
  next =>
    cases hloop : tagLoop tag [] [] with
    | none =>
      rw [hloop] at h
      cases h
    | some found =>
      rw [hloop] at h
      dsimp only at h
      split at h
      next => cases h
      next hsome =>
        cases h
        obtain ⟨hbytes, hcodes⟩ := tagLoop_spec hloop fun code hcode => absurd hcode List.not_mem_nil
        exact ⟨hbytes, fun hnil => hsome (List.length_eq_zero_iff.mpr hnil), hcodes⟩

theorem tagAt_spec {rest : Bytes} {codes : List Bytes} {k : Nat} (h : tagAt rest = some (codes, k)) :
    rest = rest.take k ++ 93 :: rest.drop (k + 1) ∧ k < rest.length ∧
      (∀ c ∈ rest.take k, isTagByte c = true) ∧ codes ≠ [] ∧ ∀ code ∈ codes, IsSequence code := by
  unfold tagAt at h
  cases hfind : strstr rest [93] with
  | none =>
    rw [hfind] at h
    cases h
  | some n =>
    rw [hfind] at h
    obtain ⟨found, hfound, heq⟩ := Option.map_eq_some_iff.mp h
    cases heq
    have hprefix := strstr_found hfind
    obtain ⟨behind, hbehind⟩ := hprefix
    have hdrop : rest.drop k = 93 :: behind := hbehind.symm
    have hlt : k < rest.length := by
      by_contra hge
      rw [List.drop_eq_nil_of_le (Nat.not_lt.mp hge)] at hdrop
      cases hdrop
    have hnext : rest.drop (k + 1) = behind := by
      rw [← List.drop_drop, hdrop]
      rfl
    refine ⟨?_, hlt, tagCodes_spec hfound⟩
    rw [hnext, ← hdrop, List.take_append_drop]

/-! The scan beside the parse. -/

/-- How the scan, the parse and the test go on at a byte. -/
inductive Step (c : UInt8) (rest : Bytes) : Prop
  /-- The bracket is doubled, and a tag follows. -/
  | swallowed (codes : List Bytes) (k : Nat) (hc : c = 91) (hdouble : rest = 91 :: rest.tail)
      (htag : tagAt rest.tail = some (codes, k))
      (hscan : scan 0 (c :: rest) = .byte 91 :: .tag codes :: scan 0 (rest.tail.drop (k + 1)))
      (hparse : parse 0 (c :: rest) = .byte 91 :: parse 0 rest.tail) (hclean : clean 0 (c :: rest) = false)
  /-- The bracket is doubled, and none follows. -/
  | doubled (hc : c = 91) (hdouble : rest = 91 :: rest.tail)
      (hscan : scan 0 (c :: rest) = .byte 91 :: scan 0 rest.tail)
      (hparse : parse 0 (c :: rest) = .byte 91 :: parse 0 rest.tail)
      (hclean : clean 0 (c :: rest) = clean 0 rest.tail)
  | tag (codes : List Bytes) (k : Nat) (htag : tagAt rest = some (codes, k))
      (hscan : scan 0 (c :: rest) = .tag codes :: scan 0 (rest.drop (k + 1)))
      (hparse : parse 0 (c :: rest) = .tag codes :: parse 0 (rest.drop (k + 1)))
      (hclean : clean 0 (c :: rest) = clean 0 (rest.drop (k + 1)))
  | byte (hscan : scan 0 (c :: rest) = .byte c :: scan 0 rest)
      (hparse : parse 0 (c :: rest) = .byte c :: parse 0 rest) (hclean : clean 0 (c :: rest) = clean 0 rest)

theorem scan_bracket (rest : Bytes) :
    scan 0 (91 :: rest) =
      if rest.head? = some 91 then
        match tagAt rest.tail with
        | some (codes, k) => .byte 91 :: .tag codes :: scan (k + 2) rest
        | none => .byte 91 :: scan 1 rest
      else
        match tagAt rest with
        | some (codes, k) => .tag codes :: scan (k + 1) rest
        | none => .byte 91 :: scan 0 rest := rfl

theorem parse_bracket (rest : Bytes) :
    parse 0 (91 :: rest) =
      if rest.head? = some 91 then .byte 91 :: parse 1 rest
      else
        match tagAt rest with
        | some (codes, k) => .tag codes :: parse (k + 1) rest
        | none => .byte 91 :: parse 0 rest := rfl

theorem clean_bracket (rest : Bytes) :
    clean 0 (91 :: rest) =
      if rest.head? = some 91 then (tagAt rest.tail).isNone && clean 1 rest
      else
        match tagAt rest with
        | some (_, k) => clean (k + 1) rest
        | none => clean 0 rest := rfl

theorem step_cases (c : UInt8) (rest : Bytes) : Step c rest := by
  by_cases hc : c = 91
  · subst hc
    by_cases hdouble : rest.head? = some 91
    · have hrest : rest = 91 :: rest.tail := by
        cases rest with
        | nil => cases hdouble
        | cons d rest => rw [Option.some.inj hdouble]; rfl
      have hone : rest.drop 1 = rest.tail := List.drop_one
      have hparse : parse 0 (91 :: rest) = .byte 91 :: parse 0 rest.tail := by
        rw [parse_bracket, if_pos hdouble, parse_skip, hone]
      cases htag : tagAt rest.tail with
      | none =>
        refine .doubled rfl hrest ?_ hparse ?_
        · rw [scan_bracket, if_pos hdouble, htag, ← hone, ← scan_skip]
        · rw [clean_bracket, if_pos hdouble, htag, ← hone, ← clean_skip]
          rfl
      | some found =>
        obtain ⟨codes, k⟩ := found
        have hskip : rest.drop (k + 2) = rest.tail.drop (k + 1) := by
          rw [← hone, List.drop_drop, Nat.add_comm 1]
        refine .swallowed codes k rfl hrest htag ?_ hparse ?_
        · rw [scan_bracket, if_pos hdouble, htag, ← hskip, ← scan_skip]
        · rw [clean_bracket, if_pos hdouble, htag]
          rfl
    · cases htag : tagAt rest with
      | none =>
        refine .byte ?_ ?_ ?_
        · rw [scan_bracket, if_neg hdouble, htag]
        · rw [parse_bracket, if_neg hdouble, htag]
        · rw [clean_bracket, if_neg hdouble, htag]
      | some found =>
        obtain ⟨codes, k⟩ := found
        refine .tag codes k htag ?_ ?_ ?_
        · rw [scan_bracket, if_neg hdouble, htag, ← scan_skip]
        · rw [parse_bracket, if_neg hdouble, htag, ← parse_skip]
        · rw [clean_bracket, if_neg hdouble, htag, ← clean_skip]
  · exact .byte (if_neg hc) (if_neg hc) (if_neg hc)

/-- Text without an opening bracket stands for itself. -/
theorem parse_text {a : Bytes} (h : ∀ c ∈ a, c ≠ 91) (s : Bytes) :
    parse 0 (a ++ s) = a.map Piece.byte ++ parse 0 s := by
  induction a with
  | nil => rfl
  | cons c a ih =>
    have hc := h c List.mem_cons_self
    have hrest := ih fun d hd => h d (List.mem_cons_of_mem _ hd)
    rw [List.cons_append, List.map_cons, List.cons_append, ← hrest]
    exact if_neg hc

theorem plain_map_byte (a : Bytes) : plain (a.map Piece.byte) = a := by
  induction a with
  | nil => rfl
  | cons c a ih =>
    rw [List.map_cons]
    exact congrArg (c :: ·) ih

theorem plain_append (a b : List Piece) : plain (a ++ b) = plain a ++ plain b := List.flatMap_append

theorem styled_append (a b : List Piece) : styled (a ++ b) = styled a ++ styled b := List.flatMap_append

/-- The scan shows what the parse shows, but for the tags behind doubled brackets. -/
theorem scan_parse (t : Bytes) :
    (plain (scan 0 t)).length ≤ (plain (parse 0 t)).length ∧
    (clean 0 t = true → scan 0 t = parse 0 t) ∧
    (clean 0 t = false → (plain (scan 0 t)).length < (plain (parse 0 t)).length ∧
      (scan 0 t).any Piece.isTag = true) := by
  induction hn : t.length using Nat.strong_induction_on generalizing t with
  | _ n ih =>
    cases t with
    | nil => exact ⟨Nat.le_refl _, fun _ => rfl, fun h => Bool.noConfusion h⟩
    | cons c rest =>
      rw [List.length_cons] at hn
      have hbyte (d : UInt8) (ps : List Piece) : (plain (.byte d :: ps)).length = (plain ps).length + 1 := rfl
      have htag (codes : List Bytes) (ps : List Piece) : plain (.tag codes :: ps) = plain ps := rfl
      have hany (p : Piece) (ps : List Piece) : (p :: ps).any Piece.isTag = (p.isTag || ps.any Piece.isTag) := rfl
      cases step_cases c rest with
      | swallowed codes k hc hdouble htagAt hscan hparse hclean =>
        obtain ⟨hsplit, hlt, hbytes, -⟩ := tagAt_spec htagAt
        obtain ⟨hle, -, -⟩ := ih (rest.tail.drop (k + 1)).length (by
          rw [List.length_drop, List.length_tail]; omega) _ rfl
        have hplain : parse 0 rest.tail =
            (rest.tail.take k ++ [93]).map Piece.byte ++ parse 0 (rest.tail.drop (k + 1)) := by
          have htext : ∀ d ∈ rest.tail.take k ++ [93], d ≠ 91 := by
            intro d hd
            rcases List.mem_append.mp hd with hd | hd
            · intro he
              have hd' := hbytes d hd
              rw [he] at hd'
              exact absurd hd' (by decide)
            · rw [List.mem_singleton.mp hd]
              decide
          rw [← parse_text htext, List.append_assoc, List.singleton_append, ← hsplit]
        have hmore : (plain (parse 0 rest.tail)).length =
            (rest.tail.take k).length + 1 + (plain (parse 0 (rest.tail.drop (k + 1)))).length := by
          rw [hplain, plain_append, plain_map_byte, List.length_append, List.length_append]
          rfl
        rw [hscan, hparse, hclean, hbyte, hbyte, htag]
        refine ⟨by omega, fun h => Bool.noConfusion h, fun _ => ⟨by omega, ?_⟩⟩
        rw [hany, hany]
        rfl
      | doubled hc hdouble hscan hparse hclean =>
        obtain ⟨hle, heq, hlt⟩ := ih rest.tail.length (by rw [List.length_tail]; omega) _ rfl
        rw [hscan, hparse, hclean, hbyte, hbyte, hany]
        refine ⟨Nat.succ_le_succ hle, fun h => by rw [heq h], fun h => ?_⟩
        exact ⟨Nat.succ_lt_succ (hlt h).1, (hlt h).2⟩
      | tag codes k htagAt hscan hparse hclean =>
        obtain ⟨hle, heq, hlt⟩ := ih (rest.drop (k + 1)).length (by rw [List.length_drop]; omega) _ rfl
        rw [hscan, hparse, hclean, htag, htag, hany]
        refine ⟨hle, fun h => by rw [heq h], fun h => ⟨(hlt h).1, ?_⟩⟩
        rw [(hlt h).2]
        rfl
      | byte hscan hparse hclean =>
        obtain ⟨hle, heq, hlt⟩ := ih rest.length (by omega) _ rfl
        rw [hscan, hparse, hclean, hbyte, hbyte, hany]
        refine ⟨Nat.succ_le_succ hle, fun h => by rw [heq h], fun h => ?_⟩
        exact ⟨Nat.succ_lt_succ (hlt h).1, (hlt h).2⟩

/-- All tags of pieces stand for escape sequences, for one at least. -/
def Coded (pieces : List Piece) : Prop :=
  ∀ codes, Piece.tag codes ∈ pieces → codes ≠ [] ∧ ∀ code ∈ codes, IsSequence code

theorem scan_coded (t : Bytes) : Coded (scan 0 t) := by
  induction hn : t.length using Nat.strong_induction_on generalizing t with
  | _ n ih =>
    cases t with
    | nil => exact fun codes h => absurd h List.not_mem_nil
    | cons c rest =>
      rw [List.length_cons] at hn
      intro codes' hmem
      cases step_cases c rest with
      | swallowed codes k hc hdouble htagAt hscan hparse hclean =>
        rw [hscan] at hmem
        simp only [List.mem_cons, reduceCtorEq, false_or] at hmem
        rcases hmem with hmem | hmem
        · cases hmem
          exact (tagAt_spec htagAt).2.2.2
        · exact ih _ (by rw [List.length_drop, List.length_tail]; omega) _ rfl codes' hmem
      | doubled hc hdouble hscan hparse hclean =>
        rw [hscan] at hmem
        simp only [List.mem_cons, reduceCtorEq, false_or] at hmem
        exact ih _ (by rw [List.length_tail]; omega) _ rfl codes' hmem
      | tag codes k htagAt hscan hparse hclean =>
        rw [hscan] at hmem
        rcases List.mem_cons.mp hmem with hmem | hmem
        · cases hmem
          exact (tagAt_spec htagAt).2.2.2
        · exact ih _ (by rw [List.length_drop]; omega) _ rfl codes' hmem
      | byte hscan hparse hclean =>
        rw [hscan] at hmem
        simp only [List.mem_cons, reduceCtorEq, false_or] at hmem
        exact ih _ (by omega) _ rfl codes' hmem

/-! Escape sequences. -/

theorem stripAnsi_sequence {code : Bytes} (h : IsSequence code) (s : Bytes) :
    stripAnsi 0 (code ++ s) = stripAnsi 0 s := by
  obtain ⟨b, rfl, hlength⟩ := h
  have hskip := stripAnsi_skip b.length (b ++ s)
  rw [List.drop_left] at hskip
  rw [List.cons_append, stripAnsi, if_pos rfl, hlength]
  exact hskip

theorem stripAnsi_codes {codes : List Bytes} (h : ∀ code ∈ codes, IsSequence code) (s : Bytes) :
    stripAnsi 0 (codes.flatten ++ s) = stripAnsi 0 s := by
  induction codes with
  | nil => rfl
  | cons code codes ih =>
    have hcode := h code List.mem_cons_self
    rw [List.flatten_cons, List.append_assoc, stripAnsi_sequence hcode,
      ih fun c hc => h c (List.mem_cons_of_mem _ hc)]

/-- What starts with an escape character completes no sequence in front of it. -/
theorem sequenceLength_append (a : Bytes) {s : Bytes} (h : s = [] ∨ s.head? = some 27) :
    sequenceLength (a ++ s) = sequenceLength a := by
  have hhead : ∀ n, (s.drop n).head? = some 109 → n ≠ 0 := by
    rintro n hn rfl
    rw [List.drop_zero] at hn
    rcases h with h | h
    · rw [h] at hn
      cases hn
    · rw [h] at hn
      cases hn
  have hnone : s.takeWhile (fun c => (48 ≤ c && c ≤ 57) || c = 59) = [] := by
    cases s with
    | nil => rfl
    | cons d s =>
      rcases h with h | h
      · cases h
      · rw [Option.some.inj h]
        exact List.takeWhile_cons_of_neg (by decide)
  cases a with
  | nil =>
    cases s with
    | nil => rfl
    | cons d s =>
      rcases h with h | h
      · cases h
      · rw [List.nil_append, Option.some.inj h]
        unfold sequenceLength
        dsimp only
        rw [if_neg fun hd => absurd hd.1 (by decide)]
  | cons d a =>
    rw [List.cons_append]
    unfold sequenceLength
    dsimp only
    rw [List.takeWhile_append, hnone, List.append_nil]
    by_cases hall : (a.takeWhile fun c => (48 ≤ c && c ≤ 57) || c = 59).length = a.length
    · rw [if_pos hall, hall, List.drop_left, List.drop_length]
      rw [if_neg fun hd => hhead 0 hd.2 rfl, if_neg fun hd => by cases hd.2]
    · have hlt : (a.takeWhile fun c => (48 ≤ c && c ≤ 57) || c = 59).length < a.length :=
        lt_of_le_of_ne (List.takeWhile_sublist _).length_le hall
      rw [if_neg hall, List.drop_append_of_le_length hlt.le, List.head?_append_of_ne_nil]
      intro hnil
      have hzero := congrArg List.length hnil
      rw [List.length_drop, List.length_nil] at hzero
      omega

theorem sequenceLength_le {a : Bytes} {k : Nat} (h : sequenceLength a = some k) : k ≤ a.length := by
  cases a with
  | nil => cases h
  | cons d a =>
    unfold sequenceLength at h
    dsimp only at h
    split at h
    next hd =>
      have hlt : (a.takeWhile fun c => (48 ≤ c && c ≤ 57) || c = 59).length < a.length := by
        by_contra hge
        have hdrop := hd.2
        rw [List.drop_eq_nil_of_le (Nat.not_lt.mp hge)] at hdrop
        cases hdrop
      cases h
      rw [List.length_cons]
      omega
    next => cases h

theorem Coded.tail {p : Piece} (h : Coded (p :: pieces)) : Coded pieces := fun codes hmem =>
  h codes (List.mem_cons_of_mem _ hmem)

/-- The bytes in front of the first tag, and what stands behind them. -/
theorem leading_spec (h : Coded pieces) : ∃ behind : List Piece, pieces = (leading pieces).map Piece.byte ++ behind ∧
    (styled behind = [] ∨ (styled behind).head? = some 27) := by
  induction pieces with
  | nil => exact ⟨[], rfl, Or.inl rfl⟩
  | cons p pieces ih =>
    cases p with
    | byte c =>
      obtain ⟨behind, heq, hstyled⟩ := ih h.tail
      refine ⟨behind, ?_, hstyled⟩
      exact congrArg (Piece.byte c :: ·) heq
    | tag codes =>
      refine ⟨.tag codes :: pieces, rfl, Or.inr ?_⟩
      obtain ⟨hne, hcodes⟩ := h codes List.mem_cons_self
      cases codes with
      | nil => exact absurd rfl hne
      | cons code codes =>
        obtain ⟨b, rfl, -⟩ := hcodes code List.mem_cons_self
        rfl

theorem plain_cons_byte (c : UInt8) (pieces : List Piece) : plain (.byte c :: pieces) = c :: plain pieces := rfl
theorem plain_cons_tag (codes : List Bytes) (pieces : List Piece) : plain (.tag codes :: pieces) = plain pieces := rfl
theorem styled_cons_byte (c : UInt8) (pieces : List Piece) : styled (.byte c :: pieces) = c :: styled pieces := rfl
theorem styled_cons_tag (codes : List Bytes) (pieces : List Piece) :
    styled (.tag codes :: pieces) = codes.flatten ++ styled pieces := rfl

theorem styled_map_byte (a : Bytes) : styled (a.map Piece.byte) = a := by
  induction a with
  | nil => rfl
  | cons c a ih =>
    rw [List.map_cons, styled_cons_byte, ih]

/-- Without the escape sequences the output of pieces is no longer than their text, and it is their text just when this
has no escape sequences. -/
theorem stripAnsi_styled (h : Coded pieces) :
    (stripAnsi 0 (styled pieces)).length ≤ (plain pieces).length ∧
      (stripAnsi 0 (styled pieces) = plain pieces ↔ quiet pieces = true) := by
  induction hn : pieces.length using Nat.strong_induction_on generalizing pieces with
  | _ n ih =>
    cases pieces with
    | nil => exact ⟨Nat.le_refl _, iff_of_true rfl rfl⟩
    | cons p pieces =>
      rw [List.length_cons] at hn
      cases p with
      | tag codes =>
        rw [styled_cons_tag, plain_cons_tag, stripAnsi_codes (h codes List.mem_cons_self).2]
        exact ih _ (by omega) h.tail rfl
      | byte c =>
        obtain ⟨hle, hiff⟩ := ih _ (by omega) h.tail rfl
        obtain ⟨behind, hsplit, hbehind⟩ := leading_spec h.tail
        have hstyled : styled pieces = leading pieces ++ styled behind := by
          have happend := congrArg styled hsplit
          rwa [styled_append, styled_map_byte] at happend
        have hsequence : sequenceLength (styled pieces) = sequenceLength (leading pieces) := by
          rw [hstyled, sequenceLength_append _ hbehind]
        rw [styled_cons_byte, plain_cons_byte, stripAnsi, hsequence]
        unfold quiet
        by_cases hc : c = 27
        · cases hlength : sequenceLength (leading pieces) with
          | none =>
            rw [if_pos hc]
            dsimp only
            rw [List.cons.injEq, hiff]
            refine ⟨Nat.succ_le_succ hle, ?_⟩
            simp
          | some k =>
            -- The sequence lies in the text in front of the first tag, and all of it is left out.
            have hk := sequenceLength_le hlength
            have hdrop : (styled pieces).drop k = styled (((leading pieces).drop k).map Piece.byte ++ behind) := by
              rw [hstyled, List.drop_append_of_le_length hk, styled_append, styled_map_byte]
            have hpieces : ((leading pieces).drop k).map Piece.byte ++ behind = pieces.drop k := by
              conv_rhs => rw [hsplit]
              rw [List.drop_append_of_le_length (by rw [List.length_map]; exact hk), List.map_drop]
            have hcoded : Coded (pieces.drop k) := fun codes hmem => h.tail codes (List.mem_of_mem_drop hmem)
            obtain ⟨hshort, -⟩ := ih (pieces.drop k).length (by rw [List.length_drop]; omega) hcoded rfl
            have hplain : (plain (pieces.drop k)).length ≤ (plain pieces).length := by
              have happend := congrArg List.length (plain_append (pieces.take k) (pieces.drop k))
              rw [List.take_append_drop, List.length_append] at happend
              omega
            rw [if_pos hc]
            dsimp only
            rw [stripAnsi_skip, hdrop, hpieces, List.length_cons]
            refine ⟨by omega, iff_of_false (fun heq => ?_) ?_⟩
            · have hlen := congrArg List.length heq
              rw [List.length_cons] at hlen
              omega
            · simp [hc]
        · rw [if_neg hc]
          dsimp only
          rw [List.cons.injEq, hiff]
          refine ⟨Nat.succ_le_succ hle, ?_⟩
          simp [hc]

/-! The output. -/

theorem Piece.text_eq (p : Piece) :
    p.text = if p.styled.length ≤ Struct.maxLength then some p.styled else none := by
  cases p with
  | byte c =>
    have hone : 1 ≤ Struct.maxLength := by decide
    exact (if_pos hone).symm
  | tag codes => exact Pigment.made_concat codes

theorem mapM_text (pieces : List Piece) :
    ((styled pieces).length ≤ Struct.maxLength → pieces.mapM Piece.text = some (pieces.map Piece.styled)) ∧
    ∀ out, pieces.mapM Piece.text = some out → out = pieces.map Piece.styled := by
  induction pieces with
  | nil => exact ⟨fun _ => rfl, fun out h => (Option.some.inj h).symm⟩
  | cons p pieces ih =>
    obtain ⟨hfits, hsome⟩ := ih
    have hstyled : styled (p :: pieces) = p.styled ++ styled pieces := rfl
    rw [List.mapM_cons, p.text_eq, hstyled, List.length_append]
    constructor
    · intro hle
      rw [if_pos (by omega), hfits (by omega)]
      rfl
    · intro out h
      by_cases hle : p.styled.length ≤ Struct.maxLength
      · rw [if_pos hle] at h
        change (pieces.mapM Piece.text).bind (fun texts => some (p.styled :: texts)) = some out at h
        obtain ⟨rest, hrest, heq⟩ := Option.bind_eq_some_iff.mp h
        rw [hsome rest hrest] at heq
        exact (Option.some.inj heq).symm
      · rw [if_neg hle] at h
        cases h

/-- The output is what the pieces are rendered as, if a string can be that long. -/
theorem format_eq_some {t out : Bytes} :
    format t = some out ↔ (rendered (scan 0 t)).length ≤ Struct.maxLength ∧ out = rendered (scan 0 t) := by
  have hjoin (texts : List Bytes) :=
    @Pigment.made_joined joinWrite texts (Strings.joinWrite_eq [] texts)
  have hflat : ∀ pieces : List Piece, (pieces.map Piece.styled).flatten = styled pieces := fun pieces => by
    rw [← List.flatMap_def]
    rfl
  have hrendered : (if (scan 0 t).any Piece.isTag then (scan 0 t).map Piece.styled ++ [reset]
      else (scan 0 t).map Piece.styled).flatten = rendered (scan 0 t) := by
    unfold rendered
    split
    · rw [List.flatten_append, hflat, List.flatten_singleton]
    · rw [hflat, List.append_nil]
  obtain ⟨hfits, hsome⟩ := mapM_text (scan 0 t)
  unfold format
  dsimp only
  constructor
  · intro h
    obtain ⟨texts, htexts, hmade⟩ := Option.bind_eq_some_iff.mp h
    rw [hsome texts htexts, hjoin, hrendered] at hmade
    split at hmade
    next hle => exact ⟨hle, (Option.some.inj hmade).symm⟩
    next => cases hmade
  · rintro ⟨hle, rfl⟩
    have hstyled : (styled (scan 0 t)).length ≤ Struct.maxLength := by
      have happend := hle
      unfold rendered at happend
      rw [List.length_append] at happend
      omega
    rw [hfits hstyled, Option.bind_some, hjoin, hrendered, if_pos hle]

theorem quiet_append_reset (pieces : List Piece) : quiet (pieces ++ [.tag [reset]]) = quiet pieces := by
  have hleading : ∀ pieces : List Piece, leading (pieces ++ [.tag [reset]]) = leading pieces := by
    intro pieces
    induction pieces with
    | nil => rfl
    | cons p pieces ih =>
      cases p with
      | byte c => exact congrArg (c :: ·) ih
      | tag codes => rfl
  induction pieces with
  | nil => rfl
  | cons p pieces ih =>
    cases p with
    | byte c =>
      rw [List.cons_append]
      unfold quiet
      rw [hleading, ih]
    | tag codes => exact ih

/-- The output without its escape sequences. -/
theorem stripAnsi_rendered (h : Coded pieces) :
    (stripAnsi 0 (rendered pieces)).length ≤ (plain pieces).length ∧
      (stripAnsi 0 (rendered pieces) = plain pieces ↔ quiet pieces = true) := by
  unfold rendered
  split
  · have hcoded : Coded (pieces ++ [.tag [reset]]) := by
      intro codes hmem
      rcases List.mem_append.mp hmem with hmem | hmem
      · exact h codes hmem
      · cases List.mem_singleton.mp hmem
        refine ⟨List.cons_ne_nil _ _, fun code hcode => ?_⟩
        rw [List.mem_singleton.mp hcode]
        exact reset_isSequence
    have hspec := stripAnsi_styled hcoded
    have hplain : plain (pieces ++ [.tag [reset]]) = plain pieces := by
      rw [plain_append]
      exact List.append_nil _
    have hstyled : styled (pieces ++ [.tag [reset]]) = styled pieces ++ reset := by
      rw [styled_append]
      rfl
    rwa [hplain, hstyled, quiet_append_reset] at hspec
  · rw [List.append_nil]
    exact stripAnsi_styled h

theorem styled_eq_plain (h : pieces.any Piece.isTag = false) : styled pieces = plain pieces := by
  induction pieces with
  | nil => rfl
  | cons p pieces ih =>
    rw [List.any_cons, Bool.or_eq_false_iff] at h
    cases p with
    | byte c => exact congrArg (c :: ·) (ih h.2)
    | tag codes => cases h.1

theorem parse_escape (s : Bytes) : parse 0 (escape s) = s.map Piece.byte := by
  induction s with
  | nil => rfl
  | cons c s ih =>
    rw [List.map_cons, ← ih]
    unfold escape
    rw [List.flatMap_cons]
    by_cases hc : c = 91
    · rw [if_pos hc, hc]
      rfl
    · rw [if_neg hc]
      exact if_neg hc

end

/-- The text with every opening bracket doubled prints the text, and no style is applied. -/
def EscapePrints (s : Bytes) : Prop :=
  format (escape s) = some s ∧ (scan 0 (escape s)).any Piece.isTag = false

/-- The output without escape sequences is the text without tags, and what it styles is reset at its end. -/
def Formats (t : Bytes) : Prop :=
  ∃ out, format t = some out ∧ stripAnsi 0 out = plain (parse 0 t) ∧ (stripAnsi 0 out = out ∨ reset <:+ out)

theorem escapePrints_iff (s : Bytes) :
    EscapePrints s ↔ clean 0 (escape s) = true ∧ s.length ≤ Struct.maxLength := by
  obtain ⟨-, hsame, hswallowed⟩ := scan_parse (escape s)
  have hrendered : (s.map Piece.byte).any Piece.isTag = false → rendered (s.map Piece.byte) = s := by
    intro hany
    unfold rendered
    rw [hany, styled_map_byte]
    exact List.append_nil s
  constructor
  · intro h
    have hclean : clean 0 (escape s) = true := by
      by_contra hno
      have htag := (hswallowed (Bool.eq_false_iff.mpr hno)).2
      rw [h.2] at htag
      cases htag
    have hscan := hsame hclean
    rw [parse_escape] at hscan
    have hany := h.2
    rw [hscan] at hany
    have hle := (format_eq_some.mp h.1).1
    rw [hscan, hrendered hany] at hle
    exact ⟨hclean, hle⟩
  · intro h
    have hscan := hsame h.1
    rw [parse_escape] at hscan
    have hany : (s.map Piece.byte).any Piece.isTag = false := by
      rw [List.any_map]
      exact List.any_eq_false.mpr fun c _ hc => Bool.noConfusion hc
    refine ⟨format_eq_some.mpr ?_, by rw [hscan]; exact hany⟩
    rw [hscan, hrendered hany]
    exact ⟨h.2, rfl⟩

theorem formats_iff (t : Bytes) :
    Formats t ↔ clean 0 t = true ∧ quiet (parse 0 t) = true ∧
      (rendered (parse 0 t)).length ≤ Struct.maxLength := by
  obtain ⟨-, hsame, hswallowed⟩ := scan_parse t
  obtain ⟨hle, hstrip⟩ := stripAnsi_rendered (scan_coded t)
  constructor
  · intro h
    obtain ⟨out, hout, hplain, -⟩ := h
    obtain ⟨hlength, rfl⟩ := format_eq_some.mp hout
    have hclean : clean 0 t = true := by
      by_contra hno
      have hlt := (hswallowed (Bool.eq_false_iff.mpr hno)).1
      rw [hplain] at hle
      omega
    rw [hsame hclean] at hstrip hplain hlength
    exact ⟨hclean, hstrip.mp hplain, hlength⟩
  · intro h
    obtain ⟨hclean, hquiet, hlength⟩ := h
    rw [hsame hclean] at hstrip
    have hplain := hstrip.mpr hquiet
    refine ⟨rendered (parse 0 t), format_eq_some.mpr ?_, hplain, ?_⟩
    · rw [hsame hclean]
      exact ⟨hlength, rfl⟩
    · by_cases htag : (parse 0 t).any Piece.isTag = true
      · refine Or.inr ⟨styled (parse 0 t), ?_⟩
        unfold rendered
        rw [if_pos htag]
      · have hany := Bool.eq_false_iff.mpr htag
        refine Or.inl (hplain.trans ?_)
        unfold rendered
        rw [if_neg htag, List.append_nil, styled_eq_plain hany]

/-- Escaped texts are printed as they are, and markup texts without their tags, just when no doubled bracket stands
directly in front of a tag, no text has escape sequences of its own, and a string can be as long as the output. -/
theorem format_iff (s t : Bytes) :
    EscapePrints s ∧ Formats t ↔
      (clean 0 (escape s) = true ∧ s.length ≤ Struct.maxLength) ∧
      (clean 0 t = true ∧ quiet (parse 0 t) = true ∧ (rendered (parse 0 t)).length ≤ Struct.maxLength) := by
  rw [escapePrints_iff, formats_iff]

/-- The escaped text `[red]` prints a bracket and sets a style. -/
theorem escaped_tag_applies :
    format (escape (ascii "[red]")) = some (91 :: sequenceOf "31" ++ reset) ∧ ¬ EscapePrints (ascii "[red]") := by
  refine ⟨rfl, fun h => ?_⟩
  have hany := h.2
  revert hany
  decide

end Cli

end ToiLang
