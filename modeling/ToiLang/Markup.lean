import Mathlib.Data.List.Basic
import Mathlib.Data.List.Flatten

namespace Markup

/-! Texts with nested tags, as sequences of tokens. -/

/-- How a byte is written between tags and in the value of an attribute. -/
def escapeByte (c : UInt8) : List UInt8 :=
  if c = 38 then [38, 97, 109, 112, 59]
  else if c = 60 then [38, 108, 116, 59]
  else if c = 62 then [38, 103, 116, 59]
  else if c = 34 then [38, 113, 117, 111, 116, 59]
  else if c = 39 then [38, 35, 51, 57, 59]
  else [c]

def escape (s : List UInt8) : List UInt8 := s.flatMap escapeByte

def isNameByte (c : UInt8) : Bool := 48 ≤ c && c ≤ 57 || 97 ≤ c && c ≤ 122

/-- The name of an element or of an attribute: letters and digits only. -/
structure Name where
  text : List UInt8
  letters : (!text.isEmpty && text.all isNameByte) = true
  deriving DecidableEq

/-- A tag, or a piece of text that is not yet escaped. -/
inductive Token where
  | opening (name : Name) (attrs : List (Name × List UInt8))
  | closing (name : Name)
  | void (name : Name)
  | text (raw : List UInt8)

/-- An attribute, its value escaped between quotation marks. -/
def renderAttr (attr : Name × List UInt8) : List UInt8 :=
  32 :: attr.1.text ++ [61, 34] ++ escape attr.2 ++ [34]

def Token.render : Token → List UInt8
  | .opening name attrs => 60 :: name.text ++ attrs.flatMap renderAttr ++ [62]
  | .closing name => [60, 47] ++ name.text ++ [62]
  | .void name => 60 :: name.text ++ [32, 47, 62]
  | .text raw => escape raw

def render (tokens : List Token) : List UInt8 := tokens.flatMap Token.render

/-- The elements that are open behind the tokens, the innermost first. A closing tag has to name the
innermost element. -/
def walk : List Name → List Token → Option (List Name)
  | elements, [] => some elements
  | elements, .opening name _ :: tokens => walk (name :: elements) tokens
  | [], .closing _ :: _ => none
  | name :: elements, .closing name' :: tokens => if name = name' then walk elements tokens else none
  | elements, .void _ :: tokens => walk elements tokens
  | elements, .text _ :: tokens => walk elements tokens

/-- Every element that is opened is closed once, in order. -/
def WellNested (tokens : List Token) : Prop := walk [] tokens = some []

variable {elements elements' base : List Name} {tokens tokens' : List Token} {name : Name}

@[simp] theorem escape_nil : escape [] = [] := rfl

@[simp] theorem escape_append (a b : List UInt8) : escape (a ++ b) = escape a ++ escape b :=
  List.flatMap_append

@[simp] theorem render_nil : render [] = [] := rfl

@[simp] theorem render_cons (t : Token) (ts : List Token) : render (t :: ts) = t.render ++ render ts := rfl

@[simp] theorem render_append (a b : List Token) : render (a ++ b) = render a ++ render b :=
  List.flatMap_append

theorem walk_append (elements : List Name) (a b : List Token) :
    walk elements (a ++ b) = (walk elements a).bind fun e => walk e b := by
  induction a generalizing elements with
  | nil => rfl
  | cons t a ih =>
    cases t with
    | opening name attrs => exact ih _
    | closing name =>
      cases elements with
      | nil => rfl
      | cons name' elements =>
        simp only [List.cons_append, walk]
        split
        · exact ih _
        · rfl
    | void name => exact ih _
    | text raw => exact ih _

theorem walk_trans (h : walk elements tokens = some elements') :
    walk elements (tokens ++ tokens') = walk elements' tokens' := by
  rw [walk_append, h]
  rfl

/-- What is open already stays open. -/
theorem walk_frame (h : walk elements tokens = some elements') :
    walk (elements ++ base) tokens = some (elements' ++ base) := by
  induction tokens generalizing elements with
  | nil => rw [walk, Option.some.inj h]
  | cons t tokens ih =>
    cases t with
    | opening name attrs => exact ih h
    | closing name =>
      cases elements with
      | nil => cases h
      | cons name' elements =>
        simp only [List.cons_append, walk] at h ⊢
        split at h
        next hname => rw [if_pos hname, ih h]
        next => cases h
    | void name => exact ih h
    | text raw => exact ih h

theorem WellNested.walk (h : WellNested tokens) (elements : List Name) : walk elements tokens = some elements :=
  walk_frame h

theorem WellNested.nil : WellNested [] := rfl

theorem WellNested.text (raw : List UInt8) : WellNested [.text raw] := rfl

theorem WellNested.append (h : WellNested tokens) (h' : WellNested tokens') : WellNested (tokens ++ tokens') := by
  rw [WellNested, walk_trans h, h']

theorem WellNested.element (h : WellNested tokens) (name : Name) (attrs : List (Name × List UInt8)) :
    WellNested (.opening name attrs :: tokens ++ [.closing name]) := by
  change Markup.walk [name] (tokens ++ [.closing name]) = some []
  rw [walk_trans (h.walk [name])]
  exact if_pos rfl

/-- Text between the pieces opens and closes nothing. -/
theorem walk_intercalate (elements : List Name) (raw : List UInt8) (pieces : List (List Token)) :
    walk elements ([Token.text raw].intercalate pieces) = walk elements pieces.flatten := by
  induction pieces generalizing elements with
  | nil => rfl
  | cons a pieces ih =>
    cases pieces with
    | nil => simp
    | cons b pieces =>
      rw [List.intercalate_cons_cons, List.flatten_cons, List.append_assoc, walk_append, walk_append]
      congr 1
      funext e
      exact ih e

theorem render_intercalate (raw : List UInt8) (pieces : List (List Token)) :
    render ([Token.text raw].intercalate pieces) = (escape raw).intercalate (pieces.map render) := by
  induction pieces with
  | nil => rfl
  | cons a pieces ih =>
    cases pieces with
    | nil => simp
    | cons b pieces =>
      rw [List.intercalate_cons_cons, List.map_cons, List.map_cons, List.intercalate_cons_cons,
        render_append, render_append, ih, List.map_cons]
      simp [Token.render]

end Markup
