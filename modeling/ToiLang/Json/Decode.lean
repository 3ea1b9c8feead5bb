import ToiLang.FreshTables
import ToiLang.Json.Encode

namespace ToiLang

namespace Json

/-! The decoder of `json.c`. -/

/-- What is left of the text, and the heap. -/
structure Parser where
  rest : Bytes
  heap : TableHeap

/-- An error message, or none where the code does not come back. -/
abbrev Parse := StateT Parser (ExceptT Bytes Option)

def fail {α : Type} (message : Bytes) : Parse α := fun _ => some (.error message)

def diverge {α : Type} : Parse α := fun _ => none

def isWhitespace (c : UInt8) : Bool := c = 32 || c = 9 || c = 10 || c = 13

def skipWhitespace : Parse Unit := modify fun p => { p with rest := p.rest.dropWhile isWhitespace }

def parseChar (expected : UInt8) : Parse Bool := do
  skipWhitespace
  let p ← get
  if p.rest.head? = some expected then
    set { p with rest := p.rest.tail }
    return true
  else return false

def newTable : Parse Nat := do
  let p ← get
  set { p with heap := p.heap.newTable }
  return p.heap.next

/-- A write to the table at an address. -/
def modifyTable (a : Nat) (f : Table → Option Table) : Parse Unit := fun p =>
  (f (p.heap.tables a)).map fun t => .ok ((), { p with heap := p.heap.set a t })

/-- `strtol` in base 16 of the text in front of a NUL. -/
def strtol16 (s : Bytes) : Int :=
  let (minus, rest) := Strtod.sign (s.dropWhile isSpace)
  let isHex := fun c => (hexDigit c).isSome
  let prefixed := rest.head? = some 48 ∧ (rest.tail.head?.map toLower) = some 120 ∧
    (rest.drop 2).head?.any isHex = true
  let n : Int := Strtod.hexNat ((if prefixed then rest.drop 2 else rest).takeWhile isHex)
  if minus then -n else n

/-- The conversion to `char`. -/
def toChar (n : Int) : UInt8 := UInt8.ofNat (n % 256).toNat

/-- The bytes that a code point of four digits is written as. -/
def codepointText (codepoint : Int) : Bytes :=
  if codepoint < 128 then [toChar codepoint]
  else if codepoint < 2048 then [toChar (192 + codepoint / 64), toChar (128 + codepoint % 64)]
  else [toChar (224 + codepoint / 4096), toChar (128 + codepoint / 64 % 64), toChar (128 + codepoint % 64)]

/-- What a character behind a backslash stands for, unless it is `u`. -/
def escaped (esc : UInt8) : UInt8 :=
  if esc = 98 then 8
  else if esc = 102 then 12
  else if esc = 110 then 10
  else if esc = 114 then 13
  else if esc = 116 then 9
  else esc

/-- A turn of the loop of `parse_string` at the character `c`: the bytes that it appends and what is
left, or none for an invalid escape. -/
def stringTurn (c : UInt8) (s : Bytes) : Option (Bytes × Bytes) :=
  match s with
  | [] => some ([c], [])
  | esc :: s' =>
    if c = 92 then
      if esc = 117 then
        if s'.length < 4 then none else some (codepointText (strtol16 (s'.take 4)), s'.drop 4)
      else some ([escaped esc], s')
    else some ([c], s)

/-- The loop of `parse_string`, with its bytes appended one by one. -/
def stringLoop : Nat → StringBuilder → Parse StringBuilder
  | 0, _ => diverge
  | turns + 1, sb => do
    let p ← get
    match p.rest with
    | [] => return sb
    | c :: s =>
      if c = 34 then return sb
      else
        match stringTurn c s with
        | none => fail (ascii "Invalid unicode escape")
        | some (chars, rest) =>
          match chars.foldlM (fun sb c => sbAppend sb [c]) sb with
          | none => diverge
          | some sb =>
            set { p with rest }
            stringLoop turns sb

def expected (c : UInt8) : Bytes := ascii "Expected '" ++ [c, 39]

def parseString : Parse Bytes := do
  if !(← parseChar 34) then fail (expected 34)
  else
    let sb ← stringLoop ((← get).rest.length + 1) sbInit
    if !(← parseChar 34) then fail (ascii "Unterminated string")
    else return sb.buffer

/-- What follows the digits, the fraction and the exponent that a number may start with. -/
def afterNumber (s : Bytes) : Bytes :=
  let s := if s.head? = some 45 then s.tail else s
  let s := s.dropWhile isDigit
  let s := if s.head? = some 46 then s.tail.dropWhile isDigit else s
  if s.head? = some 101 ∨ s.head? = some 69 then
    (if s.tail.head? = some 43 ∨ s.tail.head? = some 45 then s.tail.tail else s.tail).dropWhile isDigit
  else s

def parseNumber : Parse Value := do
  skipWhitespace
  let p ← get
  let rest := afterNumber p.rest
  set { p with rest }
  return .number (strtod (p.rest.take (p.rest.length - rest.length))).1

section Value

variable (hash : Bytes → UInt32) (parseValue : Parse Value)

/-- The loop of `parse_array`; an element that the array part refuses is left out. -/
def elementsLoop (a : Nat) : Nat → Nat → Parse Unit
  | 0, _ => diverge
  | turns + 1, index => do
    let val ← parseValue
    modifyTable a fun t => some ((tableSetArray t index val).getD t)
    if ← parseChar 44 then elementsLoop a turns (index + 1)

/-- What `parse_array` and `parse_object` do around their loops. -/
def parseTable (opening closing : UInt8) (loop : Nat → Nat → Parse Unit) : Parse Value := do
  if !(← parseChar opening) then fail (expected opening)
  else
    let a ← newTable
    skipWhitespace
    let rest := (← get).rest
    if rest ≠ [] ∧ rest.head? ≠ some closing then loop a (rest.length + 1)
    if !(← parseChar closing) then fail (expected closing)
    else return .table a

def parseArray : Parse Value := parseTable 91 93 fun a turns => elementsLoop parseValue a turns 1

/-- The loop of `parse_object`. -/
def membersLoop (a : Nat) : Nat → Parse Unit
  | 0 => diverge
  | turns + 1 => do
    skipWhitespace
    let key ← parseString
    if !(← parseChar 58) then fail (expected 58)
    else
      let val ← parseValue
      modifyTable a fun t => (tableSet hash t key val).map Prod.fst
      if ← parseChar 44 then membersLoop a turns

def parseObject : Parse Value := parseTable 123 125 (membersLoop hash parseValue)

end Value

/-- The message of `snprintf` ends at a NUL. -/
def unexpected (c : UInt8) : Bytes := (ascii "Unexpected character '" ++ [c, 39]).takeWhile (· ≠ 0)

/-- `parse_value`, where the values are nested less than `depth` deep. -/
def parseValue (hash : Bytes → UInt32) : Nat → Parse Value
  | 0 => diverge
  | depth + 1 => do
    skipWhitespace
    let p ← get
    match p.rest with
    | [] => fail (ascii "Unexpected end of input")
    | c :: _ =>
      if c = 34 then return .string (← parseString)
      else if c = 123 then parseObject hash (parseValue hash depth)
      else if c = 91 then parseArray (parseValue hash depth)
      else if c = 45 ∨ isDigit c then parseNumber
      else if ascii "true" <+: p.rest then
        set { p with rest := p.rest.drop 4 }
        return .bool true
      else if ascii "false" <+: p.rest then
        set { p with rest := p.rest.drop 5 }
        return .bool false
      else if ascii "null" <+: p.rest then
        set { p with rest := p.rest.drop 4 }
        return .nil
      else fail (unexpected c)

/-- `json.decode` -/
def jsonDecode (hash : Bytes → UInt32) (str : Bytes) (H : TableHeap) : Option (Except Bytes (Value × TableHeap)) :=
  match parseValue hash (str.length + 1) ⟨str, H⟩ with
  | none => none
  | some (.error message) => some (.error message)
  | some (.ok (v, p)) =>
    if p.rest.dropWhile isWhitespace = [] then some (.ok (v, p.heap))
    else some (.error (ascii "Trailing content after JSON"))

end Json

end ToiLang
