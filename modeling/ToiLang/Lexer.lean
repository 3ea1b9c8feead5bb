import ToiLang.Strtod

namespace ToiLang

inductive TokenType
  | eof | error
  | leftParen | rightParen | leftBrace | rightBrace | leftBracket | rightBracket
  | comma | dot | dotDot | minus | plus | semicolon | slash | star
  | equals | hash | question | colon | colonColon | walrus
  | plusEqual | minusEqual | starEqual | slashEqual | percentEqual
  | at | power | intDiv | percent
  | equalEqual | bangEqual | less | lessEqual | append | greater | greaterEqual
  | indent | dedent
  | identifier | string | fstring | number
  | kwNil | kwTrue | kwFalse | kwPrint | kwLocal | kwFn | kwReturn | kwYield
  | kwIf | kwElif | kwElse | kwWhile | kwFor | kwIn | kwHas | kwGlobal | kwBreak | kwContinue
  | kwAnd | kwOr | kwNot | kwWith | kwAs | kwTry | kwExcept | kwFinally | kwThrow
  | kwGc | kwImport | kwFrom | kwDel | kwAssert
  deriving DecidableEq, Repr

/-- What `token.start` points to: the source from there on, or the text of an error. -/
inductive TokenStart
  | source (s : Bytes)
  | message (text : Bytes)
  deriving DecidableEq, Repr

structure Token where
  type : TokenType
  start : TokenStart
  length : Nat
  line : Nat
  deriving DecidableEq, Repr

/-- A pointer into the source is what is left of the source from there on; `indents` is
`indent_stack` from `indent_top` down to 1, below which is the 0 of the base level. -/
structure Lexer where
  start : Bytes
  current : Bytes
  line : Nat
  indents : List Nat
  pendingDedents : Nat
  atStartOfLine : Bool
  insideTable : Nat
  deriving DecidableEq, Repr

def initLexer (source : Bytes) : Lexer := ⟨source, source, 1, [], 0, true, 0⟩

abbrev byte (c : Char) : UInt8 := UInt8.ofNat c.toNat

/-- The character at a pointer; the terminating NUL at the end. -/
def peek (s : Bytes) : UInt8 := s.headD 0

def peekNext (s : Bytes) : UInt8 := peek s.tail

def isAlpha (c : UInt8) : Bool := (byte 'a' ≤ c && c ≤ byte 'z') || (byte 'A' ≤ c && c ≤ byte 'Z')

namespace Lexer

def makeToken (L : Lexer) (type : TokenType) : Token :=
  ⟨type, .source L.start, L.start.length - L.current.length, L.line⟩

def errorToken (L : Lexer) (message : Bytes) : Token := ⟨.error, .message message, message.length, L.line⟩

end Lexer

def keywords : List (String × TokenType) :=
  [("and", .kwAnd), ("or", .kwOr), ("not", .kwNot), ("nil", .kwNil), ("gc", .kwGc), ("print", .kwPrint),
    ("local", .kwLocal), ("while", .kwWhile), ("break", .kwBreak), ("continue", .kwContinue),
    ("with", .kwWith), ("as", .kwAs), ("try", .kwTry), ("except", .kwExcept), ("finally", .kwFinally),
    ("throw", .kwThrow), ("else", .kwElse), ("elif", .kwElif), ("false", .kwFalse), ("for", .kwFor),
    ("fn", .kwFn), ("return", .kwReturn), ("yield", .kwYield), ("if", .kwIf), ("in", .kwIn), ("has", .kwHas),
    ("global", .kwGlobal), ("import", .kwImport), ("from", .kwFrom), ("del", .kwDel), ("assert", .kwAssert),
    ("true", .kwTrue)]

def identifierType (text : Bytes) : TokenType :=
  match keywords.find? fun k => ascii k.1 = text with
  | some k => k.2
  | none => .identifier

def isWord (c : UInt8) : Bool := isAlpha c || isDigit c || c = byte '_'

/-- The loops of `number`, from a value of `last_was_digit` on. -/
def digitsLoop : Bool → Bytes → Bytes
  | _, [] => []
  | lastWasDigit, c :: rest =>
    if isDigit c then digitsLoop true rest
    else if c = byte '_' && lastWasDigit && isDigit (peek rest) then digitsLoop false rest
    else c :: rest

def numberEnd (s : Bytes) : Bytes :=
  let s := digitsLoop true s
  if peek s = byte '.' ∧ isDigit (peekNext s) then digitsLoop false s.tail else s

/-- The loop of `string` and of `fstring_quoted`: the line and what is left at the closing quote or
at the end. An escaped line break is counted in `string` only. -/
def quotedLoop (countsEscaped : Bool) (quote : UInt8) : Bytes → Nat → Nat × Bytes
  | [], line => (line, [])
  | c :: rest, line =>
    if c = quote then (line, c :: rest)
    else
      let line := if c = byte '\n' then line + 1 else line
      match rest with
      | [] => (line, [])
      | d :: rest' =>
        if c = byte '\\' then
          quotedLoop countsEscaped quote rest' (if d = byte '\n' && countsEscaped then line + 1 else line)
        else quotedLoop countsEscaped quote (d :: rest') line

/-- The loop of `multiline_string` and of `fstring_multiline`; whether it found the end. -/
def multilineLoop : Bytes → Nat → Nat × Bytes × Bool
  | [], line => (line, [], false)
  | c :: rest, line =>
    if c = byte ']' ∧ peek rest = byte ']' then (line, rest.tail, true)
    else multilineLoop rest (if c = byte '\n' then line + 1 else line)

namespace Lexer

def quoted (L : Lexer) (countsEscaped : Bool) (quote : UInt8) (type : TokenType) (message : String) :
    Token × Lexer :=
  let (line, rest) := quotedLoop countsEscaped quote L.current L.line
  if rest = [] then
    let L := { L with line, current := [] }
    (L.errorToken (ascii message), L)
  else
    let L := { L with line, current := rest.tail }
    (L.makeToken type, L)

def string (L : Lexer) (quote : UInt8) : Token × Lexer :=
  L.quoted true quote .string "Unterminated string."

def fstringQuoted (L : Lexer) (quote : UInt8) : Token × Lexer :=
  L.quoted false quote .fstring "Unterminated f-string."

def multiline (L : Lexer) (type : TokenType) (message : String) : Token × Lexer :=
  let (line, rest, found) := multilineLoop L.current L.line
  let L := { L with line, current := rest }
  if found then (L.makeToken type, L) else (L.errorToken (ascii message), L)

def multilineString (L : Lexer) : Token × Lexer :=
  multiline { L with current := L.current.tail } .string "Unterminated multiline string."

def fstringMultiline (L : Lexer) : Token × Lexer :=
  multiline { L with current := L.current.tail.tail } .fstring "Unterminated multiline f-string."

end Lexer

/-- The operators, by the character that was read and the next one, with whether it is read too. -/
def operator (c next : UInt8) : Option (TokenType × Bool) :=
  if c = byte '(' then some (.leftParen, false)
  else if c = byte ')' then some (.rightParen, false)
  else if c = byte ']' then some (.rightBracket, false)
  else if c = byte ';' then some (.semicolon, false)
  else if c = byte ',' then some (.comma, false)
  else if c = byte '.' then some (if next = byte '.' then (.dotDot, true) else (.dot, false))
  else if c = byte '-' then some (if next = byte '=' then (.minusEqual, true) else (.minus, false))
  else if c = byte '+' then some (if next = byte '=' then (.plusEqual, true) else (.plus, false))
  else if c = byte '/' then
    some (if next = byte '/' then (.intDiv, true) else if next = byte '=' then (.slashEqual, true)
      else (.slash, false))
  else if c = byte '*' then
    some (if next = byte '*' then (.power, true) else if next = byte '=' then (.starEqual, true)
      else (.star, false))
  else if c = byte '%' then some (if next = byte '=' then (.percentEqual, true) else (.percent, false))
  else if c = byte '#' then some (.hash, false)
  else if c = byte '?' then some (.question, false)
  else if c = byte ':' then
    some (if next = byte ':' then (.colonColon, true) else if next = byte '=' then (.walrus, true)
      else (.colon, false))
  else if c = byte '@' then some (.at, false)
  else if c = byte '=' then some (if next = byte '=' then (.equalEqual, true) else (.equals, false))
  else if c = byte '!' then if next = byte '=' then some (.bangEqual, true) else none
  else if c = byte '<' then
    some (if next = byte '+' then (.append, true) else if next = byte '=' then (.lessEqual, true)
      else (.less, false))
  else if c = byte '>' then some (if next = byte '=' then (.greaterEqual, true) else (.greater, false))
  else none

/-- `%d` of a `char`. -/
def charCode (c : UInt8) : String :=
  if c < 128 then toString c.toNat else "-" ++ toString (256 - c.toNat)

def unexpectedCharacter (c : UInt8) : Bytes :=
  ascii "Unexpected character: '" ++ c :: ascii ("' (ASCII " ++ charCode c ++ ").")

namespace Lexer

/-- `scan_token` from a character `c` on that is not the end. -/
def scanChar (L : Lexer) (c : UInt8) (rest : Bytes) : Token × Lexer :=
  let L := { L with current := rest }
  if c = byte 'f' ∧ (peek rest = byte '"' ∨ peek rest = byte '\'') then
    fstringQuoted { L with current := rest.tail } (peek rest)
  else if c = byte 'f' ∧ peek rest = byte '[' ∧ peekNext rest = byte '[' then L.fstringMultiline
  else if isAlpha c ∨ c = byte '_' then
    let L := { L with current := rest.dropWhile isWord }
    (L.makeToken (identifierType (L.start.take (L.start.length - L.current.length))), L)
  else if isDigit c then
    let L := { L with current := numberEnd rest }
    (L.makeToken .number, L)
  else if c = byte '\x7b' then
    let L := { L with insideTable := L.insideTable + 1 }
    (L.makeToken .leftBrace, L)
  else if c = byte '\x7d' then
    let L := { L with insideTable := L.insideTable - 1 }
    (L.makeToken .rightBrace, L)
  else if c = byte '[' then
    if peek rest = byte '[' then L.multilineString else (L.makeToken .leftBracket, L)
  else if c = byte '"' ∨ c = byte '\'' then L.string c
  else
    match operator c (peek rest) with
    | some (type, true) =>
      let L := { L with current := rest.tail }
      (L.makeToken type, L)
    | some (type, false) => (L.makeToken type, L)
    | none => (L.errorToken (unexpectedCharacter c), L)

end Lexer

/-- The loop over the blanks at the start of a line, with the indentation. -/
def indentLoop : Bytes → Nat → Nat × Bytes
  | c :: rest, indent =>
    if c = byte ' ' then indentLoop rest (indent + 1)
    else if c = byte '\t' then indentLoop rest (indent + 4)
    else (indent, c :: rest)
  | [], indent => (indent, [])

def isBlank (c : UInt8) : Bool := c = byte ' ' || c = byte '\t' || c = byte '\r'

def atComment (s : Bytes) : Bool := peek s = byte '-' && peekNext s = byte '-'

def commentEnd (s : Bytes) : Bytes := s.dropWhile (· ≠ byte '\n')

/-- The loop over the blanks and the comment in front of a token; behind a comment it ends. -/
def skipBlanks (s : Bytes) : Bytes :=
  let s := s.dropWhile isBlank
  if atComment s then commentEnd s else s

/-- How the start of a line goes on. -/
inductive LineStart
  | restart (L : Lexer)
  | token (t : Token) (L : Lexer)
  | outside
  | proceed (L : Lexer)

namespace Lexer

/-- `indent_stack[indent_top]` -/
def currentIndent (L : Lexer) : Nat := L.indents.headD 0

/-- The blocks that a line with a smaller indentation closes. -/
def popIndents (L : Lexer) (indent : Nat) : Lexer :=
  let closed := (L.indents.takeWhile (· > indent)).length
  { L with indents := L.indents.drop closed, pendingDedents := L.pendingDedents + closed }

/-- The comparison with the enclosing block; the array has 256 places. -/
def compareIndent (L : Lexer) (indent : Nat) : LineStart :=
  if indent > L.currentIndent then
    if L.indents.length + 1 < 256 then
      let L := { L with indents := indent :: L.indents }
      .token (L.makeToken .indent) L
    else .outside
  else if indent < L.currentIndent then
    let L := L.popIndents indent
    if L.currentIndent ≠ indent then .token (L.errorToken (ascii "Inconsistent indentation.")) L
    else if L.pendingDedents > 0 then
      let L := { L with pendingDedents := L.pendingDedents - 1 }
      .token (L.makeToken .dedent) L
    else .proceed L
  else .proceed L

def lineStart (L : Lexer) : LineStart :=
  if L.atStartOfLine = true ∧ L.insideTable = 0 then
    let (indent, rest) := indentLoop L.current 0
    let L := { L with atStartOfLine := false, start := L.current, current := rest }
    if peek rest = byte '\n' then
      .restart { L with atStartOfLine := true, line := L.line + 1, current := rest.tail }
    else if atComment rest then .restart { L with atStartOfLine := true, current := commentEnd rest }
    else L.compareIndent (if rest = [] then 0 else indent)
  else .proceed { L with atStartOfLine := false }

end Lexer

inductive Scanned
  | token (t : Token) (L : Lexer)
  /-- `indent_stack` is written behind its end. -/
  | outside
  | spinning
  deriving DecidableEq

/-- `scan_token`, of which at most `fuel` restarts are made. -/
def scanLoop : Nat → Lexer → Scanned
  | 0, _ => .spinning
  | fuel + 1, L =>
    if L.pendingDedents > 0 then
      let L := { L with pendingDedents := L.pendingDedents - 1 }
      .token (L.makeToken .dedent) L
    else
      match L.lineStart with
      | .restart L => scanLoop fuel L
      | .token t L => .token t L
      | .outside => .outside
      | .proceed L =>
        match skipBlanks L.current with
        | [] =>
          if L.indents.length > 0 then
            scanLoop fuel { L with start := [], current := [], pendingDedents := L.indents.length, indents := [] }
          else
            let L := { L with start := [], current := [] }
            .token (L.makeToken .eof) L
        | c :: rest =>
          if c = byte '\n' then scanLoop fuel { L with line := L.line + 1, current := rest, atStartOfLine := true }
          else
            let (t, L) := Lexer.scanChar { L with start := c :: rest, current := c :: rest } c rest
            .token t L

/-- Every restart but the last one reads a character. -/
def scanToken (L : Lexer) : Scanned := scanLoop (L.current.length + 2) L

end ToiLang
