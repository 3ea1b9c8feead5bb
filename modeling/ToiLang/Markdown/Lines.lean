import ToiLang.Markdown.Inline

namespace ToiLang.Markdown

open Http (strstr splitWith stringTrim)

/-! What the lines of a Markdown text are. -/

def stringLtrim (s : Bytes) : Bytes := s.dropWhile Http.isBlank

/-- `string.trim` with a character given, which stands for the blank. -/
def stringTrimOf (ch : UInt8) (s : Bytes) : Bytes :=
  let cut := fun c : UInt8 => c = ch || c = 9 || c = 10 || c = 13
  (s.dropWhile cut).rdropWhile cut

/-- A line without the CR in front of its line feed. -/
def dropCr (line : Bytes) : Bytes := if endsWith line [13] then line.dropLast else line

/-- The three backquotes that a code block is opened and closed with. -/
def isFence (line : Bytes) : Bool := startsWith line (ascii "```")

def isHorizontalRule (line : Bytes) : Bool :=
  let s := stringTrim line
  match s with
  | [] => false
  | ch :: _ =>
    decide (3 ≤ s.length) && (ch = 45 || ch = 42 || ch = 95) && s.all (fun c => c = ch || c = 32) &&
      decide (3 ≤ s.count ch)

structure Heading where
  level : Nat
  text : Bytes
  bounds : 1 ≤ level ∧ level ≤ 6

def parseHeading (line : Bytes) : Option Heading :=
  let s := stringLtrim line
  let count := (s.takeWhile (· = 35)).length
  if h : 1 ≤ count ∧ count ≤ 6 then
    match s.drop count with
    | 32 :: text => some ⟨count, stringTrim text, h⟩
    | _ => none
  else none

def parseUnorderedItem (line : Bytes) : Option Bytes :=
  match stringLtrim line with
  | marker :: 32 :: text => if marker = 45 ∨ marker = 42 ∨ marker = 43 then some (stringTrim text) else none
  | _ => none

def isDigit (c : UInt8) : Bool := 48 ≤ c && c ≤ 57

def parseOrderedItem (line : Bytes) : Option Bytes :=
  let s := stringLtrim line
  let count := (s.takeWhile isDigit).length
  if count = 0 then none
  else
    match s.drop count with
    | 46 :: 32 :: text => some (stringTrim text)
    | _ => none

/-- The columns in front of the first other character. -/
def leadingIndent : Bytes → Nat
  | [] => 0
  | c :: rest => if c = 32 then leadingIndent rest + 1 else if c = 9 then leadingIndent rest + 2 else 0

inductive ListKind where
  | ul
  | ol
  deriving DecidableEq

structure ListItem where
  kind : ListKind
  indent : Nat
  text : Bytes

/-- An item without text is no item: the empty string counts as false. -/
def parseListItem (line : Bytes) : Option ListItem :=
  match parseUnorderedItem line with
  | some (c :: ul) => some ⟨.ul, leadingIndent line, c :: ul⟩
  | _ =>
    match parseOrderedItem line with
    | some (c :: ol) => some ⟨.ol, leadingIndent line, c :: ol⟩
    | _ => none

def splitTableCells (line : Bytes) : List Bytes :=
  let raw := stringTrim line
  if raw = [] then []
  else
    let raw := if startsWith raw (ascii "|") then raw.tail else raw
    let raw := if endsWith raw (ascii "|") then raw.dropLast else raw
    (splitWith (ascii "|") (raw.length + 1) raw).map stringTrim

def isTableCandidate (line : Bytes) : Bool := (strstr (stringTrim line) (ascii "|")).isSome

/-- A cell of a line of dashes between the header and the rows of a table. -/
def isDashes (cell : Bytes) : Bool :=
  let token := stringTrim cell
  token ≠ [] && token.all (fun ch => ch = 45 || ch = 58 || ch = 32) && decide (3 ≤ token.count 45)

def isTableSeparatorLine (line : Bytes) : Bool :=
  let cells := splitTableCells line
  !cells.isEmpty && cells.all isDashes

/-- What a line of a blockquote says behind its marker. -/
def quoteText (line : Bytes) : Bytes :=
  let q := (stringLtrim line).tail
  if startsWith q [32] then q.tail else q

/-- What is being read when a line is met. -/
inductive Mode where
  | text
  | code
  | header
  | table
  deriving DecidableEq

/-- What a line is. A line that may be the header of a table waits for the next one. -/
inductive Role where
  | fence
  | blank
  | rule
  | separator
  | content
  | waiting
  deriving DecidableEq

def Role.IsContent (role : Role) : Prop := role = .content ∨ role = .waiting

instance : DecidablePred Role.IsContent := fun _ => inferInstanceAs (Decidable (_ ∨ _))

/-- What a line is outside of code blocks and tables. -/
def playsText (line : Bytes) : Role × Mode :=
  if stringTrim line = [] then (.blank, .text)
  else if startsWith (stringLtrim line) (ascii ">") then (.content, .text)
  else if isHorizontalRule line then (.rule, .text)
  else if (parseHeading line).isSome ∨ (parseListItem line).isSome then (.content, .text)
  else if isTableCandidate line then (.waiting, .header)
  else (.content, .text)

/-- What a line is, and what is being read behind it. -/
def plays (mode : Mode) (line : Bytes) : Role × Mode :=
  match mode with
  | .code =>
    if isFence line then (.fence, .text)
    else if stringTrim line = [] then (.blank, .code)
    else (.content, .code)
  | .table =>
    if isFence line then (.fence, .code)
    else if isTableCandidate line then (.content, .table)
    else playsText line
  | .header =>
    if isFence line then (.fence, .code)
    else if isTableSeparatorLine line then (.separator, .table)
    else playsText line
  | .text => if isFence line then (.fence, .code) else playsText line

/-- What is being read behind the lines. -/
def modeAfter (lines : List Bytes) : Mode := lines.foldl (fun mode line => (plays mode line).2) .text

/-- What the line at a place is. -/
def roleAt (lines : List Bytes) (n : Nat) : Option Role :=
  lines[n]?.map fun line => (plays (modeAfter (lines.take n)) line).1

end ToiLang.Markdown
