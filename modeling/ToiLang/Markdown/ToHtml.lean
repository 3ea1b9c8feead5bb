import ToiLang.Markdown.Lines

namespace ToiLang.Markdown

open Http (splitWith stringTrim)

/-! The converter itself. Each line carries the numbers of the lines of the input that it holds, and each
piece of the output the lines whose text it shows; the code has the texts only. -/

/-- `regex.replace`, and the highlighter of code blocks, which writes balanced markup. -/
structure Env where
  regexReplace : Bytes → Bytes → Bytes → Bytes
  highlight : Bytes → Bytes → Bytes
  highlighted : ∀ code lang, ∃ tokens, highlight code lang = Markup.render tokens ∧ Markup.WellNested tokens

structure Line where
  numbers : List Nat
  text : Bytes

/-- A line of a blockquote and what is kept of it. -/
structure Quoted where
  line : Line
  text : Bytes
  isText : text = quoteText line.text

/-- What is appended to `out` at once, and the lines that it shows. -/
structure Entry where
  html : List Bytes
  lines : List Line

structure Level where
  kind : ListKind
  indent : Nat
  liOpen : Bool

/-- The variables of `to_html`; the top of `list_stack` comes first. -/
structure State where
  out : List Entry
  paragraphLines : List Line
  codeLines : List Line
  quoteLines : List Quoted
  listStack : List Level
  inCodeBlock : Bool
  codeLang : Bytes
  pendingTableHeader : Option Line
  inTable : Bool

def State.start : State := ⟨[], [], [], [], [], false, [], none, false⟩

def State.push (s : State) (html : List Bytes) (lines : List Line) : State :=
  { s with out := s.out ++ [⟨html, lines⟩] }

def headingSlug (env : Env) (text : Bytes) : Bytes :=
  let slug := stringTrimOf 45 (env.regexReplace (ascii "[^a-z0-9]+") (ascii "-") (lower text))
  if slug = [] then ascii "section" else slug

def ListKind.text : ListKind → Bytes
  | .ul => ascii "ul"
  | .ol => ascii "ol"

def paragraphHtml (lines : List Bytes) : Bytes :=
  ascii "<p>" ++ parseInline ((ascii " ").intercalate lines) ++ ascii "</p>"

def State.flushParagraph (s : State) : State :=
  if s.paragraphLines = [] then s
  else
    { s.push [paragraphHtml (s.paragraphLines.map Line.text)] s.paragraphLines with paragraphLines := [] }

def State.flushBlockquote (s : State) : State :=
  if s.quoteLines = [] then s
  else
    let s' := ((s.push [ascii "<blockquote>"] []).push [paragraphHtml (s.quoteLines.map Quoted.text)]
      (s.quoteLines.map Quoted.line)).push [ascii "</blockquote>"] []
    { s' with quoteLines := [] }

/-- The text of a code block: its lines without the line breaks at the end. -/
def rawCode (lines : List Bytes) : Bytes := ((ascii "\n").intercalate lines).rdropWhile (· = 10)

def codeHtml (env : Env) (lang : Bytes) (raw : Bytes) : Bytes :=
  if lang = [] then ascii "<pre><code>" ++ escapeHtml raw ++ ascii "</code></pre>"
  else
    ascii "<pre><code class=\"language-" ++ escapeHtml lang ++ ascii "\">" ++ env.highlight raw lang ++
      ascii "</code></pre>"

def State.flushCodeBlock (env : Env) (s : State) : State :=
  { s.push [codeHtml env s.codeLang (rawCode (s.codeLines.map Line.text))] s.codeLines with codeLines := [] }

/-- The end of the item of a list, if one is open. -/
def State.closeItem (s : State) (top : Level) : State := if top.liOpen then s.push [ascii "</li>"] [] else s

/-- The pass of the loops that close a list. -/
def State.closeList (s : State) (top : Level) (rest : List Level) : State :=
  { (s.closeItem top).push [ascii "</" ++ top.kind.text ++ ascii ">"] [] with listStack := rest }

/-- The loops that close lists from the top of the stack on, as long as the condition holds. -/
def State.closeWhile (cond : Level → Bool) : List Level → State → State
  | [], s => s
  | top :: rest, s => if cond top then closeWhile cond rest (s.closeList top rest) else s

def State.closeListStack (s : State) : State := closeWhile (fun _ => true) s.listStack s

def State.openList (s : State) (item : ListItem) : State :=
  { s.push [ascii "<" ++ item.kind.text ++ ascii ">"] [] with
    listStack := ⟨item.kind, item.indent, false⟩ :: s.listStack }

/-- The item itself, in the list on the top of the stack. -/
def State.putItem (s : State) (item : ListItem) (line : Line) : State :=
  match s.listStack with
  | [] => s
  | top :: rest =>
    { (s.closeItem top).push [ascii "<li>" ++ parseInline item.text] [line] with
      listStack := { top with liOpen := true } :: rest }

/-- The list that an item goes to, opened for it if it stands further in than the lists that are open. -/
def State.listFor (s : State) (item : ListItem) : State :=
  match s.listStack with
  | [] => s.openList item
  | top :: _ => if top.indent < item.indent then s.openList item else s

/-- The lists that stand further in than the item are closed, then those of the other kind. -/
def State.closeDeeper (s : State) (item : ListItem) : State :=
  closeWhile (fun top => item.indent < top.indent) s.listStack s

def State.closeOther (s : State) (item : ListItem) : State :=
  closeWhile (fun top => item.indent = top.indent && item.kind ≠ top.kind) s.listStack s

def State.emitListItem (s : State) (item : ListItem) (line : Line) : State :=
  (((s.closeDeeper item).closeOther item).listFor item).putItem item line

def State.flushAll (s : State) : State := s.flushParagraph.flushBlockquote.closeListStack

/-- The end of the table, if one is open. -/
def State.closeTable (s : State) : State :=
  if s.inTable then { s.push [ascii "</tbody></table>"] [] with inTable := false } else s

def cellsHtml (tag : Bytes) (line : Bytes) : List Bytes :=
  (splitTableCells line).map fun c =>
    ascii "<" ++ tag ++ ascii ">" ++ parseInline c ++ (ascii "</" ++ tag ++ ascii ">")

def headingHtml (env : Env) (heading : Heading) : Bytes :=
  let level := [48 + UInt8.ofNat heading.level]
  ascii "<h" ++ level ++ ascii " id=\"" ++ escapeHtml (headingSlug env heading.text) ++ ascii "\">" ++
    parseInline heading.text ++ ascii "</h" ++ level ++ ascii ">"

/-- A line outside of code blocks and tables. -/
def State.textLine (env : Env) (s : State) (line : Line) : State :=
  if stringTrim line.text = [] then s.flushAll
  else if startsWith (stringLtrim line.text) (ascii ">") then
    let s := s.flushParagraph.closeListStack
    { s with quoteLines := s.quoteLines ++ [⟨line, quoteText line.text, rfl⟩] }
  else
    let s := s.flushBlockquote
    if isHorizontalRule line.text then s.flushParagraph.closeListStack.push [ascii "<hr />"] []
    else
      match parseHeading line.text with
      | some heading => s.flushParagraph.closeListStack.push [headingHtml env heading] [line]
      | none =>
        match parseListItem line.text with
        | some item => s.flushParagraph.flushBlockquote.emitListItem item line
        | none =>
          if isTableCandidate line.text then { s.flushAll with pendingTableHeader := some line }
          else
            let s := s.closeListStack
            { s with paragraphLines := s.paragraphLines ++ [line] }

/-- The table that a header and the line of dashes behind it begin. -/
def State.openTable (s : State) (header : Line) : State :=
  let s := s.flushAll.push [ascii "<table><thead><tr>"] []
  let s := (s.push (cellsHtml (ascii "th") header.text) [header]).push [ascii "</tr></thead><tbody>"] []
  { s with pendingTableHeader := none, inTable := true }

/-- What no longer waits to be a header is text of a paragraph. -/
def State.dropHeader (s : State) : State :=
  match s.pendingTableHeader with
  | some header => { s with paragraphLines := s.paragraphLines ++ [header], pendingTableHeader := none }
  | none => s

/-- The fence that opens a code block. The header that waits is forgotten here. -/
def State.openCode (s : State) (line : Line) : State :=
  { s.flushAll.closeTable with pendingTableHeader := none, inCodeBlock := true, codeLang := stringTrim (line.text.drop 3) }

/-- The pass of the loop of `to_html` for one line. -/
def State.step (env : Env) (s : State) (line : Line) : State :=
  if s.inCodeBlock then
    if isFence line.text then { s.flushCodeBlock env with inCodeBlock := false, codeLang := [] }
    else { s with codeLines := s.codeLines ++ [line] }
  else if isFence line.text then s.openCode line
  else if s.inTable ∧ isTableCandidate line.text then
    ((s.push [ascii "<tr>"] []).push (cellsHtml (ascii "td") line.text) [line]).push [ascii "</tr>"] []
  else
    let s := s.closeTable
    match s.pendingTableHeader with
    | some header =>
      if isTableSeparatorLine line.text then s.openTable header else s.dropHeader.textLine env line
    | none => s.textLine env line

/-- What is open behind the last line. -/
def State.finish (env : Env) (s : State) : State :=
  let s := s.dropHeader.flushAll.closeTable
  if s.inCodeBlock then s.flushCodeBlock env else s

/-- The parts that `split` makes of a text with `total` lines: one line each from the given number on, and
the last of them all the lines that are left. -/
def numbered (total : Nat) : Nat → List Bytes → List Line
  | _, [] => []
  | n, [part] => [⟨List.range' n (total - n), dropCr part⟩]
  | n, part :: part' :: parts => ⟨[n], dropCr part⟩ :: numbered total (n + 1) (part' :: parts)

/-- The lines of a text, each without its line break. -/
def inputLines (markdown : Bytes) : List Bytes := (markdown.splitOn 10).map dropCr

def entries (env : Env) (markdown : Bytes) : List Entry :=
  let lines := numbered (inputLines markdown).length 0 (splitWith [10] (markdown.length + 1) markdown)
  ((lines.foldl (State.step env) State.start).finish env).out

def toHtml (env : Env) (markdown : Bytes) : Bytes :=
  (ascii "\n").intercalate ((entries env markdown).flatMap Entry.html)

end ToiLang.Markdown
