import ToiLang.Markdown.ToHtml

namespace ToiLang.Markdown

open Markup (WellNested render escape walk)

/-! What the converter writes, as tokens, and the lines that each piece of it shows. -/

namespace Tag

def p : Markup.Name := ⟨ascii "p", by decide⟩
def blockquote : Markup.Name := ⟨ascii "blockquote", by decide⟩
def pre : Markup.Name := ⟨ascii "pre", by decide⟩
def li : Markup.Name := ⟨ascii "li", by decide⟩
def table : Markup.Name := ⟨ascii "table", by decide⟩
def thead : Markup.Name := ⟨ascii "thead", by decide⟩
def tbody : Markup.Name := ⟨ascii "tbody", by decide⟩
def tr : Markup.Name := ⟨ascii "tr", by decide⟩
def th : Markup.Name := ⟨ascii "th", by decide⟩
def td : Markup.Name := ⟨ascii "td", by decide⟩
def hr : Markup.Name := ⟨ascii "hr", by decide⟩
def id : Markup.Name := ⟨ascii "id", by decide⟩
def cssClass : Markup.Name := ⟨ascii "class", by decide⟩

end Tag

def ListKind.name : ListKind → Markup.Name
  | .ul => ⟨ascii "ul", by decide⟩
  | .ol => ⟨ascii "ol", by decide⟩

/-- The elements of a list and of its item, if that is open. -/
def Level.elements (level : Level) : List Markup.Name :=
  if level.liOpen then [Tag.li, level.kind.name] else [level.kind.name]

def elementsOf (stack : List Level) (inTable : Bool) : List Markup.Name :=
  stack.flatMap Level.elements ++ if inTable then [Tag.tbody, Tag.table] else []

/-- The elements that are open, the innermost first. -/
def State.elements (s : State) : List Markup.Name := elementsOf s.listStack s.inTable

theorem heading_letters : ∀ n < 7, [104, 48 + UInt8.ofNat n].all Markup.isNameByte = true := by decide

def Heading.name (heading : Heading) : Markup.Name :=
  ⟨[104, 48 + UInt8.ofNat heading.level], heading_letters _ (Nat.lt_succ_of_le heading.bounds.2)⟩

/-- The strings that are appended to the output at once, as tokens, and the lines that they show. -/
structure Part where
  pieces : List (List Markup.Token)
  lines : List Line

def Part.entry (part : Part) : Entry := ⟨part.pieces.map render, part.lines⟩

/-- The tag of an element without attributes. -/
def IsTag (token : Markup.Token) : Prop :=
  (∃ name, token = .opening name []) ∨ (∃ name, token = .closing name) ∨ ∃ name, token = .void name

def element (name : Markup.Name) (attrs : List (Markup.Name × Bytes)) (tokens : List Markup.Token) : List Markup.Token :=
  .opening name attrs :: tokens ++ [.closing name]

/-- The text of a code block: as it stands, or as the highlighter paints it. -/
def ShownCode (env : Env) (lang raw : Bytes) (tokens : List Markup.Token) : Prop :=
  if lang = [] then tokens = [.text raw] else render tokens = env.highlight raw lang ∧ WellNested tokens

def langAttrs (lang : Bytes) : List (Markup.Name × Bytes) :=
  if lang = [] then [] else [(Tag.cssClass, ascii "language-" ++ lang)]

/-- The part shows the inline text of its lines, each of them once and in order, and nothing else but tags. -/
inductive Shows (env : Env) : Part → Prop
  | tags {tokens : List Markup.Token} : (∀ t ∈ tokens, IsTag t) → Shows env ⟨[tokens], []⟩
  | paragraph {lines : List Line} {tokens : List Markup.Token} :
      Shown ((ascii " ").intercalate (lines.map Line.text)) tokens →
      Shows env ⟨[element Tag.p [] tokens], lines⟩
  | quote {quoted : List Quoted} {tokens : List Markup.Token} :
      Shown ((ascii " ").intercalate (quoted.map Quoted.text)) tokens →
      Shows env ⟨[element Tag.p [] tokens], quoted.map Quoted.line⟩
  | heading {line : Line} {heading : Heading} {tokens : List Markup.Token} : parseHeading line.text = some heading →
      Shown heading.text tokens →
      Shows env ⟨[element heading.name [(Tag.id, headingSlug env heading.text)] tokens], [line]⟩
  | item {line : Line} {item : ListItem} {tokens : List Markup.Token} : parseListItem line.text = some item →
      Shown item.text tokens → Shows env ⟨[.opening Tag.li [] :: tokens], [line]⟩
  | cells {line : Line} {cells : List (List Markup.Token)} (name : Markup.Name) :
      List.Forall₂ Shown (splitTableCells line.text) cells →
      Shows env ⟨cells.map (element name []), [line]⟩
  | code {lines : List Line} {lang : Bytes} {tokens : List Markup.Token} :
      ShownCode env lang (rawCode (lines.map Line.text)) tokens →
      Shows env ⟨[element Tag.pre [] (element Tag.code (langAttrs lang) tokens)], lines⟩

def tokensOf (parts : List Part) : List Markup.Token := parts.flatMap fun part => part.pieces.flatten

/-- The strings are those of parts that lead from the one open elements to the others. -/
def Emits (env : Env) (elements elements' : List Markup.Name) (out : List Entry) : Prop :=
  ∃ parts, out = parts.map Part.entry ∧ (∀ part ∈ parts, Shows env part) ∧
    walk elements (tokensOf parts) = some elements'

/-- What is written between two states leads from the elements of the one to those of the other. -/
def Writes (env : Env) (s s' : State) : Prop :=
  ∃ out, s'.out = s.out ++ out ∧ Emits env s.elements s'.elements out

variable {env : Env} {s s' s'' : State} {elements elements' elements'' : List Markup.Name}
  {out out' : List Entry} {tokens : List Markup.Token}

theorem Emits.nil : Emits env elements elements [] := ⟨[], rfl, by simp, rfl⟩

theorem Emits.append (h : Emits env elements elements' out) (h' : Emits env elements' elements'' out') :
    Emits env elements elements'' (out ++ out') := by
  obtain ⟨parts, hout, hshows, hwalk⟩ := h
  obtain ⟨parts', hout', hshows', hwalk'⟩ := h'
  refine ⟨parts ++ parts', by rw [hout, hout', List.map_append], ?_, ?_⟩
  · intro part hpart
    rcases List.mem_append.mp hpart with hp | hp
    · exact hshows part hp
    · exact hshows' part hp
  · rw [tokensOf, List.flatMap_append]
    exact (Markup.walk_trans hwalk).trans hwalk'

theorem Emits.part {part : Part} (h : Shows env part)
    (hwalk : walk elements part.pieces.flatten = some elements') : Emits env elements elements' [part.entry] := by
  refine ⟨[part], rfl, ?_, ?_⟩
  · intro p hp
    rwa [List.mem_singleton.mp hp]
  · rwa [tokensOf, List.flatMap_singleton]

/-- Tags only. -/
theorem Emits.tags {html : Bytes} (htokens : ∀ t ∈ tokens, IsTag t) (hhtml : html = render tokens)
    (hwalk : walk elements tokens = some elements') : Emits env elements elements' [⟨[html], []⟩] := by
  rw [hhtml]
  exact Emits.part (.tags htokens) (by simpa using hwalk)

/-- A part whose tokens are balanced. -/
theorem Emits.balanced {part : Part} (h : Shows env part) (hbalanced : WellNested part.pieces.flatten) :
    Emits env elements elements [part.entry] :=
  Emits.part h (hbalanced.walk elements)

theorem Writes.refl (s : State) : Writes env s s := ⟨[], (List.append_nil _).symm, Emits.nil⟩

theorem Writes.trans (h : Writes env s s') (h' : Writes env s' s'') : Writes env s s'' := by
  obtain ⟨out, hout, hemits⟩ := h
  obtain ⟨out', hout', hemits'⟩ := h'
  exact ⟨out ++ out', by rw [hout', hout, List.append_assoc], hemits.append hemits'⟩

/-- What touches neither the output nor the open elements. -/
theorem Writes.of_same (hout : s'.out = s.out) (helements : s'.elements = s.elements) : Writes env s s' :=
  ⟨[], by rw [hout, List.append_nil], helements ▸ Emits.nil⟩

theorem isTag_opening (name : Markup.Name) : IsTag (.opening name []) := .inl ⟨name, rfl⟩
theorem isTag_closing (name : Markup.Name) : IsTag (.closing name) := .inr (.inl ⟨name, rfl⟩)
theorem isTag_void (name : Markup.Name) : IsTag (.void name) := .inr (.inr ⟨name, rfl⟩)

theorem paragraphHtml_shown (texts : List Bytes) :
    ∃ tokens, paragraphHtml texts = render (element Tag.p [] tokens) ∧
      Shown ((ascii " ").intercalate texts) tokens := by
  obtain ⟨tokens, heq, hshown⟩ := parseInline_shown ((ascii " ").intercalate texts)
  refine ⟨tokens, ?_, hshown⟩
  rw [paragraphHtml, heq]
  simp [element, Markup.Token.render, Tag.p, ascii]

theorem flushParagraph_writes (s : State) : Writes env s s.flushParagraph := by
  unfold State.flushParagraph
  split
  · exact Writes.refl s
  · obtain ⟨tokens, heq, hshown⟩ := paragraphHtml_shown (s.paragraphLines.map Line.text)
    refine ⟨_, rfl, ?_⟩
    rw [heq]
    refine Emits.balanced (Shows.paragraph hshown) ?_
    rw [List.flatten_singleton]
    exact hshown.balanced.element Tag.p []

theorem flushBlockquote_writes (s : State) : Writes env s s.flushBlockquote := by
  unfold State.flushBlockquote
  split
  · exact Writes.refl s
  · obtain ⟨tokens, heq, hshown⟩ := paragraphHtml_shown (s.quoteLines.map Quoted.text)
    have hopen : Emits env s.elements (Tag.blockquote :: s.elements) [⟨[ascii "<blockquote>"], []⟩] :=
      @Emits.tags _ _ _ [.opening Tag.blockquote []] _ (by simp [isTag_opening]) (by decide) rfl
    have hclose : Emits env (Tag.blockquote :: s.elements) s.elements [⟨[ascii "</blockquote>"], []⟩] :=
      @Emits.tags _ _ _ [.closing Tag.blockquote] _ (by simp [isTag_closing]) (by decide) (if_pos rfl)
    have htext : Emits env (Tag.blockquote :: s.elements) (Tag.blockquote :: s.elements)
        [⟨[paragraphHtml (s.quoteLines.map Quoted.text)], s.quoteLines.map Quoted.line⟩] := by
      rw [heq]
      refine Emits.balanced (Shows.quote hshown) ?_
      rw [List.flatten_singleton]
      exact hshown.balanced.element Tag.p []
    refine ⟨_, ?_, (hopen.append htext).append hclose⟩
    simp [State.push]

theorem flushCodeBlock_writes (s : State) : Writes env s (s.flushCodeBlock env) := by
  have hcode : ∃ tokens, ShownCode env s.codeLang (rawCode (s.codeLines.map Line.text)) tokens ∧
      codeHtml env s.codeLang (rawCode (s.codeLines.map Line.text)) =
        render (element Tag.pre [] (element Tag.code (langAttrs s.codeLang) tokens)) ∧ WellNested tokens := by
    unfold ShownCode codeHtml langAttrs
    by_cases hlang : s.codeLang = []
    · simp only [if_pos hlang]
      refine ⟨_, rfl, ?_, WellNested.text _⟩
      simp [element, Markup.Token.render, Tag.pre, Tag.code, ascii, escapeHtml_eq]
    · simp only [if_neg hlang]
      obtain ⟨tokens, heq, hbalanced⟩ := env.highlighted (rawCode (s.codeLines.map Line.text)) s.codeLang
      refine ⟨tokens, ⟨heq.symm, hbalanced⟩, ?_, hbalanced⟩
      have hclass : escape (ascii "language-" ++ s.codeLang) = ascii "language-" ++ escapeHtml s.codeLang :=
        Markup.escape_append _ _
      rw [heq]
      simp only [element, render, List.cons_append, List.flatMap_cons, List.flatMap_append, Markup.Token.render,
        Markup.renderAttr, hclass]
      simp [Tag.pre, Tag.code, Tag.cssClass, ascii]
  obtain ⟨tokens, hshown, heq, hbalanced⟩ := hcode
  refine ⟨[⟨[codeHtml env s.codeLang (rawCode (s.codeLines.map Line.text))], s.codeLines⟩], rfl, ?_⟩
  rw [heq]
  refine Emits.balanced (Shows.code hshown) ?_
  rw [List.flatten_singleton]
  exact (hbalanced.element Tag.code _).element Tag.pre []

theorem elementsOf_cons (top : Level) (rest : List Level) (inTable : Bool) :
    elementsOf (top :: rest) inTable = top.elements ++ elementsOf rest inTable := by
  rw [elementsOf, List.flatMap_cons, List.append_assoc]
  rfl

theorem closeTable_writes (hlist : s.inTable = true → s.listStack = []) : Writes env s s.closeTable := by
  unfold State.closeTable
  by_cases htable : s.inTable = true
  · have hopen : s.elements = [Tag.tbody, Tag.table] := by
      rw [State.elements, hlist htable, htable]
      rfl
    have hclosed : elementsOf s.listStack false = [] := by
      rw [hlist htable]
      rfl
    have hemits : Emits env s.elements (elementsOf s.listStack false) [⟨[ascii "</tbody></table>"], []⟩] := by
      rw [hopen, hclosed]
      exact @Emits.tags _ _ _ [.closing Tag.tbody, .closing Tag.table] _
        (by simp [isTag_closing]) (by decide) (by decide)
    rw [if_pos htable]
    exact ⟨_, rfl, hemits⟩
  · rw [if_neg htable]
    exact Writes.refl s

/-- The item that is open in a list ends. -/
theorem closeItem_spec (s : State) (top : Level) (base : List Markup.Name) :
    ∃ out, s.closeItem top = { s with out := s.out ++ out } ∧
      Emits env (top.elements ++ base) (top.kind.name :: base) out := by
  unfold State.closeItem Level.elements
  by_cases hli : top.liOpen = true
  · refine ⟨[⟨[ascii "</li>"], []⟩], if_pos hli, ?_⟩
    rw [if_pos hli]
    exact @Emits.tags _ _ _ [.closing Tag.li] _ (by simp [isTag_closing]) (by decide) (if_pos rfl)
  · refine ⟨[], ?_, ?_⟩
    · rw [if_neg hli, List.append_nil]
    · rw [if_neg hli]
      exact Emits.nil

theorem kind_render (kind : ListKind) :
    ascii "<" ++ kind.text ++ ascii ">" = render [.opening kind.name []] ∧
      ascii "</" ++ kind.text ++ ascii ">" = render [.closing kind.name] := by
  cases kind <;> decide

theorem closeList_writes {top : Level} {rest : List Level} (h : s.listStack = top :: rest) :
    Writes env s (s.closeList top rest) := by
  obtain ⟨out, hout, hitem⟩ := @closeItem_spec env s top (elementsOf rest s.inTable)
  have hlist := @Emits.tags env (top.kind.name :: elementsOf rest s.inTable) _ [.closing top.kind.name] _
    (by simp [isTag_closing]) (kind_render top.kind).2 (if_pos rfl)
  have hboth := hitem.append hlist
  rw [← elementsOf_cons, ← h] at hboth
  refine ⟨out ++ [⟨[ascii "</" ++ top.kind.text ++ ascii ">"], []⟩], ?_, ?_⟩
  · rw [State.closeList, hout]
    exact List.append_assoc _ _ _
  · rw [State.closeList, hout]
    exact hboth

theorem closeWhile_writes (cond : Level → Bool) {stack : List Level} (h : s.listStack = stack) :
    Writes env s (State.closeWhile cond stack s) := by
  induction stack generalizing s with
  | nil => exact Writes.refl s
  | cons top rest ih =>
    rw [State.closeWhile]
    split
    · exact (closeList_writes h).trans (ih rfl)
    · exact Writes.refl s

theorem openList_writes (item : ListItem) : Writes env s (s.openList item) := by
  refine ⟨_, rfl, ?_⟩
  exact @Emits.tags _ _ _ [.opening item.kind.name []] _ (by simp [isTag_opening]) (kind_render item.kind).1 rfl

theorem putItem_writes {item : ListItem} {line : Line} (hitem : parseListItem line.text = some item) :
    Writes env s (s.putItem item line) := by
  unfold State.putItem
  cases hstack : s.listStack with
  | nil => exact Writes.refl s
  | cons top rest =>
    obtain ⟨out, hout, hclose⟩ := @closeItem_spec env s top (elementsOf rest s.inTable)
    obtain ⟨tokens, heq, hshown⟩ := parseInline_shown item.text
    have hwalk : walk (top.kind.name :: elementsOf rest s.inTable) [.opening Tag.li [] :: tokens].flatten =
        some (Tag.li :: top.kind.name :: elementsOf rest s.inTable) := by
      rw [List.flatten_singleton]
      exact hshown.balanced.walk _
    have hput := Emits.part (@Shows.item env _ _ _ hitem hshown) hwalk
    rw [Part.entry, List.map_singleton, Markup.render_cons, ← heq] at hput
    have hboth := hclose.append hput
    rw [← elementsOf_cons, ← hstack] at hboth
    refine ⟨out ++ [⟨[ascii "<li>" ++ parseInline item.text], [line]⟩], ?_, ?_⟩
    · dsimp only
      rw [hout]
      exact List.append_assoc _ _ _
    · dsimp only
      rw [hout]
      exact hboth

theorem listFor_writes (item : ListItem) : Writes env s (s.listFor item) := by
  unfold State.listFor
  split
  · exact openList_writes item
  · split
    · exact openList_writes item
    · exact Writes.refl s

theorem emitListItem_writes {item : ListItem} {line : Line} (hitem : parseListItem line.text = some item) :
    Writes env s (s.emitListItem item line) := by
  have hdeeper : Writes env s (s.closeDeeper item) := closeWhile_writes _ rfl
  have hother : Writes env (s.closeDeeper item) ((s.closeDeeper item).closeOther item) := closeWhile_writes _ rfl
  exact ((hdeeper.trans hother).trans (listFor_writes item)).trans (putItem_writes hitem)

/-- The cells of a row or of a header. -/
theorem cellsHtml_shown (line : Line) (name : Markup.Name) {elements : List Markup.Name} :
    Emits env elements elements [⟨cellsHtml name.text line.text, [line]⟩] := by
  have hcells : ∀ texts : List Bytes, ∃ cells, List.Forall₂ Shown texts cells ∧
      (texts.map fun c => ascii "<" ++ name.text ++ ascii ">" ++ parseInline c ++
        (ascii "</" ++ name.text ++ ascii ">")) = (cells.map (element name [])).map render ∧
      WellNested (cells.map (element name [])).flatten := by
    intro texts
    induction texts with
    | nil => exact ⟨[], .nil, rfl, WellNested.nil⟩
    | cons c texts ih =>
      obtain ⟨cells, hshown, heq, hbalanced⟩ := ih
      obtain ⟨tokens, htokens, hc⟩ := parseInline_shown c
      refine ⟨tokens :: cells, .cons hc hshown, ?_, (hc.balanced.element name []).append hbalanced⟩
      rw [List.map_cons, heq, htokens]
      simp [element, Markup.Token.render, ascii]
  obtain ⟨cells, hshown, heq, hbalanced⟩ := hcells (splitTableCells line.text)
  rw [cellsHtml, heq]
  exact Emits.balanced (Shows.cells name hshown) hbalanced

/-- A row of a table. -/
theorem row_writes (line : Line) : Writes env s
    (((s.push [ascii "<tr>"] []).push (cellsHtml (ascii "td") line.text) [line]).push [ascii "</tr>"] []) := by
  have hopen : Emits env s.elements (Tag.tr :: s.elements) [⟨[ascii "<tr>"], []⟩] :=
    @Emits.tags _ _ _ [.opening Tag.tr []] _ (by simp [isTag_opening]) (by decide) rfl
  have hclose : Emits env (Tag.tr :: s.elements) s.elements [⟨[ascii "</tr>"], []⟩] :=
    @Emits.tags _ _ _ [.closing Tag.tr] _ (by simp [isTag_closing]) (by decide) (if_pos rfl)
  refine ⟨_, ?_, (hopen.append (cellsHtml_shown line Tag.td)).append hclose⟩
  simp [State.push, Tag.td]

theorem flushAll_listStack (s : State) : s.flushAll.listStack = [] := by
  have hclosed : ∀ (stack : List Level) (t : State), t.listStack = stack →
      (State.closeWhile (fun _ => true) stack t).listStack = [] := by
    intro stack
    induction stack with
    | nil => exact fun t ht => ht
    | cons top rest ih => exact fun t _ => ih _ rfl
  exact hclosed _ _ rfl

end ToiLang.Markdown
