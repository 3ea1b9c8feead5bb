import ToiLang.Markdown.Nesting

namespace ToiLang.Markdown

open Markup (render)
open Http (stringTrim)

/-! What one line does: what is written for it, and where its own text goes. -/

/-- How often a line is held. -/
def timesIn (n : Nat) (lines : List Line) : Nat := (lines.flatMap Line.numbers).count n

/-- How often a line is shown or waits to be shown. -/
def State.weight (s : State) (n : Nat) : Nat :=
  timesIn n (s.out.flatMap Entry.lines) + timesIn n (s.quoteLines.map Quoted.line) +
    timesIn n s.paragraphLines + timesIn n s.codeLines + timesIn n s.pendingTableHeader.toList

/-- A header waits outside of tables and of code blocks only, a table is in no list, and the lines of a
code block are written at its end. -/
structure State.Tidy (s : State) : Prop where
  table : s.inTable = true → s.listStack = [] ∧ s.pendingTableHeader = none
  code : s.inCodeBlock = true → s.inTable = false ∧ s.pendingTableHeader = none
  plain : s.inCodeBlock = false → s.codeLines = []

def State.mode (s : State) : Mode :=
  if s.inCodeBlock then .code
  else if s.inTable then .table
  else if s.pendingTableHeader.isSome then .header
  else .text

/-- What decides how the next line is read. -/
def State.context (s : State) : Bool × Bool × Option Line × List Line :=
  (s.inCodeBlock, s.inTable, s.pendingTableHeader, s.codeLines)

/-- The text that is shown or waits stays the same, and so does the way that the next line is read. -/
structure Keeps (env : Env) (s s' : State) : Prop where
  writes : Writes env s s'
  context : s'.context = s.context
  weight : ∀ n, s'.weight n = s.weight n

/-- A line that is read as `role` leads to a state that reads on in the mode. The header that waits at a
fence is lost. -/
structure Processes (env : Env) (s s' : State) (line : Line) (role : Role) (mode : Mode) : Prop where
  writes : Writes env s s'
  tidy : s'.Tidy
  reads : s'.mode = mode
  pending : s'.pendingTableHeader = if role = .waiting then some line else none
  others : ∀ n ∉ line.numbers,
    s'.weight n + (if role = .fence then timesIn n s.pendingTableHeader.toList else 0) = s.weight n
  itself : role.IsContent → ∀ n, s'.weight n = s.weight n + line.numbers.count n

variable {env : Env} {s s' s'' : State} {line : Line} {role : Role} {mode : Mode} {n : Nat}

@[simp] theorem timesIn_nil : timesIn n [] = 0 := rfl

@[simp] theorem timesIn_append (a b : List Line) : timesIn n (a ++ b) = timesIn n a + timesIn n b := by
  simp [timesIn]

@[simp] theorem timesIn_singleton (line : Line) : timesIn n [line] = line.numbers.count n := by
  simp [timesIn]

theorem Keeps.refl (s : State) : Keeps env s s := ⟨Writes.refl s, rfl, fun _ => rfl⟩

theorem Keeps.trans (h : Keeps env s s') (h' : Keeps env s' s'') : Keeps env s s'' :=
  ⟨h.writes.trans h'.writes, h'.context.trans h.context, fun n => (h'.weight n).trans (h.weight n)⟩

theorem flushParagraph_keeps (s : State) : Keeps env s s.flushParagraph := by
  refine ⟨flushParagraph_writes s, ?_, ?_⟩
  all_goals unfold State.flushParagraph
  · split <;> rfl
  · intro n
    split
    · rfl
    · simp [State.weight, State.push]
      omega

theorem flushBlockquote_keeps (s : State) : Keeps env s s.flushBlockquote := by
  refine ⟨flushBlockquote_writes s, ?_, ?_⟩
  all_goals unfold State.flushBlockquote
  · split <;> rfl
  · intro n
    split
    · rfl
    · simp [State.weight, State.push]

theorem closeItem_same (s : State) (top : Level) :
    (s.closeItem top).context = s.context ∧ ∀ n, (s.closeItem top).weight n = s.weight n := by
  unfold State.closeItem
  split
  · exact ⟨rfl, fun n => by simp [State.weight, State.push]⟩
  · exact ⟨rfl, fun _ => rfl⟩

theorem closeList_keeps {top : Level} {rest : List Level} (h : s.listStack = top :: rest) :
    Keeps env s (s.closeList top rest) := by
  obtain ⟨hcontext, hweight⟩ := closeItem_same s top
  refine ⟨closeList_writes h, hcontext, ?_⟩
  intro n
  rw [← hweight n]
  simp [State.weight, State.closeList, State.push]

theorem closeWhile_keeps (cond : Level → Bool) {stack : List Level} (h : s.listStack = stack) :
    Keeps env s (State.closeWhile cond stack s) := by
  induction stack generalizing s with
  | nil => exact Keeps.refl s
  | cons top rest ih =>
    rw [State.closeWhile]
    split
    · exact (closeList_keeps h).trans (ih rfl)
    · exact Keeps.refl s

theorem flushAll_keeps (s : State) : Keeps env s s.flushAll :=
  (flushParagraph_keeps s).trans ((flushBlockquote_keeps _).trans (closeWhile_keeps _ rfl))

theorem listFor_keeps (item : ListItem) : Keeps env s (s.listFor item) := by
  have hopen : Keeps env s (s.openList item) :=
    ⟨openList_writes item, rfl, fun n => by simp [State.weight, State.openList, State.push]⟩
  unfold State.listFor
  split
  · exact hopen
  · split
    · exact hopen
    · exact Keeps.refl s

theorem listFor_listStack (item : ListItem) : ∃ top rest, (s.listFor item).listStack = top :: rest := by
  unfold State.listFor
  split
  · exact ⟨_, _, rfl⟩
  · split
    · exact ⟨_, _, rfl⟩
    next top rest hstack _ => exact ⟨top, rest, hstack⟩

/-- An item is shown once. -/
theorem emitListItem_shows (env : Env) (s : State) (item : ListItem) (line : Line) :
    (s.emitListItem item line).context = s.context ∧
      ∀ n, (s.emitListItem item line).weight n = s.weight n + line.numbers.count n := by
  have hdeeper : Keeps env s (s.closeDeeper item) := closeWhile_keeps _ rfl
  have hother : Keeps env (s.closeDeeper item) ((s.closeDeeper item).closeOther item) := closeWhile_keeps _ rfl
  have hkeeps := (hdeeper.trans hother).trans (listFor_keeps item)
  obtain ⟨top, rest, hstack⟩ := @listFor_listStack ((s.closeDeeper item).closeOther item) item
  unfold State.emitListItem State.putItem
  rw [hstack]
  obtain ⟨hcontext, hweight⟩ := closeItem_same (((s.closeDeeper item).closeOther item).listFor item) top
  refine ⟨hcontext.trans hkeeps.context, ?_⟩
  intro n
  rw [← hkeeps.weight n, ← hweight n]
  simp [State.weight, State.push]
  omega

/-- A line outside of code blocks and tables that is read as text of some kind. -/
theorem Processes.of_text (hmode : mode = if role = .waiting then .header else .text) (hfence : role ≠ .fence)
    (hwrites : Writes env s s')
    (hcontext : s'.context = (false, false, if role = .waiting then some line else none, []))
    (hweight : ∀ n, s'.weight n = s.weight n + if role.IsContent then line.numbers.count n else 0) :
    Processes env s s' line role mode := by
  simp only [State.context, Prod.mk.injEq] at hcontext
  obtain ⟨hcode, htable, hpending, hlines⟩ := hcontext
  refine ⟨hwrites, ⟨by simp [htable], by simp [hcode], fun _ => hlines⟩, ?_, hpending, ?_, ?_⟩
  · rw [hmode, State.mode, hcode, htable, hpending]
    by_cases hwaiting : role = .waiting
    · simp [hwaiting]
    · simp [hwaiting]
  · intro n hn
    rw [if_neg hfence, hweight, List.count_eq_zero_of_not_mem hn]
    simp
  · intro hcontent n
    rw [hweight, if_pos hcontent]

theorem heading_writes {heading : Heading} (h : parseHeading line.text = some heading) :
    Writes env s (s.push [headingHtml env heading] [line]) := by
  obtain ⟨tokens, heq, hshown⟩ := parseInline_shown heading.text
  have hhtml : headingHtml env heading =
      render (element heading.name [(Tag.id, headingSlug env heading.text)] tokens) := by
    rw [headingHtml, heq, escapeHtml_eq]
    simp [element, Markup.Token.render, Markup.renderAttr, Heading.name, Tag.id, ascii]
  refine ⟨[⟨[headingHtml env heading], [line]⟩], rfl, ?_⟩
  rw [hhtml]
  refine Emits.balanced (Shows.heading h hshown) ?_
  rw [List.flatten_singleton]
  exact hshown.balanced.element _ _

theorem textLine_processes (hs : s.context = (false, false, none, [])) :
    Processes env s (s.textLine env line) line (playsText line.text).1 (playsText line.text).2 := by
  have hall := @flushAll_keeps env s
  unfold State.textLine playsText
  by_cases hblank : stringTrim line.text = []
  · rw [if_pos hblank, if_pos hblank]
    exact Processes.of_text rfl (by decide) hall.writes (hall.context.trans hs) hall.weight
  rw [if_neg hblank, if_neg hblank]
  by_cases hquote : startsWith (stringLtrim line.text) (ascii ">") = true
  · rw [if_pos hquote, if_pos hquote]
    have hflush : Keeps env s s.flushParagraph.closeListStack :=
      (flushParagraph_keeps s).trans (closeWhile_keeps _ rfl)
    refine Processes.of_text rfl (by decide) ?_ (hflush.context.trans hs) ?_
    · exact hflush.writes.trans (Writes.of_same rfl rfl)
    · intro n
      rw [← hflush.weight n]
      simp [State.weight, Role.IsContent]
      omega
  rw [if_neg hquote, if_neg hquote]
  have hflush : Keeps env s s.flushBlockquote.flushParagraph.closeListStack :=
    (flushBlockquote_keeps s).trans ((flushParagraph_keeps _).trans (closeWhile_keeps _ rfl))
  by_cases hrule : isHorizontalRule line.text = true
  · rw [if_pos hrule, if_pos hrule]
    refine Processes.of_text rfl (by decide) ?_ (hflush.context.trans hs) ?_
    · refine hflush.writes.trans ⟨_, rfl, ?_⟩
      exact @Emits.tags _ _ _ [.void Tag.hr] _ (by simp [isTag_void]) (by decide) rfl
    · intro n
      rw [← hflush.weight n]
      simp [State.weight, State.push, Role.IsContent]
  rw [if_neg hrule, if_neg hrule]
  cases hheading : parseHeading line.text with
  | some heading =>
    rw [if_pos (Or.inl (show (some heading).isSome = true from rfl))]
    refine Processes.of_text rfl (by decide) ?_ (hflush.context.trans hs) ?_
    · exact hflush.writes.trans (heading_writes hheading)
    · intro n
      rw [← hflush.weight n]
      simp [State.weight, State.push, Role.IsContent]
      omega
  | none =>
    cases hitem : parseListItem line.text with
    | some item =>
      rw [if_pos (Or.inr (show (some item).isSome = true from rfl))]
      have hboth : Keeps env s s.flushBlockquote.flushParagraph.flushBlockquote :=
        (flushBlockquote_keeps s).trans ((flushParagraph_keeps _).trans (flushBlockquote_keeps _))
      obtain ⟨hcontext, hweight⟩ := emitListItem_shows env s.flushBlockquote.flushParagraph.flushBlockquote item line
      refine Processes.of_text rfl (by decide) ?_ (hcontext.trans (hboth.context.trans hs)) ?_
      · exact hboth.writes.trans (emitListItem_writes hitem)
      · intro n
        rw [← hboth.weight n, hweight]
        simp [Role.IsContent]
    | none =>
      have hnone : ¬((none : Option Heading).isSome = true ∨ (none : Option ListItem).isSome = true) := by simp
      rw [if_neg hnone]
      dsimp only
      by_cases hcandidate : isTableCandidate line.text = true
      · have hwait : Keeps env s s.flushBlockquote.flushAll := (flushBlockquote_keeps s).trans (flushAll_keeps _)
        rw [if_pos hcandidate, if_pos hcandidate]
        have hcontext := hwait.context.trans hs
        simp only [State.context, Prod.mk.injEq] at hcontext
        refine Processes.of_text rfl (by decide) (hwait.writes.trans (Writes.of_same rfl rfl)) ?_ ?_
        · simp [State.context, hcontext.1, hcontext.2.1, hcontext.2.2.2]
        · intro n
          rw [← hwait.weight n]
          simp [State.weight, Role.IsContent, hcontext.2.2.1]
      · have hclose : Keeps env s s.flushBlockquote.closeListStack :=
          (flushBlockquote_keeps s).trans (closeWhile_keeps _ rfl)
        rw [if_neg hcandidate, if_neg hcandidate]
        refine Processes.of_text rfl (by decide) (hclose.writes.trans (Writes.of_same rfl rfl))
          (hclose.context.trans hs) ?_
        intro n
        rw [← hclose.weight n]
        simp [State.weight, Role.IsContent]
        omega

theorem playsText_ne_fence (line : Bytes) : (playsText line).1 ≠ .fence := by
  unfold playsText
  split_ifs <;> simp

/-- What is read as text behind a state that shows the same. -/
theorem text_processes (hwrites : Writes env s s') (hcontext : s'.context = (false, false, none, []))
    (hweight : ∀ n, s'.weight n = s.weight n) :
    Processes env s (s'.textLine env line) line (playsText line.text).1 (playsText line.text).2 := by
  have h := @textLine_processes env s' line hcontext
  refine ⟨hwrites.trans h.writes, h.tidy, h.reads, h.pending, ?_, ?_⟩
  · intro n hn
    have hothers := h.others n hn
    rw [if_neg (playsText_ne_fence line.text)] at hothers ⊢
    rw [hothers, hweight n]
  · intro hcontent n
    rw [h.itself hcontent n, hweight n]

/-- What waits goes to a paragraph before the line is read as text. -/
theorem dropHeader_spec (s : State) :
    Writes env s s.dropHeader ∧ s.dropHeader.context = (s.inCodeBlock, s.inTable, none, s.codeLines) ∧
      s.dropHeader.listStack = s.listStack ∧ ∀ n, s.dropHeader.weight n = s.weight n := by
  unfold State.dropHeader
  cases hpending : s.pendingTableHeader with
  | none => exact ⟨Writes.refl s, by rw [State.context, hpending], rfl, fun _ => rfl⟩
  | some header =>
    refine ⟨Writes.of_same rfl rfl, rfl, rfl, ?_⟩
    intro n
    simp [State.weight, hpending]
    omega

theorem closeTable_same (s : State) :
    s.closeTable.context = (s.inCodeBlock, false, s.pendingTableHeader, s.codeLines) ∧ ∀ n, s.closeTable.weight n = s.weight n := by
  unfold State.closeTable
  by_cases htable : s.inTable = true
  · rw [if_pos htable]
    exact ⟨rfl, fun n => by simp [State.weight, State.push]⟩
  · rw [if_neg htable]
    exact ⟨by simp [State.context, htable], fun _ => rfl⟩

/-- The line of dashes behind a header opens the table. -/
theorem openTable_processes {header : Line} (hs : s.Tidy) (hpending : s.pendingTableHeader = some header)
    (hcode : s.inCodeBlock = false) (htable : s.inTable = false) :
    Processes env s (s.openTable header) line .separator .table := by
  have hall := @flushAll_keeps env s
  have hcontext := hall.context
  simp only [State.context, Prod.mk.injEq] at hcontext
  have helements : s.flushAll.elements = [] := by
    rw [State.elements, flushAll_listStack, hcontext.2.1, htable]
    rfl
  refine ⟨?_, ⟨fun _ => ⟨flushAll_listStack s, rfl⟩, ?_, ?_⟩, ?_, rfl, ?_, ?_⟩
  · have hopen : Emits env s.flushAll.elements [Tag.tr, Tag.thead, Tag.table] [⟨[ascii "<table><thead><tr>"], []⟩] := by
      rw [helements]
      exact @Emits.tags _ _ _ [.opening Tag.table [], .opening Tag.thead [], .opening Tag.tr []] _
        (by simp [isTag_opening]) (by decide) rfl
    have hclose : Emits env [Tag.tr, Tag.thead, Tag.table] [Tag.tbody, Tag.table]
        [⟨[ascii "</tr></thead><tbody>"], []⟩] :=
      @Emits.tags _ _ _ [.closing Tag.tr, .closing Tag.thead, .opening Tag.tbody []] _
        (by simp [isTag_opening, isTag_closing]) (by decide) (by decide)
    have htokens := (hopen.append (cellsHtml_shown header Tag.th)).append hclose
    have hafter : (s.openTable header).elements = [Tag.tbody, Tag.table] := by
      change elementsOf s.flushAll.listStack true = _
      rw [flushAll_listStack]
      rfl
    have hout : (s.openTable header).out = s.flushAll.out ++ (([⟨[ascii "<table><thead><tr>"], []⟩] ++
        [⟨cellsHtml Tag.th.text header.text, [header]⟩]) ++ [⟨[ascii "</tr></thead><tbody>"], []⟩]) := by
      simp [State.openTable, State.push, Tag.th]
    exact hall.writes.trans ⟨_, hout, hafter ▸ htokens⟩
  · intro h
    have : s.flushAll.inCodeBlock = true := h
    rw [hcontext.1, hcode] at this
    cases this
  · exact fun _ => hcontext.2.2.2.trans (hs.plain hcode)
  · change (if s.flushAll.inCodeBlock = true then Mode.code else _) = Mode.table
    rw [hcontext.1, hcode]
    rfl
  · intro n hn
    rw [if_neg (by decide), ← hall.weight n]
    simp [State.weight, State.openTable, State.push, hcontext.2.2.1, hpending]
    omega
  · intro hcontent
    exact absurd hcontent (by decide)

/-- A fence opens a code block. -/
theorem openCode_processes (s : State) (line : Line) :
    Processes env s (s.openCode line) line .fence .code := by
  have hall := @flushAll_keeps env s
  obtain ⟨hcontext, hweight⟩ := closeTable_same s.flushAll
  have hfirst := hall.context
  simp only [State.context, Prod.mk.injEq] at hcontext hfirst
  refine ⟨?_, ⟨?_, fun _ => ⟨hcontext.2.1, rfl⟩, ?_⟩, rfl, rfl, ?_, ?_⟩
  · exact hall.writes.trans ((closeTable_writes fun _ => flushAll_listStack s).trans (Writes.of_same rfl rfl))
  · intro h
    exact absurd (hcontext.2.1.symm.trans h) (by decide)
  · exact fun h => absurd (show true = false from h) (by decide)
  · intro n hn
    rw [if_pos rfl, ← hall.weight n, ← hweight n]
    simp [State.weight, State.openCode, hcontext.2.2.1, hfirst.2.2.1]
  · intro hcontent
    exact absurd hcontent (by decide)

/-- A line of a code block. -/
theorem code_processes (hs : s.Tidy) (hcode : s.inCodeBlock = true) :
    Processes env s (s.step env line) line (plays .code line.text).1 (plays .code line.text).2 := by
  obtain ⟨htable, hpending⟩ := hs.code hcode
  unfold State.step plays
  rw [if_pos hcode]
  dsimp only
  by_cases hfence : isFence line.text = true
  · rw [if_pos hfence, if_pos hfence]
    refine ⟨(flushCodeBlock_writes s).trans (Writes.of_same rfl rfl), ?_, ?_, hpending, ?_, ?_⟩
    · exact ⟨fun h => absurd (htable.symm.trans h) (by decide),
        fun h => absurd (show false = true from h) (by decide), fun _ => rfl⟩
    · simp [State.mode, State.flushCodeBlock, State.push, htable, hpending]
    · intro n hn
      rw [hpending]
      simp [State.weight, State.flushCodeBlock, State.push, hpending]
      omega
    · intro hcontent
      exact absurd hcontent (by decide)
  · rw [if_neg hfence, if_neg hfence]
    have hkept : Processes env s { s with codeLines := s.codeLines ++ [line] } line .content .code := by
      refine ⟨Writes.of_same rfl rfl, ⟨hs.table, hs.code, ?_⟩, if_pos hcode, hpending, ?_, ?_⟩
      · exact fun h => absurd (hcode.symm.trans h) (by decide)
      · intro n hn
        simp [State.weight, List.count_eq_zero_of_not_mem hn]
      · intro _ n
        simp [State.weight]
        omega
    by_cases hblank : stringTrim line.text = []
    · rw [if_pos hblank]
      exact ⟨hkept.writes, hkept.tidy, hkept.reads, hkept.pending, hkept.others,
        fun hcontent => absurd hcontent (by decide)⟩
    · rw [if_neg hblank]
      exact hkept

/-- A row of a table. -/
theorem row_processes (hs : s.Tidy) (hcode : s.inCodeBlock = false) (htable : s.inTable = true) :
    Processes env s (((s.push [ascii "<tr>"] []).push (cellsHtml (ascii "td") line.text) [line]).push
      [ascii "</tr>"] []) line .content .table := by
  refine ⟨row_writes line, ⟨hs.table, hs.code, hs.plain⟩, ?_, (hs.table htable).2, ?_, ?_⟩
  · simp [State.mode, State.push, hcode, htable]
  · intro n hn
    simp [State.weight, State.push, List.count_eq_zero_of_not_mem hn]
  · intro _ n
    simp [State.weight, State.push]
    omega

/-- What one line does, whatever is being read. -/
theorem step_processes (hs : s.Tidy) (line : Line) :
    Processes env s (s.step env line) line (plays s.mode line.text).1 (plays s.mode line.text).2 := by
  by_cases hcode : s.inCodeBlock = true
  · have hmode : s.mode = .code := if_pos hcode
    rw [hmode]
    exact code_processes hs hcode
  · have hcode' : s.inCodeBlock = false := by simpa using hcode
    unfold State.step
    rw [if_neg hcode]
    by_cases hfence : isFence line.text = true
    · have hplays : plays s.mode line.text = (.fence, .code) := by
        unfold plays State.mode
        rw [if_neg hcode]
        split_ifs <;> rfl
      rw [if_pos hfence, hplays]
      exact openCode_processes s line
    · rw [if_neg hfence]
      by_cases htable : s.inTable = true
      · have hmode : s.mode = .table := by rw [State.mode, if_neg hcode, if_pos htable]
        have hpending := (hs.table htable).2
        rw [hmode, plays]
        simp only [hfence, htable, true_and, Bool.false_eq_true, if_false]
        by_cases hcandidate : isTableCandidate line.text = true
        · rw [if_pos hcandidate, if_pos hcandidate]
          exact row_processes hs hcode' htable
        · rw [if_neg hcandidate, if_neg hcandidate]
          obtain ⟨hcontext, hweight⟩ := closeTable_same s
          rw [hcode', hpending, hs.plain hcode'] at hcontext
          have hclosed : s.closeTable.pendingTableHeader = none := by
            simp only [State.context, Prod.mk.injEq] at hcontext
            exact hcontext.2.2.1
          rw [hclosed]
          exact text_processes (closeTable_writes fun h => (hs.table h).1) hcontext hweight
      · have hclosed : s.closeTable = s := if_neg htable
        have htable' : s.inTable = false := by simpa using htable
        rw [if_neg (fun h => htable h.1), hclosed]
        dsimp only
        cases hpending : s.pendingTableHeader with
        | none =>
          have hmode : s.mode = .text := by simp [State.mode, hcode', htable', hpending]
          rw [hmode, plays]
          simp only [hfence, Bool.false_eq_true, if_false]
          refine text_processes (Writes.refl s) ?_ fun _ => rfl
          rw [State.context, hcode', htable', hpending, hs.plain hcode']
        | some header =>
          have hmode : s.mode = .header := by simp [State.mode, hcode', htable', hpending]
          rw [hmode, plays]
          simp only [hfence, Bool.false_eq_true, if_false]
          by_cases hseparator : isTableSeparatorLine line.text = true
          · rw [if_pos hseparator, if_pos hseparator]
            exact openTable_processes hs hpending hcode' htable'
          · rw [if_neg hseparator, if_neg hseparator]
            obtain ⟨hwrites, hcontext, -, hweight⟩ := @dropHeader_spec env s
            rw [hcode', htable', hs.plain hcode'] at hcontext
            exact text_processes hwrites hcontext hweight

/-- A fence shows nothing itself. -/
theorem fence_weight (env : Env) (s : State) (h : isFence line.text = true) (n : Nat) :
    (s.step env line).weight n ≤ s.weight n := by
  unfold State.step
  by_cases hcode : s.inCodeBlock = true
  · rw [if_pos hcode, if_pos h]
    simp [State.weight, State.flushCodeBlock, State.push]
    omega
  · have hall := (@flushAll_keeps env s).weight n
    have hclose := (closeTable_same s.flushAll).2 n
    rw [if_neg hcode, if_pos h, ← hall, ← hclose]
    simp [State.weight, State.openCode]

theorem closeWhile_buffers (cond : Level → Bool) (stack : List Level) (s : State) :
    (State.closeWhile cond stack s).paragraphLines = s.paragraphLines ∧
      (State.closeWhile cond stack s).quoteLines = s.quoteLines := by
  induction stack generalizing s with
  | nil => exact ⟨rfl, rfl⟩
  | cons top rest ih =>
    have hitem : (s.closeItem top).paragraphLines = s.paragraphLines ∧ (s.closeItem top).quoteLines = s.quoteLines := by
      unfold State.closeItem
      split <;> exact ⟨rfl, rfl⟩
    rw [State.closeWhile]
    split
    · obtain ⟨hparagraph, hquote⟩ := ih (s.closeList top rest)
      exact ⟨hparagraph.trans hitem.1, hquote.trans hitem.2⟩
    · exact ⟨rfl, rfl⟩

theorem flushAll_buffers (s : State) : s.flushAll.paragraphLines = [] ∧ s.flushAll.quoteLines = [] := by
  have hparagraph : s.flushParagraph.paragraphLines = [] := by
    unfold State.flushParagraph
    split
    next h => exact h
    next => rfl
  have hquote : ∀ t : State, t.flushBlockquote.paragraphLines = t.paragraphLines ∧ t.flushBlockquote.quoteLines = [] := by
    intro t
    unfold State.flushBlockquote
    split
    next h => exact ⟨rfl, h⟩
    next => exact ⟨rfl, rfl⟩
  obtain ⟨hkept, hcleared⟩ := hquote s.flushParagraph
  obtain ⟨hp, hq⟩ := closeWhile_buffers (fun _ => true) s.flushParagraph.flushBlockquote.listStack
    s.flushParagraph.flushBlockquote
  exact ⟨(hp.trans hkept).trans hparagraph, hq.trans hcleared⟩

/-- Behind the last line nothing is open and nothing waits any more. -/
theorem finish_spec (env : Env) (hs : s.Tidy) :
    Writes env s (s.finish env) ∧ (s.finish env).elements = [] ∧
      ∀ n, timesIn n ((s.finish env).out.flatMap Entry.lines) = s.weight n := by
  obtain ⟨hdrop, hdropContext, -, hdropWeight⟩ := @dropHeader_spec env s
  have hall := @flushAll_keeps env s.dropHeader
  have hclose : Writes env s.dropHeader.flushAll s.dropHeader.flushAll.closeTable :=
    closeTable_writes fun _ => flushAll_listStack _
  have hwrites := (hdrop.trans hall.writes).trans hclose
  obtain ⟨hcontext, hweight⟩ := closeTable_same s.dropHeader.flushAll
  have hfirst := hall.context.trans hdropContext
  have hbuffers := flushAll_buffers s.dropHeader
  have hstack := flushAll_listStack s.dropHeader
  have hafter : s.dropHeader.flushAll.closeTable.listStack = [] ∧
      s.dropHeader.flushAll.closeTable.paragraphLines = [] ∧ s.dropHeader.flushAll.closeTable.quoteLines = [] := by
    unfold State.closeTable
    split <;> exact ⟨hstack, hbuffers⟩
  have hsame : ∀ n, s.dropHeader.flushAll.closeTable.weight n = s.weight n := fun n =>
    (hweight n).trans ((hall.weight n).trans (hdropWeight n))
  unfold State.finish
  generalize s.dropHeader.flushAll.closeTable = t at hwrites hcontext hafter hsame
  simp only [State.context, Prod.mk.injEq] at hcontext hfirst
  have helements : elementsOf t.listStack t.inTable = [] := by
    rw [hafter.1, hcontext.2.1]
    rfl
  have hpending : t.pendingTableHeader = none := hcontext.2.2.1.trans hfirst.2.2.1
  have hcode : t.inCodeBlock = s.inCodeBlock := hcontext.1.trans hfirst.1
  have hlines : t.codeLines = s.codeLines := hcontext.2.2.2.trans hfirst.2.2.2
  dsimp only
  by_cases hblock : t.inCodeBlock = true
  · rw [if_pos hblock]
    refine ⟨hwrites.trans (flushCodeBlock_writes t), helements, ?_⟩
    intro n
    rw [← hsame n]
    simp [State.weight, State.flushCodeBlock, State.push, hafter.2.1, hafter.2.2, hpending]
  · have hplain : t.codeLines = [] := hlines.trans (hs.plain (by rw [← hcode]; simpa using hblock))
    rw [if_neg hblock]
    refine ⟨hwrites, helements, ?_⟩
    intro n
    rw [← hsame n]
    simp [State.weight, hafter.2.1, hafter.2.2, hpending, hplain]

end ToiLang.Markdown
