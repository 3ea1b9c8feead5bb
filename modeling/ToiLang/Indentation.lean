import ToiLang.TokenPositions

namespace ToiLang

/-- Every block that is closed was opened, and every one that is opened is closed. -/
def Balanced : Nat → List TokenType → Prop
  | depth, [] => depth = 0
  | depth, type :: types =>
    if type = .indent then Balanced (depth + 1) types
    else if type = .dedent then 0 < depth ∧ Balanced (depth - 1) types
    else Balanced depth types

/-- What stands in front of a line in a block, with the indentations that enclose it then; none where no
block has its indentation. -/
def lay (stack : List Nat) (indent : Nat) : Option (List TokenType × List Nat) :=
  if indent > stack.headD 0 then some ([.indent], indent :: stack)
  else
    let closed := (stack.takeWhile (· > indent)).length
    if (stack.drop closed).headD 0 = indent then some (List.replicate closed .dedent, stack.drop closed) else none

def lastLine (gap : Bytes) : Bytes := (gap.reverse.takeWhile (· ≠ byte '\n')).reverse

/-- The indentation of the line that a gap ends in. -/
def indentation (gap : Bytes) : Nat := (indentLoop (lastLine gap) 0).1

/-- What lies between two places of the source. -/
def between (current s : Bytes) : Bytes := current.take (current.length - s.length)

/-- A token in front of which lies a gap begins a line, outside of braces. -/
def beginsLine (fresh : Bool) (depth : Nat) (gap : Bytes) : Bool :=
  depth = 0 && (fresh || gap.contains (byte '\n'))

/-- The types that the tokens of a source have to have, from the ones that are no INDENT or DEDENT: the
enclosing indentations, the open braces, whether the source begins at `current`, and the tokens. -/
def layoutOf : Bool → List Nat → Nat → Bytes → List Token → Option (List TokenType)
  | _, _, _, _, [] => some []
  | fresh, stack, depth, current, t :: ts =>
    match t.start with
    | .message _ => none
    | .source s =>
      if t.type = .eof then
        (layoutOf false [] depth [] ts).map fun types => List.replicate stack.length .dedent ++ .eof :: types
      else if beginsLine fresh depth (between current s) = true then do
        let (layout, stack) ← lay stack (indentation (between current s))
        let types ← layoutOf false stack (t.type.braces depth) (s.drop t.length) ts
        return layout ++ t.type :: types
      else (layoutOf false stack (t.type.braces depth) (s.drop t.length) ts).map (t.type :: ·)

def Token.isLayout (t : Token) : Bool := t.type = .indent || t.type = .dedent

/-- The scan of a source ends, with an error or with the INDENT and DEDENT tokens that its lines have to
have in front of them and no others. -/
def IndentsRight (source : Bytes) : Prop :=
  ∃ steps, Scan (initLexer source) steps ∧
    ((∃ s ∈ steps, s.token.type = .error) ∨
      Balanced 0 (steps.map (·.token.type)) ∧
        layoutOf true [] 0 source ((steps.map (·.token)).filter (!·.isLayout)) =
          some (steps.map (·.token.type)))

/-- A state that the scan of a source comes to. -/
inductive Reached (source : Bytes) : Lexer → Prop
  | init : Reached source (initLexer source)
  | step {L L' : Lexer} {t : Token} (h : Reached source L) (hs : scanToken L = .token t L') (ht : t.type ≠ .eof) :
      Reached source L'

/-- A line begins at `p`, with nothing but blanks and comments in front of it. -/
def LineAhead (L : Lexer) (p : Bytes) : Prop :=
  Skips L.current p ∧ (L.atStartOfLine = true ∧ p = L.current ∨ ∃ g, L.current = g ++ byte '\n' :: p)

/-- A line with nothing but blanks and a comment, in front of which is a carriage return. -/
def CarriageLine (p : Bytes) : Prop :=
  peek (indentLoop p 0).2 = byte '\r' ∧ (skipBlanks p = [] ∨ peek (skipBlanks p) = byte '\n')

/-- A line that is not blank and begins with no comment. -/
def ComparedLine (p : Bytes) : Prop :=
  (indentLoop p 0).2 ≠ [] ∧ peek (indentLoop p 0).2 ≠ byte '\n' ∧ atComment (indentLoop p 0).2 = false

/-- The lines in front of the scanner that are compared with the enclosing block have room in
`indent_stack`, and those that are blank but for a carriage return have its indentation. -/
structure Lexer.Even (L : Lexer) : Prop where
  room : ∀ p, LineAhead L p → ComparedLine p → L.currentIndent < (indentLoop p 0).1 → L.indents.length < 255
  carriage : ∀ p, LineAhead L p → CarriageLine p → (indentLoop p 0).1 = L.currentIndent

section Places

variable {p s g b : Bytes} {c : UInt8} {rest : Bytes}

theorem between_append (g s : Bytes) : between (g ++ s) s = g := by
  unfold between
  rw [List.length_append, Nat.add_sub_cancel]
  exact List.take_left

theorem lastLine_line (hb : byte '\n' ∉ b) : lastLine b = b := by
  have hall : b.reverse.takeWhile (· ≠ byte '\n') = b.reverse := by
    refine List.takeWhile_eq_self_iff.mpr fun c hc => ?_
    have hne : c ≠ byte '\n' := fun h => hb (h ▸ List.mem_reverse.mp hc)
    exact decide_eq_true hne
  unfold lastLine
  rw [hall, List.reverse_reverse]

theorem lastLine_append (hb : byte '\n' ∉ b) : lastLine (g ++ byte '\n' :: b) = b := by
  have hall : ∀ c ∈ b.reverse, decide (c ≠ byte '\n') = true := by
    intro c hc
    have hne : c ≠ byte '\n' := fun h => hb (h ▸ List.mem_reverse.mp hc)
    exact decide_eq_true hne
  unfold lastLine
  rw [List.reverse_append, List.reverse_cons, List.append_assoc, List.takeWhile_append_of_pos hall]
  simp

/-- The indentation is that of the blanks in front of what is no blank. -/
theorem indentLoop_front (n : Nat) (hb : ∀ x ∈ b, isBlank x = true) (hs : ∀ x ∈ s.head?, isBlank x = false) :
    (indentLoop (b ++ s) n).1 = (indentLoop b n).1 := by
  induction b generalizing n with
  | nil =>
    cases s with
    | nil => rfl
    | cons c s =>
      have hc := hs c rfl
      have hspace : c ≠ byte ' ' := by
        rintro rfl
        cases hc
      have htab : c ≠ byte '\t' := by
        rintro rfl
        cases hc
      rw [List.nil_append, indentLoop, if_neg hspace, if_neg htab]
      rfl
  | cons c b ih =>
    have hb' : ∀ x ∈ b, isBlank x = true := fun x hx => hb x (List.mem_cons_of_mem _ hx)
    rw [List.cons_append, indentLoop, indentLoop]
    split
    next => exact ih _ hb'
    next =>
      split
      next => exact ih _ hb'
      next => rfl

theorem skipBlanks_cons_blank (hc : isBlank c = true) : skipBlanks (c :: s) = skipBlanks s := by
  unfold skipBlanks
  rw [List.dropWhile_cons, if_pos hc]

theorem skipBlanks_indentLoop (p : Bytes) (n : Nat) : skipBlanks (indentLoop p n).2 = skipBlanks p := by
  induction p generalizing n with
  | nil => rfl
  | cons c p ih =>
    unfold indentLoop
    split_ifs with h1 h2
    · rw [ih, skipBlanks_cons_blank (by rw [h1]; rfl)]
    · rw [ih, skipBlanks_cons_blank (by rw [h2]; rfl)]
    · rfl

/-- What is in front of a token in its line. -/
theorem skipBlanks_token (h : skipBlanks p = c :: rest) (hc : c ≠ byte '\n') :
    ∃ b, p = b ++ c :: rest ∧ (∀ x ∈ b, isBlank x = true) ∧ isBlank c = false := by
  unfold skipBlanks at h
  dsimp only at h
  split at h
  next =>
    have hstop := head_dropWhile h
    simp only [decide_eq_false_iff_not, ne_eq, Decidable.not_not] at hstop
    exact absurd hstop hc
  next =>
    refine ⟨p.takeWhile isBlank, ?_, fun x hx => List.mem_takeWhile_imp hx, head_dropWhile h⟩
    rw [← h, List.takeWhile_append_dropWhile]

theorem indentLoop_head {n : Nat} (h : (indentLoop p n).2 = c :: rest) : c ≠ byte ' ' ∧ c ≠ byte '\t' := by
  induction p generalizing n with
  | nil => cases h
  | cons d p ih =>
    unfold indentLoop at h
    split_ifs at h with h1 h2
    · exact ih h
    · exact ih h
    · cases h
      exact ⟨h1, h2⟩

/-- Nothing but blanks is skipped in front of a comment or the end of a line by a carriage return. -/
theorem carriage_of_skipped (hc : c ≠ byte ' ' ∧ c ≠ byte '\t') (hn : c ≠ byte '\n')
    (hcomment : atComment (c :: rest) = false)
    (h : skipBlanks (c :: rest) = [] ∨ peek (skipBlanks (c :: rest)) = byte '\n') : c = byte '\r' := by
  by_contra hne
  have hblank : isBlank c = false := by
    simp only [isBlank, Bool.or_eq_false_iff, decide_eq_false_iff_not]
    exact ⟨⟨hc.1, hc.2⟩, hne⟩
  have hstops := stops_of_head hblank hn hcomment _ (skipBlanks_skips _)
  rw [hstops] at h
  rcases h with h | h
  · cases h
  · exact hn h

theorem commentEnd_head (s : Bytes) : commentEnd s = [] ∨ peek (commentEnd s) = byte '\n' := by
  cases h : commentEnd s with
  | nil => exact .inl rfl
  | cons c rest =>
    have hstop := head_dropWhile h
    simp only [decide_eq_false_iff_not, ne_eq, Decidable.not_not] at hstop
    exact .inr hstop

theorem newline_not_blank (hb : ∀ x ∈ b, isBlank x = true) : byte '\n' ∉ b := by
  intro h
  have hblank := hb _ h
  cases hblank

end Places

section Emits

variable {L L' M N : Lexer} {t : Token}

/-- What a call of the scanner emits. -/
inductive Emits (L : Lexer) (t : Token) (L' : Lexer) : Prop
  | error (ht : t.type = .error)
  /-- a token in front of which its line has nothing to stand -/
  | token (s : Bytes) (M : Lexer) (missed : Nat) (hs : Skips L.current s) (hstops : Stops s) (hne : s ≠ [])
      (hquiet : beginsLine L.atStartOfLine L.insideTable (between L.current s) = true →
        lay L.indents (indentation (between L.current s)) = some ([], L.indents))
      (hM : M = { L with start := s, current := s, line := M.line, atStartOfLine := false })
      (hr : TokenRead M t L' missed)
  /-- the first of what has to stand in front of the line of a token -/
  | layout (s : Bytes) (hs : Skips L.current s) (hbegins : beginsLine L.atStartOfLine L.insideTable
        (between L.current s) = true)
      (hlay : lay L.indents (indentation (between L.current s)) =
        some (t.type :: List.replicate L'.pendingDedents .dedent, L'.indents))
      (ht : t.isLayout = true) (hrest : ∃ c rest, s = c :: rest ∧ c ≠ byte '\n' ∧ skipBlanks L'.current = s)
      (hat : L'.atStartOfLine = false) (htable : L'.insideTable = L.insideTable)
  /-- the first of what closes the blocks at the end -/
  | closing (hs : Skips L.current []) (ht : t.type = .dedent)
      (hpending : L'.pendingDedents + 1 = L.indents.length) (hindents : L'.indents = []) (hrest : L'.current = []) (hat : L'.atStartOfLine = false)
  | eof (hs : Skips L.current []) (ht : t.type = .eof) (hstart : t.start = .source []) (hindents : L.indents = [])

def Scanned.Emits (L : Lexer) : Scanned → Prop
  | .token t L' => ToiLang.Emits L t L'
  | .outside => False
  | .spinning => True

/-- Where the scanner is at a restart of a call from `L`. -/
structure Restart (L M : Lexer) : Prop where
  skips : Skips L.current M.current
  indents : M.indents = L.indents
  table : M.insideTable = L.insideTable
  pending : M.pendingDedents = 0
  place : M.atStartOfLine = false ∧ L.atStartOfLine = false ∧ M.current = L.current ∨
    M.atStartOfLine = true ∧ (L.atStartOfLine = true ∧ M.current = L.current ∨
      ∃ g, L.current = g ++ byte '\n' :: M.current) ∨
    M.atStartOfLine = true ∧ (M.current = [] ∨ peek M.current = byte '\n')

theorem Restart.refl (h : L.pendingDedents = 0) : Restart L L := by
  refine ⟨.refl _, rfl, rfl, h, ?_⟩
  cases hat : L.atStartOfLine with
  | false => exact .inl ⟨rfl, rfl, rfl⟩
  | true => exact .inr (.inl ⟨rfl, .inl ⟨rfl, rfl⟩⟩)

/-- What lies in front of a token in its line. -/
theorem line_gap {p b s : Bytes}
    (hplace : L.atStartOfLine = true ∧ p = L.current ∨ ∃ g, L.current = g ++ byte '\n' :: p) (hp : p = b ++ s)
    (hb : byte '\n' ∉ b) :
    (L.atStartOfLine || (between L.current s).contains (byte '\n')) = true ∧
      lastLine (between L.current s) = b := by
  rcases hplace with ⟨hat, hcurrent⟩ | ⟨g, hcurrent⟩
  · rw [← hcurrent, hp, between_append, lastLine_line hb, hat]
    exact ⟨rfl, rfl⟩
  · have hsplit : L.current = (g ++ byte '\n' :: b) ++ s := by rw [hcurrent, hp, List.append_assoc]; rfl
    rw [hsplit, between_append, lastLine_append hb]
    refine ⟨?_, rfl⟩
    rw [Bool.or_eq_true, List.contains_eq_mem, decide_eq_true_eq]
    exact .inr (List.mem_append_right _ List.mem_cons_self)

/-- The end of the source. -/
theorem scanLoop_end {fuel : Nat} (hs : Skips L.current []) (hat : N.atStartOfLine = false) (hindents : N.indents = L.indents) :
    (if N.indents.length > 0 then
      scanLoop fuel { N with start := [], current := [], pendingDedents := N.indents.length, indents := [] }
    else
      let L := { N with start := [], current := [] }
      .token (L.makeToken .eof) L).Emits L := by
  split
  next hpos =>
    cases fuel with
    | zero => trivial
    | succ fuel =>
      unfold scanLoop
      rw [if_pos hpos]
      refine .closing hs rfl ?_ rfl rfl hat
      rw [← hindents]
      exact Nat.sub_add_cancel hpos
  next hpos =>
    refine .eof hs rfl rfl ?_
    rw [← hindents]
    exact List.eq_nil_of_length_eq_zero (Nat.eq_zero_of_not_pos hpos)

theorem lay_deeper {stack : List Nat} {indent : Nat} (h : stack.headD 0 < indent) :
    lay stack indent = some ([.indent], indent :: stack) := if_pos h

theorem lay_closing {stack : List Nat} {indent : Nat} (h : ¬stack.headD 0 < indent) :
    lay stack indent =
      if (stack.drop (stack.takeWhile (· > indent)).length).headD 0 = indent then
        some (List.replicate (stack.takeWhile (· > indent)).length .dedent,
          stack.drop (stack.takeWhile (· > indent)).length)
      else none := if_neg h

/-- A line is laid with nothing in front of it where it has the indentation of the enclosing block. -/
theorem lay_same (stack : List Nat) : lay stack (stack.headD 0) = some ([], stack) := by
  have hclosed : stack.takeWhile (· > stack.headD 0) = [] := by
    cases stack with
    | nil => rfl
    | cons x stack => exact List.takeWhile_cons_of_neg (by simp)
  rw [lay_closing (Nat.lt_irrefl _), hclosed, List.length_nil, List.drop_zero, if_pos rfl]
  rfl

theorem compareIndent_same {indent : Nat} (h : indent = N.currentIndent) : N.compareIndent indent = .proceed N := by
  unfold Lexer.compareIndent
  rw [if_neg (by omega), if_neg (by omega)]

/-- What the comparison with the enclosing block emits is the first of what has to stand there. -/
theorem compareIndent_emits {indent : Nat} (hpending : N.pendingDedents = 0) (hne : indent ≠ N.currentIndent)
    (hroom : N.currentIndent < indent → N.indents.length < 255) :
    ∃ t L', N.compareIndent indent = .token t L' ∧
      (t.type = .error ∨ t.isLayout = true ∧
        lay N.indents indent = some (t.type :: List.replicate L'.pendingDedents .dedent, L'.indents)) ∧
      L'.current = N.current ∧ L'.atStartOfLine = N.atStartOfLine ∧ L'.insideTable = N.insideTable := by
  unfold Lexer.compareIndent
  by_cases hlt : N.currentIndent < indent
  · have hlength := hroom hlt
    rw [if_pos hlt, if_pos (by omega)]
    refine ⟨_, _, rfl, .inr ⟨rfl, ?_⟩, rfl, rfl, rfl⟩
    rw [lay_deeper hlt, hpending]
    rfl
  · have hgt : indent < N.currentIndent := by omega
    rw [if_neg hlt, if_pos hgt]
    dsimp only
    by_cases hfits : (N.popIndents indent).currentIndent = indent
    · have hclosed : 0 < (N.indents.takeWhile (· > indent)).length := by
        cases hstack : N.indents with
        | nil =>
          unfold Lexer.currentIndent at hgt
          rw [hstack] at hgt
          exact absurd hgt (Nat.not_lt_zero _)
        | cons x stack =>
          unfold Lexer.currentIndent at hgt
          rw [hstack] at hgt
          rw [List.takeWhile_cons_of_pos (by simpa using hgt)]
          exact Nat.succ_pos _
      have hpop : (N.popIndents indent).pendingDedents = (N.indents.takeWhile (· > indent)).length := by
        unfold Lexer.popIndents
        dsimp only
        omega
      rw [if_neg (fun h => h hfits), if_pos (by omega)]
      refine ⟨_, _, rfl, .inr ⟨rfl, ?_⟩, rfl, rfl, rfl⟩
      have hlay : lay N.indents indent = some (List.replicate (N.popIndents indent).pendingDedents .dedent,
          (N.popIndents indent).indents) := by
        rw [lay_closing hlt, hpop]
        exact if_pos hfits
      rw [hlay]
      obtain ⟨k, hk⟩ : ∃ k, (N.popIndents indent).pendingDedents = k + 1 :=
        Nat.exists_eq_succ_of_ne_zero (by omega)
      dsimp only
      rw [hk]
      rfl
    · rw [if_pos hfits]
      exact ⟨_, _, rfl, .inl rfl, rfl, rfl, rfl⟩

/-- At the end of the source every block is closed. -/
theorem lay_zero {stack : List Nat} (hpos : ∀ x ∈ stack, 0 < x) :
    lay stack 0 = some (List.replicate stack.length .dedent, []) := by
  have hall : stack.takeWhile (· > 0) = stack :=
    List.takeWhile_eq_self_iff.mpr fun x hx => decide_eq_true (hpos x hx)
  rw [lay_closing (Nat.not_lt_zero _), hall, List.drop_length]
  rfl

/-- A call that goes on in a line emits the token that comes next, if it has nothing to stand in
front of it. -/
theorem proceed_emits {fuel : Nat} (hskips : Skips L.current N.current) (hindents : N.indents = L.indents)
    (htable : N.insideTable = L.insideTable) (hpending : N.pendingDedents = 0) (hat : N.atStartOfLine = false)
    (hpendingL : L.pendingDedents = 0) (ih : ∀ M, Restart L M → (scanLoop fuel M).Emits L)
    (hquiet : ∀ c rest, skipBlanks N.current = c :: rest → c ≠ byte '\n' →
      beginsLine L.atStartOfLine L.insideTable (between L.current (c :: rest)) = true →
        lay L.indents (indentation (between L.current (c :: rest))) = some ([], L.indents)) :
    (match skipBlanks N.current with
      | [] =>
        if N.indents.length > 0 then
          scanLoop fuel { N with start := [], current := [], pendingDedents := N.indents.length, indents := [] }
        else
          let L := { N with start := [], current := [] }
          .token (L.makeToken .eof) L
      | c :: rest =>
        if c = byte '\n' then scanLoop fuel { N with line := N.line + 1, current := rest, atStartOfLine := true }
        else
          let (t, L) := Lexer.scanChar { N with start := c :: rest, current := c :: rest } c rest
          .token t L : Scanned).Emits L := by
  have hblanks := hskips.trans (skipBlanks_skips N.current)
  cases hs : skipBlanks N.current with
  | nil =>
    rw [hs] at hblanks
    exact scanLoop_end hblanks hat hindents
  | cons c rest =>
    rw [hs] at hblanks
    dsimp only
    by_cases hc : c = byte '\n'
    · rw [if_pos hc]
      subst hc
      obtain ⟨g, hg⟩ := hblanks.suffix
      exact ih _ ⟨hblanks.trans (.blank (.inr rfl) (.refl _)), hindents, htable, hpending,
        .inr (.inl ⟨rfl, .inr ⟨g, hg.symm⟩⟩)⟩
    · rw [if_neg hc]
      have hreads := @scanChar_reads { N with start := c :: rest, current := c :: rest } c rest rfl hc
      refine .token (c :: rest) _ _ hblanks (skipBlanks_stops hs hc) (List.cons_ne_nil _ _) (hquiet c rest hs hc) ?_ hreads
      obtain ⟨start, current, line, indents, pending, at_, table⟩ := N
      cases hindents
      cases htable
      cases hat
      cases hpending
      simp only [hpendingL]

/-- The start of a line. -/
theorem lineStart_line (hat : M.atStartOfLine = true) (htable : M.insideTable = 0) :
    M.lineStart =
      if peek (indentLoop M.current 0).2 = byte '\n' then
        .restart { M with
          atStartOfLine := true, start := M.current, line := M.line + 1,
          current := (indentLoop M.current 0).2.tail }
      else if atComment (indentLoop M.current 0).2 = true then
        .restart { M with
          atStartOfLine := true, start := M.current, current := commentEnd (indentLoop M.current 0).2 }
      else
        Lexer.compareIndent { M with
          atStartOfLine := false, start := M.current, current := (indentLoop M.current 0).2 }
            (if (indentLoop M.current 0).2 = [] then 0 else (indentLoop M.current 0).1) := by
  unfold Lexer.lineStart
  rw [if_pos ⟨hat, htable⟩]

/-- A line that is compared at its start. -/
theorem lineStart_emits {fuel indent : Nat} {rest : Bytes} (hL : L.Even) (hpos : ∀ x ∈ L.indents, 0 < x)
    (hpendingL : L.pendingDedents = 0) (h : Restart L M) (hat : M.atStartOfLine = true) (htable : M.insideTable = 0)
    (hfound : indentLoop M.current 0 = (indent, rest)) (hnewline : peek rest ≠ byte '\n')
    (hcomment : atComment rest = false) (ih : ∀ M, Restart L M → (scanLoop fuel M).Emits L)
    (N : Lexer) (hN : N = { M with atStartOfLine := false, start := M.current, current := rest }) :
    (match N.compareIndent (if rest = [] then 0 else indent) with
      | .restart L => scanLoop fuel L
      | .token t L => .token t L
      | .outside => .outside
      | .proceed L =>
        match skipBlanks L.current with
        | [] =>
          if L.indents.length > 0 then
            scanLoop fuel { L with start := [], current := [], pendingDedents := L.indents.length, indents := [] }
          else
            let L := { L with start := [], current := [] }
            .token (L.makeToken .eof) L
        | c :: rest =>
          if c = byte '\n' then scanLoop fuel { L with line := L.line + 1, current := rest, atStartOfLine := true }
          else
            let (t, L) := Lexer.scanChar { L with start := c :: rest, current := c :: rest } c rest
            .token t L : Scanned).Emits L := by
  have hblanks := indentLoop_skips M.current 0
  have hskipped := skipBlanks_indentLoop M.current 0
  rw [hfound] at hblanks hskipped
  have hindents : N.indents = L.indents := by rw [hN]; exact h.indents
  have htableN : N.insideTable = L.insideTable := by rw [hN]; exact h.table
  have hpending : N.pendingDedents = 0 := by rw [hN]; exact h.pending
  have hatN : N.atStartOfLine = false := by rw [hN]
  have hcurrent : N.current = rest := by rw [hN]
  have hskips : Skips L.current N.current := by
    rw [hcurrent]
    exact h.skips.trans hblanks
  have htop : N.currentIndent = L.currentIndent := by
    unfold Lexer.currentIndent
    rw [hindents]
  cases rest with
  | nil =>
    -- the end of the source
    rw [if_pos rfl]
    by_cases hsame : 0 = N.currentIndent
    · rw [compareIndent_same hsame]
      refine proceed_emits hskips hindents htableN hpending hatN hpendingL ih fun c rest hs => ?_
      rw [hcurrent] at hs
      cases hs
    · obtain ⟨t, L', ht, hcase, hc, hat', -⟩ := compareIndent_emits hpending hsame fun h => absurd h (Nat.not_lt_zero _)
      rw [ht]
      rcases hcase with herror | ⟨-, hlay⟩
      · exact .error herror
      · rw [hindents, lay_zero hpos] at hlay
        obtain ⟨hlist, hstack⟩ := Prod.mk.inj (Option.some.inj hlay)
        obtain ⟨k, hk⟩ : ∃ k, L.indents.length = k + 1 := by
          cases hlen : L.indents.length with
          | zero =>
            rw [hlen] at hlist
            cases hlist
          | succ k => exact ⟨k, rfl⟩
        rw [hk, List.replicate_succ] at hlist
        obtain ⟨htype, hrest⟩ := List.cons.inj hlist
        have hlen := congrArg List.length hrest
        rw [List.length_replicate, List.length_replicate] at hlen
        rw [hcurrent] at hskips
        exact .closing hskips htype.symm (by omega) hstack.symm (by rw [hc, hcurrent]) (by rw [hat', hatN])
  | cons c rest =>
    rw [if_neg (List.cons_ne_nil _ _)]
    have hplace : L.atStartOfLine = true ∧ M.current = L.current ∨ ∃ g, L.current = g ++ byte '\n' :: M.current := by
      rcases h.place with ⟨hno, -⟩ | ⟨-, hplace⟩ | ⟨-, hempty | hend⟩
      · rw [hat] at hno
        cases hno
      · exact hplace
      · rw [hempty] at hfound
        cases hfound
      · obtain ⟨rest', hcons⟩ := peek_cons_of_ne hend (by decide)
        rw [hcons] at hfound
        cases hfound
        exact absurd rfl hnewline
    have hahead : LineAhead L M.current := ⟨h.skips, hplace⟩
    have hcompared : ComparedLine M.current := by
      unfold ComparedLine
      rw [hfound]
      exact ⟨List.cons_ne_nil _ _, hnewline, hcomment⟩
    have hhead := indentLoop_head (n := 0) (congrArg Prod.snd hfound)
    by_cases hblank : skipBlanks (c :: rest) = [] ∨ peek (skipBlanks (c :: rest)) = byte '\n'
    · -- a carriage return in a blank line
      have hcarriage : CarriageLine M.current := by
        unfold CarriageLine
        rw [hfound, ← hskipped]
        exact ⟨carriage_of_skipped hhead hnewline hcomment hblank, hblank⟩
      have hsame := hL.carriage _ hahead hcarriage
      rw [hfound] at hsame
      rw [compareIndent_same (hsame.trans htop.symm)]
      refine proceed_emits hskips hindents htableN hpending hatN hpendingL ih fun d rest' hs hd => ?_
      rw [hcurrent] at hs
      rw [hs] at hblank
      rcases hblank with hempty | hend
      · cases hempty
      · exact absurd hend hd
    · obtain ⟨hempty, hend⟩ := not_or.mp hblank
      obtain ⟨d, rest', hs⟩ := List.exists_cons_of_ne_nil hempty
      have hd : d ≠ byte '\n' := by
        rw [hs] at hend
        exact hend
      rw [hs] at hskipped
      obtain ⟨b, hb, hbblank, hdblank⟩ := skipBlanks_token hskipped.symm hd
      obtain ⟨hbegins, hlast⟩ := line_gap hplace hb (newline_not_blank hbblank)
      have hindentation : indentation (between L.current (d :: rest')) = indent := by
        have hfront := indentLoop_front (s := d :: rest') 0 hbblank fun x hx => by
          cases hx
          exact hdblank
        unfold indentation
        rw [hlast, ← hfront, ← hb, hfound]
      have hbeginsLine : beginsLine L.atStartOfLine L.insideTable (between L.current (d :: rest')) = true := by
        unfold beginsLine
        rw [← h.table, htable, hbegins]
        rfl
      by_cases hsame : indent = N.currentIndent
      · rw [compareIndent_same hsame]
        refine proceed_emits hskips hindents htableN hpending hatN hpendingL ih fun e rest'' hs' _ _ => ?_
        rw [hcurrent, hs] at hs'
        cases hs'
        rw [hindentation, hsame, htop]
        exact lay_same _
      · have hroom : N.currentIndent < indent → N.indents.length < 255 := by
          intro hlt
          rw [hindents]
          exact hL.room _ hahead hcompared (by rw [hfound]; omega)
        obtain ⟨t, L', ht, hcase, hc, hat', htable'⟩ := compareIndent_emits hpending hsame hroom
        rw [ht]
        rcases hcase with herror | ⟨hlayout, hlay⟩
        · exact .error herror
        · rw [hindents, ← hindentation] at hlay
          have hskipsS : Skips L.current (d :: rest') := by
            have hskips' := skipBlanks_skips (c :: rest)
            rw [hs] at hskips'
            exact (h.skips.trans hblanks).trans hskips'
          exact .layout (d :: rest') hskipsS hbeginsLine hlay hlayout
            ⟨d, rest', rfl, hd, by rw [hc, hcurrent, hs]⟩ (by rw [hat', hatN]) (by rw [htable', htableN])

theorem scanLoop_emits {fuel : Nat} (hL : L.Even) (hpos : ∀ x ∈ L.indents, 0 < x) (hpendingL : L.pendingDedents = 0)
    (h : Restart L M) : (scanLoop fuel M).Emits L := by
  induction fuel generalizing M with
  | zero => trivial
  | succ fuel ih =>
    have hnone : ¬0 < M.pendingDedents := by
      rw [h.pending]
      exact Nat.lt_irrefl 0
    unfold scanLoop
    rw [if_neg hnone]
    by_cases hline : M.atStartOfLine = true ∧ M.insideTable = 0
    · obtain ⟨hat, htable⟩ := hline
      have hblanks := indentLoop_skips M.current 0
      rw [lineStart_line hat htable]
      generalize hfound : indentLoop M.current 0 = found at hblanks ⊢
      obtain ⟨indent, rest⟩ := found
      dsimp only at hblanks ⊢
      by_cases hnewline : peek rest = byte '\n'
      · -- a blank line
        rw [if_pos hnewline]
        obtain ⟨rest, rfl⟩ := peek_cons_of_ne hnewline (by decide)
        have hskips := h.skips.trans hblanks
        obtain ⟨g, hg⟩ := hskips.suffix
        exact ih ⟨hskips.trans (.blank (.inr rfl) (.refl _)), h.indents, h.table, h.pending,
          .inr (.inl ⟨rfl, .inr ⟨g, hg.symm⟩⟩)⟩
      rw [if_neg hnewline]
      by_cases hcomment : atComment rest = true
      · rw [if_pos hcomment]
        have hskips := (h.skips.trans hblanks).trans (.comment hcomment (.refl _))
        exact ih ⟨hskips, h.indents, h.table, h.pending, .inr (.inr ⟨rfl, commentEnd_head _⟩)⟩
      rw [if_neg hcomment]
      exact lineStart_emits hL hpos hpendingL h hat htable hfound hnewline (Bool.eq_false_iff.mpr hcomment)
        (fun M hM => ih hM) _ rfl
    · -- in a line, or in braces
      have hmid : M.lineStart = .proceed { M with atStartOfLine := false } := by
        unfold Lexer.lineStart
        rw [if_neg hline]
      rw [hmid]
      refine proceed_emits h.skips h.indents h.table h.pending rfl hpendingL (fun M hM => ih hM) ?_
      intro c rest hs hc hbegins
      obtain ⟨hdepth, hbreak⟩ := Bool.and_eq_true_iff.mp hbegins
      have htable : M.insideTable = 0 := by
        rw [h.table]
        exact of_decide_eq_true hdepth
      have hat : M.atStartOfLine ≠ true := fun hat => hline ⟨hat, htable⟩
      rcases h.place with ⟨-, hfresh, hcurrent⟩ | ⟨hat', -⟩ | ⟨hat', -⟩
      · obtain ⟨b, hb, hbblank, -⟩ := skipBlanks_token hs hc
        change M.current = _ at hb
        rw [hfresh, ← hcurrent, hb, between_append, Bool.false_or, List.contains_eq_mem, decide_eq_true_eq] at hbreak
        exact absurd hbreak (newline_not_blank hbblank)
      · exact absurd hat' hat
      · exact absurd hat' hat

end Emits

section Ends

variable {L L' M N : Lexer} {t : Token}

/-- What every call but the last makes smaller. -/
def Lexer.weight (L : Lexer) : Nat := 2 * L.current.length + L.indents.length + L.pendingDedents

def Lexer.Positive (L : Lexer) : Prop := ∀ x ∈ L.indents, 0 < x

theorem indentLoop_length (p : Bytes) (n : Nat) :
    (indentLoop p n).2.length ≤ p.length ∧ ((indentLoop p n).1 = n ∨ (indentLoop p n).2.length < p.length) := by
  induction p generalizing n with
  | nil => exact ⟨Nat.le_refl _, .inl rfl⟩
  | cons c p ih =>
    unfold indentLoop
    split_ifs with h1 h2
    · have hlen := (ih (n + 1)).1
      rw [List.length_cons]
      exact ⟨by omega, .inr (by omega)⟩
    · have hlen := (ih (n + 4)).1
      rw [List.length_cons]
      exact ⟨by omega, .inr (by omega)⟩
    · exact ⟨Nat.le_refl _, .inl rfl⟩

theorem popIndents_weight (N : Lexer) (indent : Nat) : (N.popIndents indent).weight = N.weight := by
  have hle := (List.takeWhile_prefix (l := N.indents) (· > indent)).length_le
  unfold Lexer.weight Lexer.popIndents
  dsimp only
  rw [List.length_drop]
  omega

theorem drop_takeWhile {p : Nat → Bool} (l : List Nat) : l.drop (l.takeWhile p).length = l.dropWhile p := by
  have hsplit : l.takeWhile p ++ l.dropWhile p = l := List.takeWhile_append_dropWhile
  calc l.drop (l.takeWhile p).length = (l.takeWhile p ++ l.dropWhile p).drop (l.takeWhile p).length := by rw [hsplit]
    _ = l.dropWhile p := List.drop_left

theorem popIndents_zero (N : Lexer) : (N.popIndents 0).currentIndent = 0 := by
  unfold Lexer.popIndents Lexer.currentIndent
  dsimp only
  rw [drop_takeWhile]
  cases h : N.indents.dropWhile (· > 0) with
  | nil => rfl
  | cons x stack =>
    have hhead := List.head_dropWhile_not (· > 0) (l := N.indents) (by rw [h]; nofun)
    simp only [h] at hhead
    simpa using hhead

/-- What the start of a line leaves. -/
def LineStart.Shrinks (L : Lexer) : LineStart → Prop
  | .restart M => M.current.length < L.current.length ∧ M.weight < L.weight ∧ (L.Positive → M.Positive)
  | .token _ L' => L'.weight < L.weight ∧ (L.Positive → L'.Positive)
  | .outside => True
  | .proceed M => M.current.length ≤ L.current.length ∧ M.weight ≤ L.weight ∧ (L.Positive → M.Positive)

theorem compareIndent_shrinks {indent : Nat} (hindents : N.indents = L.indents)
    (hpending : N.pendingDedents = L.pendingDedents) (hlen : N.current.length ≤ L.current.length)
    (hindent : indent = 0 ∨ N.current.length < L.current.length) : (N.compareIndent indent).Shrinks L := by
  have hweight : N.weight ≤ L.weight := by
    unfold Lexer.weight
    rw [hindents, hpending]
    omega
  have hpositive : L.Positive → N.Positive := by
    unfold Lexer.Positive
    rw [hindents]
    exact id
  have hpop : N.Positive → (N.popIndents indent).Positive := fun h x hx => h x (List.mem_of_mem_drop hx)
  unfold Lexer.compareIndent
  split
  next hgt =>
    split
    next =>
      refine ⟨?_, fun h x hx => ?_⟩
      · unfold Lexer.weight
        dsimp only
        rw [hindents, hpending, List.length_cons]
        omega
      · rcases List.mem_cons.mp hx with rfl | hx
        · exact Nat.lt_of_le_of_lt (Nat.zero_le _) hgt
        · exact hpositive h x hx
    next => trivial
  next =>
    split
    next =>
      have hsame := popIndents_weight N indent
      dsimp only
      split
      next hne =>
        refine ⟨?_, fun h => hpop (hpositive h)⟩
        have hshorter : N.current.length < L.current.length := by
          rcases hindent with rfl | hshorter
          · exact absurd (popIndents_zero N) hne
          · exact hshorter
        rw [hsame]
        unfold Lexer.weight
        rw [hindents, hpending]
        omega
      next =>
        split
        next hpos =>
          refine ⟨?_, fun h => hpop (hpositive h)⟩
          unfold Lexer.weight at hsame hweight ⊢
          dsimp only
          omega
        next => exact ⟨hlen, hsame ▸ hweight, fun h => hpop (hpositive h)⟩
    next => exact ⟨hlen, hweight, hpositive⟩

theorem lineStart_shrinks (L : Lexer) : L.lineStart.Shrinks L := by
  obtain ⟨hle, hindent⟩ := indentLoop_length L.current 0
  by_cases hline : L.atStartOfLine = true ∧ L.insideTable = 0
  · rw [lineStart_line hline.1 hline.2]
    generalize indentLoop L.current 0 = found at hle hindent ⊢
    obtain ⟨indent, rest⟩ := found
    dsimp only at hle hindent ⊢
    by_cases hnewline : peek rest = byte '\n'
    · rw [if_pos hnewline]
      obtain ⟨rest, rfl⟩ := peek_cons_of_ne hnewline (by decide)
      rw [List.length_cons] at hle
      refine ⟨hle, ?_, id⟩
      unfold Lexer.weight
      dsimp only [List.tail_cons]
      omega
    rw [if_neg hnewline]
    by_cases hcomment : atComment rest = true
    · rw [if_pos hcomment]
      have hshorter : (commentEnd rest).length < rest.length := by
        cases rest with
        | nil => cases hcomment
        | cons c rest =>
          have hc : c ≠ byte '\n' := by
            rintro rfl
            cases hcomment
          unfold commentEnd
          rw [List.dropWhile_cons, if_pos (decide_eq_true hc), List.length_cons]
          exact Nat.lt_succ_of_le (List.dropWhile_suffix _).length_le
      refine ⟨Nat.lt_of_lt_of_le hshorter hle, ?_, id⟩
      unfold Lexer.weight
      dsimp only
      omega
    rw [if_neg hcomment]
    refine compareIndent_shrinks rfl rfl hle ?_
    split
    next => exact .inl rfl
    next => exact hindent
  · unfold Lexer.lineStart
    rw [if_neg hline]
    exact ⟨Nat.le_refl _, Nat.le_refl _, id⟩

theorem skipBlanks_length (s : Bytes) : (skipBlanks s).length ≤ s.length := (skipBlanks_skips s).suffix.length_le

/-- A call that has the fuel for its restarts comes back. -/
theorem scanLoop_ends {fuel : Nat} (h : L.current.length + 2 ≤ fuel) : scanLoop fuel L ≠ .spinning := by
  induction fuel generalizing L with
  | zero => omega
  | succ fuel ih =>
    have hline := lineStart_shrinks L
    unfold scanLoop
    split
    next =>
      intro hx
      cases hx
    next =>
      split
      next M hM =>
        rw [hM] at hline
        have hshorter := hline.1
        exact ih (by omega)
      next =>
        intro hx
        cases hx
      next =>
        intro hx
        cases hx
      next M hM =>
        rw [hM] at hline
        have hle := hline.1
        have hskip := skipBlanks_length M.current
        split
        next hs =>
          split
          next hpos =>
            obtain ⟨fuel, rfl⟩ : ∃ k, fuel = k + 1 := Nat.exists_eq_succ_of_ne_zero (by omega)
            unfold scanLoop
            rw [if_pos hpos]
            intro hx
            cases hx
          next =>
            intro hx
            cases hx
        next c rest hs =>
          rw [hs, List.length_cons] at hskip
          split
          next => exact ih (by dsimp only; omega)
          next =>
            intro hx
            cases hx

/-- Every call but the one at the end has less left to do. -/
theorem scanLoop_shrinks {fuel : Nat} (h : scanLoop fuel L = .token t L') :
    (t.type = .eof ∨ L'.weight < L.weight) ∧ (L.Positive → L'.Positive) := by
  induction fuel generalizing L with
  | zero => cases h
  | succ fuel ih =>
    have hline := lineStart_shrinks L
    unfold scanLoop at h
    split at h
    next hp =>
      cases h
      refine ⟨.inr ?_, id⟩
      unfold Lexer.weight
      dsimp only
      omega
    next =>
      split at h
      next M hM =>
        rw [hM] at hline
        obtain ⟨hend, hpositive⟩ := ih h
        exact ⟨hend.imp_right fun hlt => hlt.trans hline.2.1, fun hL => hpositive (hline.2.2 hL)⟩
      next t M hM =>
        rw [hM] at hline
        cases h
        exact ⟨.inr hline.1, hline.2⟩
      next => cases h
      next M hM =>
        rw [hM] at hline
        obtain ⟨-, hle, hpositive⟩ := hline
        have hskip := skipBlanks_length M.current
        split at h
        next hs =>
          split at h
          next hpos =>
            obtain ⟨hend, hrest⟩ := ih h
            refine ⟨hend.imp_right fun hlt => ?_, fun _ => hrest fun x hx => by cases hx⟩
            unfold Lexer.weight at hlt hle ⊢
            dsimp only [List.length_nil] at hlt
            omega
          next =>
            cases h
            exact ⟨.inl rfl, hpositive⟩
        next c rest hs =>
          rw [hs, List.length_cons] at hskip
          split at h
          next =>
            obtain ⟨hend, hrest⟩ := ih h
            refine ⟨hend.imp_right fun hlt => ?_, fun hL => hrest (hpositive hL)⟩
            unfold Lexer.weight at hlt hle ⊢
            dsimp only at hlt
            omega
          next hc =>
            have hreads := @scanChar_reads { M with start := c :: rest, current := c :: rest } c rest rfl hc
            generalize Lexer.scanChar _ c rest = result at h hreads
            cases h
            have hlen := hreads.suffix.length_le
            refine ⟨.inr ?_, fun hL => ?_⟩
            · unfold Lexer.weight at hle ⊢
              rw [hreads.indents, hreads.pending]
              dsimp only [List.tail_cons] at hlen ⊢
              omega
            · unfold Lexer.Positive
              rw [hreads.indents]
              exact hpositive hL

end Ends

section Laid

variable {source : Bytes} {L L' : Lexer} {t : Token}

theorem scanToken_emits (hL : L.Even) (hpos : L.Positive) (hpending : L.pendingDedents = 0) :
    (scanToken L).Emits L := scanLoop_emits hL hpos hpending (.refl hpending)

/-- A token of a call that is behind no other one. -/
theorem emits_of_scanToken (hL : L.Even) (hpos : L.Positive) (hpending : L.pendingDedents = 0)
    (h : scanToken L = .token t L') : Emits L t L' := by
  have hemits := scanToken_emits hL hpos hpending
  rw [h] at hemits
  exact hemits

theorem scanToken_dedent (hpending : 0 < L.pendingDedents) :
    scanToken L = .token (L.makeToken .dedent) { L with pendingDedents := L.pendingDedents - 1 } := by
  unfold scanToken scanLoop
  exact if_pos hpending

/-- A scan from an even state comes to the end. -/
theorem exists_scan (hall : ∀ L, Reached source L → L.Even) (hL : Reached source L) (hpos : L.Positive) :
    ∃ steps, Scan L steps := by
  obtain ⟨n, hn⟩ : ∃ n, L.weight ≤ n := ⟨_, Nat.le_refl _⟩
  induction n using Nat.strong_induction_on generalizing L with
  | _ n ih =>
    cases hscan : scanToken L with
    | spinning => exact absurd hscan (scanLoop_ends (Nat.le_refl _))
    | outside =>
      by_cases hpending : 0 < L.pendingDedents
      · rw [scanToken_dedent hpending] at hscan
        cases hscan
      · have hemits := scanToken_emits (hall L hL) hpos (Nat.eq_zero_of_not_pos hpending)
        rw [hscan] at hemits
        exact hemits.elim
    | token t L' =>
      obtain ⟨hend, hpositive⟩ := scanLoop_shrinks hscan
      by_cases ht : t.type = .eof
      · exact ⟨_, .eof hscan ht⟩
      · have hlt := hend.resolve_left ht
        obtain ⟨steps, hsteps⟩ := ih L'.weight (by omega) (hL.step hscan ht) (hpositive hpos) (Nat.le_refl _)
        exact ⟨_, .next hscan ht hsteps⟩

/-- What the tokens that come next are, in a state in front of which nothing is laid yet, behind the layout
of a line, and at the end. -/
structure Rest (L : Lexer) (tokens : List Token) : Prop where
  ready : L.pendingDedents = 0 →
    layoutOf L.atStartOfLine L.indents L.insideTable L.current (tokens.filter (!·.isLayout)) =
      some (tokens.map Token.type)
  laid : ∀ c rest, skipBlanks L.current = c :: rest → c ≠ byte '\n' → L.atStartOfLine = false →
    ∃ t ts types, tokens.filter (!·.isLayout) = t :: ts ∧ t.start = .source (c :: rest) ∧ t.type ≠ .eof ∧
      layoutOf false L.indents (t.type.braces L.insideTable) ((c :: rest).drop t.length) ts = some types ∧
      tokens.map Token.type = List.replicate L.pendingDedents .dedent ++ t.type :: types
  closing : L.current = [] → L.indents = [] →
    ∃ t, tokens.filter (!·.isLayout) = [t] ∧ t.start = .source [] ∧ t.type = .eof ∧
      tokens.map Token.type = List.replicate L.pendingDedents .dedent ++ [.eof]

section Layout

variable {fresh : Bool} {stack stack' : List Nat} {depth : Nat} {current s : Bytes} {ts : List Token}
  {types layout : List TokenType}

theorem layoutOf_eof (hs : t.start = .source s) (ht : t.type = .eof) :
    layoutOf fresh stack depth current [t] = some (List.replicate stack.length .dedent ++ [.eof]) := by
  simp only [layoutOf, hs, ht, if_true, Option.map_some]

theorem layoutOf_line (hs : t.start = .source s) (ht : t.type ≠ .eof)
    (hbegins : beginsLine fresh depth (between current s) = true)
    (hlay : lay stack (indentation (between current s)) = some (layout, stack'))
    (hrest : layoutOf false stack' (t.type.braces depth) (s.drop t.length) ts = some types) :
    layoutOf fresh stack depth current (t :: ts) = some (layout ++ t.type :: types) := by
  simp only [layoutOf, hs, ht, if_false, hbegins, if_true, hlay, hrest, Option.bind_eq_bind, Option.bind_some,
    Option.pure_def]

theorem layoutOf_token (hs : t.start = .source s) (ht : t.type ≠ .eof)
    (hquiet : beginsLine fresh depth (between current s) = true →
      lay stack (indentation (between current s)) = some ([], stack))
    (hrest : layoutOf false stack (t.type.braces depth) (s.drop t.length) ts = some types) :
    layoutOf fresh stack depth current (t :: ts) = some (t.type :: types) := by
  by_cases hbegins : beginsLine fresh depth (between current s) = true
  · exact layoutOf_line hs ht hbegins (hquiet hbegins) hrest
  · simp only [layoutOf, hs, ht, hbegins, if_false, hrest, Option.map_some, Bool.false_eq_true]

end Layout

theorem filter_layout {ts : List Token} (h : t.isLayout = true) :
    (t :: ts).filter (!·.isLayout) = ts.filter (!·.isLayout) := List.filter_cons_of_neg (by rw [h]; decide)

theorem filter_plain {ts : List Token} (h : t.isLayout = false) :
    (t :: ts).filter (!·.isLayout) = t :: ts.filter (!·.isLayout) := List.filter_cons_of_pos (by rw [h]; decide)

theorem isLayout_of_dedent (h : t.type = .dedent) : t.isLayout = true := by
  unfold Token.isLayout
  rw [h]
  decide

/-- A dedent that was left. -/
theorem Rest.dedent {tokens : List Token} (hpending : 0 < L.pendingDedents) (ht : t.type = .dedent)
    (hL' : L' = { L with pendingDedents := L.pendingDedents - 1 }) (h : Rest L' tokens) : Rest L (t :: tokens) := by
  have hlayout := isLayout_of_dedent ht
  obtain ⟨k, hk⟩ : ∃ k, L.pendingDedents = k + 1 := Nat.exists_eq_succ_of_ne_zero (by omega)
  have hk' : L'.pendingDedents = k := by rw [hL', hk]; rfl
  refine ⟨fun hzero => by omega, fun c rest hs hc hat => ?_, fun hcurrent hindents => ?_⟩
  · obtain ⟨u, us, types, hfilter, hstart, hne, hlaid, hmap⟩ :=
      h.laid c rest (by rw [hL']; exact hs) hc (by rw [hL']; exact hat)
    rw [hL'] at hlaid
    refine ⟨u, us, types, by rw [filter_layout hlayout, hfilter], hstart, hne, hlaid, ?_⟩
    rw [List.map_cons, hmap, hk', hk, ht, List.replicate_succ]
    rfl
  · obtain ⟨u, hfilter, hstart, hend, hmap⟩ := h.closing (by rw [hL']; exact hcurrent) (by rw [hL']; exact hindents)
    refine ⟨u, by rw [filter_layout hlayout, hfilter], hstart, hend, ?_⟩
    rw [List.map_cons, hmap, hk', hk, ht, List.replicate_succ]
    rfl

/-- A place behind blanks in a line begins no line. -/
theorem not_beginsLine {c : UInt8} {rest : Bytes} {depth : Nat} (h : skipBlanks L.current = c :: rest)
    (hc : c ≠ byte '\n') : beginsLine false depth (between L.current (c :: rest)) = false := by
  obtain ⟨b, hb, hbblank, -⟩ := skipBlanks_token h hc
  unfold beginsLine
  rw [hb, between_append, Bool.false_or, Bool.and_eq_false_iff]
  right
  rw [List.contains_eq_mem, decide_eq_false_iff_not]
  exact newline_not_blank hbblank

/-- The next place is the one that the blanks of the line end at. -/
theorem Skips.eq_of_stops {p s s' : Bytes} (h : Skips p s) (h' : Skips p s') (hs : Stops s) (hs' : Stops s') :
    s = s' := (hs s' (h.rest h' hs')).symm

/-- A call that is behind no other one. -/
theorem Emits.rest {tokens : List Token} (h : Emits L t L') (hpending : L.pendingDedents = 0)
    (herror : t.type ≠ .error) (hne : t.type ≠ .eof) (hrest : Rest L' tokens) : Rest L (t :: tokens) := by
  have hreach {c : UInt8} {rest s : Bytes} (hs : skipBlanks L.current = c :: rest) (hc : c ≠ byte '\n')
      (hskips : Skips L.current s) (hstops : Stops s) : s = c :: rest := by
    have hblanks := skipBlanks_skips L.current
    rw [hs] at hblanks
    exact hskips.eq_of_stops hblanks hstops (skipBlanks_stops hs hc)
  cases h with
  | error ht => exact absurd ht herror
  | token s M missed hs hstops hsne hquiet hM hr =>
    have hcurrent : M.current = s := by rw [hM]
    have htoken := hr.token herror
    have hstart : t.start = .source s := by
      rw [htoken]
      change TokenStart.source L'.start = _
      rw [hr.start, hM]
    have hdrop : s.drop t.length = L'.current := by
      have hsuffix := hr.suffix
      rw [hcurrent] at hsuffix
      obtain ⟨front, hfront⟩ := hsuffix.trans (List.tail_suffix s)
      have hlength : t.length = s.length - L'.current.length := by
        rw [htoken]
        change L'.start.length - _ = _
        rw [hr.start, hM]
      rw [hlength, ← hfront, List.length_append, Nat.add_sub_cancel]
      exact List.drop_left
    have hplain : t.isLayout = false := by
      have hlayout := hr.layout
      unfold TokenType.IsLayout at hlayout
      unfold Token.isLayout
      simp only [List.mem_cons, not_or] at hlayout
      simp only [Bool.or_eq_false_iff, decide_eq_false_iff_not]
      exact ⟨hlayout.2.1, hlayout.2.2.1⟩
    have hnext := hrest.ready (by rw [hr.pending, hM]; exact hpending)
    have hat : L'.atStartOfLine = false := by rw [hr.atStart, hM]
    have hindents : L'.indents = L.indents := by rw [hr.indents, hM]
    have htable : L'.insideTable = t.type.braces L.insideTable := by rw [hr.table, hM]
    rw [hat, hindents, htable, ← hdrop] at hnext
    refine ⟨fun _ => ?_, fun c rest hs' hc _ => ?_, fun hcurrent _ => ?_⟩
    · rw [filter_plain hplain]
      exact layoutOf_token hstart hne hquiet hnext
    · obtain rfl := hreach hs' hc hs hstops
      refine ⟨t, _, _, filter_plain hplain, hstart, hne, hnext, ?_⟩
      rw [hpending]
      rfl
    · rw [hcurrent] at hs
      exact absurd (stops_nil s hs) hsne
  | layout s hs hbegins hlay ht hreal hat htable =>
    obtain ⟨c, rest, rfl, hc, hskip⟩ := hreal
    obtain ⟨u, us, types, hfilter, hstart, hune, hlaid, hmap⟩ := hrest.laid c rest hskip hc hat
    rw [htable] at hlaid
    refine ⟨fun _ => ?_, fun d rest' hs' hd hfresh => ?_, fun hcurrent _ => ?_⟩
    · rw [filter_layout ht, hfilter, layoutOf_line hstart hune hbegins hlay hlaid, List.map_cons, hmap]
      rfl
    · have heq := hreach hs' hd hs (skipBlanks_stops hskip hc)
      rw [heq, hfresh, not_beginsLine hs' hd] at hbegins
      cases hbegins
    · rw [hcurrent] at hs
      cases stops_nil _ hs
  | closing hs ht hleft hindents hcurrent hat =>
    obtain ⟨u, hfilter, hstart, hend, hmap⟩ := hrest.closing hcurrent hindents
    have hlayout := isLayout_of_dedent ht
    refine ⟨fun _ => ?_, fun c rest hs' hc _ => ?_, fun _ hnone => ?_⟩
    · rw [filter_layout hlayout, hfilter, layoutOf_eof hstart hend, List.map_cons, hmap, ht, ← hleft,
        List.replicate_succ]
      rfl
    · cases hreach hs' hc hs stops_nil
    · rw [hnone] at hleft
      cases hleft
  | eof _ ht _ _ => exact absurd ht hne

/-- The last call. -/
theorem Emits.rest_eof (h : Emits L t L') (hpending : L.pendingDedents = 0) (hend : t.type = .eof) : Rest L [t] := by
  have hplain : t.isLayout = false := by
    unfold Token.isLayout
    rw [hend]
    decide
  cases h with
  | error ht =>
    rw [hend] at ht
    cases ht
  | token s M missed hs hstops hsne hquiet hM hr =>
    have hlayout := hr.layout
    rw [hend] at hlayout
    exact absurd List.mem_cons_self hlayout
  | layout s hs hbegins hlay ht hreal hat htable =>
    rw [hplain] at ht
    cases ht
  | closing hs ht hleft hindents hcurrent hat =>
    rw [hend] at ht
    cases ht
  | eof hs ht hstart hindents =>
    refine ⟨fun _ => ?_, fun c rest hs' hc _ => ?_, fun _ _ => ⟨t, filter_plain hplain, hstart, hend, ?_⟩⟩
    · rw [filter_plain hplain, List.filter_nil, layoutOf_eof hstart hend, hindents, List.map_cons, hend]
      rfl
    · have hblanks := skipBlanks_skips L.current
      rw [hs'] at hblanks
      cases hs.eq_of_stops hblanks stops_nil (skipBlanks_stops hs' hc)
    · rw [hpending, List.map_cons, hend]
      rfl

theorem Scan.rest {steps : List ScanStep} (h : Scan L steps) (hall : ∀ s ∈ steps, s.before.Even)
    (herror : ∀ s ∈ steps, s.token.type ≠ .error) (hpos : L.Positive) : Rest L (steps.map (·.token)) := by
  induction h with
  | @eof L L' t hscan ht =>
    by_cases hpending : 0 < L.pendingDedents
    · rw [scanToken_dedent hpending] at hscan
      cases hscan
      cases ht
    · have hzero := Nat.eq_zero_of_not_pos hpending
      exact (emits_of_scanToken (hall _ List.mem_cons_self) hpos hzero hscan).rest_eof hzero ht
  | @next L L' t steps hscan ht hsteps ih =>
    have hrest := ih (fun s hs => hall s (List.mem_cons_of_mem _ hs))
      (fun s hs => herror s (List.mem_cons_of_mem _ hs)) ((scanLoop_shrinks hscan).2 hpos)
    rw [List.map_cons]
    by_cases hpending : 0 < L.pendingDedents
    · rw [scanToken_dedent hpending] at hscan
      cases hscan
      exact hrest.dedent hpending rfl rfl
    · have hzero := Nat.eq_zero_of_not_pos hpending
      exact (emits_of_scanToken (hall _ List.mem_cons_self) hpos hzero hscan).rest hzero
        (herror _ List.mem_cons_self) ht hrest

end Laid

section Balance

variable {stack stack' : List Nat} {types layout : List TokenType}

theorem balanced_dedents {k depth : Nat} (hk : k ≤ depth) (h : Balanced (depth - k) types) :
    Balanced depth (List.replicate k .dedent ++ types) := by
  induction k generalizing depth with
  | zero => exact h
  | succ k ih =>
    rw [List.replicate_succ, List.cons_append, Balanced]
    rw [if_neg (by decide), if_pos rfl]
    refine ⟨by omega, ih (by omega) ?_⟩
    rwa [Nat.sub_sub, Nat.add_comm 1]

theorem balanced_plain {type : TokenType} {depth : Nat} (hi : type ≠ .indent) (hd : type ≠ .dedent)
    (h : Balanced depth types) : Balanced depth (type :: types) := by
  rw [Balanced, if_neg hi, if_neg hd]
  exact h

theorem balanced_lay {indent : Nat} (hlay : lay stack indent = some (layout, stack'))
    (h : Balanced stack'.length types) : Balanced stack.length (layout ++ types) := by
  by_cases hlt : stack.headD 0 < indent
  · rw [lay_deeper hlt] at hlay
    cases hlay
    rw [List.singleton_append, Balanced, if_pos rfl]
    exact h
  · rw [lay_closing hlt] at hlay
    split at hlay
    next =>
      cases hlay
      refine balanced_dedents (List.takeWhile_prefix _).length_le ?_
      rwa [List.length_drop] at h
    next => cases hlay

theorem layoutOf_balanced {fresh : Bool} {depth : Nat} {current : Bytes} {ts : List Token} {last : Token}
    (hlast : last.type = .eof) (hplain : ∀ t ∈ ts, t.isLayout = false)
    (h : layoutOf fresh stack depth current (ts ++ [last]) = some types) : Balanced stack.length types := by
  induction ts generalizing fresh stack depth current types with
  | nil =>
    rw [List.nil_append, layoutOf] at h
    split at h
    next => cases h
    next s hs =>
      rw [if_pos hlast] at h
      cases h
      refine balanced_dedents (Nat.le_refl _) ?_
      rw [Nat.sub_self]
      exact balanced_plain (by decide) (by decide) rfl
  | cons t ts ih =>
    have hrest := fun u hu => hplain u (List.mem_cons_of_mem _ hu)
    have ht := hplain t List.mem_cons_self
    unfold Token.isLayout at ht
    simp only [Bool.or_eq_false_iff, decide_eq_false_iff_not] at ht
    rw [List.cons_append, layoutOf] at h
    split at h
    next => cases h
    next s hs =>
      split at h
      next heof =>
        obtain ⟨rest, hlaid, rfl⟩ := Option.map_eq_some_iff.mp h
        refine balanced_dedents (Nat.le_refl _) ?_
        rw [Nat.sub_self]
        exact balanced_plain (by decide) (by decide) (ih hrest hlaid)
      next =>
        split at h
        next =>
          obtain ⟨⟨layout, stack'⟩, hlay, h⟩ := Option.bind_eq_some_iff.mp h
          obtain ⟨rest, hlaid, h⟩ := Option.bind_eq_some_iff.mp h
          cases h
          exact balanced_lay hlay (balanced_plain ht.1 ht.2 (ih hrest hlaid))
        next =>
          obtain ⟨rest, hlaid, rfl⟩ := Option.map_eq_some_iff.mp h
          exact balanced_plain ht.1 ht.2 (ih hrest hlaid)

theorem Scan.last {L : Lexer} {steps : List ScanStep} (h : Scan L steps) :
    ∃ front last, steps.map (·.token) = front ++ [last] ∧ last.type = .eof := by
  induction h with
  | eof hscan ht => exact ⟨[], _, rfl, ht⟩
  | next hscan ht hsteps ih =>
    obtain ⟨front, last, hmap, hlast⟩ := ih
    exact ⟨_ :: front, last, by rw [List.map_cons, hmap]; rfl, hlast⟩

theorem Scan.reached {source : Bytes} {L : Lexer} {steps : List ScanStep} (h : Scan L steps)
    (hL : Reached source L) : ∀ s ∈ steps, Reached source s.before := by
  induction h with
  | eof hscan ht =>
    intro s hs
    rw [List.mem_singleton.mp hs]
    exact hL
  | next hscan ht hsteps ih =>
    intro s hs
    rcases List.mem_cons.mp hs with rfl | hs
    · exact hL
    · exact ih (hL.step hscan ht) s hs

theorem Scan.unique {L : Lexer} {steps steps' : List ScanStep} (h : Scan L steps) (h' : Scan L steps') :
    steps = steps' := by
  induction h generalizing steps' with
  | eof hscan ht =>
    cases h' with
    | eof hscan' ht' =>
      rw [hscan] at hscan'
      cases hscan'
      rfl
    | next hscan' ht' _ =>
      rw [hscan] at hscan'
      cases hscan'
      exact absurd ht ht'
  | next hscan ht hsteps ih =>
    cases h' with
    | eof hscan' ht' =>
      rw [hscan] at hscan'
      cases hscan'
      exact absurd ht' ht
    | next hscan' ht' hsteps' =>
      rw [hscan] at hscan'
      cases hscan'
      rw [ih hsteps']

/-- The states that are reached are the ones of the scan. -/
theorem Scan.of_reached {source : Bytes} {L : Lexer} {steps : List ScanStep} (h : Scan (initLexer source) steps)
    (hL : Reached source L) : ∃ rest, Scan L rest ∧ rest <:+ steps := by
  induction hL with
  | init => exact ⟨steps, h, List.suffix_refl _⟩
  | step hL hscan ht ih =>
    obtain ⟨rest, hrest, hsuffix⟩ := ih
    cases hrest with
    | eof hscan' ht' =>
      rw [hscan] at hscan'
      cases hscan'
      exact absurd ht' ht
    | next hscan' ht' hsteps' =>
      rw [hscan] at hscan'
      cases hscan'
      exact ⟨_, hsteps', (List.suffix_cons _ _).trans hsuffix⟩

theorem Scan.mem_of_reached {source : Bytes} {L : Lexer} {steps : List ScanStep} (h : Scan (initLexer source) steps)
    (hL : Reached source L) : ∃ s ∈ steps, s.before = L := by
  obtain ⟨rest, hrest, hsuffix⟩ := h.of_reached hL
  cases hrest with
  | eof _ _ => exact ⟨_, hsuffix.subset List.mem_cons_self, rfl⟩
  | next _ _ _ => exact ⟨_, hsuffix.subset List.mem_cons_self, rfl⟩

theorem even_of_not_mem {L : Lexer} (hcr : byte '\r' ∉ L.current) (hlen : L.indents.length < 255) : L.Even := by
  refine ⟨fun _ _ _ _ => hlen, fun p hahead hcarriage => ?_⟩
  obtain ⟨rest, hrest⟩ := peek_cons_of_ne hcarriage.1 (by decide)
  have hmem : byte '\r' ∈ (indentLoop p 0).2 := by
    rw [hrest]
    exact List.mem_cons_self
  exact absurd (hahead.1.suffix.subset ((indentLoop_skips p 0).suffix.subset hmem)) hcr

end Balance

/-- Blocks, blank lines, a comment and a table over three lines. -/
def blocksSource : Bytes := ascii "if a\n  b\n\n      -- c\n    d = \x7b\n1\n  \x7d\ne\n"

/-- A blank line that ends in a carriage return, in a block. -/
def carriageSource : Bytes := ascii "a\n b\n\r\n b\n"

end ToiLang
