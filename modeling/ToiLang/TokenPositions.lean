import Mathlib.Tactic.SplitIfs
import ToiLang.Lexer

namespace ToiLang

/-- The scanner may go from one place to the other over blanks, line breaks and comments. -/
inductive Skips : Bytes → Bytes → Prop
  | refl (s : Bytes) : Skips s s
  | blank {c : UInt8} {s s' : Bytes} (hc : isBlank c = true ∨ c = byte '\n') (h : Skips s s') : Skips (c :: s) s'
  | comment {s s' : Bytes} (hc : atComment s = true) (h : Skips (commentEnd s) s') : Skips s s'

def newlines (s : Bytes) : Nat := s.count (byte '\n')

/-- A step of the scanner: the state before, the token and the state behind it. -/
structure ScanStep where
  before : Lexer
  token : Token
  after : Lexer

/-- The tokens of a source up to the end of it. -/
inductive Scan : Lexer → List ScanStep → Prop
  | eof {L L' : Lexer} {t : Token} (h : scanToken L = .token t L') (ht : t.type = .eof) : Scan L [⟨L, t, L'⟩]
  | next {L L' : Lexer} {t : Token} {steps : List ScanStep} (h : scanToken L = .token t L') (ht : t.type ≠ .eof)
      (hs : Scan L' steps) : Scan L (⟨L, t, L'⟩ :: steps)

def scanAll : Nat → Lexer → Option (List ScanStep)
  | 0, _ => none
  | fuel + 1, L =>
    match scanToken L with
    | .token t L' => if t.type = .eof then some [⟨L, t, L'⟩] else (scanAll fuel L').map (⟨L, t, L'⟩ :: ·)
    | _ => none

/-- The token follows on the one before it, has the text that was read for it, and the line of the end
of it; the last one is at the end. -/
structure ScanStep.Positioned (source : Bytes) (s : ScanStep) : Prop where
  follows : Skips s.before.current s.after.start
  reads : s.after.current <:+ s.after.start
  start : s.token.type ≠ .error → s.token.start = .source s.after.start
  length : s.token.type ≠ .error → s.token.length = s.after.start.length - s.after.current.length
  line : s.token.line = 1 + newlines (source.take (source.length - s.after.current.length))
  last : s.token.type = .eof → s.after.current = []

/-- The line breaks of a quoted text behind a backslash. -/
def escapedBreaks (quote : UInt8) : Bytes → Nat
  | [] => 0
  | c :: rest =>
    if c = quote then 0
    else
      match rest with
      | [] => 0
      | d :: rest' =>
        if c = byte '\\' then escapedBreaks quote rest' + if d = byte '\n' then 1 else 0
        else escapedBreaks quote (d :: rest')

/-- An f-string in quotes with a line break behind a backslash. -/
def EscapesBreak (s : Bytes) : Prop :=
  ∃ quote rest, s = byte 'f' :: quote :: rest ∧ (quote = byte '"' ∨ quote = byte '\'') ∧
    escapedBreaks quote rest ≠ 0

/-- No further block is closed by blanks that another token has, and the token in front of the scanner
is no f-string with an escaped line break. -/
structure Lexer.Aligned (L : Lexer) : Prop where
  dedents : 0 < L.pendingDedents → L.start = L.current
  breaks : ∀ s, Skips L.current s → ¬EscapesBreak s

section Skips

variable {s s' s'' : Bytes}

theorem Skips.trans (h : Skips s s') (h' : Skips s' s'') : Skips s s'' := by
  induction h with
  | refl s => exact h'
  | blank hc _ ih => exact .blank hc (ih h')
  | comment hc _ ih => exact .comment hc (ih h')

theorem Skips.suffix (h : Skips s s') : s' <:+ s := by
  induction h with
  | refl s => exact List.suffix_refl s
  | blank _ _ ih => exact ih.trans (List.suffix_cons _ _)
  | comment _ _ ih => exact ih.trans (List.dropWhile_suffix _)

theorem skips_dropWhile (p : UInt8 → Bool) (hp : ∀ c, p c = true → isBlank c = true) (s : Bytes) :
    Skips s (s.dropWhile p) := by
  induction s with
  | nil => exact .refl _
  | cons c s ih =>
    rw [List.dropWhile_cons]
    split
    next hc => exact .blank (.inl (hp c hc)) ih
    next => exact .refl _

theorem skipBlanks_skips (s : Bytes) : Skips s (skipBlanks s) := by
  have hblanks := skips_dropWhile isBlank (fun _ h => h) s
  unfold skipBlanks
  dsimp only
  split
  next hc => exact hblanks.trans (.comment hc (.refl _))
  next => exact hblanks

theorem indentLoop_skips (s : Bytes) (n : Nat) : Skips s (indentLoop s n).2 := by
  induction s generalizing n with
  | nil => exact .refl _
  | cons c s ih =>
    unfold indentLoop
    split_ifs with h1 h2
    · exact .blank (.inl (by rw [h1]; rfl)) (ih _)
    · exact .blank (.inl (by rw [h2]; rfl)) (ih _)
    · exact .refl _

/-- A place that the scanner stops at is the only one. -/
def Stops (s : Bytes) : Prop := ∀ s', Skips s s' → s' = s

theorem stops_of_head {c : UInt8} (hc : isBlank c = false) (hn : c ≠ byte '\n') (hd : atComment (c :: s) = false) :
    Stops (c :: s) := by
  intro s' h
  cases h with
  | refl => rfl
  | blank hb _ =>
    rcases hb with hb | hb
    · rw [hc] at hb
      cases hb
    · exact absurd hb hn
  | comment hb _ =>
    rw [hd] at hb
    cases hb

theorem stops_nil : Stops [] := by
  intro s' h
  cases h with
  | refl => rfl
  | comment hb _ => cases hb

theorem not_comment_of_blank {c : UInt8} (hc : isBlank c = true ∨ c = byte '\n') : atComment (c :: s) = false := by
  unfold atComment peek
  rw [Bool.and_eq_false_iff]
  left
  rw [List.headD_cons]
  rcases hc with hc | rfl
  · rw [decide_eq_false_iff_not]
    rintro rfl
    cases hc
  · rfl

/-- What the scanner comes to behind a place it has skipped. -/
theorem Skips.rest (h : Skips s s') (h' : Skips s s'') (hstops : Stops s'') : Skips s' s'' := by
  induction h with
  | refl s => exact h'
  | @blank c s s' hc h ih =>
    cases h' with
    | refl =>
      have hs := hstops s' (.blank hc h)
      rw [hs]
      exact .refl _
    | blank _ h' => exact ih h'
    | comment hb _ =>
      rw [not_comment_of_blank hc] at hb
      cases hb
  | @comment s s' hc h ih =>
    cases h' with
    | refl =>
      have hs := hstops s' (.comment hc h)
      rw [hs]
      exact .refl _
    | blank hb _ =>
      rw [not_comment_of_blank hb] at hc
      cases hc
    | comment _ h' => exact ih h'

end Skips

section Newlines

theorem newlines_cons (c : UInt8) (s : Bytes) :
    newlines (c :: s) = newlines s + if c = byte '\n' then 1 else 0 := by
  unfold newlines
  rw [List.count_cons]
  congr 1
  simp only [beq_iff_eq]

theorem newlines_dropWhile {p : UInt8 → Bool} (hp : p (byte '\n') = false) (s : Bytes) :
    newlines (s.dropWhile p) = newlines s := by
  induction s with
  | nil => rfl
  | cons c s ih =>
    rw [List.dropWhile_cons]
    split
    next hc =>
      have hne : c ≠ byte '\n' := by
        rintro rfl
        rw [hp] at hc
        cases hc
      rw [ih, newlines_cons, if_neg hne, Nat.add_zero]
    next => rfl

theorem newlines_skipBlanks (s : Bytes) : newlines (skipBlanks s) = newlines s := by
  have hblanks := newlines_dropWhile (p := isBlank) rfl s
  unfold skipBlanks commentEnd
  dsimp only
  split
  next => rw [newlines_dropWhile (by decide), hblanks]
  next => exact hblanks

theorem newlines_indentLoop (s : Bytes) (n : Nat) : newlines (indentLoop s n).2 = newlines s := by
  induction s generalizing n with
  | nil => rfl
  | cons c s ih =>
    unfold indentLoop
    split_ifs with h1 h2
    · rw [ih, newlines_cons, if_neg (by rw [h1]; decide), Nat.add_zero]
    · rw [ih, newlines_cons, if_neg (by rw [h2]; decide), Nat.add_zero]
    · rfl

theorem digitsLoop_spec (b : Bool) (s : Bytes) :
    digitsLoop b s <:+ s ∧ newlines (digitsLoop b s) = newlines s := by
  induction s generalizing b with
  | nil => exact ⟨List.suffix_refl _, rfl⟩
  | cons c s ih =>
    have hdigit : isDigit c = true → c ≠ byte '\n' := by
      rintro h rfl
      cases h
    unfold digitsLoop
    split_ifs with h1 h2
    · obtain ⟨hsuffix, hlines⟩ := ih true
      refine ⟨hsuffix.trans (List.suffix_cons _ _), ?_⟩
      rw [hlines, newlines_cons, if_neg (hdigit h1), Nat.add_zero]
    · obtain ⟨hsuffix, hlines⟩ := ih false
      have hc : c = byte '_' := by
        simp only [Bool.and_eq_true, decide_eq_true_eq] at h2
        exact h2.1.1
      refine ⟨hsuffix.trans (List.suffix_cons _ _), ?_⟩
      rw [hlines, newlines_cons, if_neg (by rw [hc]; decide), Nat.add_zero]
    · exact ⟨List.suffix_refl _, rfl⟩

theorem numberEnd_spec (s : Bytes) : numberEnd s <:+ s ∧ newlines (numberEnd s) = newlines s := by
  obtain ⟨hsuffix, hlines⟩ := digitsLoop_spec true s
  unfold numberEnd
  dsimp only
  cases hs : digitsLoop true s with
  | nil =>
    rw [hs] at hsuffix hlines
    rw [if_neg (by decide)]
    exact ⟨hsuffix, hlines⟩
  | cons c rest =>
    rw [hs] at hsuffix hlines
    split
    next hdot =>
      obtain ⟨hsuffix', hlines'⟩ := digitsLoop_spec false rest
      have hc : c ≠ byte '\n' := by
        have h : c = byte '.' := hdot.1
        rw [h]
        decide
      refine ⟨(hsuffix'.trans (List.suffix_cons _ _)).trans hsuffix, ?_⟩
      rw [← hlines, newlines_cons, if_neg hc, Nat.add_zero]
      exact hlines'
    next => exact ⟨hsuffix, hlines⟩

/-- The loop counts every line break but those that are escaped, which are counted where it says so. -/
theorem quotedLoop_spec (counts : Bool) (quote : UInt8) (s : Bytes) (line : Nat) :
    (quotedLoop counts quote s line).2 <:+ s ∧
      (quotedLoop counts quote s line).1 + newlines (quotedLoop counts quote s line).2 +
        (if counts = true then 0 else escapedBreaks quote s) = line + newlines s := by
  fun_induction quotedLoop counts quote s line with
  | case1 line => exact ⟨List.suffix_refl _, by simp [escapedBreaks]⟩
  | case2 line rest =>
    refine ⟨List.suffix_refl _, ?_⟩
    unfold escapedBreaks
    simp
  | case3 c line hc line' =>
    refine ⟨List.suffix_cons _ _, ?_⟩
    unfold escapedBreaks
    rw [if_neg hc, newlines_cons]
    simp only [line']
    split_ifs <;> omega
  | case4 line d rest hc line' ih =>
    obtain ⟨hsuffix, hlines⟩ := ih
    refine ⟨(hsuffix.trans (List.suffix_cons _ _)).trans (List.suffix_cons _ _), ?_⟩
    have hline : line' = line := if_neg (by decide)
    have hescaped : escapedBreaks quote (byte '\\' :: d :: rest) =
        escapedBreaks quote rest + if d = byte '\n' then 1 else 0 := by
      rw [escapedBreaks, if_neg hc]
      exact if_pos rfl
    rw [hescaped, newlines_cons, newlines_cons, if_neg (by decide : byte '\\' ≠ byte '\n')]
    rw [hline] at hlines ⊢
    by_cases hd : d = byte '\n'
    · cases counts with
      | true =>
        simp only [hd, decide_true, Bool.and_true, if_true] at hlines ⊢
        omega
      | false =>
        simp only [hd, decide_true, Bool.and_false, Bool.false_eq_true, if_false, if_true] at hlines ⊢
        omega
    · simp only [hd, decide_false, Bool.false_and, Bool.false_eq_true, if_false] at hlines ⊢
      omega
  | case5 c line hc line' d rest hne ih =>
    obtain ⟨hsuffix, hlines⟩ := ih
    refine ⟨hsuffix.trans (List.suffix_cons _ _), ?_⟩
    have hescaped : escapedBreaks quote (c :: d :: rest) = escapedBreaks quote (d :: rest) := by
      rw [escapedBreaks, if_neg hc]
      exact if_neg hne
    have hline : line' = line + if c = byte '\n' then 1 else 0 := by
      simp only [line']
      split_ifs <;> rfl
    rw [hescaped, newlines_cons]
    omega

/-- It stops at the closing quote. -/
theorem quotedLoop_head {counts : Bool} {quote c : UInt8} {s rest : Bytes} {line : Nat}
    (h : (quotedLoop counts quote s line).2 = c :: rest) : c = quote := by
  fun_induction quotedLoop counts quote s line with
  | case1 line => cases h
  | case2 line rest' => exact (List.cons.inj h).1.symm
  | case3 c line hc line' => cases h
  | case4 line d rest hc line' ih => exact ih h
  | case5 c line hc line' d rest hne ih => exact ih h

theorem multilineLoop_spec (s : Bytes) (line : Nat) :
    (multilineLoop s line).2.1 <:+ s ∧
      (multilineLoop s line).1 + newlines (multilineLoop s line).2.1 = line + newlines s := by
  fun_induction multilineLoop s line with
  | case1 line => exact ⟨List.suffix_refl _, rfl⟩
  | case2 c rest line h =>
    obtain ⟨rfl, hrest⟩ := h
    obtain ⟨rest, rfl⟩ : ∃ rest', rest = byte ']' :: rest' := by
      cases rest with
      | nil => cases hrest
      | cons d rest => exact ⟨rest, by rw [← hrest]; rfl⟩
    refine ⟨(List.suffix_cons _ _).trans (List.suffix_cons _ _), ?_⟩
    rw [newlines_cons, newlines_cons, if_neg (by decide)]
    rfl
  | case3 c rest line h ih =>
    obtain ⟨hsuffix, hlines⟩ := ih
    refine ⟨hsuffix.trans (List.suffix_cons _ _), ?_⟩
    rw [newlines_cons]
    split_ifs at hlines ⊢ <;> omega

end Newlines

/-- The types of the tokens that change nothing else. -/
def TokenType.IsPlain (type : TokenType) : Prop :=
  type ∉ [.eof, .error, .leftBrace, .rightBrace, .indent, .dedent]

instance (type : TokenType) : Decidable type.IsPlain := inferInstanceAs (Decidable (_ ∉ _))

theorem identifierType_plain (text : Bytes) : (identifierType text).IsPlain := by
  unfold identifierType
  split
  next k hk =>
    have hall : ∀ k ∈ keywords, k.2.IsPlain := by decide
    exact hall k (List.mem_of_find?_eq_some hk)
  next => decide

/-- An operator that is read is plain, and its second character is one. -/
def OperatorFits (next : UInt8) (o : Option (TokenType × Bool)) : Prop :=
  ∀ type two, o = some (type, two) → type.IsPlain ∧ (two = true → next ≠ 0 ∧ next ≠ byte '\n')

section Operator

variable {next : UInt8} {type : TokenType}

theorem operatorFits_one (h : type.IsPlain) : OperatorFits next (some (type, false)) := by
  intro type' two heq
  cases heq
  exact ⟨h, nofun⟩

theorem operatorFits_two {d : UInt8} (h : type.IsPlain) (hnext : next = d) (hd : d ≠ 0 ∧ d ≠ byte '\n') :
    OperatorFits next (some (type, true)) := by
  intro type' two heq
  cases heq
  exact ⟨h, fun _ => hnext ▸ hd⟩

theorem operatorFits_ite {p : Prop} [Decidable p] {a b : Option (TokenType × Bool)}
    (ha : p → OperatorFits next a) (hb : OperatorFits next b) : OperatorFits next (if p then a else b) := by
  split
  next hp => exact ha hp
  next => exact hb

theorem operatorFits_some_ite {p : Prop} [Decidable p] {a b : TokenType × Bool}
    (ha : p → OperatorFits next (some a)) (hb : OperatorFits next (some b)) :
    OperatorFits next (some (if p then a else b)) := by
  split
  next hp => exact ha hp
  next => exact hb

theorem operator_fits (c next : UInt8) : OperatorFits next (operator c next) := by
  have hnone : OperatorFits next none := nofun
  unfold operator
  repeat' first
    | exact operatorFits_one (by decide)
    | exact operatorFits_two (by decide) (by assumption) (by decide)
    | exact hnone
    | refine operatorFits_ite (fun _ => ?_) ?_
    | refine operatorFits_some_ite (fun _ => ?_) ?_

end Operator

/-- What a token does to the number of open braces. -/
def TokenType.braces (type : TokenType) (depth : Nat) : Nat :=
  match type with
  | .leftBrace => depth + 1
  | .rightBrace => depth - 1
  | _ => depth

def TokenType.IsLayout (type : TokenType) : Prop := type ∈ [.eof, .indent, .dedent]

theorem TokenType.IsPlain.ne {type : TokenType} (h : type.IsPlain) :
    ¬type.IsLayout ∧ type ≠ .error ∧ ∀ depth, type.braces depth = depth := by
  revert h
  cases type <;> simp [IsPlain, IsLayout, braces]

/-- What reading a token from its first character on does. -/
structure TokenRead (L : Lexer) (t : Token) (L' : Lexer) (missed : Nat) : Prop where
  start : L'.start = L.start
  suffix : L'.current <:+ L.current.tail
  token : t.type ≠ .error → t = L'.makeToken t.type
  line : t.line = L'.line
  lines : L'.line + newlines L'.current + missed = L.line + newlines L.current
  indents : L'.indents = L.indents
  pending : L'.pendingDedents = L.pendingDedents
  atStart : L'.atStartOfLine = L.atStartOfLine
  layout : ¬t.type.IsLayout
  table : L'.insideTable = t.type.braces L.insideTable

section TokenRead

variable {L L' : Lexer} {c : UInt8} {rest current : Bytes}

/-- A token of a plain type that goes on to `current`. -/
theorem TokenRead.plain {type : TokenType} {line missed : Nat} (ht : type.IsPlain) (hc : current <:+ L.current.tail)
    (hlines : line + newlines current + missed = L.line + newlines L.current) :
    TokenRead L (Lexer.makeToken { L with current, line } type) { L with current, line } missed where
  start := rfl
  suffix := hc
  token := fun _ => rfl
  line := rfl
  lines := hlines
  indents := rfl
  pending := rfl
  atStart := rfl
  layout := ht.ne.1
  table := (ht.ne.2.2 _).symm

theorem TokenRead.error {message : Bytes} {line missed : Nat} (hc : current <:+ L.current.tail)
    (hlines : line + newlines current + missed = L.line + newlines L.current) :
    TokenRead L (Lexer.errorToken { L with current, line } message) { L with current, line } missed where
  start := rfl
  suffix := hc
  token := fun h => absurd rfl h
  line := rfl
  lines := hlines
  indents := rfl
  pending := rfl
  atStart := rfl
  layout := by
    intro h
    revert h
    simp [TokenType.IsLayout, Lexer.errorToken]
  table := rfl

/-- The quoted texts, from behind the opening quote on. -/
theorem quoted_reads {counts : Bool} {quote : UInt8} {type : TokenType} {message : String} (ht : type.IsPlain)
    (hquote : quote ≠ byte '\n') (hc : current <:+ L.current.tail) (hlines : newlines current = newlines L.current) :
    TokenRead L (Lexer.quoted { L with current } counts quote type message).1
      (Lexer.quoted { L with current } counts quote type message).2
      (if counts = true then 0 else escapedBreaks quote current) := by
  obtain ⟨hsuffix, hcount⟩ := quotedLoop_spec counts quote current L.line
  unfold Lexer.quoted
  dsimp only
  split
  next hrest =>
    rw [hrest] at hcount
    refine TokenRead.error List.nil_suffix ?_
    rw [hcount, hlines]
  next hrest =>
    obtain ⟨c, rest, heq⟩ := List.exists_cons_of_ne_nil hrest
    have hhead := quotedLoop_head heq
    rw [heq] at hcount hsuffix ⊢
    rw [newlines_cons, hhead, if_neg hquote, Nat.add_zero] at hcount
    refine TokenRead.plain ht (((List.suffix_cons _ _).trans hsuffix).trans hc) ?_
    rw [List.tail_cons, hcount, hlines]

theorem multiline_reads {type : TokenType} {message : String} (ht : type.IsPlain)
    (hc : current <:+ L.current.tail) (hlines : newlines current = newlines L.current) :
    TokenRead L (Lexer.multiline { L with current } type message).1 (Lexer.multiline { L with current } type message).2 0 := by
  obtain ⟨hsuffix, hcount⟩ := multilineLoop_spec current L.line
  unfold Lexer.multiline
  dsimp only
  split
  next => exact TokenRead.plain ht (hsuffix.trans hc) (by rw [Nat.add_zero, hcount, hlines])
  next => exact TokenRead.error (hsuffix.trans hc) (by rw [Nat.add_zero, hcount, hlines])

/-- The line breaks that reading a token does not count. -/
def missedBreaks (s : Bytes) : Nat :=
  match s with
  | c :: quote :: rest =>
    if c = byte 'f' ∧ (quote = byte '"' ∨ quote = byte '\'') then escapedBreaks quote rest else 0
  | _ => 0

theorem missedBreaks_eq_zero_iff {s : Bytes} : missedBreaks s = 0 ↔ ¬EscapesBreak s := by
  unfold missedBreaks EscapesBreak
  constructor
  · intro h
    rintro ⟨quote, rest, rfl, hquote, hbreaks⟩
    dsimp only at h
    rw [if_pos ⟨rfl, hquote⟩] at h
    exact hbreaks h
  · intro h
    split
    next c quote rest =>
      split
      next hc =>
        by_contra hne
        exact h ⟨quote, rest, by rw [hc.1], hc.2, hne⟩
      next => rfl
    next => rfl

/-- The character of a token is no line break. -/
theorem newlines_first (hc : c ≠ byte '\n') : newlines (c :: rest) = newlines rest := by
  rw [newlines_cons, if_neg hc, Nat.add_zero]

theorem peek_cons_of_ne {d : UInt8} (h : peek rest = d) (hd : d ≠ 0) : ∃ rest', rest = d :: rest' := by
  cases rest with
  | nil => exact absurd h.symm hd
  | cons e rest => exact ⟨rest, by rw [← h]; rfl⟩

theorem scanChar_reads (hstart : L.current = c :: rest) (hc : c ≠ byte '\n') :
    TokenRead L (L.scanChar c rest).1 (L.scanChar c rest).2 (missedBreaks (c :: rest)) := by
  have htail : L.current.tail = rest := by rw [hstart]; rfl
  have hlines : newlines rest = newlines L.current := by rw [hstart, newlines_first hc]
  have hself : rest <:+ L.current.tail := by rw [htail]
  -- but for the f-strings nothing is missed
  have hzero : ¬(c = byte 'f' ∧ (peek rest = byte '"' ∨ peek rest = byte '\'')) → missedBreaks (c :: rest) = 0 := by
    intro h
    unfold missedBreaks
    split
    next c' quote rest' heq =>
      cases heq
      exact if_neg h
    next => rfl
  unfold Lexer.scanChar
  dsimp only
  split
  next hf =>
    obtain ⟨quote, hquote⟩ : ∃ quote, peek rest = quote := ⟨_, rfl⟩
    rw [hquote] at hf ⊢
    have hne : quote ≠ 0 ∧ quote ≠ byte '\n' := by
      rcases hf.2 with rfl | rfl
      · decide
      · decide
    obtain ⟨rest', rfl⟩ := peek_cons_of_ne hquote hne.1
    have hmissed : missedBreaks (c :: quote :: rest') = if false = true then 0 else escapedBreaks quote rest' := if_pos hf
    rw [hmissed]
    refine quoted_reads (by decide) hne.2 ((List.suffix_cons _ _).trans hself) ?_
    rw [← hlines, newlines_first hne.2]
    rfl
  next hf =>
    rw [hzero hf]
    by_cases hmulti : c = byte 'f' ∧ peek rest = byte '[' ∧ peekNext rest = byte '['
    · rw [if_pos hmulti]
      obtain ⟨rest', rfl⟩ := peek_cons_of_ne hmulti.2.1 (by decide)
      obtain ⟨rest'', rfl⟩ := @peek_cons_of_ne rest' _ hmulti.2.2 (by decide)
      refine multiline_reads (by decide) (((List.suffix_cons _ _).trans (List.suffix_cons _ _)).trans hself) ?_
      rw [← hlines, newlines_first (by decide), newlines_first (by decide)]
      rfl
    rw [if_neg hmulti]
    by_cases hword : isAlpha c = true ∨ c = byte '_'
    · rw [if_pos hword]
      refine TokenRead.plain (identifierType_plain _) ((List.dropWhile_suffix _).trans hself) ?_
      rw [newlines_dropWhile (by decide), hlines]
      rfl
    rw [if_neg hword]
    by_cases hdigit : isDigit c = true
    · rw [if_pos hdigit]
      obtain ⟨hsuffix, hcount⟩ := numberEnd_spec rest
      refine TokenRead.plain (by decide) (hsuffix.trans hself) ?_
      rw [hcount, hlines]
      rfl
    rw [if_neg hdigit]
    by_cases hopen : c = byte '\x7b'
    · rw [if_pos hopen]
      exact ⟨rfl, hself, fun _ => rfl, rfl, by rw [← hlines]; rfl, rfl, rfl, rfl,
        by simp [TokenType.IsLayout, Lexer.makeToken], rfl⟩
    rw [if_neg hopen]
    by_cases hclose : c = byte '\x7d'
    · rw [if_pos hclose]
      exact ⟨rfl, hself, fun _ => rfl, rfl, by rw [← hlines]; rfl, rfl, rfl, rfl,
        by simp [TokenType.IsLayout, Lexer.makeToken], rfl⟩
    rw [if_neg hclose]
    by_cases hbracket : c = byte '['
    · rw [if_pos hbracket]
      by_cases htwo : peek rest = byte '['
      · rw [if_pos htwo]
        obtain ⟨rest', rfl⟩ := peek_cons_of_ne htwo (by decide)
        refine multiline_reads (by decide) ((List.suffix_cons _ _).trans hself) ?_
        rw [← hlines, newlines_first (by decide)]
        rfl
      · rw [if_neg htwo]
        exact TokenRead.plain (by decide) hself (by rw [hlines]; rfl)
    rw [if_neg hbracket]
    by_cases hquote : c = byte '"' ∨ c = byte '\''
    · rw [if_pos hquote]
      exact @quoted_reads _ _ true _ _ _ (by decide) hc hself hlines
    rw [if_neg hquote]
    have hfits := operator_fits c (peek rest)
    cases hop : operator c (peek rest) with
    | none => exact TokenRead.error hself (by rw [hlines]; rfl)
    | some found =>
      obtain ⟨type, two⟩ := found
      obtain ⟨hplain, hsecond⟩ := hfits type two hop
      cases two with
      | false => exact TokenRead.plain hplain hself (by rw [hlines]; rfl)
      | true =>
        obtain ⟨d, hd⟩ : ∃ d, peek rest = d := ⟨_, rfl⟩
        rw [hd] at hsecond
        obtain ⟨rest', rfl⟩ := peek_cons_of_ne hd (hsecond rfl).1
        refine TokenRead.plain hplain ((List.suffix_cons _ _).trans hself) ?_
        rw [← hlines, newlines_first (hsecond rfl).2]
        rfl

end TokenRead

section Step

variable {L L' M : Lexer} {t : Token}

theorem head_dropWhile {p : UInt8 → Bool} {s rest : Bytes} {c : UInt8} (h : s.dropWhile p = c :: rest) :
    p c = false := by
  have hne : s.dropWhile p ≠ [] := by rw [h]; nofun
  have hhead := List.head_dropWhile_not p hne
  simpa [h] using hhead

/-- The scanner stops in front of a token. -/
theorem skipBlanks_stops {s rest : Bytes} {c : UInt8} (h : skipBlanks s = c :: rest) (hc : c ≠ byte '\n') :
    Stops (c :: rest) := by
  unfold skipBlanks at h
  dsimp only at h
  split at h
  next =>
    have hstop := head_dropWhile h
    simp only [decide_eq_false_iff_not, ne_eq, Decidable.not_not] at hstop
    exact absurd hstop hc
  next hcomment =>
    rw [h] at hcomment
    exact stops_of_head (head_dropWhile h) hc (Bool.eq_false_iff.mpr hcomment)

/-- What a call of the scanner does to the place and the line. -/
structure Stepped (L : Lexer) (t : Token) (L' : Lexer) : Prop where
  follows : Skips L.current L'.start
  reads : L'.current <:+ L'.start
  token : t.type ≠ .error → t = L'.makeToken t.type
  line : t.line = L'.line
  last : t.type = .eof → L'.current = []
  lines : Skips L'.start L'.current ∧ L'.line + newlines L'.current = L.line + newlines L.current ∨
    Stops L'.start ∧ L'.line + newlines L'.current + missedBreaks L'.start = L.line + newlines L.current

theorem Stepped.behind (hskips : Skips L.current M.current)
    (hlines : M.line + newlines M.current = L.line + newlines L.current) (hs : Stepped M t L') : Stepped L t L' where
  follows := hskips.trans hs.follows
  reads := hs.reads
  token := hs.token
  line := hs.line
  last := hs.last
  lines := by rw [← hlines]; exact hs.lines

/-- A restart goes on over what is skipped, and counts its line breaks. -/
structure Restarted (L M : Lexer) : Prop where
  skips : Skips L.current M.current
  lines : M.line + newlines M.current = L.line + newlines L.current
  pending : L.pendingDedents = 0 → M.pendingDedents = 0

theorem Restarted.trans {N : Lexer} (h : Restarted L M) (h' : Restarted M N) : Restarted L N where
  skips := h.skips.trans h'.skips
  lines := h'.lines.trans h.lines
  pending := fun hp => h'.pending (h.pending hp)

theorem Restarted.stepped (h : Restarted L M) (hs : Stepped M t L') : Stepped L t L' :=
  hs.behind h.skips h.lines

/-- A token of a layout that reads blanks from `L.current` on. -/
theorem Stepped.blanks (hstart : L'.start = L.current) (hskips : Skips L.current L'.current)
    (htoken : t.type ≠ .error → t = L'.makeToken t.type) (hline : t.line = L'.line) (htype : t.type ≠ .eof)
    (hlines : L'.line + newlines L'.current = L.line + newlines L.current) : Stepped L t L' where
  follows := by rw [hstart]; exact .refl _
  reads := by rw [hstart]; exact hskips.suffix
  token := htoken
  line := hline
  last := fun h => absurd h htype
  lines := .inl ⟨by rw [hstart]; exact hskips, hlines⟩

/-- What the start of a line leads to. -/
def LineStart.Stepped (L : Lexer) : LineStart → Prop
  | .restart M => Restarted L M
  | .token t L' => ToiLang.Stepped L t L'
  | .outside => True
  | .proceed M => Restarted L M

theorem compareIndent_stepped {indent : Nat} (hstart : M.start = L.current) (h : Restarted L M) :
    (M.compareIndent indent).Stepped L := by
  unfold Lexer.compareIndent
  split
  next =>
    split
    next => exact .blanks hstart h.skips (fun _ => rfl) rfl nofun h.lines
    next => trivial
  next =>
    split
    next =>
      dsimp only
      split
      next => exact .blanks hstart h.skips (fun h => absurd rfl h) rfl nofun h.lines
      next =>
        split
        next => exact .blanks hstart h.skips (fun _ => rfl) rfl nofun h.lines
        next hp => exact ⟨h.skips, h.lines, fun _ => Nat.eq_zero_of_not_pos hp⟩
    next => exact h

theorem lineStart_stepped (L : Lexer) : L.lineStart.Stepped L := by
  have hskips := indentLoop_skips L.current 0
  have hlines := newlines_indentLoop L.current 0
  unfold Lexer.lineStart
  split
  next =>
    generalize indentLoop L.current 0 = found at hskips hlines ⊢
    obtain ⟨indent, rest⟩ := found
    dsimp only at hskips hlines ⊢
    split
    next hnewline =>
      obtain ⟨rest', rfl⟩ := peek_cons_of_ne hnewline (by decide)
      refine ⟨hskips.trans (.blank (.inr rfl) (.refl _)), ?_, fun hp => hp⟩
      rw [← hlines, newlines_cons, if_pos rfl, List.tail_cons]
      dsimp only
      omega
    next =>
      split
      next hcomment =>
        refine ⟨hskips.trans (.comment hcomment (.refl _)), ?_, fun hp => hp⟩
        dsimp only
        rw [commentEnd, newlines_dropWhile (by decide), hlines]
      next => exact compareIndent_stepped rfl ⟨hskips, by dsimp only; rw [hlines], fun hp => hp⟩
  next => exact ⟨.refl _, rfl, fun hp => hp⟩

/-- Reading a token behind what is skipped. -/
theorem TokenRead.stepped {c : UInt8} {rest : Bytes} {missed : Nat} (hskips : Skips L.current (c :: rest))
    (hlines : L.line + newlines (c :: rest) = L.line + newlines L.current) (hstops : Stops (c :: rest))
    (h : TokenRead { L with start := c :: rest, current := c :: rest } t L' missed)
    (hmissed : missed = missedBreaks (c :: rest)) : Stepped L t L' where
  follows := by rw [h.start]; exact hskips
  reads := by
    rw [h.start]
    exact h.suffix.trans (List.suffix_cons _ _)
  token := h.token
  line := h.line
  last := by
    intro ht
    have hlayout := h.layout
    rw [ht] at hlayout
    exact absurd (List.mem_cons_self) hlayout
  lines := by
    right
    have hcount := h.lines
    rw [h.start]
    refine ⟨hstops, ?_⟩
    rw [← hmissed, hcount]
    exact hlines

theorem scanLoop_stepped {fuel : Nat} (h : scanLoop fuel L = .token t L')
    (hpending : 0 < L.pendingDedents → L.start = L.current) : Stepped L t L' := by
  induction fuel generalizing L with
  | zero => cases h
  | succ fuel ih =>
    unfold scanLoop at h
    split at h
    next hp =>
      cases h
      exact .blanks (hpending hp) (.refl _) (fun _ => rfl) rfl nofun rfl
    next hp =>
      have hzero : L.pendingDedents = 0 := Nat.eq_zero_of_not_pos hp
      have hline := lineStart_stepped L
      split at h
      next M hM =>
        rw [hM] at hline
        refine hline.stepped (ih h fun hpos => ?_)
        have hM := hline.pending hzero
        omega
      next t M hM =>
        rw [hM] at hline
        cases h
        exact hline
      next => cases h
      next M hM =>
        rw [hM] at hline
        have hrestart : Restarted L M := hline
        have hskips := skipBlanks_skips M.current
        have hcount := newlines_skipBlanks M.current
        refine hrestart.stepped ?_
        split at h
        next hend =>
          rw [hend] at hskips hcount
          split at h
          next =>
            exact (ih h fun _ => rfl).behind hskips (by rw [← hcount])
          next =>
            cases h
            exact ⟨hskips, List.suffix_refl _, fun _ => rfl, rfl, fun _ => rfl, .inr ⟨stops_nil, by rw [← hcount]; rfl⟩⟩
        next c rest hc =>
          rw [hc] at hskips hcount
          split at h
          next hnewline =>
            subst hnewline
            have hM := hrestart.pending hzero
            refine (ih h fun hpos => absurd hpos (by rw [hM]; exact Nat.lt_irrefl 0)).behind
              (hskips.trans (.blank (.inr rfl) (.refl _))) ?_
            rw [← hcount, newlines_cons, if_pos rfl]
            dsimp only
            omega
          next hc' =>
            have hreads := @scanChar_reads { M with start := c :: rest, current := c :: rest } c rest rfl hc'
            cases h
            exact hreads.stepped hskips (by rw [hcount]) (skipBlanks_stops hc hc') rfl

end Step

section Run

variable {source : Bytes} {L L' : Lexer} {t : Token}

/-- The scanner is in the source, behind what it read last, and has counted every line break. -/
structure Lexer.Counted (source : Bytes) (L : Lexer) : Prop where
  inside : L.current <:+ source
  behind : L.current <:+ L.start
  lines : L.line + newlines L.current = 1 + newlines source

theorem initLexer_counted (source : Bytes) : (initLexer source).Counted source :=
  ⟨List.suffix_refl _, List.suffix_refl _, rfl⟩

theorem newlines_take {s : Bytes} (h : s <:+ source) :
    newlines (source.take (source.length - s.length)) + newlines s = newlines source := by
  obtain ⟨front, rfl⟩ := h
  have hlen : (front ++ s).length - s.length = front.length := by
    rw [List.length_append]
    omega
  rw [hlen, List.take_left]
  exact List.count_append.symm

theorem EscapesBreak.stops {s : Bytes} (h : EscapesBreak s) : Stops s := by
  obtain ⟨quote, rest, rfl, -⟩ := h
  exact stops_of_head (by decide) (by decide) rfl

theorem EscapesBreak.ne_nil {s : Bytes} (h : EscapesBreak s) : s ≠ [] := by
  obtain ⟨quote, rest, rfl, -⟩ := h
  exact List.cons_ne_nil _ _

theorem scanToken_stepped (h : scanToken L = .token t L')
    (hpending : 0 < L.pendingDedents → L.start = L.current) : Stepped L t L' := scanLoop_stepped h hpending

theorem scanToken_pending (hpending : 0 < L.pendingDedents) (h : scanToken L = .token t L') :
    L'.start = L.start ∧ L'.current = L.current := by
  unfold scanToken scanLoop at h
  rw [if_pos hpending] at h
  cases h
  exact ⟨rfl, rfl⟩

theorem Stepped.inside (h : Stepped L t L') (hL : L.Counted source) : L'.current <:+ source :=
  (h.reads.trans h.follows.suffix).trans hL.inside

/-- The line of a token is right where all line breaks up to the end of it were counted. -/
theorem Stepped.line_iff (h : Stepped L t L') (hL : L.Counted source) :
    t.line = 1 + newlines (source.take (source.length - L'.current.length)) ↔
      L'.line + newlines L'.current = 1 + newlines source := by
  have htake := newlines_take (h.inside hL)
  rw [h.line]
  omega

theorem Stepped.positioned (h : Stepped L t L') (hL : L.Counted source)
    (hlines : L'.line + newlines L'.current = 1 + newlines source) :
    ScanStep.Positioned source ⟨L, t, L'⟩ where
  follows := h.follows
  reads := h.reads
  start := fun ht => by
    change t.start = _
    rw [h.token ht]
    rfl
  length := fun ht => by
    change t.length = _
    rw [h.token ht]
    rfl
  line := (h.line_iff hL).mpr hlines
  last := h.last

/-- An aligned state loses no line break. -/
theorem Stepped.lines_of_aligned (h : Stepped L t L') (hL : L.Counted source) (ha : L.Aligned) :
    L'.line + newlines L'.current = 1 + newlines source := by
  have hold := hL.lines
  rcases h.lines with ⟨-, hcount⟩ | ⟨-, hcount⟩
  · exact hcount.trans hold
  · have hmissed := missedBreaks_eq_zero_iff.mpr (ha.breaks _ h.follows)
    omega

/-- A dedent that is left and follows on the token before it reads nothing. -/
theorem dedents_of_positioned (hL : L.Counted source) (h : scanToken L = .token t L')
    (hp : ScanStep.Positioned source ⟨L, t, L'⟩) (hpos : 0 < L.pendingDedents) : L.start = L.current := by
  have hfollows := hp.follows
  change Skips L.current L'.start at hfollows
  rw [(scanToken_pending hpos h).1] at hfollows
  exact hfollows.suffix.eq_of_length_le hL.behind.length_le

/-- A step with a token at its place has a state that is aligned, if the state behind it is. -/
theorem aligned_of_positioned (hL : L.Counted source) (h : scanToken L = .token t L')
    (hp : ScanStep.Positioned source ⟨L, t, L'⟩)
    (hnext : ∀ s, Skips L'.current s → ¬EscapesBreak s) : L.Aligned := by
  have hdedents := dedents_of_positioned hL h hp
  have hstep := scanToken_stepped h hdedents
  have hlines := (hstep.line_iff hL).mp hp.line
  refine ⟨hdedents, fun s hs hbreak => ?_⟩
  have hrest := hstep.follows.rest hs hbreak.stops
  rcases hstep.lines with ⟨hskips, -⟩ | ⟨hstops, hcount⟩
  · exact hnext s (hskips.rest hrest hbreak.stops) hbreak
  · have hold := hL.lines
    obtain rfl := hstops s hrest
    exact missedBreaks_eq_zero_iff.mp (by omega) hbreak

theorem Scan.positioned_run {steps : List ScanStep} (h : Scan L steps) (hL : L.Counted source) :
    (∀ s ∈ steps, s.Positioned source) ↔ ∀ s ∈ steps, s.before.Aligned := by
  induction h with
  | @eof L L' t h ht =>
    rw [List.forall_mem_singleton, List.forall_mem_singleton]
    constructor
    · intro hp
      refine aligned_of_positioned hL h hp fun s hs hbreak => ?_
      have hend : L'.current = [] := hp.last ht
      rw [hend] at hs
      exact hbreak.ne_nil (stops_nil s hs)
    · intro ha
      have hstep := scanToken_stepped h ha.dedents
      exact hstep.positioned hL (hstep.lines_of_aligned hL ha)
  | @next L L' t steps h ht hs ih =>
    rw [List.forall_mem_cons, List.forall_mem_cons]
    obtain ⟨first, rest, hfirst, heq⟩ : ∃ first rest, first.before = L' ∧ steps = first :: rest := by
      cases hs with
      | eof _ _ => exact ⟨_, _, rfl, rfl⟩
      | next _ _ _ => exact ⟨_, _, rfl, rfl⟩
    have hcounted (hstep : Stepped L t L') (hlines : L'.line + newlines L'.current = 1 + newlines source) :
        L'.Counted source := ⟨hstep.inside hL, hstep.reads, hlines⟩
    constructor
    · intro ⟨hp, hrest⟩
      have hstep := scanToken_stepped h (dedents_of_positioned hL h hp)
      have hall := (ih (hcounted hstep ((hstep.line_iff hL).mp hp.line))).mp hrest
      have hnext : L'.Aligned := by
        rw [← hfirst]
        exact hall first (by rw [heq]; exact List.mem_cons_self)
      exact ⟨aligned_of_positioned hL h hp hnext.breaks, hall⟩
    · intro ⟨ha, hrest⟩
      have hstep := scanToken_stepped h ha.dedents
      have hlines := hstep.lines_of_aligned hL ha
      exact ⟨hstep.positioned hL hlines, (ih (hcounted hstep hlines)).mpr hrest⟩

/-- The tokens of a source have the lines and the places that they are read from exactly where no state
of the scan is in front of an f-string with an escaped line break or has a dedent left whose blanks
another token has. -/
theorem positioned_iff (source : Bytes) (steps : List ScanStep) (h : Scan (initLexer source) steps) :
    (∀ s ∈ steps, s.Positioned source) ↔ ∀ s ∈ steps, s.before.Aligned :=
  h.positioned_run (initLexer_counted source)

theorem scanAll_scan {fuel : Nat} {steps : List ScanStep} (h : scanAll fuel L = some steps) : Scan L steps := by
  induction fuel generalizing L steps with
  | zero => cases h
  | succ fuel ih =>
    unfold scanAll at h
    split at h
    next t L' hscan =>
      split at h
      next ht =>
        cases h
        exact .eof hscan ht
      next ht =>
        obtain ⟨steps, hsteps, rfl⟩ := Option.map_eq_some_iff.mp h
        exact .next hscan ht (ih hsteps)
    next => cases h

theorem aligned_of_not_mem (hp : L.pendingDedents = 0) (hf : byte 'f' ∉ L.current) : L.Aligned := by
  refine ⟨fun hpos => absurd hp (Nat.ne_of_gt hpos), fun s hs hbreak => ?_⟩
  obtain ⟨quote, rest, rfl, -⟩ := hbreak
  exact hf (hs.suffix.subset List.mem_cons_self)

end Run

/-- A test of the steps of a scan. -/
def scanTest (source : Bytes) (test : List ScanStep → Bool) : Bool :=
  match scanAll 40 (initLexer source) with
  | some steps => test steps
  | none => false

theorem scanTest_spec {source : Bytes} {test : List ScanStep → Bool} (h : scanTest source test = true) :
    ∃ steps, Scan (initLexer source) steps ∧ test steps = true := by
  unfold scanTest at h
  split at h
  next steps hsteps => exact ⟨steps, scanAll_scan hsteps, h⟩
  next => cases h

/-- A block with a comment and a text of two lines. -/
def loopSource : Bytes := ascii "while x\n  -- why\n  y = [[a\nb]]\n"

theorem loopSource_positioned : ∃ steps, Scan (initLexer loopSource) steps ∧
    ∀ s ∈ steps, s.Positioned loopSource := by
  obtain ⟨steps, hscan, hall⟩ := @scanTest_spec loopSource
    (·.all fun s => s.before.pendingDedents = 0 && !s.before.current.contains (byte 'f')) (by
      rw [loopSource, ascii_ofList]
      decide)
  refine ⟨steps, hscan, (positioned_iff loopSource steps hscan).mpr fun s hs => ?_⟩
  have htest := List.all_eq_true.mp hall s hs
  rw [Bool.and_eq_true, decide_eq_true_eq, Bool.not_eq_true', List.contains_eq_mem, decide_eq_false_iff_not] at htest
  exact aligned_of_not_mem htest.1 htest.2

/-- An f-string with an escaped line break. -/
def escapedSource : Bytes := ascii "f\"\\\n\""

/-- A line that closes two blocks and is indented itself. -/
def closingSource : Bytes := ascii "a\n b\n  c\n   d\n e"

theorem positioned_false :
    (∃ steps, Scan (initLexer escapedSource) steps ∧ ¬∀ s ∈ steps, s.Positioned escapedSource) ∧
      ∃ steps, Scan (initLexer closingSource) steps ∧ ¬∀ s ∈ steps, s.Positioned closingSource := by
  constructor
  · obtain ⟨steps, hscan, hany⟩ := @scanTest_spec escapedSource
      (·.any fun s => s.before.current = escapedSource) (by
        rw [escapedSource, ascii_ofList]
        decide)
    refine ⟨steps, hscan, fun hall => ?_⟩
    have haligned := (hscan.positioned_run (initLexer_counted escapedSource)).mp hall
    obtain ⟨s, hs, hfirst⟩ := List.any_eq_true.mp hany
    have hbreaks := (haligned s hs).breaks
    rw [of_decide_eq_true hfirst] at hbreaks
    exact hbreaks _ (.refl _) ⟨byte '"', _, rfl, .inl rfl, by decide⟩
  · obtain ⟨steps, hscan, hany⟩ := @scanTest_spec closingSource
      (·.any fun s => 0 < s.before.pendingDedents && s.before.start ≠ s.before.current) (by
        rw [closingSource, ascii_ofList]
        decide)
    refine ⟨steps, hscan, fun hall => ?_⟩
    have haligned := (hscan.positioned_run (initLexer_counted closingSource)).mp hall
    obtain ⟨s, hs, hleft⟩ := List.any_eq_true.mp hany
    rw [Bool.and_eq_true, decide_eq_true_eq, decide_eq_true_eq] at hleft
    exact hleft.2 ((haligned s hs).dedents hleft.1)

end ToiLang
