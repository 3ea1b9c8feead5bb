import ToiLang.Chunk
import ToiLang.Decimal

namespace ToiLang.Csv

inductive CsvParseState
  | fieldStart
  | inUnquoted
  | inQuoted
  | afterQuote
  deriving DecidableEq

/-- `csv_ensure_row`, where there is more input. -/
def ensureRow (rest : Bytes) : Option (List Bytes) := if rest = [] then none else some []

/-- `csv_emit_field`: there has to be a row. -/
def emitField (row : Option (List Bytes)) (field : Bytes) : Option (List Bytes) :=
  row.map (· ++ [field])

/-- The loop of `csv.parse` over the characters of the input and the zero behind them, which is also
what it takes a zero byte in the input for. Outside of quotes the states differ in what they do with
a quote and with a character of the field. -/
def csvLoop (delimiter : UInt8) (state : CsvParseState) (field : Bytes) (row : Option (List Bytes))
    (rows : List (List Bytes)) : Bytes → Option (List (List Bytes))
  | [] =>
    match state with
    | .inQuoted => none
    | _ =>
      if delimiter = 0 then (emitField row field).map fun _ => rows
      else (emitField row field).map fun row => rows ++ [row]
  | c :: rest =>
    if state = .inQuoted then
      if c = 0 then none
      else if c = 34 then
        match rest with
        | [] => csvLoop delimiter .afterQuote field row rows []
        | d :: tail =>
          if d = 34 then csvLoop delimiter .inQuoted (field ++ [34]) row rows tail
          else csvLoop delimiter .afterQuote field row rows (d :: tail)
      else csvLoop delimiter .inQuoted (field ++ [c]) row rows rest
    else if c = 34 ∧ state = .fieldStart then csvLoop delimiter .inQuoted field row rows rest
    else if c = 34 ∧ state = .inUnquoted then none
    else if c = delimiter then
      match emitField row field with
      | none => none
      | some row => csvLoop delimiter .fieldStart [] (some row) rows rest
    else if c = 10 ∨ c = 13 ∨ c = 0 then
      match emitField row field with
      | none => none
      | some row =>
        if c = 0 then some (rows ++ [row])
        else
          match rest with
          | [] => csvLoop delimiter .fieldStart [] none (rows ++ [row]) []
          | d :: tail =>
            if c = 13 ∧ d = 10 then
              csvLoop delimiter .fieldStart [] (ensureRow tail) (rows ++ [row]) tail
            else csvLoop delimiter .fieldStart [] (some []) (rows ++ [row]) (d :: tail)
    else if state = .afterQuote then none
    else csvLoop delimiter .inUnquoted (field ++ [c]) row rows rest

theorem csvLoop_noRow {d : UInt8} {rows : List (List Bytes)} :
    csvLoop d .fieldStart [] none rows [] = none := by
  simp [csvLoop, emitField]

theorem csvLoop_unquoted {d : UInt8} {f field rest : Bytes} {row : Option (List Bytes)} {rows : List (List Bytes)}
    (hf : ∀ c ∈ f, c ≠ d ∧ c ≠ 34 ∧ c ≠ 10 ∧ c ≠ 13 ∧ c ≠ 0) :
    csvLoop d .inUnquoted field row rows (f ++ rest) =
      csvLoop d .inUnquoted (field ++ f) row rows rest := by
  induction f generalizing field with
  | nil => rw [List.append_nil, List.nil_append]
  | cons c f ih =>
    obtain ⟨h1, h2, h3, h4, h5⟩ := hf c List.mem_cons_self
    rw [List.cons_append, csvLoop.eq_def]
    simp only [h1, h2, h3, h4, h5, false_and, or_self, reduceCtorEq, ↓reduceIte]
    rw [ih fun c hc => hf c (List.mem_cons_of_mem _ hc), List.append_assoc]
    rfl

/-- `csv.parse`; `none` is an error. -/
def csvParse (input : Bytes) (delimiter : UInt8) : Option (List (List Bytes)) :=
  if input = [] then some [] else csvLoop delimiter .fieldStart [] (some []) [] input

def doubleQuotes (s : Bytes) : Bytes := s.flatMap fun c => if c = 34 then [34, 34] else [c]

def appendEscapedField (delimiter : UInt8) (s : Bytes) : Bytes :=
  if ∃ c ∈ s, c = delimiter ∨ c = 34 ∨ c = 10 ∨ c = 13 then 34 :: (doubleQuotes s ++ [34]) else s

/-- `csv_stringify_value`; `none` is an error. -/
def stringifyValue (delimiter : UInt8) : Value → Option Bytes
  | .nil => some []
  | .string s => some (appendEscapedField delimiter s)
  | .number x => some (appendEscapedField delimiter x.formatG17)
  | .bool b => some (appendEscapedField delimiter (if b then ascii "true" else ascii "false"))
  | _ => none

/-- The cells of a row, with the delimiter in front of all but the first. -/
def stringifyRow (delimiter : UInt8) : List Value → Option Bytes
  | [] => some []
  | [v] => stringifyValue delimiter v
  | v :: vs => do
    let s ← stringifyValue delimiter v
    let rest ← stringifyRow delimiter vs
    pure (s ++ delimiter :: rest)

/-- `csv.stringify` of a table of rows. -/
def csvStringify (delimiter : UInt8) : List (List Value) → Option Bytes
  | [] => some []
  | [row] => stringifyRow delimiter row
  | row :: rows => do
    let s ← stringifyRow delimiter row
    let rest ← csvStringify delimiter rows
    pure (s ++ 10 :: rest)

/-- The text of a field: as it is, or in quotes. -/
inductive FieldText (d : UInt8) : Bytes → Bytes → Prop
  | plain (f : Bytes) : (∀ c ∈ f, c ≠ d ∧ c ≠ 34 ∧ c ≠ 10 ∧ c ≠ 13 ∧ c ≠ 0) → FieldText d f f
  | quoted (f : Bytes) : (∀ c ∈ f, c ≠ 0) → FieldText d f (34 :: (doubleQuotes f ++ [34]))

/-- The text of a row: those of its fields with the delimiter between them. -/
inductive RowText (field : Bytes → Bytes → Prop) (d : UInt8) : List Bytes → Bytes → Prop
  | single {f t : Bytes} : field f t → RowText field d [f] t
  | cons {f t : Bytes} {fs : List Bytes} {ts : Bytes} :
    field f t → RowText field d fs ts → RowText field d (f :: fs) (t ++ d :: ts)

/-- The text of some rows: those of the rows with a line break between them. -/
inductive FileText (row : List Bytes → Bytes → Prop) (brk : Bytes) : List (List Bytes) → Bytes → Prop
  | single {r : List Bytes} {t : Bytes} : row r t → FileText row brk [r] t
  | cons {r : List Bytes} {t : Bytes} {rs : List (List Bytes)} {ts : Bytes} :
    row r t → FileText row brk rs ts → FileText row brk (r :: rs) (t ++ (brk ++ ts))

theorem RowText.mono {F G : Bytes → Bytes → Prop} {d : UInt8} (h : ∀ f t, F f t → G f t)
    {fs : List Bytes} {t : Bytes} (ht : RowText F d fs t) : RowText G d fs t := by
  induction ht with
  | single hf => exact .single (h _ _ hf)
  | cons hf _ ih => exact .cons (h _ _ hf) ih

theorem FileText.mono {F G : List Bytes → Bytes → Prop} {brk : Bytes} (h : ∀ r t, F r t → G r t)
    {rs : List (List Bytes)} {t : Bytes} (ht : FileText F brk rs t) : FileText G brk rs t := by
  induction ht with
  | single hf => exact .single (h _ _ hf)
  | cons hf _ ih => exact .cons (h _ _ hf) ih

/-- The states in which a field has been read. -/
inductive Ended (f : Bytes) : CsvParseState → Bytes → Prop
  | empty : f = [] → Ended f .fieldStart []
  | unquoted : Ended f .inUnquoted f
  | quoted : Ended f .afterQuote f

section Loop

variable {d : UInt8} {row : Option (List Bytes)} {rows : List (List Bytes)} {f field rest : Bytes}
  {state : CsvParseState}

/-- What may stand behind a field. -/
def Behind (d : UInt8) (rest : Bytes) : Prop := ∀ c, rest.head? = some c → c = d ∨ c = 10 ∨ c = 13

theorem Ended.field_eq (h : Ended f state field) : field = f ∧ state ≠ .inQuoted := by
  cases h with
  | empty hf => exact ⟨hf.symm, by simp⟩
  | unquoted => exact ⟨rfl, by simp⟩
  | quoted => exact ⟨rfl, by simp⟩

theorem Ended.delimiter (h : Ended f state field) (hd : d ≠ 34) (r : List Bytes) :
    csvLoop d state field (some r) rows (d :: rest) =
      csvLoop d .fieldStart [] (some (r ++ [f])) rows rest := by
  obtain ⟨rfl, hq⟩ := h.field_eq
  rw [csvLoop.eq_def]
  simp [hq, hd, emitField]

theorem Ended.lineFeed (h : Ended f state field) (hd : d ≠ 10) (r : List Bytes) :
    csvLoop d state field (some r) rows (10 :: rest) =
      csvLoop d .fieldStart [] (ensureRow rest) (rows ++ [r ++ [f]]) rest := by
  obtain ⟨rfl, hq⟩ := h.field_eq
  rw [csvLoop.eq_def]
  cases rest with
  | nil => simp [hq, hd.symm, emitField, ensureRow]
  | cons c tail => simp [hq, hd.symm, emitField, ensureRow]

theorem Ended.crlf (h : Ended f state field) (hd : d ≠ 13) (r : List Bytes) :
    csvLoop d state field (some r) rows (13 :: 10 :: rest) =
      csvLoop d .fieldStart [] (ensureRow rest) (rows ++ [r ++ [f]]) rest := by
  obtain ⟨rfl, hq⟩ := h.field_eq
  rw [csvLoop.eq_def]
  simp [hq, hd.symm, emitField]

/-- At the end of the input the row is added, unless the delimiter is the zero byte. -/
theorem Ended.finish (h : Ended f state field) (r : List Bytes) :
    csvLoop d state field (some r) rows [] =
      if d = 0 then some rows else some (rows ++ [r ++ [f]]) := by
  cases h with
  | empty hf => simp [csvLoop, emitField, hf]
  | unquoted => simp [csvLoop, emitField]
  | quoted => simp [csvLoop, emitField]

theorem csvLoop_quoted {f field : Bytes} (hf : ∀ c ∈ f, c ≠ 0) (hr : rest.head? ≠ some 34) :
    csvLoop d .inQuoted field row rows (doubleQuotes f ++ 34 :: rest) =
      csvLoop d .afterQuote (field ++ f) row rows rest := by
  induction f generalizing field with
  | nil =>
    rw [csvLoop.eq_def]
    cases rest with
    | nil => simp [doubleQuotes]
    | cons c rest =>
      have hc : c ≠ 34 := by simpa using hr
      simp [doubleQuotes, hc]
  | cons c f ih =>
    have hc := hf c List.mem_cons_self
    have hrest := @ih (field ++ [c]) fun c hc => hf c (List.mem_cons_of_mem _ hc)
    rw [List.append_assoc, List.singleton_append] at hrest
    by_cases h34 : c = 34
    · subst h34
      have htext : doubleQuotes (34 :: f) ++ 34 :: rest = 34 :: 34 :: (doubleQuotes f ++ 34 :: rest) := rfl
      rw [htext, csvLoop.eq_def]
      simpa using hrest
    · have htext : doubleQuotes (c :: f) ++ 34 :: rest = c :: (doubleQuotes f ++ 34 :: rest) := by
        simp [doubleQuotes, h34]
      rw [htext, csvLoop.eq_def]
      simpa [hc, h34] using hrest

/-- A field is read. -/
theorem csvLoop_field {t : Bytes} (hd : d ≠ 34) (ht : FieldText d f t) (hr : Behind d rest) :
    ∃ state field, Ended f state field ∧
      csvLoop d .fieldStart [] row rows (t ++ rest) = csvLoop d state field row rows rest := by
  cases ht with
  | plain hf =>
    cases f with
    | nil => exact ⟨_, _, .empty rfl, rfl⟩
    | cons c f =>
      obtain ⟨h1, h2, h3, h4, h5⟩ := hf c List.mem_cons_self
      refine ⟨_, _, .unquoted, ?_⟩
      rw [List.cons_append, csvLoop.eq_def]
      simp only [h1, h2, h3, h4, h5, false_and, or_self, reduceCtorEq, ↓reduceIte]
      exact csvLoop_unquoted fun c hc => hf c (List.mem_cons_of_mem _ hc)
  | quoted hf =>
    have hrest : rest.head? ≠ some 34 := by
      intro h
      rcases hr 34 h with h | h | h
      · exact hd h.symm
      · exact absurd h (by decide)
      · exact absurd h (by decide)
    refine ⟨_, _, .quoted, ?_⟩
    have htext : 34 :: (doubleQuotes f ++ [34]) ++ rest = 34 :: (doubleQuotes f ++ 34 :: rest) := by simp
    rw [htext, csvLoop.eq_def]
    simp only [reduceCtorEq, ↓reduceIte, and_self]
    exact csvLoop_quoted hf hrest

/-- A row is read, down to the end of its last field. -/
theorem csvLoop_row {fs : List Bytes} {t : Bytes} (hd : d ≠ 34) (ht : RowText (FieldText d) d fs t)
    (hr : Behind d rest) (r : List Bytes) :
    ∃ state field init last, fs = init ++ [last] ∧ Ended last state field ∧
      csvLoop d .fieldStart [] (some r) rows (t ++ rest) =
        csvLoop d state field (some (r ++ init)) rows rest := by
  induction ht generalizing r with
  | @single f t hf =>
    obtain ⟨state, field, he, hl⟩ := csvLoop_field hd hf hr
    exact ⟨state, field, [], f, rfl, he, by rw [hl, List.append_nil]⟩
  | @cons f t fs ts hf _ ih =>
    obtain ⟨state, field, init, last, hfs, he, hl⟩ := ih (r ++ [f])
    have hb : Behind d (d :: (ts ++ rest)) := fun c hc => .inl (Option.some.inj hc).symm
    obtain ⟨state', field', he', hl'⟩ := csvLoop_field hd hf hb
    refine ⟨state, field, f :: init, last, by rw [hfs]; rfl, he, ?_⟩
    rw [List.append_assoc, List.cons_append, hl', he'.delimiter hd, hl, List.append_assoc]
    rfl

/-- The line breaks: LF, as the writer has them, or CR LF. -/
def IsBreak (brk : Bytes) : Prop := brk = [10] ∨ brk = [13, 10]

variable {fs : List Bytes} {t brk : Bytes}

theorem csvLoop_row_break (h34 : d ≠ 34) (h10 : d ≠ 10) (h13 : d ≠ 13) (hb : IsBreak brk)
    (ht : RowText (FieldText d) d fs t) :
    csvLoop d .fieldStart [] (some []) rows (t ++ (brk ++ rest)) =
      csvLoop d .fieldStart [] (ensureRow rest) (rows ++ [fs]) rest := by
  rcases hb with rfl | rfl
  · have hr : Behind d ([10] ++ rest) := fun c hc => .inr (.inl (Option.some.inj hc).symm)
    obtain ⟨state, field, init, last, rfl, he, hl⟩ := csvLoop_row h34 ht hr []
    rw [hl]
    exact he.lineFeed h10 init
  · have hr : Behind d ([13, 10] ++ rest) := fun c hc => .inr (.inr (Option.some.inj hc).symm)
    obtain ⟨state, field, init, last, rfl, he, hl⟩ := csvLoop_row h34 ht hr []
    rw [hl]
    exact he.crlf h13 init

theorem csvLoop_row_finish (h34 : d ≠ 34) (ht : RowText (FieldText d) d fs t) :
    csvLoop d .fieldStart [] (some []) rows t =
      if d = 0 then some rows else some (rows ++ [fs]) := by
  have hr : Behind d [] := by simp [Behind]
  obtain ⟨state, field, init, last, rfl, he, hl⟩ := @csvLoop_row d rows [] fs t h34 ht hr []
  rw [List.append_nil] at hl
  rw [hl]
  exact he.finish init

/-- Some rows are read, down to the last one, for which there is a row only where it has a text. -/
theorem csvLoop_file {R : List Bytes → Bytes → Prop} {rs : List (List Bytes)} (h34 : d ≠ 34)
    (h10 : d ≠ 10) (h13 : d ≠ 13) (hb : IsBreak brk)
    (hR : ∀ r t, R r t → RowText (FieldText d) d r t) (ht : FileText R brk rs t)
    (hrow : t ≠ [] → row = some []) :
    ∃ init last front lastText, rs = init ++ [last] ∧ R last lastText ∧ t = front ++ lastText ∧
      (init = [] ∧ front = [] ∨ init ≠ [] ∧ front.getLast? = some 10) ∧
      csvLoop d .fieldStart [] row rows t =
        csvLoop d .fieldStart [] (if init = [] then row else ensureRow lastText) (rows ++ init) lastText := by
  induction ht generalizing row rows with
  | @single r t hr => exact ⟨[], r, [], t, rfl, hr, rfl, .inl ⟨rfl, rfl⟩, by simp⟩
  | @cons r t rs ts hr _ ih =>
    have hne : t ++ (brk ++ ts) ≠ [] := by
      rcases hb with rfl | rfl
      · simp
      · simp
    have hlf : (t ++ brk).getLast? = some 10 := by
      rcases hb with rfl | rfl
      · simp
      · simp
    have hensure : ts ≠ [] → ensureRow ts = some [] := fun h => if_neg h
    obtain ⟨init, last, front, lastText, rfl, hlast, hts, hfront, hl⟩ := @ih _ (rows ++ [r]) hensure
    have hcons : r :: init ≠ [] := List.cons_ne_nil r init
    refine ⟨r :: init, last, t ++ brk ++ front, lastText, rfl, hlast, by rw [hts]; simp,
      .inr ⟨hcons, ?_⟩, ?_⟩
    · rcases hfront with ⟨-, hnil⟩ | ⟨-, hfront⟩
      · rw [hnil, List.append_nil, hlf]
      · rw [List.getLast?_append, hfront]
        rfl
    · have hboth : (if init = [] then ensureRow ts else ensureRow lastText) = ensureRow lastText := by
        rcases hfront with ⟨hi, hnil⟩ | ⟨hi, -⟩
        · rw [if_pos hi, hts, hnil, List.nil_append]
        · rw [if_neg hi]
      rw [hrow hne, csvLoop_row_break h34 h10 h13 hb (hR r t hr), hl, hboth, if_neg hcons,
        List.append_assoc]
      rfl

theorem FieldText.last (h10 : d ≠ 10) (ht : RowText (FieldText d) d fs t) : t.getLast? ≠ some 10 := by
  have hfield : ∀ {f t : Bytes}, FieldText d f t → t.getLast? ≠ some 10 := by
    intro f t hf hlast
    cases hf with
    | plain hf => exact (hf 10 (List.mem_of_getLast? hlast)).2.2.1 rfl
    | quoted =>
      rw [List.getLast?_cons, List.getLast?_append] at hlast
      simp at hlast
  induction ht with
  | single hf => exact hfield hf
  | @cons f t fs ts hf _ ih =>
    intro hlast
    rw [List.getLast?_append, List.getLast?_cons] at hlast
    cases hts : ts.getLast? with
    | none =>
      rw [hts] at hlast
      exact h10 (by simpa using hlast)
    | some c =>
      rw [hts] at hlast ih
      have hc : c = 10 := by simpa using hlast
      exact ih (by rw [hc])

/-- What `csv.parse` makes of the text of some rows: it refuses one that ends with a line break, and
a zero byte as the delimiter hides the last row. -/
theorem csvParse_file {R : List Bytes → Bytes → Prop} {rs : List (List Bytes)} (h34 : d ≠ 34)
    (h10 : d ≠ 10) (h13 : d ≠ 13) (hb : IsBreak brk)
    (hR : ∀ r t, R r t → RowText (FieldText d) d r t) (ht : FileText R brk rs t) :
    ∃ init last lastText, rs = init ++ [last] ∧ R last lastText ∧
      (lastText = [] ↔ t = [] ∨ t.getLast? = some 10) ∧ csvParse t d =
        if t = [] then some [] else if t.getLast? = some 10 then none
        else if d = 0 then some init else some rs := by
  obtain ⟨init, last, front, lastText, rfl, hlast, htext, hfront, hl⟩ :=
    csvLoop_file h34 h10 h13 hb hR ht (fun _ => rfl)
  have hiff : lastText = [] ↔ t = [] ∨ t.getLast? = some 10 := by
    constructor
    · rintro rfl
      rw [htext, List.append_nil]
      rcases hfront with ⟨-, hnil⟩ | ⟨-, hlf⟩
      · exact .inl hnil
      · exact .inr hlf
    · rintro (hnil | hlf)
      · rw [htext] at hnil
        exact (List.append_eq_nil_iff.mp hnil).2
      · by_contra hne
        have hlast' := FieldText.last h10 (hR last lastText hlast)
        rw [htext, List.getLast?_append_of_ne_nil _ hne] at hlf
        exact hlast' hlf
  refine ⟨init, last, lastText, rfl, hlast, hiff, ?_⟩
  rw [csvParse]
  split_ifs with hnil hlf hd
  · rfl
  · have hempty := hiff.mpr (.inr hlf)
    rcases hfront with ⟨-, hf⟩ | ⟨hi, -⟩
    · exact absurd (by rw [htext, hf, hempty]; rfl) hnil
    · rw [hl, if_neg hi, hempty]
      exact csvLoop_noRow
  all_goals
    have hempty : lastText ≠ [] := fun h => (hiff.mp h).elim hnil hlf
    have hrow : (if init = [] then some [] else ensureRow lastText) = some [] := by
      rw [ensureRow, if_neg hempty, ite_self]
    rw [hl, hrow, csvLoop_row_finish h34 (hR last lastText hlast)]
    simp [hd]

end Loop

end ToiLang.Csv
