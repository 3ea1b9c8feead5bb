import ToiLang.TokenPositions

namespace ToiLang

section Before

variable {α : Type} {P : List α → α → Prop} {a : α} {l : List α}

/-- Each element of a list is, after those before it, as `P` says. -/
def EachAfter (P : List α → α → Prop) (l : List α) : Prop :=
  ∀ before b after, l = before ++ b :: after → P before b

theorem EachAfter.nil : EachAfter P [] := by
  intro before b after h
  exact absurd h.symm (by simp)

theorem eachAfter_cons : EachAfter P (a :: l) ↔ P [] a ∧ EachAfter (fun before b => P (a :: before) b) l := by
  constructor
  · intro h
    exact ⟨h [] a l rfl, fun before b after hl => h (a :: before) b after (by rw [hl]; rfl)⟩
  · intro ⟨hfirst, hrest⟩ before b after hl
    cases before with
    | nil =>
      obtain ⟨rfl, -⟩ := List.cons.inj hl
      exact hfirst
    | cons b' before =>
      obtain ⟨rfl, htail⟩ := List.cons.inj hl
      exact hrest before b after htail

theorem EachAfter.append {l' : List α} (h : EachAfter P l) (h' : EachAfter (fun before b => P (l ++ before) b) l') :
    EachAfter P (l ++ l') := by
  induction l generalizing P with
  | nil => exact h'
  | cons a l ih =>
    obtain ⟨hfirst, hrest⟩ := eachAfter_cons.mp h
    exact eachAfter_cons.mpr ⟨hfirst, ih hrest h'⟩

theorem EachAfter.imp {Q : List α → α → Prop} (h : EachAfter P l) (himp : ∀ before b, P before b → Q before b) :
    EachAfter Q l := fun before b after hl => himp before b (h before b after hl)

end Before

/-- How many brackets of each kind are open. -/
structure Depth where
  paren : Nat
  bracket : Nat
  brace : Nat
  deriving DecidableEq, Repr

namespace Depth

def zero : Depth := ⟨0, 0, 0⟩

/-- A closing bracket that closes nothing leaves the count of its kind at zero. -/
def after (d : Depth) : TokenType → Depth
  | .leftParen => { d with paren := d.paren + 1 }
  | .rightParen => { d with paren := d.paren - 1 }
  | .leftBracket => { d with bracket := d.bracket + 1 }
  | .rightBracket => { d with bracket := d.bracket - 1 }
  | .leftBrace => { d with brace := d.brace + 1 }
  | .rightBrace => { d with brace := d.brace - 1 }
  | _ => d

def Within (d e : Depth) : Prop := d.paren ≤ e.paren ∧ d.bracket ≤ e.bracket ∧ d.brace ≤ e.brace

variable {d e : Depth}

theorem within_refl (d : Depth) : d.Within d := ⟨le_refl _, le_refl _, le_refl _⟩

theorem Within.trans {f : Depth} (h : d.Within e) (h' : e.Within f) : d.Within f :=
  ⟨h.1.trans h'.1, h.2.1.trans h'.2.1, h.2.2.trans h'.2.2⟩

theorem Within.antisymm (h : d.Within e) (h' : e.Within d) : d = e := by
  obtain ⟨p, b, c⟩ := d
  obtain ⟨p', b', c'⟩ := e
  obtain rfl : p = p' := Nat.le_antisymm h.1 h'.1
  obtain rfl : b = b' := Nat.le_antisymm h.2.1 h'.2.1
  obtain rfl : c = c' := Nat.le_antisymm h.2.2 h'.2.2
  rfl

theorem zero_within (d : Depth) : zero.Within d := ⟨Nat.zero_le _, Nat.zero_le _, Nat.zero_le _⟩

theorem Within.eq_zero (h : d.Within zero) : d = zero := h.antisymm (zero_within d)

theorem Within.after (h : d.Within e) (type : TokenType) : (d.after type).Within (e.after type) := by
  obtain ⟨hp, hb, hc⟩ := h
  cases type <;> first
    | exact ⟨hp, hb, hc⟩
    | exact ⟨Nat.add_le_add_right hp 1, hb, hc⟩
    | exact ⟨Nat.sub_le_sub_right hp 1, hb, hc⟩
    | exact ⟨hp, Nat.add_le_add_right hb 1, hc⟩
    | exact ⟨hp, Nat.sub_le_sub_right hb 1, hc⟩
    | exact ⟨hp, hb, Nat.add_le_add_right hc 1⟩
    | exact ⟨hp, hb, Nat.sub_le_sub_right hc 1⟩

end Depth

def depthOf (d : Depth) (ts : List Token) : Depth := ts.foldl (fun d t => d.after t.type) d

theorem depthOf_within {d e : Depth} (h : d.Within e) (ts : List Token) : (depthOf d ts).Within (depthOf e ts) := by
  induction ts generalizing d e with
  | nil => exact h
  | cons t ts ih => exact ih (h.after t.type)

theorem depthOf_zero {d : Depth} {ts : List Token} (h : depthOf d ts = .zero) : depthOf .zero ts = .zero := by
  have hwithin := depthOf_within d.zero_within ts
  rw [h] at hwithin
  exact hwithin.eq_zero

/-- The closing bracket of an opening one. -/
def TokenType.closing : TokenType → Option TokenType
  | .leftParen => some .rightParen
  | .leftBracket => some .rightBracket
  | .leftBrace => some .rightBrace
  | _ => none

/-- Every bracket is closed by one of its kind. -/
inductive Nested : List Token → Prop
  | nil : Nested []
  | plain {t : Token} {ts : List Token} : (∀ d : Depth, d.after t.type = d) → Nested ts → Nested (t :: ts)
  | group {o c : Token} {ts us : List Token} :
    o.type.closing = some c.type → Nested ts → Nested us → Nested (o :: ts ++ c :: us)

theorem after_closing {o c : TokenType} (h : o.closing = some c) (d : Depth) : (d.after o).after c = d := by
  cases o <;> cases h <;> rfl

theorem Nested.depthOf {ts : List Token} (h : Nested ts) (d : Depth) : depthOf d ts = d := by
  induction h generalizing d with
  | nil => rfl
  | plain hplain hts ih =>
    unfold ToiLang.depthOf at ih ⊢
    rw [List.foldl_cons, hplain, ih]
  | group hclosing hts hus iht ihu =>
    unfold ToiLang.depthOf at iht ihu ⊢
    rw [List.cons_append, List.foldl_cons, List.foldl_append, iht, List.foldl_cons, after_closing hclosing, ihu]

theorem within_after_opening {o c : TokenType} (h : o.closing = some c) (d : Depth) :
    d.Within (d.after o) ∧ d.after o ≠ d := by
  obtain ⟨p, b, e⟩ := d
  cases o <;> cases h <;> simp [Depth.after, Depth.Within]

/-- Nested brackets leave no closing bracket open to the outside. -/
theorem Nested.closed {ts : List Token} (h : Nested ts) (d : Depth) :
    EachAfter (fun before b => d.Within (ToiLang.depthOf d before) ∧
      (ToiLang.depthOf d before = d → ∀ o : TokenType, o.closing ≠ some b.type)) ts := by
  induction h generalizing d with
  | nil => exact .nil
  | @plain t ts hplain hts ih =>
    refine eachAfter_cons.mpr ⟨⟨d.within_refl, fun _ o ho => ?_⟩, ?_⟩
    · exact (within_after_opening ho d).2 ((hplain (d.after o)).symm.trans (after_closing ho d))
    · have hd : ∀ before, ToiLang.depthOf d (t :: before) = ToiLang.depthOf d before := fun before => by
        unfold ToiLang.depthOf
        rw [List.foldl_cons, hplain]
      exact (ih d).imp fun before b hb => by rwa [hd]
  | @group o c ts us hclosing hts hus iht ihu =>
    obtain ⟨hwithin, hne⟩ := within_after_opening hclosing d
    have hopen : ∀ {before}, (d.after o.type).Within (ToiLang.depthOf (d.after o.type) before) →
        d.Within (ToiLang.depthOf d (o :: before)) ∧ ToiLang.depthOf d (o :: before) ≠ d := by
      intro before hbefore
      refine ⟨hwithin.trans hbefore, fun heq => hne ?_⟩
      change ToiLang.depthOf (d.after o.type) before = d at heq
      rw [heq] at hbefore
      exact hbefore.antisymm hwithin
    refine EachAfter.append (eachAfter_cons.mpr ⟨⟨d.within_refl, fun _ o' ho' => ?_⟩, ?_⟩) (eachAfter_cons.mpr ⟨?_, ?_⟩)
    · have hback := (within_after_opening hclosing (d.after o')).1
      rw [after_closing ho'] at hback
      exact (within_after_opening ho' d).2 (hback.antisymm (within_after_opening ho' d).1)
    · refine (iht (d.after o.type)).imp fun before b hb => ?_
      obtain ⟨hle, hneq⟩ := hopen hb.1
      exact ⟨hle, fun heq => absurd heq hneq⟩
    · rw [List.append_nil]
      have hts' : (d.after o.type).Within (ToiLang.depthOf (d.after o.type) ts) := by
        rw [hts.depthOf]
        exact Depth.within_refl _
      obtain ⟨hle, hneq⟩ := hopen hts'
      exact ⟨hle, fun heq => absurd heq hneq⟩
    · have hd : ∀ before, ToiLang.depthOf d (o :: ts ++ c :: before) = ToiLang.depthOf d before := fun before => by
        have hts' := hts.depthOf (d.after o.type)
        unfold ToiLang.depthOf at hts' ⊢
        rw [List.cons_append, List.foldl_cons, List.foldl_append, hts', List.foldl_cons, after_closing hclosing]
      exact (ihu d).imp fun before b hb => by rwa [hd]

section Scan

/-- The loop the scanners share, over the tokens after `parser.current` up to the EOF. -/
def bracketScan (wanted close : TokenType) (late : Token → Bool) : Depth → List Token → Option Token
  | _, [] => none
  | d, t :: ts =>
    if late t = true ∧ d = .zero then none
    else if t.type = close ∧ d = .zero then none
    else if t.type = wanted ∧ d = .zero then some t
    else bracketScan wanted close late (d.after t.type) ts

/-- The FOR token of a comprehension, whose start is `*for_start`; `endToken` is a closing
parenthesis or brace. -/
def findComprehensionForUntil (endToken : TokenType) (ahead : List Token) : Option Token :=
  bracketScan .kwFor endToken (fun _ => false) .zero ahead

def hasSliceRangeInSubscript (current : Token) (ahead : List Token) : Bool :=
  decide (current.type = .dotDot) || (bracketScan .dotDot .rightBracket (fun _ => false) .zero ahead).isSome

def isTableComprehensionStart (startLine : Nat) (ahead : List Token) : Bool :=
  (bracketScan .kwFor .rightBrace (fun t => decide (startLine < t.line)) .zero ahead).isSome

def isGeneratorComprehensionStart (startLine : Nat) (ahead : List Token) : Bool :=
  (bracketScan .kwFor .rightParen (fun t => decide (startLine < t.line)) .zero ahead).isSome

/-- Where a bracket is opened whose content is read one way or the other. -/
inductive Site
  | call | table | subscript | grouping
  deriving DecidableEq, Repr

namespace Site

def wanted : Site → TokenType
  | subscript => .dotDot
  | _ => .kwFor

def close : Site → TokenType
  | table => .rightBrace
  | subscript => .rightBracket
  | _ => .rightParen

/-- The tests `parse_call` and `grouping` make before they scan. -/
def scans (site : Site) (current : Token) (ahead : List Token) : Bool :=
  match site with
  | call => decide (current.type ≠ .rightParen) && decide (current.type ≠ .star) &&
      !(decide (current.type = .identifier) && decide (ahead.head?.map (·.type) = some .equals)) &&
      decide (current.type ≠ .leftParen)
  | grouping => decide (current.type ≠ .leftParen)
  | _ => true

/-- What is chosen with `parser.current`, the tokens after it and the line of `parser.previous`:
a comprehension or a slice, or the plain form. -/
def decides (site : Site) (line : Nat) (current : Token) (ahead : List Token) : Bool :=
  match site with
  | call => call.scans current ahead && (findComprehensionForUntil .rightParen ahead).isSome
  | table => isTableComprehensionStart line ahead
  | subscript => hasSliceRangeInSubscript current ahead
  | grouping => grouping.scans current ahead && isGeneratorComprehensionStart line ahead

/-- Only a subscript asks for the token in `parser.current`. -/
def early (site : Site) (current : Token) : Bool :=
  match site with
  | subscript => decide (current.type = .dotDot)
  | _ => false

def late (site : Site) (line : Nat) (t : Token) : Bool :=
  match site with
  | table | grouping => decide (line < t.line)
  | _ => false

end Site

variable {wanted close : TokenType} {late : Token → Bool}

/-- A token of type `wanted` at depth zero, with no end of the scan before it. -/
def Exposed (wanted close : TokenType) (late : Token → Bool) (d : Depth) (before : List Token) (t : Token) : Prop :=
  t.type = wanted ∧ late t = false ∧ depthOf d before = .zero ∧
    EachAfter (fun before b => depthOf d before = .zero → b.type ≠ close ∧ late b = false) before

theorem exposed_cons {d : Depth} {b t : Token} {before : List Token} :
    Exposed wanted close late d (b :: before) t ↔
      (d = .zero → b.type ≠ close ∧ late b = false) ∧ Exposed wanted close late (d.after b.type) before t := by
  unfold Exposed
  rw [eachAfter_cons]
  constructor
  · intro ⟨ht, hlate, hdepth, hb, hrest⟩
    exact ⟨hb, ht, hlate, hdepth, hrest⟩
  · intro ⟨hb, ht, hlate, hdepth, hrest⟩
    exact ⟨ht, hlate, hdepth, hb, hrest⟩

theorem bracketScan_isSome_iff (hne : wanted ≠ close) {d : Depth} {ts : List Token} :
    (bracketScan wanted close late d ts).isSome = true ↔
      ∃ before t after, ts = before ++ t :: after ∧ Exposed wanted close late d before t := by
  induction ts generalizing d with
  | nil =>
    constructor
    · intro h
      exact absurd h (by simp [bracketScan])
    · intro ⟨before, t, after, h, _⟩
      exact absurd h.symm (by simp)
  | cons b ts ih =>
    have hsplit : (∃ before t after, b :: ts = before ++ t :: after ∧ Exposed wanted close late d before t) ↔
        Exposed wanted close late d [] b ∨ ((d = .zero → b.type ≠ close ∧ late b = false) ∧
          (bracketScan wanted close late (d.after b.type) ts).isSome = true) := by
      rw [ih]
      constructor
      · intro ⟨before, t, after, hts, hexposed⟩
        cases before with
        | nil =>
          obtain ⟨rfl, -⟩ := List.cons.inj hts
          exact .inl hexposed
        | cons b' before =>
          obtain ⟨rfl, htail⟩ := List.cons.inj hts
          obtain ⟨hb, hexposed⟩ := exposed_cons.mp hexposed
          exact .inr ⟨hb, before, t, after, htail, hexposed⟩
      · rintro (hexposed | ⟨hb, before, t, after, hts, hexposed⟩)
        · exact ⟨[], b, ts, rfl, hexposed⟩
        · exact ⟨b :: before, t, after, by rw [hts]; rfl, exposed_cons.mpr ⟨hb, hexposed⟩⟩
    rw [hsplit, bracketScan]
    unfold Exposed
    by_cases hd : d = .zero
    · by_cases hlate : late b = true
      · simp [hd, hlate]
      · by_cases hclose : b.type = close
        · have hwanted : b.type ≠ wanted := fun h => hne (h.symm.trans hclose)
          simp [hd, hlate, hclose, hne.symm]
        · by_cases hwanted : b.type = wanted
          · simp [hd, hlate, hwanted, hne, depthOf, EachAfter.nil]
          · simp [hd, hlate, hwanted, hclose]
    · simp [hd, depthOf]

end Scan

section Decision

variable (site : Site) (line : Nat) (inBody : Nat → Prop) (current : Token) (ahead : List Token)

/-- At depth zero with `parser.current` counted, before the closing bracket of the site, and in no
function body: `inBody i` when the token after `i` others behind `parser.current` is part of one. -/
def Direct (before : List Token) (t : Token) : Prop :=
  t.type = site.wanted ∧ (∀ i, before.length = i + 1 → ¬inBody i) ∧ depthOf .zero before = .zero ∧
    EachAfter (fun before b => depthOf .zero before = .zero → b.type ≠ site.close) before

def DirectlyInside : Prop := ∃ before t after, current :: ahead = before ++ t :: after ∧ Direct site inBody before t

/-- The choice is the one the deciding token calls for. -/
def DecidesRight : Prop := site.decides line current ahead = true ↔ DirectlyInside site inBody current ahead

/-- One of the deciding tokens directly inside is `parser.current` itself in a subscript, or none
of the tests before the scan keeps it away and no token the scan takes to be at depth zero is on
a later line or, up to it, the closing bracket of the site: the bracket that `parser.current` opens
is then of another kind. -/
def Noticed : Prop :=
  site.early current = true ∨ site.scans current ahead = true ∧
    ∃ before t after, ahead = before ++ t :: after ∧ Direct site inBody (current :: before) t ∧
      site.late line t = false ∧
      EachAfter (fun before b => depthOf .zero before = .zero → b.type ≠ site.close ∧ site.late line b = false) before

/-- A deciding token that the scan comes to is in a function body, in the bracket that
`parser.current` opens, or behind the bracket of the site, which `parser.current` closes. -/
def Misled : Prop :=
  site.scans current ahead = true ∧
    ∃ before t after, ahead = before ++ t :: after ∧ Exposed site.wanted site.close (site.late line) .zero before t ∧
      (inBody before.length ∨ depthOf .zero (current :: before) ≠ .zero ∨ current.type = site.close)

/-- When the scan decides right. -/
def Clear : Prop :=
  (DirectlyInside site inBody current ahead →
    Noticed site line inBody current ahead ∨ Misled site line inBody current ahead) ∧
  (Misled site line inBody current ahead → DirectlyInside site inBody current ahead)

variable {site line inBody current ahead}

theorem wanted_ne_close (site : Site) : site.wanted ≠ site.close := by
  cases site <;> decide

theorem decides_eq (site : Site) (line : Nat) (current : Token) (ahead : List Token) :
    site.decides line current ahead = (site.early current ||
      site.scans current ahead && (bracketScan site.wanted site.close (site.late line) .zero ahead).isSome) := by
  cases site <;> rfl

theorem decides_iff : site.decides line current ahead = true ↔
    site.early current = true ∨ site.scans current ahead = true ∧
      ∃ before t after, ahead = before ++ t :: after ∧
        Exposed site.wanted site.close (site.late line) .zero before t := by
  rw [decides_eq, Bool.or_eq_true, Bool.and_eq_true, bracketScan_isSome_iff (wanted_ne_close site)]

theorem direct_cons {before : List Token} {t : Token} :
    Direct site inBody (current :: before) t ↔ t.type = site.wanted ∧ ¬inBody before.length ∧
      depthOf .zero (current :: before) = .zero ∧ current.type ≠ site.close ∧
      EachAfter (fun before b => depthOf .zero (current :: before) = .zero → b.type ≠ site.close) before := by
  unfold Direct
  rw [eachAfter_cons]
  constructor
  · intro ⟨ht, hbody, hdepth, hcurrent, hrest⟩
    exact ⟨ht, hbody _ rfl, hdepth, hcurrent rfl, hrest⟩
  · intro ⟨ht, hbody, hdepth, hcurrent, hrest⟩
    refine ⟨ht, fun i hi => ?_, hdepth, fun _ => hcurrent, hrest⟩
    obtain rfl := Nat.succ.inj hi
    exact hbody

/-- Without `parser.current` no more brackets are open. -/
theorem depthOf_zero_of_cons {before : List Token} (h : depthOf .zero (current :: before) = .zero) :
    depthOf .zero before = .zero := depthOf_zero (d := Depth.zero.after current.type) h

theorem Noticed.directlyInside (h : Noticed site line inBody current ahead) : DirectlyInside site inBody current ahead := by
  rcases h with hearly | ⟨-, before, t, after, hahead, hdirect, -⟩
  · have hcurrent : current.type = site.wanted := by
      cases site with
      | subscript => exact of_decide_eq_true hearly
      | call | table | grouping => exact Bool.noConfusion hearly
    exact ⟨[], current, ahead, rfl, hcurrent, fun _ h => absurd h (by simp), rfl, .nil⟩
  · exact ⟨current :: before, t, after, by rw [hahead]; rfl, hdirect⟩

/-- The scan comes to what is seen and to what misleads it, and to nothing else. -/
theorem decides_iff_noticed : site.decides line current ahead = true ↔
    Noticed site line inBody current ahead ∨ Misled site line inBody current ahead := by
  rw [decides_iff]
  constructor
  · rintro (hearly | ⟨hscans, before, t, after, hahead, hexposed⟩)
    · exact .inl (.inl hearly)
    · by_cases hmisled : inBody before.length ∨ depthOf .zero (current :: before) ≠ .zero ∨ current.type = site.close
      · exact .inr ⟨hscans, before, t, after, hahead, hexposed, hmisled⟩
      · obtain ⟨hbody, hrest⟩ := not_or.mp hmisled
        obtain ⟨hdepth, hcurrent⟩ := not_or.mp hrest
        obtain ⟨ht, hlate, -, hends⟩ := hexposed
        have hdirect : Direct site inBody (current :: before) t := direct_cons.mpr
          ⟨ht, hbody, not_not.mp hdepth, hcurrent, hends.imp fun b c hb hzero => (hb (depthOf_zero_of_cons hzero)).1⟩
        exact .inl (.inr ⟨hscans, before, t, after, hahead, hdirect, hlate, hends⟩)
  · rintro ((hearly | ⟨hscans, before, t, after, hahead, hdirect, hlate, hends⟩) |
      ⟨hscans, before, t, after, hahead, hexposed, -⟩)
    · exact .inl hearly
    · obtain ⟨ht, -, hdepth, -⟩ := direct_cons.mp hdirect
      exact .inr ⟨hscans, before, t, after, hahead, ht, hlate, depthOf_zero_of_cons hdepth, hends⟩
    · exact .inr ⟨hscans, before, t, after, hahead, hexposed⟩

/-- At every site, for all tokens and whatever among them are function bodies. -/
theorem decidesRight_iff (site : Site) (line : Nat) (inBody : Nat → Prop) (current : Token) (ahead : List Token) :
    DecidesRight site line inBody current ahead ↔ Clear site line inBody current ahead := by
  unfold DecidesRight Clear
  rw [decides_iff_noticed]
  constructor
  · intro h
    exact ⟨h.mpr, fun hmisled => h.mp (.inr hmisled)⟩
  · intro ⟨hnoticed, hmisled⟩
    exact ⟨fun h => h.elim Noticed.directlyInside hmisled, hnoticed⟩

/-- Without function bodies the scan that starts at `parser.current` would decide right. -/
theorem directlyInside_iff_scan : DirectlyInside site (fun _ => False) current ahead ↔
    (bracketScan site.wanted site.close (fun _ => false) .zero (current :: ahead)).isSome = true := by
  rw [bracketScan_isSome_iff (wanted_ne_close site)]
  unfold DirectlyInside Direct Exposed
  simp

end Decision

/-- A table comprehension as the first argument of a call. -/
def argumentSource : Bytes := ascii "f(\x7bx for x in t\x7d)"

def sourceTokens (source : Bytes) : List Token := ((scanAll 40 (initLexer source)).getD []).map (·.token)

/-- Whether the site is decided with yes although a scan from the first token on says no. -/
def misjudges (site : Site) (line : Nat) : List Token → Bool
  | [] => false
  | current :: ahead => site.decides line current ahead &&
      !(bracketScan site.wanted site.close (fun _ => false) .zero (current :: ahead)).isSome

/-- The argument is taken for a generator comprehension, of what stands before the `for`. -/
theorem decidesRight_false : ∃ current ahead, (sourceTokens argumentSource).drop 2 = current :: ahead ∧
    ¬DecidesRight .call 1 (fun _ => False) current ahead := by
  have htest : misjudges .call 1 ((sourceTokens argumentSource).drop 2) = true := by
    rw [argumentSource, ascii_ofList]
    decide
  generalize (sourceTokens argumentSource).drop 2 = ts at htest
  cases ts with
  | nil => exact Bool.noConfusion htest
  | cons current ahead =>
    obtain ⟨hdecides, hscan⟩ := Bool.and_eq_true_iff.mp htest
    refine ⟨current, ahead, rfl, fun hright => ?_⟩
    have hdirect := directlyInside_iff_scan.mp (hright.mp hdecides)
    rw [hdirect] at hscan
    exact Bool.noConfusion hscan

end ToiLang
