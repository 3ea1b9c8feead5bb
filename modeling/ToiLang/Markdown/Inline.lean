import ToiLang.Http.Connection
import ToiLang.Markup

namespace ToiLang.Markdown

open Markup (WellNested render escape)
open Http (strstr splitWith)

/-! The inline text of the Markdown converter. The loops of `parse_inline` look ahead only, so each of
its positions is the text that stands from there on. -/

/-- `string.escape_html`. -/
def escapeHtml (s : Bytes) : Bytes :=
  s.flatMap fun c =>
    if c = 38 then ascii "&amp;"
    else if c = 60 then ascii "&lt;"
    else if c = 62 then ascii "&gt;"
    else if c = 34 then ascii "&quot;"
    else if c = 39 then ascii "&#39;"
    else [c]

def startsWith (s start : Bytes) : Bool := start.isPrefixOf s

def endsWith (s ending : Bytes) : Bool := ending.isSuffixOf s

def lower (s : Bytes) : Bytes := s.map toLower

def rewriteLinkHref (href : Bytes) : Bytes :=
  if href = [] then href
  else if startsWith href (ascii "#") ∨ (strstr href (ascii "://")).isSome ∨
      startsWith (lower href) (ascii "mailto:") then href
  else
    let parts := splitWith (ascii "#") (href.length + 1) href
    let base := parts.headD []
    let frag := parts.tail.headD []
    let frag := if frag ≠ [] then ascii "#" ++ frag else []
    let base := if endsWith (lower base) (ascii ".md") then base.take (base.length - 3) ++ ascii ".html" else base
    base ++ frag

/-- The text in front of the next `stop` and the text behind it. -/
def upTo (stop : UInt8) : Bytes → Option (Bytes × Bytes)
  | [] => none
  | c :: rest => if c = stop then some ([], rest) else (upTo stop rest).map fun p => (c :: p.1, p.2)

/-- The text in front of the next two stars and the text behind them. -/
def upToStars : Bytes → Option (Bytes × Bytes)
  | [] => none
  | c :: rest =>
    if c = 42 ∧ rest.head? = some 42 then some ([], rest.tail)
    else (upToStars rest).map fun p => (c :: p.1, p.2)

/-- A code span from the character `ch` on. -/
def codeSpan (ch : UInt8) (rest : Bytes) : Option (Bytes × Bytes) := if ch = 96 then upTo 96 rest else none

def strongSpan (ch : UInt8) (rest : Bytes) : Option (Bytes × Bytes) :=
  if ch = 42 ∧ rest.head? = some 42 then upToStars rest.tail else none

def emSpan (ch : UInt8) (rest : Bytes) : Option (Bytes × Bytes) := if ch = 42 then upTo 42 rest else none

/-- The label of a link, its target, and the text behind. -/
def linkSpan (ch : UInt8) (rest : Bytes) : Option (Bytes × Bytes × Bytes) :=
  if ch = 91 then
    match upTo 93 rest with
    | some (label, 40 :: more) => (upTo 41 more).map fun p => (label, p.1, p.2)
    | _ => none
  else none

/-- The passes of the loop of `parse_inline` that the fuel allows; each takes a character at least, and so
does the call for the label of a link. -/
def parseInlineFrom : Nat → Bytes → Bytes
  | 0, _ => []
  | _ + 1, [] => []
  | fuel + 1, ch :: rest =>
    match codeSpan ch rest with
    | some (inside, behind) =>
      ascii "<code>" ++ escapeHtml inside ++ ascii "</code>" ++ parseInlineFrom fuel behind
    | none =>
      match strongSpan ch rest with
      | some (inside, behind) =>
        ascii "<strong>" ++ escapeHtml inside ++ ascii "</strong>" ++ parseInlineFrom fuel behind
      | none =>
        match emSpan ch rest with
        | some (inside, behind) =>
          ascii "<em>" ++ escapeHtml inside ++ ascii "</em>" ++ parseInlineFrom fuel behind
        | none =>
          match linkSpan ch rest with
          | some (label, target, behind) =>
            ascii "<a href=\"" ++ escapeHtml (rewriteLinkHref target) ++ ascii "\">" ++
              parseInlineFrom fuel label ++ ascii "</a>" ++ parseInlineFrom fuel behind
          | none => escapeHtml [ch] ++ parseInlineFrom fuel rest

def parseInline (text : Bytes) : Bytes := parseInlineFrom text.length text

namespace Tag

def code : Markup.Name := ⟨ascii "code", by decide⟩
def strong : Markup.Name := ⟨ascii "strong", by decide⟩
def em : Markup.Name := ⟨ascii "em", by decide⟩
def a : Markup.Name := ⟨ascii "a", by decide⟩
def href : Markup.Name := ⟨ascii "href", by decide⟩

end Tag

/-- The markers of the spans whose text is taken as it stands, and their elements. -/
def spans : List (Bytes × Markup.Name) :=
  [(ascii "`", Tag.code), (ascii "**", Tag.strong), (ascii "*", Tag.em)]

/-- The tokens show the marked-up text: they take its bytes in order, each of them once, as a character,
as a marker, or in the target of a link. -/
inductive Shown : Bytes → List Markup.Token → Prop
  | nil : Shown [] []
  | char (c : UInt8) {rest : Bytes} {tokens : List Markup.Token} : Shown rest tokens →
      Shown (c :: rest) (.text [c] :: tokens)
  | span {marker : Bytes} {name : Markup.Name} (inside : Bytes) {rest : Bytes} {tokens : List Markup.Token} :
      (marker, name) ∈ spans → Shown rest tokens →
      Shown (marker ++ inside ++ marker ++ rest)
        (.opening name [] :: [.text inside] ++ [.closing name] ++ tokens)
  | link (target : Bytes) {label rest : Bytes} {labelTokens tokens : List Markup.Token} :
      Shown label labelTokens → Shown rest tokens →
      Shown (ascii "[" ++ label ++ ascii "](" ++ target ++ ascii ")" ++ rest)
        (.opening Tag.a [(Tag.href, rewriteLinkHref target)] :: labelTokens ++ [.closing Tag.a] ++ tokens)

theorem escapeHtml_eq (s : Bytes) : escapeHtml s = escape s := rfl

theorem Shown.balanced {text : Bytes} {tokens : List Markup.Token} (h : Shown text tokens) : WellNested tokens := by
  induction h with
  | nil => exact WellNested.nil
  | char c _ ih => exact (WellNested.text [c]).append ih
  | span inside _ _ ih => exact ((WellNested.text inside).element _ []).append ih
  | link target _ _ ihlabel ih => exact (ihlabel.element Tag.a _).append ih

theorem upTo_some {stop : UInt8} {rest inside behind : Bytes} (h : upTo stop rest = some (inside, behind)) :
    rest = inside ++ stop :: behind := by
  induction rest generalizing inside with
  | nil => cases h
  | cons c rest ih =>
    rw [upTo] at h
    split at h
    next hc =>
      cases h
      rw [hc]
      rfl
    next =>
      obtain ⟨p, hp, heq⟩ := Option.map_eq_some_iff.mp h
      cases heq
      rw [ih hp]
      rfl

theorem upToStars_some {rest inside behind : Bytes} (h : upToStars rest = some (inside, behind)) :
    rest = inside ++ 42 :: 42 :: behind := by
  induction rest generalizing inside with
  | nil => cases h
  | cons c rest ih =>
    rw [upToStars] at h
    split at h
    next hstars =>
      cases h
      rw [hstars.1, List.nil_append, List.eq_cons_of_mem_head? hstars.2]
      rfl
    next =>
      obtain ⟨p, hp, heq⟩ := Option.map_eq_some_iff.mp h
      cases heq
      rw [ih hp]
      rfl

theorem codeSpan_some {ch : UInt8} {rest inside behind : Bytes} (h : codeSpan ch rest = some (inside, behind)) :
    ch :: rest = ascii "`" ++ inside ++ ascii "`" ++ behind := by
  unfold codeSpan at h
  split at h
  next hch =>
    rw [hch, upTo_some h]
    simp [ascii]
  next => cases h

theorem strongSpan_some {ch : UInt8} {rest inside behind : Bytes}
    (h : strongSpan ch rest = some (inside, behind)) :
    ch :: rest = ascii "**" ++ inside ++ ascii "**" ++ behind := by
  unfold strongSpan at h
  split at h
  next hch =>
    rw [List.eq_cons_of_mem_head? hch.2, hch.1, upToStars_some h]
    simp [ascii]
  next => cases h

theorem emSpan_some {ch : UInt8} {rest inside behind : Bytes} (h : emSpan ch rest = some (inside, behind)) :
    ch :: rest = ascii "*" ++ inside ++ ascii "*" ++ behind := by
  unfold emSpan at h
  split at h
  next hch =>
    rw [hch, upTo_some h]
    simp [ascii]
  next => cases h

theorem linkSpan_some {ch : UInt8} {rest label target behind : Bytes}
    (h : linkSpan ch rest = some (label, target, behind)) :
    ch :: rest = ascii "[" ++ label ++ ascii "](" ++ target ++ ascii ")" ++ behind := by
  unfold linkSpan at h
  split at h
  next hch =>
    split at h
    next hlabel =>
      obtain ⟨p, hp, heq⟩ := Option.map_eq_some_iff.mp h
      cases heq
      rw [hch, upTo_some hlabel, upTo_some hp]
      simp [ascii]
    next => cases h
  next => cases h

/-- The tags around a span are those of its element. -/
theorem render_span {name : Markup.Name} (inside : Bytes) (tokens : List Markup.Token) :
    render (.opening name [] :: [.text inside] ++ [.closing name] ++ tokens) =
      ascii "<" ++ name.text ++ ascii ">" ++ escapeHtml inside ++ (ascii "</" ++ name.text ++ ascii ">") ++
        render tokens := by
  rw [escapeHtml_eq]
  simp [Markup.Token.render, ascii]

/-- With fuel for each of its bytes the text is shown whole. -/
theorem parseInlineFrom_shown {fuel : Nat} {text : Bytes} (hfuel : text.length ≤ fuel) :
    ∃ tokens, parseInlineFrom fuel text = render tokens ∧ Shown text tokens := by
  induction fuel generalizing text with
  | zero =>
    obtain rfl := List.length_eq_zero_iff.mp (Nat.le_zero.mp hfuel)
    exact ⟨[], rfl, .nil⟩
  | succ fuel ih =>
    cases text with
    | nil => exact ⟨[], rfl, .nil⟩
    | cons ch rest =>
      have shorter : ∀ {behind front : Bytes}, front ≠ [] → ch :: rest = front ++ behind → behind.length ≤ fuel := by
        intro behind front hne h
        have hlen := congrArg List.length h
        have hpos := List.length_pos_iff.mpr hne
        rw [List.length_append] at hlen
        omega
      have span : ∀ {marker inside behind : Bytes} {name : Markup.Name}, (marker, name) ∈ spans → marker ≠ [] →
          ch :: rest = marker ++ inside ++ marker ++ behind →
          ∃ tokens, ascii "<" ++ name.text ++ ascii ">" ++ escapeHtml inside ++
            (ascii "</" ++ name.text ++ ascii ">") ++ parseInlineFrom fuel behind = render tokens ∧
            Shown (ch :: rest) tokens := by
        intro marker inside behind name hspan hne htext
        obtain ⟨tokens, heq, hshown⟩ := @ih behind (shorter (by simp [hne]) htext)
        refine ⟨_, ?_, htext ▸ Shown.span inside hspan hshown⟩
        rw [render_span, heq]
      rw [parseInlineFrom]
      split
      next inside behind h => exact span (.head _) (by decide) (codeSpan_some h)
      next =>
        split
        next inside behind h => exact span (.tail _ (.head _)) (by decide) (strongSpan_some h)
        next =>
          split
          next inside behind h => exact span (.tail _ (.tail _ (.head _))) (by decide) (emSpan_some h)
          next =>
            split
            next label target behind h =>
              have htext := linkSpan_some h
              have hlabel : label.length ≤ fuel := by
                have hlen := congrArg List.length htext
                have hbracket : (ascii "[").length = 1 := rfl
                simp only [List.length_append, List.length_cons] at hlen hfuel
                omega
              obtain ⟨labelTokens, hlabelEq, hlabelShown⟩ := ih hlabel
              obtain ⟨tokens, heq, hshown⟩ := @ih behind (shorter (by simp [ascii]) htext)
              refine ⟨_, ?_, htext ▸ Shown.link target hlabelShown hshown⟩
              rw [hlabelEq, heq, escapeHtml_eq]
              simp [Markup.Token.render, Markup.renderAttr, Tag.a, Tag.href, ascii]
            next =>
              obtain ⟨tokens, heq, hshown⟩ := @ih rest (Nat.le_of_succ_le_succ hfuel)
              exact ⟨_, by rw [heq]; rfl, .char ch hshown⟩

theorem parseInline_shown (text : Bytes) : ∃ tokens, parseInline text = render tokens ∧ Shown text tokens :=
  parseInlineFrom_shown (Nat.le_refl _)

end ToiLang.Markdown
