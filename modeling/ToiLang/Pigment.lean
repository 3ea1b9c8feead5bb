import ToiLang.Growth
import ToiLang.Http.Ranges
import ToiLang.MarkupText
import ToiLang.StableInsertion
import ToiLang.Strings.Buffers
import ToiLang.Url.PercentCoding

namespace ToiLang

namespace Pigment

open Http (stringSub)
open Strings (Buffer stringEscapeHtml escapeChar joinBuffer concatWrite)
open Markup (WellNested render plain escape)
open StableInsertion (insertionSort insertionSort_perm)

/-! The syntax highlighter of `pigment.toi`. What the regular expressions find in a text is arbitrary. -/

/-! ### The strings that it builds -/

/-- A string made in two passes, if its buffer has the size of what is written. -/
def made (b : Buffer) : Option Bytes :=
  if b.size = b.text.length ∧ b.text.length < b.allocated then some b.text else none

/-- `append_bytes` on a capacity and the text in front. -/
def appendBytes (buffer : Nat × Bytes) (src : Bytes) : Option (Nat × Bytes) :=
  if src.length = 0 then some buffer
  else
    let needed := buffer.2.length + src.length
    if 2 ^ 31 ≤ needed then none
    else if needed > buffer.1 then
      (growCapacity needed 32 (if buffer.1 < 8 then 8 else buffer.1 * 2)).map fun capacity =>
        (capacity, buffer.2 ++ src)
    else some (buffer.1, buffer.2 ++ src)

/-- `vm_build_string` of strings. -/
def vmBuildString (parts : List Bytes) : Option Bytes := (parts.foldlM appendBytes (0, [])).map Prod.snd

/-! ### Colours and languages -/

inductive Color
  | blue
  | magenta
  | cyan
  | green
  | yellow
  | gray
  deriving DecidableEq

def Color.text : Color → Bytes
  | .blue => ascii "blue"
  | .magenta => ascii "magenta"
  | .cyan => ascii "cyan"
  | .green => ascii "green"
  | .yellow => ascii "yellow"
  | .gray => ascii "gray"

namespace COLORS

def keyword : Color := .blue
def operator : Color := .magenta
def builtin : Color := .cyan
def string : Color := .green
def num : Color := .yellow
def comment : Color := .gray

end COLORS

inductive Kind
  | toi
  | js
  | css
  deriving DecidableEq

/-- The words of a configuration. -/
structure Cfg where
  keywords : List Bytes
  builtins : List Bytes
  literals : List Bytes

/-- `_set(words)` -/
def set (words : String) : List Bytes := ((ascii words).splitOn 32).filter (· ≠ [])

def CFG : Kind → Cfg
  | .toi =>
    { keywords := set ("if elif else for in while fn return break continue import from as try except raise match " ++
        "case with yield assert and or not has")
      builtins := set "print str type len range input int float bool list dict table min max"
      literals := set "true false nil" }
  | .js =>
    { keywords := set ("if else for while return function class new let const var try catch throw import export " ++
        "await async in of")
      builtins := set "console Math JSON Date Array Object String Number Promise Map Set RegExp"
      literals := set "true false null undefined" }
  | .css =>
    { keywords := set "@media @keyframes @supports @import from to important"
      builtins := set ("color background display position width height margin padding border font-size " ++
        "font-family opacity")
      literals := set "auto none inherit initial unset" }

/-- The regular expressions of a configuration, and those for HTML. -/
inductive Scan
  | comment
  | string
  | number
  | ident
  | op
  deriving DecidableEq

inductive HtmlScan
  | comment
  | string
  | tag
  | attr
  | op
  deriving DecidableEq

/-- A match of a regular expression: where it starts and ends, and its text. -/
structure Match where
  start : Nat
  stop : Nat
  text : Bytes

/-- What `finditer` goes through. -/
structure Scans where
  code : Kind → Scan → Bytes → List Match
  html : HtmlScan → Bytes → List Match

/-! ### Tokens -/

structure Token where
  s : Int
  e : Int
  t : Bytes
  kind : String
  color : Option Color
  pri : Nat

/-- `_collect` -/
def collect (found : List Match) (kind : String) (color : Option Color) (pri : Nat) : List Token :=
  found.map fun m => ⟨m.start, m.stop, m.text, kind, color, pri⟩

/-- The two tokens of a tag: its angle bracket, with a slash behind it, and its name. -/
def tagTokens (text : Bytes) (m : Match) : List Token :=
  let prefixLen : Int := if m.text.length ≥ 2 ∧ m.text[1]? = some 47 then 2 else 1
  [⟨m.start, m.start + prefixLen - 1, stringSub text m.start (some (m.start + prefixLen - 1)), "op",
      some COLORS.operator, 3⟩,
    ⟨m.start + prefixLen, m.stop, stringSub text (m.start + prefixLen) (some m.stop), "tag", some COLORS.keyword, 4⟩]

/-- The loop over `key_len`. -/
def keyLen (raw : Bytes) : Nat := (raw.takeWhile fun c => c = 95 || c = 45 || Url.isAlnum c).length

/-- The name of an attribute. -/
def attrTokens (text : Bytes) (m : Match) : List Token :=
  if keyLen m.text > 0 then
    [⟨m.start, m.start + keyLen m.text - 1, stringSub text m.start (some (m.start + keyLen m.text - 1)), "attr",
      some COLORS.builtin, 5⟩]
  else []

/-- `_collect_html_tokens` -/
def collectHtmlTokens (scans : Scans) (text : Bytes) : List Token :=
  collect (scans.html .comment text) "comment" (some COLORS.comment) 1 ++
  collect (scans.html .string text) "string" (some COLORS.string) 2 ++
  (scans.html .tag text).flatMap (tagTokens text) ++
  (scans.html .attr text).flatMap (attrTokens text) ++
  collect (scans.html .op text) "op" (some COLORS.operator) 6

/-- The comparator of `_sort_tokens`. -/
def tokenLess (a b : Token) : Bool :=
  if a.s ≠ b.s then a.s < b.s
  else
    let al := a.e - a.s + 1
    let bl := b.e - b.s + 1
    if al ≠ bl then al > bl else a.pri < b.pri

/-- `table.sort` with a comparator is an insertion sort. -/
def sortTokens (tokens : List Token) : List Token := insertionSort tokenLess tokens

structure Accepted where
  s : Int
  e : Int
  t : Bytes
  color : Color

local instance : LawfulBEq Bytes := inferInstance

/-- The colour of a token: an identifier has one if it is a word of the language. -/
def paintColor (cfg : Cfg) (tok : Token) : Option Color :=
  if tok.kind = "ident" then
    if tok.t ∈ cfg.keywords ∨ tok.t ∈ cfg.literals then some COLORS.keyword
    else if tok.t ∈ cfg.builtins then some COLORS.builtin
    else tok.color
  else tok.color

/-- The loop of `_paint_code`, with `last_end`. -/
def acceptCode (cfg : Cfg) : List Token → Int → List Accepted
  | [], _ => []
  | tok :: candidates, lastEnd =>
    if tok.s > lastEnd then
      match paintColor cfg tok with
      | some color => ⟨tok.s, tok.e, tok.t, color⟩ :: acceptCode cfg candidates tok.e
      | none => acceptCode cfg candidates tok.e
    else acceptCode cfg candidates lastEnd

/-- The loop of `_highlight_html`: all its candidates have a colour. -/
def acceptHtml : List Token → Int → List Accepted
  | [], _ => []
  | tok :: candidates, lastEnd =>
    if tok.s > lastEnd then
      match tok.color with
      | some color => ⟨tok.s, tok.e, tok.t, color⟩ :: acceptHtml candidates tok.e
      | none => acceptHtml candidates tok.e
    else acceptHtml candidates lastEnd

def codeCandidates (scans : Scans) (kind : Kind) (text : Bytes) : List Token :=
  collect (scans.code kind .comment text) "comment" (some COLORS.comment) 1 ++
  collect (scans.code kind .string text) "string" (some COLORS.string) 2 ++
  collect (scans.code kind .number text) "number" (some COLORS.num) 3 ++
  collect (scans.code kind .ident text) "ident" none 4 ++
  collect (scans.code kind .op text) "op" (some COLORS.operator) 5

/-! ### The output -/

/-- `_emit_raw` -/
def emitRaw (raw : Bytes) : Option Bytes :=
  match stringEscapeHtml raw with
  | .ok b => made b
  | .error _ => none

/-- `_emit_span` -/
def emitSpan (color : Color) (raw : Bytes) : Option Bytes :=
  (emitRaw raw).bind fun escaped =>
    vmBuildString [ascii "<span color=\"", color.text, ascii "\">", escaped, ascii "</span>"]

/-- The loop of `_render` and what is left behind it, from `pos` on. -/
def pieces (text : Bytes) : List Accepted → Int → Option (List Bytes)
  | [], pos =>
    if pos ≤ text.length then (emitRaw (stringSub text pos none)).map fun raw => [raw] else some []
  | tok :: accepted, pos =>
    (if pos < tok.s then (emitRaw (stringSub text pos (some (tok.s - 1)))).map fun raw => [raw] else some []).bind
      fun gap => (emitSpan tok.color tok.t).bind fun span =>
        (pieces text accepted (tok.e + 1)).map fun out => gap ++ span :: out

/-- `_render` -/
def renderTokens (text : Bytes) (accepted : List Accepted) : Option Bytes :=
  (pieces text accepted 1).bind fun out => made (joinBuffer concatWrite [] out)

/-- A language is the HTML one or a kind of code. -/
def kindOf (lang : Option Bytes) : Option Kind :=
  let kind := (lang.getD (ascii "toi")).map toLower
  let kind := if kind = ascii "javascript" then ascii "js" else if kind = ascii "htm" then ascii "html" else kind
  if kind = ascii "html" then none
  else if kind = ascii "js" then some .js
  else if kind = ascii "css" then some .css
  else some .toi

/-- The tokens that are coloured. -/
def accepted (scans : Scans) (code : Bytes) (lang : Option Bytes) : List Accepted :=
  match kindOf lang with
  | none => acceptHtml (sortTokens (collectHtmlTokens scans code)) 0
  | some kind => acceptCode (CFG kind) (sortTokens (codeCandidates scans kind code)) 0

/-- `highlight`, with what `str` makes of `code`; there is no output where a string is longer than its `int`s say. -/
def highlight (scans : Scans) (code : Option Bytes) (lang : Option Bytes) : Option Bytes :=
  match code with
  | none => some []
  | some code => renderTokens code (accepted scans code lang)

/-! ### What is claimed of it -/

/-- The match is a span of the text. -/
structure Match.Of (text : Bytes) (m : Match) : Prop where
  first : 1 ≤ m.start
  ordered : m.start ≤ m.stop
  last : m.stop ≤ text.length
  span : m.text = stringSub text m.start (some m.stop)

/-- All that is found in a text are spans of it. -/
structure Scans.Of (scans : Scans) (text : Bytes) : Prop where
  code : ∀ kind scan, ∀ m ∈ scans.code kind scan text, m.Of text
  html : ∀ scan, ∀ m ∈ scans.html scan text, m.Of text

def spanName : Markup.Name := ⟨ascii "span", by decide⟩
def colorName : Markup.Name := ⟨ascii "color", by decide⟩

/-- The tags that the highlighter writes. -/
def IsSpan : Markup.Token → Prop
  | .opening name attrs => name = spanName ∧ ∃ color : Color, attrs = [(colorName, color.text)]
  | .closing name => name = spanName
  | .void _ => False
  | .text _ => True

/-- The output is the text with balanced span tags and nothing unescaped in it, and gives the text back. -/
structure Preserves (text out : Bytes) : Prop where
  marked : ∃ tokens, out = render tokens ∧ WellNested tokens ∧ plain tokens = text ∧ ∀ t ∈ tokens, IsSpan t
  decoded : Markup.unescape (Markup.stripTags out) = text

/-- A coloured token. -/
def Accepted.markup (tok : Accepted) : List Markup.Token :=
  [.opening spanName [(colorName, tok.color.text)], .text tok.t, .closing spanName]

/-- A text with its coloured tokens between tags, from `pos` on. -/
def markup (text : Bytes) : List Accepted → Nat → List Markup.Token
  | [], pos => [.text (text.drop (pos - 1))]
  | tok :: accepted, pos =>
    .text ((text.drop (pos - 1)).take (tok.s.toNat - pos)) :: tok.markup ++ markup text accepted (tok.e + 1).toNat

/-- The strings that are built are no longer than their `int`s say. -/
structure Small (text : Bytes) (accepted : List Accepted) : Prop where
  span : ∀ tok ∈ accepted, (render tok.markup).length ≤ 2 ^ 30
  whole : (render (markup text accepted 1)).length ≤ Struct.maxLength

section

variable {text : Bytes}

/-! Building strings. -/

theorem escapeChar_eq (c : UInt8) : escapeChar c = Markup.escapeByte c := rfl

theorem escape_eq (s : Bytes) : s.flatMap escapeChar = escape s := by
  unfold escape
  exact congrArg (s.flatMap ·) (funext escapeChar_eq)

theorem made_eq_some {b : Buffer} {s : Bytes} : made b = some s ↔ b.Exact ∧ b.text = s := by
  unfold made
  constructor
  · intro h
    split at h
    next hexact => exact ⟨⟨hexact.1, hexact.2⟩, Option.some.inj h⟩
    next => cases h
  · intro h
    rw [if_pos ⟨h.1.size, h.1.room⟩, h.2]

/-- What is escaped fits where its length is an `int`. -/
theorem emitRaw_eq {raw : Bytes} (h : (escape raw).length < 2 ^ 31) : emitRaw raw = some (escape raw) := by
  have hsized := @Strings.stringEscapeHtml_sized raw
  rw [escape_eq] at hsized
  have hright := hsized.mpr fun _ => h
  have hwrap := wrap_eq_iff (Int.natCast_nonneg (escape raw).length)
  have hsize := Strings.escape_size raw
  rw [escape_eq, hwrap.mpr (by omega)] at hsize
  have hok : ∃ b, stringEscapeHtml raw = .ok b := by
    unfold stringEscapeHtml
    dsimp only
    rw [hsize]
    split
    · exact ⟨_, rfl⟩
    · rw [if_neg (by omega)]
      exact ⟨_, rfl⟩
  obtain ⟨b, hb⟩ := hok
  unfold emitRaw
  rw [hb]
  exact made_eq_some.mpr (hright b hb)

/-- The capacity of a buffer and its text. -/
structure Held (buffer : Nat × Bytes) : Prop where
  power : buffer.1 = 0 ∨ ∃ k ≤ 27, buffer.1 = 2 ^ (k + 3)
  room : buffer.2.length ≤ buffer.1

theorem Held.le {buffer : Nat × Bytes} (h : Held buffer) : buffer.1 ≤ 2 ^ 30 := by
  rcases h.power with h0 | ⟨k, hk, hp⟩
  · omega
  · rw [hp]
    exact Nat.pow_le_pow_right (by decide) (by omega)

theorem appendBytes_spec {buffer : Nat × Bytes} (h : Held buffer) (src : Bytes) :
    (buffer.2.length + src.length ≤ 2 ^ 30 →
      ∃ capacity, appendBytes buffer src = some (capacity, buffer.2 ++ src) ∧ Held (capacity, buffer.2 ++ src)) ∧
    (2 ^ 30 < buffer.2.length + src.length → appendBytes buffer src = none) := by
  have hle := h.le
  have hroom := h.room
  unfold appendBytes
  by_cases hsrc : src.length = 0
  · rw [if_pos hsrc]
    have hnil := List.eq_nil_of_length_eq_zero hsrc
    refine ⟨fun _ => ⟨buffer.1, ?_, ?_⟩, fun hlt => by omega⟩
    · rw [hnil, List.append_nil]
    · rw [hnil, List.append_nil]
      exact h
  · rw [if_neg hsrc]
    dsimp only
    by_cases hover : 2 ^ 31 ≤ buffer.2.length + src.length
    · rw [if_pos hover]
      exact ⟨fun hsmall => by omega, fun _ => rfl⟩
    · rw [if_neg hover]
      by_cases hgrow : buffer.2.length + src.length > buffer.1
      · rw [if_pos hgrow]
        have hstart : ∃ k, (if buffer.1 < 8 then 8 else buffer.1 * 2) = 2 ^ (k + 3) ∧ k ≤ 28 ∧
            (buffer.2.length + src.length ≤ 2 ^ 30 → k ≤ 27) := by
          rcases h.power with h0 | ⟨k, hk, hp⟩
          · exact ⟨0, by rw [h0]; rfl, by decide, fun _ => by decide⟩
          · have hlow : 2 ^ 3 ≤ 2 ^ (k + 3) := Nat.pow_le_pow_right (by decide) (by omega)
            refine ⟨k + 1, ?_, by omega, fun hsmall => ?_⟩
            · rw [if_neg (by omega), hp, ← Nat.pow_succ]
            · by_contra hk27
              have heq : k = 27 := by omega
              subst heq
              omega
        obtain ⟨k, hk, hk28, hk27⟩ := hstart
        rw [hk]
        obtain ⟨hfits, hnone⟩ := @growCapacity_spec (buffer.2.length + src.length) 32 k hk28 (by omega)
        constructor
        · intro hsmall
          obtain ⟨j, hj, hneeded, heq⟩ := hfits hsmall (hk27 hsmall)
          rw [heq]
          refine ⟨2 ^ (j + 3), rfl, Or.inr ⟨j, hj, rfl⟩, ?_⟩
          rw [List.length_append]
          exact hneeded
        · intro hlarge
          rw [hnone hlarge]
          rfl
      · rw [if_neg hgrow]
        refine ⟨fun _ => ⟨buffer.1, rfl, h.power, ?_⟩, fun hlarge => by omega⟩
        rw [List.length_append]
        omega

theorem foldlM_appendBytes {buffer : Nat × Bytes} (h : Held buffer) (parts : List Bytes) :
    (parts.foldlM appendBytes buffer).map Prod.snd =
      if (buffer.2 ++ parts.flatten).length ≤ 2 ^ 30 then some (buffer.2 ++ parts.flatten) else none := by
  refine foldlM_write h (fun b hb => hb.room.trans hb.le) (fun b src hb hle => ?_)
    (fun b src hb hlt => (appendBytes_spec hb src).2 hlt) parts
  obtain ⟨capacity, heq, hheld⟩ := (appendBytes_spec hb src).1 hle
  exact ⟨_, heq, rfl, hheld⟩

theorem vmBuildString_eq (parts : List Bytes) :
    vmBuildString parts = if parts.flatten.length ≤ 2 ^ 30 then some parts.flatten else none :=
  foldlM_appendBytes ⟨Or.inl rfl, Nat.le_refl _⟩ parts

theorem Color.escape_text (color : Color) : escape color.text = color.text := by
  cases color <;> rfl

theorem render_markup_cons (tok : Accepted) :
    render tok.markup =
      [ascii "<span color=\"", tok.color.text, ascii "\">", escape tok.t, ascii "</span>"].flatten := by
  have hcolor := tok.color.escape_text
  have hopen : ascii "<span color=\"" = 60 :: spanName.text ++ (32 :: colorName.text ++ [61, 34]) := by decide
  have hbehind : ascii "\">" = [34, 62] := by decide
  have hclose : ascii "</span>" = [60, 47] ++ spanName.text ++ [62] := by decide
  rw [hopen, hbehind, hclose]
  simp only [Accepted.markup, render, List.flatMap_cons, List.flatMap_nil, Markup.Token.render, Markup.renderAttr,
    hcolor, List.flatten_cons, List.flatten_nil, List.append_assoc, List.cons_append, List.nil_append]

/-- A coloured token is written where its markup is no longer than the largest capacity. -/
theorem emitSpan_eq {tok : Accepted} (h : (escape tok.t).length < 2 ^ 31) :
    emitSpan tok.color tok.t =
      if (render tok.markup).length ≤ 2 ^ 30 then some (render tok.markup) else none := by
  unfold emitSpan
  rw [emitRaw_eq h, Option.bind_some, vmBuildString_eq, render_markup_cons]

/-! The coloured tokens lie one behind the other. -/

/-- A token is a span of the text, perhaps an empty one. -/
structure Token.Of (text : Bytes) (tok : Token) : Prop where
  first : 1 ≤ tok.s
  ordered : tok.s ≤ tok.e + 1
  last : tok.e ≤ text.length
  span : tok.t = stringSub text tok.s (some tok.e)

/-- The tokens are spans of the text, in order and apart, from `pos` on. -/
def Tiled (text : Bytes) : List Accepted → Nat → Prop
  | [], _ => True
  | tok :: accepted, pos => (pos ≤ tok.s ∧ tok.s ≤ tok.e + 1 ∧ tok.e ≤ text.length) ∧
      tok.t = stringSub text tok.s (some tok.e) ∧ Tiled text accepted (tok.e + 1).toNat

theorem stringSub_span {s e : Int} (hs : 1 ≤ s) (hse : s ≤ e + 1) (he : e ≤ text.length) :
    stringSub text s (some e) = (text.drop (s.toNat - 1)).take ((e + 1).toNat - s.toNat) := by
  have h := @Http.stringSub_eq text (s.toNat - 1) e.toNat (by omega)
  have hstart : ((s.toNat - 1 : Nat) : Int) + 1 = s := by omega
  have hstop : (e.toNat : Int) = e := by omega
  have hlen : e.toNat - (s.toNat - 1) = (e + 1).toNat - s.toNat := by omega
  rwa [hstart, hstop, hlen] at h

theorem collect_of {found : List Match} (h : ∀ m ∈ found, m.Of text) (kind : String) (color : Option Color)
    (pri : Nat) : ∀ tok ∈ collect found kind color pri, tok.Of text := by
  intro tok htok
  obtain ⟨m, hm, rfl⟩ := List.mem_map.mp htok
  obtain ⟨hfirst, hordered, hlast, hspan⟩ := h m hm
  refine ⟨?_, ?_, ?_, hspan⟩ <;> dsimp only <;> omega

theorem Match.Of.length {m : Match} (h : m.Of text) : m.text.length = m.stop + 1 - m.start := by
  obtain ⟨hfirst, hordered, hlast, hspan⟩ := h
  rw [hspan, stringSub_span (by omega) (by omega) (by omega), List.length_take, List.length_drop]
  omega

theorem tagTokens_of {m : Match} (h : m.Of text) : ∀ tok ∈ tagTokens text m, tok.Of text := by
  have hlength := h.length
  obtain ⟨hfirst, hordered, hlast, -⟩ := h
  have hprefix : ∃ n : Int, (if m.text.length ≥ 2 ∧ m.text[1]? = some 47 then (2 : Int) else 1) = n ∧ 1 ≤ n ∧
      n ≤ m.text.length := by
    split
    next hslash => exact ⟨2, rfl, by decide, by omega⟩
    next => exact ⟨1, rfl, by decide, by omega⟩
  obtain ⟨n, hn, hone, hle⟩ := hprefix
  intro tok htok
  unfold tagTokens at htok
  rw [hn] at htok
  simp only [List.mem_cons, List.not_mem_nil, or_false] at htok
  obtain rfl | rfl := htok
  · refine ⟨?_, ?_, ?_, rfl⟩ <;> dsimp only <;> omega
  · refine ⟨?_, ?_, ?_, rfl⟩ <;> dsimp only <;> omega

theorem attrTokens_of {m : Match} (h : m.Of text) : ∀ tok ∈ attrTokens text m, tok.Of text := by
  have hlength := h.length
  obtain ⟨hfirst, hordered, hlast, -⟩ := h
  have hkey : keyLen m.text ≤ m.text.length := (List.takeWhile_sublist _).length_le
  intro tok htok
  unfold attrTokens at htok
  split at htok
  next hpositive =>
    rw [List.mem_singleton] at htok
    subst htok
    refine ⟨?_, ?_, ?_, rfl⟩ <;> dsimp only <;> omega
  next => cases htok

theorem codeCandidates_of {scans : Scans} (h : scans.Of text) (kind : Kind) :
    ∀ tok ∈ codeCandidates scans kind text, tok.Of text := by
  intro tok htok
  unfold codeCandidates at htok
  simp only [List.mem_append] at htok
  obtain (((htok | htok) | htok) | htok) | htok := htok
  all_goals exact collect_of (h.code kind _) _ _ _ tok htok

theorem collectHtmlTokens_of {scans : Scans} (h : scans.Of text) :
    ∀ tok ∈ collectHtmlTokens scans text, tok.Of text := by
  intro tok htok
  unfold collectHtmlTokens at htok
  simp only [List.mem_append] at htok
  obtain (((htok | htok) | htok) | htok) | htok := htok
  · exact collect_of (h.html _) _ _ _ tok htok
  · exact collect_of (h.html _) _ _ _ tok htok
  · obtain ⟨m, hm, htok⟩ := List.mem_flatMap.mp htok
    exact tagTokens_of (h.html _ m hm) tok htok
  · obtain ⟨m, hm, htok⟩ := List.mem_flatMap.mp htok
    exact attrTokens_of (h.html _ m hm) tok htok
  · exact collect_of (h.html _) _ _ _ tok htok

theorem sortTokens_of {tokens : List Token} (h : ∀ tok ∈ tokens, tok.Of text) :
    ∀ tok ∈ sortTokens tokens, tok.Of text :=
  fun tok htok => h tok ((insertionSort_perm tokens).mem_iff.mp htok)

/-- The greedy loop keeps the tokens apart, in whatever order the candidates come. -/
theorem acceptCode_tiled {cfg : Cfg} {candidates : List Token} (h : ∀ tok ∈ candidates, tok.Of text) {lastEnd : Int}
    {pos : Nat} (hpos : pos ≤ lastEnd + 1) : Tiled text (acceptCode cfg candidates lastEnd) pos := by
  induction candidates generalizing lastEnd pos with
  | nil => trivial
  | cons tok candidates ih =>
    obtain ⟨hfirst, hordered, hlast, hspan⟩ := h tok List.mem_cons_self
    have hrest : ∀ tok ∈ candidates, tok.Of text := fun t ht => h t (List.mem_cons_of_mem _ ht)
    unfold acceptCode
    by_cases hnext : tok.s > lastEnd
    · rw [if_pos hnext]
      cases paintColor cfg tok with
      | none => exact ih hrest (by omega)
      | some color => exact ⟨⟨by dsimp only; omega, hordered, hlast⟩, hspan, ih hrest (by dsimp only; omega)⟩
    · rw [if_neg hnext]
      exact ih hrest hpos

theorem acceptHtml_tiled {candidates : List Token} (h : ∀ tok ∈ candidates, tok.Of text) {lastEnd : Int}
    {pos : Nat} (hpos : pos ≤ lastEnd + 1) : Tiled text (acceptHtml candidates lastEnd) pos := by
  induction candidates generalizing lastEnd pos with
  | nil => trivial
  | cons tok candidates ih =>
    obtain ⟨hfirst, hordered, hlast, hspan⟩ := h tok List.mem_cons_self
    have hrest : ∀ tok ∈ candidates, tok.Of text := fun t ht => h t (List.mem_cons_of_mem _ ht)
    unfold acceptHtml
    by_cases hnext : tok.s > lastEnd
    · rw [if_pos hnext]
      cases tok.color with
      | none => exact ih hrest (by omega)
      | some color => exact ⟨⟨by dsimp only; omega, hordered, hlast⟩, hspan, ih hrest (by dsimp only; omega)⟩
    · rw [if_neg hnext]
      exact ih hrest hpos

theorem accepted_tiled {scans : Scans} (h : scans.Of text) (lang : Option Bytes) :
    Tiled text (accepted scans text lang) 1 := by
  unfold accepted
  cases kindOf lang with
  | none => exact acceptHtml_tiled (sortTokens_of (collectHtmlTokens_of h)) (by decide)
  | some kind => exact acceptCode_tiled (sortTokens_of (codeCandidates_of h kind)) (by decide)

/-! The output. -/

theorem plain_markup {accepted : List Accepted} {pos : Nat} (h : Tiled text accepted pos) (hpos : 1 ≤ pos) :
    plain (markup text accepted pos) = text.drop (pos - 1) := by
  induction accepted generalizing pos with
  | nil => exact List.append_nil _
  | cons tok accepted ih =>
    obtain ⟨⟨hstart, hordered, hlast⟩, hspan, hrest⟩ := h
    have htok : tok.t = (text.drop (tok.s.toNat - 1)).take ((tok.e + 1).toNat - tok.s.toNat) := by
      rw [hspan, stringSub_span (by omega) hordered hlast]
    have hplain : plain (markup text (tok :: accepted) pos) =
        (text.drop (pos - 1)).take (tok.s.toNat - pos) ++ (tok.t ++ plain (markup text accepted (tok.e + 1).toNat)) := rfl
    have hsecond : text.drop ((tok.e + 1).toNat - 1) =
        (text.drop (tok.s.toNat - 1)).drop ((tok.e + 1).toNat - tok.s.toNat) := by
      rw [List.drop_drop]
      congr 1
      omega
    have hfirst : text.drop (tok.s.toNat - 1) = (text.drop (pos - 1)).drop (tok.s.toNat - pos) := by
      rw [List.drop_drop]
      congr 1
      omega
    rw [hplain, ih hrest (by omega), htok, hsecond, List.take_append_drop, hfirst, List.take_append_drop]

theorem walk_markup (accepted : List Accepted) (pos : Nat) : WellNested (markup text accepted pos) := by
  induction accepted generalizing pos with
  | nil => exact WellNested.text _
  | cons tok accepted ih =>
    have hspan : WellNested tok.markup := (WellNested.text tok.t).element spanName _
    exact (WellNested.text _).append (hspan.append (ih _))

theorem isSpan_markup (accepted : List Accepted) (pos : Nat) : ∀ t ∈ markup text accepted pos, IsSpan t := by
  induction accepted generalizing pos with
  | nil =>
    intro t ht
    rw [List.mem_singleton.mp ht]
    trivial
  | cons tok accepted ih =>
    intro t ht
    simp only [markup, Accepted.markup, List.cons_append, List.nil_append, List.mem_cons] at ht
    obtain rfl | rfl | rfl | rfl | ht := ht
    · trivial
    · exact ⟨rfl, tok.color, rfl⟩
    · trivial
    · rfl
    · exact ih _ t ht

/-- What is escaped of a text is no longer than the whole, escaped. -/
theorem escape_take_drop_le (s : Bytes) (m n : Nat) : (escape ((s.drop m).take n)).length ≤ (escape s).length := by
  have hdrop : (escape (s.drop m)).length ≤ (escape s).length := by
    have h := congrArg List.length (Markup.escape_append (s.take m) (s.drop m))
    rw [List.take_append_drop, List.length_append] at h
    omega
  have htake := congrArg List.length (Markup.escape_append ((s.drop m).take n) ((s.drop m).drop n))
  rw [List.take_append_drop, List.length_append] at htake
  omega

/-- The pieces that are written are those of the markup. -/
theorem pieces_eq {accepted : List Accepted} {pos : Nat} (h : Tiled text accepted pos) (hpos : 1 ≤ pos)
    (hsmall : (escape text).length < 2 ^ 31) :
    (∃ out, pieces text accepted pos = some out ∧ out.flatten = render (markup text accepted pos) ∧
      ∀ tok ∈ accepted, (render tok.markup).length ≤ 2 ^ 30) ∨
    (pieces text accepted pos = none ∧ ∃ tok ∈ accepted, 2 ^ 30 < (render tok.markup).length) := by
  induction accepted generalizing pos with
  | nil =>
    refine Or.inl ?_
    have hrender : render (markup text [] pos) = escape (text.drop (pos - 1)) := List.append_nil _
    unfold pieces
    by_cases hin : (pos : Int) ≤ text.length
    · have hsub : stringSub text pos none = (text.drop (pos - 1)).take (text.length + 1 - pos) := by
        exact @stringSub_span text pos text.length (by omega) (by omega) (Int.le_refl _)
      have hall : (text.drop (pos - 1)).take (text.length + 1 - pos) = text.drop (pos - 1) :=
        List.take_of_length_le (by rw [List.length_drop]; omega)
      have hlt := escape_take_drop_le text (pos - 1) (text.length + 1 - pos)
      rw [if_pos hin, hsub, emitRaw_eq (by omega), hall]
      exact ⟨_, rfl, by rw [hrender]; exact List.append_nil _, fun tok htok => absurd htok List.not_mem_nil⟩
    · rw [if_neg hin]
      have hnil : text.drop (pos - 1) = [] := List.drop_eq_nil_of_le (by omega)
      exact ⟨[], rfl, by rw [hrender, hnil]; rfl, fun tok htok => absurd htok List.not_mem_nil⟩
  | cons tok accepted ih =>
    obtain ⟨⟨hstart, hordered, hlast⟩, hspan, hrest⟩ := h
    have htok : tok.t = (text.drop (tok.s.toNat - 1)).take ((tok.e + 1).toNat - tok.s.toNat) := by
      rw [hspan, stringSub_span (by omega) hordered hlast]
    have htext : (escape tok.t).length < 2 ^ 31 := by
      have hle := escape_take_drop_le text (tok.s.toNat - 1) ((tok.e + 1).toNat - tok.s.toNat)
      rw [htok]
      omega
    have hgap : ∃ gap : List Bytes, (if (pos : Int) < tok.s then
        (emitRaw (stringSub text pos (some (tok.s - 1)))).map fun raw => [raw] else some []) = some gap ∧
        gap.flatten = escape ((text.drop (pos - 1)).take (tok.s.toNat - pos)) := by
      by_cases hlt : (pos : Int) < tok.s
      · have hsub := @stringSub_span text pos (tok.s - 1) (by omega) (by omega) (by omega)
        have hlen : (tok.s - 1 + 1).toNat - (pos : Int).toNat = tok.s.toNat - pos := by omega
        rw [hlen, Int.toNat_natCast] at hsub
        have hle := escape_take_drop_le text (pos - 1) (tok.s.toNat - pos)
        rw [if_pos hlt, hsub, emitRaw_eq (by omega)]
        exact ⟨_, rfl, List.append_nil _⟩
      · have hzero : tok.s.toNat - pos = 0 := by omega
        rw [if_neg hlt, hzero]
        exact ⟨[], rfl, rfl⟩
    obtain ⟨gap, hgap, hflat⟩ := hgap
    have hrender : render (markup text (tok :: accepted) pos) =
        escape ((text.drop (pos - 1)).take (tok.s.toNat - pos)) ++
          (render tok.markup ++ render (markup text accepted (tok.e + 1).toNat)) := by
      rw [markup, List.cons_append, Markup.render_cons, Markup.render_append]
      rfl
    unfold pieces
    rw [hgap, emitSpan_eq htext, Option.bind_some]
    have hnext : ((tok.e + 1).toNat : Int) = tok.e + 1 := by omega
    by_cases hfits : (render tok.markup).length ≤ 2 ^ 30
    · rw [if_pos hfits, Option.bind_some]
      rcases ih hrest (by omega) with ⟨out, hout, houtflat, hall⟩ | ⟨hnone, t, ht, hlong⟩
      · rw [hnext] at hout
        refine Or.inl ⟨gap ++ render tok.markup :: out, by rw [hout]; rfl, ?_, ?_⟩
        · rw [List.flatten_append, List.flatten_cons, houtflat, hflat, hrender]
        · intro t ht
          rcases List.mem_cons.mp ht with rfl | ht
          · exact hfits
          · exact hall t ht
      · rw [hnext] at hnone
        exact Or.inr ⟨by rw [hnone]; rfl, t, List.mem_cons_of_mem _ ht, hlong⟩
    · rw [if_neg hfits]
      exact Or.inr ⟨rfl, tok, List.mem_cons_self, Nat.not_le.mp hfits⟩

theorem outside_length_le (inside : Bool) (s : List UInt8) : (Markup.outside inside s).length ≤ s.length := by
  induction s generalizing inside with
  | nil =>
    cases inside <;> exact Nat.le_refl _
  | cons c s ih =>
    have htag := ih true
    have htext := ih false
    cases inside
    · unfold Markup.outside
      split
      · exact Nat.le_succ_of_le htag
      · exact Nat.succ_le_succ htext
    · unfold Markup.outside
      split
      · exact Nat.le_succ_of_le htext
      · exact Nat.le_succ_of_le htag

/-- What is marked up is at least as long as its text, escaped. -/
theorem escape_plain_le (tokens : List Markup.Token) : (escape (plain tokens)).length ≤ (render tokens).length := by
  rw [← Markup.stripTags_render]
  exact outside_length_le false _

theorem intercalate_nil (texts : List Bytes) : List.intercalate [] texts = texts.flatten := by
  induction texts with
  | nil => rfl
  | cons a texts ih =>
    cases texts with
    | nil => rfl
    | cons b texts =>
      rw [List.intercalate_cons_cons, ih, List.append_nil]
      rfl

theorem made_joined {write : Bytes → List Bytes → Bytes} {out : List Bytes}
    (hw : write [] out = List.intercalate [] out) :
    made (joinBuffer write [] out) =
      if out.flatten.length ≤ Struct.maxLength then some out.flatten else none := by
  obtain ⟨htext, hexact⟩ := Strings.joinBuffer_exact hw
  rw [intercalate_nil] at htext hexact
  by_cases hle : out.flatten.length ≤ Struct.maxLength
  · rw [if_pos hle, made_eq_some]
    exact ⟨hexact.mpr hle, htext⟩
  · rw [if_neg hle]
    unfold made
    exact if_neg fun h => hle (hexact.mp ⟨h.1, h.2⟩)

theorem made_concat (out : List Bytes) :
    made (joinBuffer concatWrite [] out) =
      if out.flatten.length ≤ Struct.maxLength then some out.flatten else none :=
  made_joined (Strings.concatWrite_eq [] out)

end

/-- The output of the highlighter is the text, escaped, with balanced span tags in it, whatever the regular
expressions find, just when the markup is no longer than the strings that it is built in. -/
theorem highlight_iff (scans : Scans) {text : Bytes} (h : scans.Of text) (lang : Option Bytes) :
    (∃ out, highlight scans (some text) lang = some out ∧ Preserves text out) ↔
      Small text (accepted scans text lang) := by
  have htiled := accepted_tiled h lang
  have hplain : plain (markup text (accepted scans text lang) 1) = text := plain_markup htiled (Nat.le_refl _)
  have hunfold : highlight scans (some text) lang = (pieces text (accepted scans text lang) 1).bind fun out =>
      made (joinBuffer concatWrite [] out) := rfl
  rw [hunfold]
  constructor
  · intro hout
    obtain ⟨out, hsome, hright⟩ := hout
    obtain ⟨tokens, rfl, -, htokens, -⟩ := hright.marked
    obtain ⟨written, hwritten, hmade⟩ := Option.bind_eq_some_iff.mp hsome
    rw [made_concat] at hmade
    split at hmade
    next hle =>
      have heq := Option.some.inj hmade
      have hescape := escape_plain_le tokens
      rw [htokens, ← heq] at hescape
      have hsmall : (escape text).length < 2 ^ 31 := by
        unfold Struct.maxLength at hle
        omega
      rcases pieces_eq htiled (Nat.le_refl _) hsmall with ⟨out, hpieces, hflat, hspans⟩ | ⟨hnone, -⟩
      · obtain rfl := Option.some.inj (hwritten.symm.trans hpieces)
        rw [hflat] at hle
        exact ⟨hspans, hle⟩
      · exact absurd (hwritten.symm.trans hnone) (Option.some_ne_none _)
    next => cases hmade
  · intro hsmall
    obtain ⟨hspans, hwhole⟩ := hsmall
    have hescape := escape_plain_le (markup text (accepted scans text lang) 1)
    rw [hplain] at hescape
    have hlt : (escape text).length < 2 ^ 31 := by
      unfold Struct.maxLength at hwhole
      omega
    rcases pieces_eq htiled (Nat.le_refl _) hlt with ⟨out, hpieces, hflat, -⟩ | ⟨-, tok, htok, hlong⟩
    · refine ⟨render (markup text (accepted scans text lang) 1), ?_, ?_, ?_⟩
      · refine (congrArg (Option.bind · _) hpieces).trans ?_
        rw [Option.bind_some, made_concat, hflat, if_pos hwhole]
      · exact ⟨_, rfl, walk_markup _ _, hplain, isSpan_markup _ _⟩
      · rw [Markup.unescape_stripTags, hplain]
    · have := hspans tok htok
      omega

/-- The expressions find the number of the text `1 <` and its operator. -/
def comparisonScans : Scans :=
  { code := fun _ scan _ =>
      if scan = .number then [⟨1, 1, ascii "1"⟩] else if scan = .op then [⟨3, 3, ascii "<"⟩] else []
    html := fun _ _ => [] }

theorem comparisonScans_of : comparisonScans.Of (ascii "1 <") := by
  refine ⟨fun kind scan m hm => ?_, fun scan m hm => absurd hm List.not_mem_nil⟩
  cases scan with
  | number =>
    rw [show m = ⟨1, 1, ascii "1"⟩ from List.mem_singleton.mp hm]
    exact ⟨by decide, by decide, by decide, by decide⟩
  | op =>
    rw [show m = ⟨3, 3, ascii "<"⟩ from List.mem_singleton.mp hm]
    exact ⟨by decide, by decide, by decide, by decide⟩
  | comment | string | ident => exact absurd hm List.not_mem_nil

theorem highlight_iff_comparison :
    ∃ out, highlight comparisonScans (some (ascii "1 <")) none = some out ∧ Preserves (ascii "1 <") out := by
  have haccepted : accepted comparisonScans (ascii "1 <") none =
      [⟨1, 1, ascii "1", .yellow⟩, ⟨3, 3, ascii "<", .magenta⟩] := rfl
  refine (highlight_iff comparisonScans comparisonScans_of none).mpr ?_
  rw [haccepted]
  refine ⟨fun tok htok => ?_, by decide⟩
  simp only [List.mem_cons, List.not_mem_nil, or_false] at htok
  obtain rfl | rfl := htok <;> decide

/-- Expressions that find nothing. -/
def noScans : Scans := ⟨fun _ _ _ => [], fun _ _ => []⟩

theorem noScans_of (text : Bytes) : noScans.Of text :=
  ⟨fun _ _ _ hm => absurd hm List.not_mem_nil, fun _ _ hm => absurd hm List.not_mem_nil⟩

/-- A text whose size wraps below zero when it is escaped is lost. -/
theorem highlight_lost {text : Bytes} (hlength : text.length = 429496730)
    (hescape : (text.flatMap escapeChar).length = 2147483650) : highlight noScans (some text) none = none := by
  have haccepted : accepted noScans text none = [] := rfl
  have hwrap : wrap (2147483650 : Nat) = -2147483646 := by decide
  have hsub : stringSub text 1 none = text := by
    have h := @stringSub_span text 1 text.length (by decide) (by omega) (Int.le_refl _)
    exact h.trans (List.take_of_length_le (by rw [List.length_drop]; omega))
  have hraw : emitRaw text = none := by
    unfold emitRaw stringEscapeHtml
    dsimp only
    rw [Strings.escape_size, hescape, hwrap, if_neg (by omega), if_pos (by decide)]
  unfold highlight renderTokens
  dsimp only
  rw [haccepted, pieces, if_pos (by omega), hsub, hraw]
  rfl

theorem length_escape_replicate (n : Nat) :
    ((List.replicate n (38 : UInt8)).flatMap escapeChar).length = n * 5 := by
  induction n with
  | zero => rfl
  | succ n ih =>
    rw [List.replicate_succ, List.flatMap_cons, List.length_append, ih]
    exact (Nat.add_comm 5 _).trans (Nat.succ_mul n 5).symm

/-- So is one of 429496730 ampersands, in which the expressions for code find nothing. -/
theorem ampersands_lost : ∃ text, text = List.replicate 429496730 38 ∧ noScans.Of text ∧
    highlight noScans (some text) none = none ∧
    ¬ ∃ out, highlight noScans (some text) none = some out ∧ Preserves text out := by
  have hlost := highlight_lost List.length_replicate ((length_escape_replicate 429496730).trans (by omega))
  refine ⟨_, rfl, noScans_of _, hlost, fun h => ?_⟩
  obtain ⟨out, hout, -⟩ := h
  rw [hlost] at hout
  cases hout

end Pigment

end ToiLang
