import ToiLang.Http.ChunkedCoding
import ToiLang.Http.Request

namespace ToiLang.Http

/-- A header line: a name, a colon, white space and a value. -/
structure HeaderField where
  name : Bytes
  space : Bytes
  value : Bytes
  name_ok : ∀ c ∈ name, c ≠ 58 ∧ c ≠ 0
  space_ok : ∀ c ∈ space, isSpace c = true
  value_ok : ∀ c, value.head? = some c → isSpace c = false
  noBreak : findCrlf (name ++ 58 :: (space ++ value)) = none

namespace HeaderField

def line (f : HeaderField) : Bytes := f.name ++ 58 :: (f.space ++ f.value)

def key (f : HeaderField) : Bytes := f.name.map toLower

end HeaderField

/-- A request line: a method, a path with an optional query, and a version. -/
structure RequestLine where
  method : Bytes
  path : Bytes
  query : Option Bytes
  version : Bytes
  method_ok : ∀ c ∈ method, c ≠ 32
  path_ok : ∀ c ∈ path, c ≠ 32 ∧ c ≠ 63
  query_ok : ∀ q, query = some q → ∀ c ∈ q, c ≠ 32

namespace RequestLine

def target (l : RequestLine) : Bytes :=
  l.path ++ match l.query with
    | none => []
    | some q => 63 :: q

def bytes (l : RequestLine) : Bytes := l.method ++ 32 :: (l.target ++ 32 :: l.version)

end RequestLine

/-- The headers of a message, with its framing. `none` where a content length is not a number. -/
def headOf (h : Head) : List HeaderField → Option Head
  | [] => some h
  | f :: fs => (h.add f.key f.value).bind fun h => headOf h fs

def headBytes : List HeaderField → Bytes
  | [] => []
  | f :: fs => f.line ++ 13 :: 10 :: headBytes fs

/-- A body that ends where the headers say. -/
inductive Framed (h : Head) : Bytes → Bytes → Prop
  | chunked (b : ChunkedCoding) : h.chunked = true → Framed h b.bytes b.body
  | length (body : Bytes) : h.chunked = false → h.contentLength = some body.length → Framed h body body
  | none : h.chunked = false → h.contentLength = none → Framed h [] []

/-- A complete request message. -/
structure Message where
  line : RequestLine
  noBreak : findCrlf line.bytes = none
  fields : List HeaderField
  head : Head
  head_eq : headOf .empty fields = some head
  bodyBytes : Bytes
  body : Bytes
  framed : Framed head bodyBytes body

namespace Message

def start (m : Message) : Bytes := m.line.bytes ++ [13, 10]

def bytes (m : Message) : Bytes :=
  m.line.bytes ++ 13 :: 10 :: (headBytes m.fields ++ 13 :: 10 :: m.bodyBytes)

/-- The request that the message says. -/
def request (m : Message) : Request :=
  ⟨m.line.method, m.line.path, m.line.query, m.line.version, m.head.headers, bodyField m.body,
    m.bytes.length⟩

/-- Headers after which an empty body is complete. -/
def Bodiless (h : Head) : Prop := h.chunked = false ∧ (h.contentLength = none ∨ h.contentLength = some 0)

/-- The text stops behind the request line or a header line, and the headers up to there ask for no
body. -/
def CutBehindLine (m : Message) (p : Bytes) : Prop :=
  ∃ fs rest h, m.fields = fs ++ rest ∧ p = m.start ++ headBytes fs ∧ headOf .empty fs = some h ∧
    Bodiless h

end Message

theorem parseRequestLine_bytes (l : RequestLine) :
    parseRequestLine l.bytes = some (l.method, l.path, l.query, l.version) := by
  have hm : ∀ c ∈ l.method, decide (c ≠ 32) = true := fun c hc => by simpa using l.method_ok c hc
  have hp : ∀ c ∈ l.path, (decide (c ≠ 32) && decide (c ≠ 63)) = true := fun c hc => by
    simpa using l.path_ok c hc
  have hmethod : (32 :: (l.target ++ 32 :: l.version)).takeWhile (· ≠ 32) = [] := by simp
  have hmethod' : (32 :: (l.target ++ 32 :: l.version)).dropWhile (· ≠ 32) =
      32 :: (l.target ++ 32 :: l.version) := by simp
  unfold parseRequestLine
  rw [RequestLine.bytes, List.takeWhile_append_of_pos hm, List.dropWhile_append_of_pos hm, hmethod,
    hmethod', List.append_nil]
  dsimp only
  rw [RequestLine.target]
  cases hq : l.query with
  | none =>
    rw [List.append_nil, List.takeWhile_append_of_pos hp, List.dropWhile_append_of_pos hp]
    simp
  | some q =>
    have hqq : ∀ c ∈ q, decide (c ≠ 32) = true := fun c hc => by
      simpa using l.query_ok q hq c hc
    rw [List.append_assoc, List.takeWhile_append_of_pos hp, List.dropWhile_append_of_pos hp]
    simp only [List.cons_append, List.takeWhile_cons, List.dropWhile_cons, ne_eq, not_true_eq_false,
      decide_false, Bool.and_false, Bool.false_eq_true, ↓reduceIte, List.append_nil]
    rw [List.dropWhile_append_of_pos hqq, List.takeWhile_append_of_pos hqq]
    simp

/-- The first occurrence of a byte that is not in front. -/
theorem idxOf_append {c : UInt8} {xs : Bytes} (h : c ∉ xs) (ys : Bytes) :
    (xs ++ c :: ys).idxOf? c = some xs.length := by
  induction xs with
  | nil => simp [List.idxOf?_cons]
  | cons x xs ih =>
    have hne : x ≠ c := fun he => h (he ▸ List.mem_cons_self)
    rw [List.cons_append, List.idxOf?_cons, ih fun hc => h (List.mem_cons_of_mem _ hc)]
    simp [hne]

namespace HeaderField

variable {f : HeaderField} {h h' : Head} {fuel : Nat}

theorem colon (f : HeaderField) (rest : Bytes) :
    strchr (f.line ++ 13 :: 10 :: rest) 58 = some f.name.length := by
  have hname : ∀ c ∈ f.name, decide (c ≠ 0) = true := fun c hc => by simpa using (f.name_ok c hc).2
  have hnot : (58 : UInt8) ∉ f.name := fun hc => (f.name_ok 58 hc).1 rfl
  rw [strchr, line, List.append_assoc, List.takeWhile_append_of_pos hname, List.cons_append,
    List.takeWhile_cons_of_pos (by decide)]
  exact idxOf_append hnot _

theorem line_pos (f : HeaderField) : f.line.length ≠ 0 := by
  simp [line]

theorem parseHeaders_line (f : HeaderField) (rest : Bytes) :
    parseHeaders (fuel + 1) (f.line ++ 13 :: 10 :: rest) h =
      match h.add f.key f.value with
      | none => .rejected
      | some h => parseHeaders fuel rest h := by
  have hne : f.line ++ 13 :: 10 :: rest ≠ [] := by simp
  have hlen : f.name.length < f.line.length := by
    simp only [line, List.length_append, List.length_cons]
    omega
  have hkey : (f.line.take f.name.length).map toLower = f.key := by
    rw [line, List.take_left, key]
  have hvalue : (f.line.drop (f.name.length + 1)).dropWhile isSpace = f.value := by
    rw [line, ← List.drop_drop, List.drop_left, List.drop_succ_cons, List.drop_zero,
      List.dropWhile_append_of_pos f.space_ok]
    cases hv : f.value with
    | nil => rfl
    | cons c v =>
      have hc := f.value_ok c (by rw [hv]; rfl)
      rw [List.dropWhile_cons_of_neg (by simp [hc])]
  have hbreak : findCrlf f.line = none := f.noBreak
  have hinside : ¬f.line.length < f.name.length := Nat.not_lt.mpr (Nat.le_of_lt hlen)
  cases hadd : h.add f.key f.value with
  | none =>
    simp only [parseHeaders, hne, ↓reduceIte, findCrlf_line hbreak, f.line_pos, f.colon, List.take_left,
      hkey, hvalue, hadd, hinside]
  | some h1 =>
    simp only [parseHeaders, hne, ↓reduceIte, findCrlf_line hbreak, f.line_pos, f.colon, drop_line,
      List.take_left, hkey, hvalue, hadd, hinside]

end HeaderField

theorem headBytes_length (fs : List HeaderField) : fs.length ≤ (headBytes fs).length := by
  induction fs with
  | nil => exact Nat.le_refl 0
  | cons f fs ih =>
    simp only [headBytes, List.length_append, List.length_cons]
    omega

/-- The header loop over the lines of a message, down to the empty one. -/
theorem parseHeaders_bytes {fs : List HeaderField} {h h' : Head} (hh : headOf h fs = some h')
    (rest : Bytes) {fuel : Nat} (hfuel : fs.length < fuel) :
    parseHeaders fuel (headBytes fs ++ 13 :: 10 :: rest) h = .done h' rest := by
  induction fs generalizing h fuel with
  | nil =>
    obtain ⟨fuel, rfl⟩ := Nat.exists_eq_succ_of_ne_zero (Nat.ne_of_gt hfuel)
    cases Option.some.inj hh
    simp [headBytes, parseHeaders, findCrlf]
  | cons f fs ih =>
    obtain ⟨fuel, rfl⟩ := Nat.exists_eq_succ_of_ne_zero (Nat.ne_of_gt (Nat.lt_of_le_of_lt (Nat.zero_le _) hfuel))
    obtain ⟨h1, ha, hh⟩ := Option.bind_eq_some_iff.mp hh
    have hcut : headBytes (f :: fs) ++ 13 :: 10 :: rest =
        f.line ++ 13 :: 10 :: (headBytes fs ++ 13 :: 10 :: rest) := by simp [headBytes]
    rw [hcut, f.parseHeaders_line, ha]
    exact ih hh (by rw [List.length_cons] at hfuel; omega)

/-- The header loop over header lines with nothing behind them. -/
theorem parseHeaders_lines {fs : List HeaderField} {h h' : Head} (hh : headOf h fs = some h')
    {fuel : Nat} (hfuel : fs.length < fuel) :
    parseHeaders fuel (headBytes fs) h = .done h' [] := by
  induction fs generalizing h fuel with
  | nil =>
    obtain ⟨fuel, rfl⟩ := Nat.exists_eq_succ_of_ne_zero (Nat.ne_of_gt hfuel)
    cases Option.some.inj hh
    simp [headBytes, parseHeaders]
  | cons f fs ih =>
    obtain ⟨fuel, rfl⟩ := Nat.exists_eq_succ_of_ne_zero (Nat.ne_of_gt (Nat.lt_of_le_of_lt (Nat.zero_le _) hfuel))
    obtain ⟨h1, ha, hh⟩ := Option.bind_eq_some_iff.mp hh
    rw [headBytes, f.parseHeaders_line, ha]
    exact ih hh (by rw [List.length_cons] at hfuel; omega)

/-- A prefix of the headers: it stops behind a line, or elsewhere and is incomplete, or the headers
are whole. -/
theorem parseHeaders_prefix {fs : List HeaderField} {h h' : Head} (hh : headOf h fs = some h')
    {body p : Bytes} (hp : p <+: headBytes fs ++ 13 :: 10 :: body) {fuel : Nat} (hfuel : p.length < fuel) :
    (∃ gs rest, fs = gs ++ rest ∧ p = headBytes gs) ∨ parseHeaders fuel p h = .incomplete ∨
      ∃ q, p = headBytes fs ++ 13 :: 10 :: q ∧ q <+: body := by
  induction fs generalizing h fuel p with
  | nil =>
    obtain ⟨fuel, rfl⟩ := Nat.exists_eq_succ_of_ne_zero (Nat.ne_of_gt (Nat.lt_of_le_of_lt (Nat.zero_le _) hfuel))
    rcases @prefix_line p [] body hp with hshort | ⟨q, rfl, hq⟩
    · by_cases hnil : p = []
      · exact .inl ⟨[], [], rfl, hnil⟩
      · refine .inr (.inl ?_)
        have hnone : findCrlf p = none := @findCrlf_cut [] body p rfl hp hshort
        simp only [parseHeaders, hnil, ↓reduceIte, hnone]
    · exact .inr (.inr ⟨q, rfl, hq⟩)
  | cons f fs ih =>
    obtain ⟨fuel, rfl⟩ := Nat.exists_eq_succ_of_ne_zero (Nat.ne_of_gt (Nat.lt_of_le_of_lt (Nat.zero_le _) hfuel))
    obtain ⟨h1, ha, hh⟩ := Option.bind_eq_some_iff.mp hh
    have hp' : p <+: f.line ++ 13 :: 10 :: (headBytes fs ++ 13 :: 10 :: body) := by
      simpa [headBytes] using hp
    rcases prefix_line hp' with hshort | ⟨q, rfl, hq⟩
    · by_cases hnil : p = []
      · exact .inl ⟨[], f :: fs, rfl, hnil⟩
      · refine .inr (.inl ?_)
        have hnone := findCrlf_cut f.noBreak hp' hshort
        simp only [parseHeaders, hnil, ↓reduceIte, hnone]
    · have hqlen : q.length < fuel := by
        simp only [List.length_append, List.length_cons] at hfuel
        omega
      rw [f.parseHeaders_line, ha]
      rcases ih hh hq hqlen with ⟨gs, rest, rfl, rfl⟩ | hinc | ⟨q', rfl, hq'⟩
      · exact .inl ⟨f :: gs, rest, rfl, rfl⟩
      · exact .inr (.inl hinc)
      · exact .inr (.inr ⟨q', by simp [headBytes], hq'⟩)

theorem parseBody_framed {h : Head} {bytes body : Bytes} (hf : Framed h bytes body) (rest : Bytes)
    (hlen : (bytes ++ rest).length < 2 ^ 31) :
    parseBody h (bytes ++ rest) = some (.decoded body bytes.length) := by
  cases hf with
  | chunked b hc =>
    rw [parseBody, if_pos hc]
    exact decodeChunkedBody_bytes b rest hlen
  | length _ hc hn =>
    have hle : ¬(bytes ++ rest).length < bytes.length := by
      rw [List.length_append]
      omega
    simp only [parseBody, hc, hn, hle, Bool.false_eq_true, ↓reduceIte, List.take_left]
  | none hc hn => simp only [parseBody, hc, hn, Bool.false_eq_true, ↓reduceIte, List.length_nil]

theorem parseBody_prefix {h : Head} {bytes body q : Bytes} (hf : Framed h bytes body)
    (hlen : bytes.length < 2 ^ 31) (hq : q <+: bytes) (hne : q ≠ bytes) :
    parseBody h q = some .incomplete := by
  cases hf with
  | chunked b hc =>
    rw [parseBody, if_pos hc]
    exact decodeChunkedBody_prefix b hlen hq hne
  | length _ hc hn =>
    have hlt : q.length < bytes.length :=
      Nat.lt_of_le_of_ne hq.length_le fun h => hne (hq.eq_of_length h)
    simp only [parseBody, hc, hn, hlt, Bool.false_eq_true, ↓reduceIte]
  | none => exact absurd (List.prefix_nil.mp hq) hne

/-- Where nothing is behind the headers. -/
theorem parseBody_nil (h : Head) :
    parseBody h [] = some .incomplete ∧ ¬Message.Bodiless h ∨
      parseBody h [] = some (.decoded [] 0) ∧ Message.Bodiless h := by
  cases hc : h.chunked with
  | true =>
    refine .inl ⟨?_, fun hb => absurd (hc.symm.trans hb.1) (by decide)⟩
    rw [parseBody, if_pos hc]
    rfl
  | false =>
    cases hn : h.contentLength with
    | none =>
      refine .inr ⟨?_, hc, .inl hn⟩
      simp only [parseBody, hc, hn, Bool.false_eq_true, ↓reduceIte]
    | some n =>
      cases n with
      | zero =>
        refine .inr ⟨?_, hc, .inr hn⟩
        simp [parseBody, hc, hn]
      | succ n =>
        refine .inl ⟨?_, fun hb => ?_⟩
        · simp [parseBody, hc, hn]
        · rcases hb.2 with hb | hb
          · rw [hn] at hb
            cases hb
          · rw [hn] at hb
            cases hb

namespace Message

variable {m : Message} {p q rest : Bytes}

/-- What is behind a request line. -/
theorem httpParse_line (m : Message) (q : Bytes) :
    httpParse (m.line.bytes ++ 13 :: 10 :: q) =
      finishRequest (m.line.method, m.line.path, m.line.query, m.line.version)
        (m.line.bytes ++ 13 :: 10 :: q).length
        (parseHeaders ((m.line.bytes ++ 13 :: 10 :: q).length + 1) q .empty) := by
  simp only [httpParse, findCrlf_line m.noBreak, List.take_left, parseRequestLine_bytes, drop_line]

theorem httpParse_bytes (m : Message) (rest : Bytes) (hlen : (m.bytes ++ rest).length < 2 ^ 31) :
    httpParse (m.bytes ++ rest) = some (.request m.request) := by
  have hcut : m.bytes ++ rest = m.line.bytes ++
      13 :: 10 :: (headBytes m.fields ++ 13 :: 10 :: (m.bodyBytes ++ rest)) := by simp [bytes]
  have hfields := headBytes_length m.fields
  have hbytes : m.bytes.length =
      m.line.bytes.length + (headBytes m.fields).length + m.bodyBytes.length + 4 := by
    simp only [bytes, List.length_append, List.length_cons]
    omega
  have hbody : (m.bodyBytes ++ rest).length < 2 ^ 31 := by
    rw [List.length_append] at hlen ⊢
    omega
  have hfuel : m.fields.length < (m.bytes ++ rest).length + 1 := by
    rw [List.length_append]
    omega
  have hheaders := parseHeaders_bytes m.head_eq (m.bodyBytes ++ rest) hfuel
  have hconsumed : (m.bytes ++ rest).length - (m.bodyBytes ++ rest).length + m.bodyBytes.length =
      m.bytes.length := by
    simp only [List.length_append]
    omega
  rw [hcut, httpParse_line, ← hcut, hheaders]
  simp only [finishRequest, parseBody_framed m.framed rest hbody, hconsumed, request]

/-- A message that is cut behind a line. -/
theorem httpParse_cut {fs : List HeaderField} {h : Head}
    (hp : p = m.start ++ headBytes fs) (hh : headOf .empty fs = some h) :
    httpParse p = some .incomplete ↔ ¬Bodiless h := by
  have hcut : p = m.line.bytes ++ 13 :: 10 :: headBytes fs := by
    rw [hp, start]
    simp
  have hfields := headBytes_length fs
  have hfuel : fs.length < p.length + 1 := by
    rw [hcut, List.length_append, List.length_cons, List.length_cons]
    omega
  have hheaders := parseHeaders_lines hh hfuel
  rw [hcut, httpParse_line, ← hcut, hheaders]
  rcases parseBody_nil h with ⟨hb, hno⟩ | ⟨hb, hyes⟩
  · have hinc : finishRequest (m.line.method, m.line.path, m.line.query, m.line.version) p.length
        (.done h []) = some .incomplete := by simp only [finishRequest, hb]
    exact iff_of_true hinc hno
  · refine iff_of_false ?_ (not_not.mpr hyes)
    simp [finishRequest, hb]

theorem headOf_take {fs gs : List HeaderField} {h h' : Head} (hh : headOf h (fs ++ gs) = some h') :
    ∃ h1, headOf h fs = some h1 := by
  induction fs generalizing h with
  | nil => exact ⟨h, rfl⟩
  | cons f fs ih =>
    obtain ⟨h1, ha, hh⟩ := Option.bind_eq_some_iff.mp hh
    obtain ⟨h2, hf⟩ := ih hh
    exact ⟨h2, by rw [headOf, ha]; exact hf⟩

/-- A proper prefix is incomplete, except behind a line where the headers ask for no body. -/
theorem httpParse_prefix (hlen : m.bytes.length < 2 ^ 31) (hp : p <+: m.bytes) (hne : p ≠ m.bytes) :
    httpParse p = some .incomplete ↔ ¬m.CutBehindLine p := by
  have hother : (∀ fs gs, m.fields = fs ++ gs → p ≠ m.start ++ headBytes fs) →
      httpParse p = some .incomplete → (httpParse p = some .incomplete ↔ ¬m.CutBehindLine p) := by
    intro hno hinc
    refine iff_of_true hinc ?_
    rintro ⟨fs, gs, h, hm, hpe, -⟩
    exact hno fs gs hm hpe
  by_cases hline : ∃ fs gs, m.fields = fs ++ gs ∧ p = m.start ++ headBytes fs
  · obtain ⟨fs, gs, hm, hpe⟩ := hline
    obtain ⟨h, hh⟩ := headOf_take (hm ▸ m.head_eq)
    constructor
    · rintro hinc ⟨fs', -, h', -, hpe', hh', hb⟩
      exact (httpParse_cut hpe' hh').mp hinc hb
    · intro hcut
      refine (httpParse_cut hpe hh).mpr fun hb => hcut ⟨fs, gs, h, hm, hpe, hh, hb⟩
  · have hno : ∀ fs gs, m.fields = fs ++ gs → p ≠ m.start ++ headBytes fs :=
      fun fs gs hm hpe => hline ⟨fs, gs, hm, hpe⟩
    refine hother hno ?_
    rcases prefix_line hp with hshort | ⟨q, rfl, hq⟩
    · simp only [httpParse, findCrlf_cut m.noBreak hp hshort]
    · have hfuel : q.length < (m.line.bytes ++ 13 :: 10 :: q).length + 1 := by
        simp only [List.length_append, List.length_cons]
        omega
      rw [httpParse_line]
      rcases parseHeaders_prefix m.head_eq hq hfuel with
        ⟨gs, rest, hm, rfl⟩ | hinc | ⟨tail, rfl, htail⟩
      · exact absurd (by simp [start]) (hno gs rest hm)
      · rw [hinc]
        rfl
      · have hfields := headBytes_length m.fields
        have htne : tail ≠ m.bodyBytes := by
          rintro rfl
          exact hne (by simp [bytes])
        have hbody : m.bodyBytes.length < 2 ^ 31 := by
          simp only [bytes, List.length_append, List.length_cons] at hlen
          omega
        rw [parseHeaders_bytes m.head_eq tail (by
          simp only [List.length_append, List.length_cons]
          omega)]
        simp only [finishRequest, parseBody_prefix m.framed hbody htail htne]

/-- Complete requests are parsed, whatever follows them, and their proper prefixes are incomplete
exactly where they do not stop behind a line with headers that ask for no body. -/
theorem httpParse_framing (m : Message) (rest : Bytes) (hlen : (m.bytes ++ rest).length < 2 ^ 31) :
    httpParse (m.bytes ++ rest) = some (.request m.request) ∧
      ∀ p, p <+: m.bytes → p ≠ m.bytes → (httpParse p = some .incomplete ↔ ¬m.CutBehindLine p) := by
  refine ⟨httpParse_bytes m rest hlen, fun p hp hne => httpParse_prefix ?_ hp hne⟩
  rw [List.length_append] at hlen
  omega

end Message

/-- `POST /a?b HTTP/1.1` with a host, a content length and five bytes. -/
def sampleMessage : Message where
  line := ⟨ascii "POST", ascii "/a", some (ascii "b"), ascii "HTTP/1.1", by decide +kernel, by decide +kernel,
    fun q hq => by cases hq; decide +kernel⟩
  noBreak := by decide
  fields := [⟨ascii "Host", [32], ascii "h", by decide +kernel, by decide +kernel, by decide +kernel, by decide +kernel⟩,
    ⟨ascii "Content-Length", [32], ascii "5", by decide +kernel, by decide +kernel, by decide +kernel, by decide +kernel⟩]
  head := ⟨Function.update (Function.update (fun _ => none) (ascii "host") (some (ascii "h")))
    (ascii "content-length") (some (ascii "5")), some 5, false⟩
  head_eq := rfl
  bodyBytes := ascii "hello"
  body := ascii "hello"
  framed := .length _ rfl rfl

theorem parsed_sampleMessage :
    httpParse (sampleMessage.bytes ++ ascii "GET") = some (.request sampleMessage.request) ∧
      ∀ p, p <+: sampleMessage.bytes → p ≠ sampleMessage.bytes →
        (httpParse p = some .incomplete ↔ ¬sampleMessage.CutBehindLine p) :=
  sampleMessage.httpParse_framing _ (by decide)

/-- The request line alone is taken for the request. -/
theorem request_line_is_no_request :
    ¬ ∀ (m : Message) (p : Bytes), m.bytes.length < 2 ^ 31 → p <+: m.bytes → p ≠ m.bytes →
      httpParse p = some .incomplete := by
  intro hall
  have h := hall sampleMessage sampleMessage.start (by decide) ⟨_, by
    rw [Message.start, Message.bytes, List.append_assoc]
    rfl⟩ (by decide)
  rw [Message.start, Message.httpParse_line] at h
  cases h

end ToiLang.Http
