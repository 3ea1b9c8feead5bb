import ToiLang.Http.Build
import ToiLang.Http.Pieces

namespace ToiLang.Http

open Double (natText natOf IsDigits)

/-! Built messages read back. -/

/-- The value of digits behind those of a number. -/
def numberFrom (v : Nat) (ds : Bytes) : Nat := ds.foldl (fun n c => 10 * n + (c.toNat - 48)) v

theorem le_numberFrom (v : Nat) (ds : Bytes) : v ≤ numberFrom v ds := by
  induction ds generalizing v with
  | nil => exact Nat.le_refl v
  | cons c cs ih =>
    have h := ih (10 * v + (c.toNat - 48))
    simp only [numberFrom, List.foldl_cons] at h ⊢
    omega

theorem isDigits_cons {c : UInt8} {cs : Bytes} (h : IsDigits (c :: cs)) :
    (48 ≤ c ∧ c ≤ 57) ∧ IsDigits cs := by
  obtain ⟨hlow, hhigh⟩ := h c List.mem_cons_self
  refine ⟨⟨?_, ?_⟩, fun d hd => h d (List.mem_cons_of_mem _ hd)⟩
  · exact UInt8.le_iff_toNat_le.mpr hlow
  · exact UInt8.le_iff_toNat_le.mpr hhigh

theorem parseStatus_digits {v : Nat} {ds : Bytes} (hd : IsDigits ds) (h : numberFrom v ds < 2 ^ 31) :
    parseStatus v ds = some (some (numberFrom v ds)) := by
  induction ds generalizing v with
  | nil => rfl
  | cons c cs ih =>
    obtain ⟨hc, hcs⟩ := isDigits_cons hd
    have hle := le_numberFrom (10 * v + (c.toNat - 48)) cs
    have hstep : numberFrom v (c :: cs) = numberFrom (10 * v + (c.toNat - 48)) cs := rfl
    have hisdigit : isDigit c = true := by simp [isDigit, hc.1, hc.2]
    rw [hstep] at h
    rw [parseStatus, if_pos hisdigit, Nat.mul_comm v 10, hstep]
    dsimp only
    rw [if_neg (by omega)]
    exact ih hcs h

theorem parseLengthDigits_digits {v : Nat} {ds : Bytes} (hd : IsDigits ds) (h : numberFrom v ds < 2 ^ 31) :
    parseLengthDigits v ds = some (numberFrom v ds, []) := by
  induction ds generalizing v with
  | nil => rfl
  | cons c cs ih =>
    obtain ⟨hc, hcs⟩ := isDigits_cons hd
    have hle := le_numberFrom (10 * v + (c.toNat - 48)) cs
    have hstep : numberFrom v (c :: cs) = numberFrom (10 * v + (c.toNat - 48)) cs := rfl
    rw [hstep] at h
    rw [parseLengthDigits, if_pos hc, Nat.mul_comm v 10, hstep]
    dsimp only
    rw [if_neg (by omega)]
    exact ih hcs h

theorem numberFrom_natText (n : Nat) : numberFrom 0 (natText n) = n := Double.natOf_natText n

theorem digit_not_space {c : UInt8} (h : 48 ≤ c.toNat ∧ c.toNat ≤ 57) : isSpace c = false :=
  isSpace_eq_false (Nat.lt_of_lt_of_le (by decide) h.1)

theorem natText_head (n : Nat) : ∃ c cs, natText n = c :: cs ∧ isSpace c = false := by
  cases h : natText n with
  | nil => exact absurd h (Double.natText_ne_nil n)
  | cons c cs =>
    refine ⟨c, cs, rfl, digit_not_space ?_⟩
    exact Double.isDigits_natText n c (by rw [h]; exact List.mem_cons_self)

theorem natText_strip (n : Nat) : (natText n).dropWhile isSpace = natText n := by
  obtain ⟨c, cs, h, hc⟩ := natText_head n
  rw [h, List.dropWhile_cons_of_neg (by simp [hc])]

theorem parseContentLength_natText {n : Nat} (h : n < 2 ^ 31) :
    parseContentLength (natText n) = some n := by
  have hdigits := parseLengthDigits_digits (v := 0) (Double.isDigits_natText n) (by
    rw [numberFrom_natText]
    exact h)
  rw [numberFrom_natText] at hdigits
  rw [parseContentLength, natText_strip, if_neg (Double.natText_ne_nil n), hdigits]
  rfl

theorem findCrlf_of_no_cr {s : Bytes} (h : (13 : UInt8) ∉ s) : findCrlf s = none := by
  cases hf : findCrlf s with
  | none => rfl
  | some n =>
    obtain ⟨-, hcut⟩ := findCrlf_some hf
    refine absurd ?_ h
    rw [hcut]
    simp

theorem digits_no_byte {ds : Bytes} (hd : IsDigits ds) {c : UInt8} (hc : c.toNat < 48) : c ∉ ds := by
  intro hmem
  have h := (hd c hmem).1
  omega

/-- The value that the parsers keep of a header. -/
def stripped (value : Bytes) : Bytes := value.dropWhile isSpace

def lowered (name : Bytes) : Bytes := name.map toLower

/-- A name and a value that make one header line. -/
def CleanHeader (h : Bytes × Bytes) : Prop :=
  (58 : UInt8) ∉ h.1 ∧ (0 : UInt8) ∉ h.1 ∧ findCrlf (headerLine h) = none

/-- Names that differ by their case only stand for the same value. -/
def Distinct (headers : HeaderTable) : Prop :=
  ∀ h ∈ headers, ∀ h' ∈ headers, lowered h.1 = lowered h'.1 → stripped h.2 = stripped h'.2

def NotChunked (headers : HeaderTable) : Prop :=
  ∀ h ∈ headers, lowered h.1 = ascii "transfer-encoding" →
    hasCsvTokenCi (stripped h.2) (ascii "chunked") = false

def SaysLength (headers : HeaderTable) (n : Nat) : Prop :=
  ∀ h ∈ headers, lowered h.1 = ascii "content-length" → parseContentLength (stripped h.2) = some n

theorem headLine_headerLine {h : Bytes × Bytes} (hc : CleanHeader h) : HeadLine (headerLine h) :=
  ⟨by simp [headerLine], hc.2.2⟩

theorem joinLines_headerLines (headers : HeaderTable) :
    joinLines (headers.map headerLine) = headerLines headers := by
  rw [joinLines, headerLines, List.flatMap_map]

theorem addLine_headerLine {h : Bytes × Bytes} (hc : CleanHeader h) (head : Head) :
    head.addLine (headerLine h) = head.add (lowered h.1) (stripped h.2) := by
  have hname : ∀ c ∈ h.1, decide (c ≠ 0) = true := by
    intro c hmem
    have hne : c ≠ 0 := fun h0 => hc.2.1 (h0 ▸ hmem)
    simpa using hne
  have hcolon : strchr (headerLine h) 58 = some h.1.length := by
    rw [strchr, headerLine, List.takeWhile_append_of_pos hname, List.takeWhile_cons_of_pos (by decide)]
    exact idxOf_append hc.1 _
  have htake : (headerLine h).take h.1.length = h.1 := List.take_left
  have hdrop : (headerLine h).drop (h.1.length + 1) = 32 :: h.2 := by
    rw [headerLine, ← List.drop_drop, List.drop_left]
    rfl
  rw [Head.addLine, hcolon]
  dsimp only
  rw [htake, hdrop, List.dropWhile_cons_of_pos (by decide)]
  rfl

/-- The header loop over clean headers: each is in the table, nothing else is, and the framing is
what they say. -/
theorem addLines_headers {headers : HeaderTable} {n : Nat} (hclean : ∀ h ∈ headers, CleanHeader h)
    (hdistinct : Distinct headers) (hchunked : NotChunked headers) (hlength : SaysLength headers n)
    (head : Head) :
    ∃ out, head.addLines (headers.map headerLine) = some out ∧ out.chunked = head.chunked ∧
      (out.contentLength = some n ∨
        out.contentLength = head.contentLength ∧ ∀ h ∈ headers, lowered h.1 ≠ ascii "content-length") ∧
      (∀ h ∈ headers, out.headers (lowered h.1) = some (stripped h.2)) ∧
      ∀ k, (∀ h ∈ headers, lowered h.1 ≠ k) → out.headers k = head.headers k := by
  induction headers generalizing head with
  | nil => exact ⟨head, rfl, rfl, .inr ⟨rfl, by simp⟩, by simp, fun _ _ => rfl⟩
  | cons h headers ih =>
    have hmem : ∀ {h'}, h' ∈ headers → h' ∈ h :: headers := List.mem_cons_of_mem _
    have hstep : ∃ next, head.add (lowered h.1) (stripped h.2) = some next ∧
        next.headers = Function.update head.headers (lowered h.1) (some (stripped h.2)) ∧
        next.chunked = head.chunked ∧
        (next.contentLength = some n ∨
          next.contentLength = head.contentLength ∧ lowered h.1 ≠ ascii "content-length") := by
      unfold Head.add
      by_cases hcl : lowered h.1 = ascii "content-length"
      · have hn := hlength h List.mem_cons_self hcl
        rw [if_pos hcl, hn]
        exact ⟨_, rfl, rfl, rfl, .inl rfl⟩
      · rw [if_neg hcl]
        by_cases hte : lowered h.1 = ascii "transfer-encoding"
        · have hno := hchunked h List.mem_cons_self hte
          rw [if_pos hte, hno, Bool.or_false]
          exact ⟨_, rfl, rfl, rfl, .inr ⟨rfl, hcl⟩⟩
        · rw [if_neg hte]
          exact ⟨_, rfl, rfl, rfl, .inr ⟨rfl, hcl⟩⟩
    obtain ⟨next, hadd, hheaders, hch, hlen⟩ := hstep
    obtain ⟨out, hout, hoch, holen, heach, hother⟩ := ih (fun h' hh => hclean h' (hmem hh))
      (fun a ha b hb => hdistinct a (hmem ha) b (hmem hb)) (fun a ha => hchunked a (hmem ha))
      (fun a ha => hlength a (hmem ha)) next
    refine ⟨out, ?_, hoch.trans hch, ?_, ?_, ?_⟩
    · rw [List.map_cons, Head.addLines, addLine_headerLine (hclean h List.mem_cons_self), hadd]
      exact hout
    · rcases holen with holen | ⟨holen, hno⟩
      · exact .inl holen
      · rcases hlen with hlen | ⟨hlen, hne⟩
        · exact .inl (holen.trans hlen)
        · refine .inr ⟨holen.trans hlen, fun a ha => ?_⟩
          rcases List.mem_cons.mp ha with rfl | ha
          · exact hne
          · exact hno a ha
    · intro a ha
      rcases List.mem_cons.mp ha with rfl | ha
      · by_cases hlater : ∃ b ∈ headers, lowered b.1 = lowered a.1
        · obtain ⟨b, hb, hsame⟩ := hlater
          rw [← hsame, heach b hb, hdistinct b (hmem hb) a List.mem_cons_self hsame]
        · rw [hother _ fun b hb hsame => hlater ⟨b, hb, hsame⟩, hheaders, Function.update_self]
      · exact heach a ha
    · intro k hk
      rw [hother k fun b hb => hk b (hmem hb), hheaders,
        Function.update_of_ne (Ne.symm (hk h List.mem_cons_self))]

/-- The parsed headers are those of the table, with the ones that were added. -/
def Carries (parsed : Bytes → Option Bytes) (headers added : HeaderTable) : Prop :=
  (∀ h ∈ headers, parsed (lowered h.1) = some (stripped h.2)) ∧
    ∀ k, parsed k ≠ none → ∃ h ∈ headers ++ added, lowered h.1 = k

/-- A message that one of the builders makes. -/
inductive Outgoing
  | response (status : Int) (headers : HeaderTable) (body : Bytes)
  | request (url : FetchUrl) (method : Bytes) (headers : HeaderTable) (body : Bytes)

namespace Outgoing

/-- The header that `http.response` adds. -/
def addedLength (body : Bytes) : HeaderTable := if 0 < body.length then [lengthHeader body] else []

/-- The parser gives back the message. -/
def ComesBack : Outgoing → Prop
  | response status headers body =>
    ∃ text r, httpResponse status headers body = some text ∧
      parseHttpResponseTable text = some (.response r) ∧ (r.status : Int) = status ∧ r.body = body ∧
      Carries r.headers headers (addedLength body) ∧ r.consumed = text.length
  | request url method headers body =>
    ∃ r, httpParse (buildHttpRequest url method headers body) = some (.request r) ∧
      r.method = method ∧ r.path ++ (match r.query with | none => [] | some q => 63 :: q) = url.target ∧
      r.body = bodyField body ∧ Carries r.headers headers (addedHeaders url headers body) ∧
      r.consumed = (buildHttpRequest url method headers body).length

/-- The headers are lines of their own and agree with the framing of the body. -/
structure CleanHeaders (headers : HeaderTable) (n : Nat) : Prop where
  lines : ∀ h ∈ headers, CleanHeader h
  distinct : Distinct headers
  notChunked : NotChunked headers
  saysLength : SaysLength headers n

/-- The status is not negative and no header spoils its line, another header or the length of the
body; nothing in the method, the target and the host ends them early. -/
def Clean : Outgoing → Prop
  | response status headers body =>
    0 ≤ status ∧ status < 2 ^ 31 ∧ (responseText status headers body).length ≤ Struct.maxLength ∧
      CleanHeaders headers body.length ∧
      (0 < body.length → ∀ h ∈ headers, lowered h.1 = ascii "content-length" →
        stripped h.2 = natText body.length)
  | request url method headers body =>
    body.length < 2 ^ 31 ∧ (0 : UInt8) ∉ method ∧ (32 : UInt8) ∉ method ∧ (32 : UInt8) ∉ url.target ∧
      findCrlf (method ++ 32 :: url.target ++ ascii " HTTP/1.1") = none ∧
      (fetchHeaderHas headers (ascii "host") = false → findCrlf url.host = none) ∧
      CleanHeaders headers body.length

end Outgoing

theorem lowered_length : lowered (ascii "Content-Length") = ascii "content-length" := by
  rw [ascii_ofList, ascii_ofList]
  rfl

theorem cleanHeader_of_no_byte {name value : Bytes} (hc : (58 : UInt8) ∉ name) (h0 : (0 : UInt8) ∉ name)
    (hn : (13 : UInt8) ∉ name) (hv : (13 : UInt8) ∉ value) : CleanHeader (name, value) := by
  refine ⟨hc, h0, findCrlf_of_no_cr ?_⟩
  simp [headerLine, hn, hv]

theorem cleanHeader_length (body : Bytes) : CleanHeader (lengthHeader body) :=
  cleanHeader_of_no_byte (by simp [ascii]) (by simp [ascii]) (by simp [ascii])
    (digits_no_byte (Double.isDigits_natText _) (by decide))

theorem stripped_length (body : Bytes) : stripped (lengthHeader body).2 = natText body.length :=
  natText_strip _

/-- Headers with one more, whose name is new or says the same. -/
theorem distinct_append {headers added : HeaderTable} (hd : Distinct headers) (ha : Distinct added)
    (h : ∀ a ∈ headers, ∀ b ∈ added, lowered a.1 = lowered b.1 → stripped a.2 = stripped b.2) :
    Distinct (headers ++ added) := by
  intro a hmem b hmem' hsame
  rcases List.mem_append.mp hmem with hmem | hmem
  · rcases List.mem_append.mp hmem' with hmem' | hmem'
    · exact hd a hmem b hmem' hsame
    · exact h a hmem b hmem' hsame
  · rcases List.mem_append.mp hmem' with hmem' | hmem'
    · exact (h b hmem' a hmem hsame.symm).symm
    · exact ha a hmem b hmem' hsame

theorem headerLines_append (a b : HeaderTable) : headerLines (a ++ b) = headerLines a ++ headerLines b :=
  List.flatMap_append

/-- What a table of headers gives that is read from the start. -/
theorem carries_of_headers {headers added : HeaderTable} {out : Head}
    (heach : ∀ h ∈ headers ++ added, out.headers (lowered h.1) = some (stripped h.2))
    (hother : ∀ k, (∀ h ∈ headers ++ added, lowered h.1 ≠ k) → out.headers k = Head.empty.headers k) :
    Carries out.headers headers added := by
  refine ⟨fun h hh => heach h (List.mem_append_left _ hh), fun k hk => ?_⟩
  by_contra hno
  refine hk (hother k fun h hh he => hno ⟨h, hh, he⟩)

theorem statusReason_no_cr (status : Int) : (13 : UInt8) ∉ getStatusReason status := by
  unfold getStatusReason
  split
  all_goals
    rw [ascii_ofList]
    decide

theorem takeWhile_append_stop {s rest : Bytes} {c : UInt8} (h : c ∉ s) :
    (s ++ c :: rest).takeWhile (· ≠ c) = s ∧ (s ++ c :: rest).dropWhile (· ≠ c) = c :: rest := by
  have hall : ∀ d ∈ s, decide (d ≠ c) = true := by
    intro d hd
    have hne : d ≠ c := fun he => h (he ▸ hd)
    simpa using hne
  constructor
  · rw [List.takeWhile_append_of_pos hall]
    simp
  · rw [List.dropWhile_append_of_pos hall]
    simp

/-- A response whose status line and headers are clean. -/
theorem parseHttpResponseTable_lines {status : Nat} (hs : status < 2 ^ 31) {headers : HeaderTable}
    {out : Head} (hclean : ∀ h ∈ headers, CleanHeader h)
    (hout : Head.empty.addLines (headers.map headerLine) = some out) (body : Bytes) :
    parseHttpResponseTable (ascii "HTTP/1.1 " ++ intText status ++ 32 :: getStatusReason status ++
        [13, 10] ++ headerLines headers ++ [13, 10] ++ body) =
      finishResponse status (ascii "HTTP/1.1") (getStatusReason status)
        (ascii "HTTP/1.1 " ++ intText status ++ 32 :: getStatusReason status ++
          [13, 10] ++ headerLines headers ++ [13, 10] ++ body).length (.done out body) := by
  have htext : intText status = natText status := by
    simp [intText]
  have hdigits := Double.isDigits_natText status
  rw [htext]
  have hline : findCrlf (ascii "HTTP/1.1" ++ 32 :: (natText status ++ 32 :: getStatusReason status)) = none := by
    refine findCrlf_of_no_cr ?_
    have h1 : (13 : UInt8) ∉ ascii "HTTP/1.1" := by simp [ascii]
    have h2 := digits_no_byte hdigits (c := 13) (by decide)
    have h3 := statusReason_no_cr status
    simp [h1, h2, h3]
  have hshape : ascii "HTTP/1.1 " ++ natText status ++ 32 :: getStatusReason status ++ [13, 10] ++
      headerLines headers ++ [13, 10] ++ body =
      (ascii "HTTP/1.1" ++ 32 :: (natText status ++ 32 :: getStatusReason status)) ++
        13 :: 10 :: (joinLines (headers.map headerLine) ++ 13 :: 10 :: body) := by
    have hver : ascii "HTTP/1.1 " = ascii "HTTP/1.1" ++ [32] := by simp [ascii]
    rw [hver, joinLines_headerLines]
    simp
  rw [hshape]
  have hver := @takeWhile_append_stop _ (natText status ++ 32 :: getStatusReason status) _
    (show (32 : UInt8) ∉ ascii "HTTP/1.1" by simp [ascii])
  have hst := @takeWhile_append_stop _ (getStatusReason status) _ (digits_no_byte hdigits (c := 32) (by decide))
  have hheadLines : ∀ l ∈ headers.map headerLine, HeadLine l := by
    intro l hl
    obtain ⟨h, hh, rfl⟩ := List.mem_map.mp hl
    exact headLine_headerLine (hclean h hh)
  have hparse := parseStatus_digits (v := 0) hdigits (by rw [numberFrom_natText]; exact hs)
  rw [numberFrom_natText] at hparse
  have hjoin := joinLines_length (headers.map headerLine)
  have hheaders : parseHeaders ((ascii "HTTP/1.1" ++ 32 :: (natText status ++ 32 :: getStatusReason status) ++
      13 :: 10 :: (joinLines (headers.map headerLine) ++ 13 :: 10 :: body)).length + 1)
      (joinLines (headers.map headerLine) ++ 13 :: 10 :: body) .empty = .done out body := by
    obtain ⟨fuel, hfuel⟩ := fuel_left (ascii "HTTP/1.1" ++ 32 :: (natText status ++ 32 :: getStatusReason status))
      (headers.map headerLine) (13 :: 10 :: body)
    rw [parseHeaders_joinLines hheadLines _ _ (by simp only [List.length_append, List.length_cons]; omega),
      hout]
    dsimp only
    rw [hfuel]
    rfl
  rw [parseHttpResponseTable, findCrlf_line hline]
  dsimp only
  rw [List.take_left, drop_line, hver.1, hver.2]
  dsimp only
  rw [hst.1, hst.2, if_neg (Double.natText_ne_nil status), hparse, hheaders]
  rfl

/-- What the parsers keep of clean headers. -/
theorem addLines_clean {headers : HeaderTable} {n : Nat} (hc : Outgoing.CleanHeaders headers n) :
    ∃ out, Head.empty.addLines (headers.map headerLine) = some out ∧ out.chunked = false ∧
      (out.contentLength = some n ∨
        out.contentLength = none ∧ ∀ h ∈ headers, lowered h.1 ≠ ascii "content-length") ∧
      (∀ h ∈ headers, out.headers (lowered h.1) = some (stripped h.2)) ∧
      ∀ k, (∀ h ∈ headers, lowered h.1 ≠ k) → out.headers k = none := by
  exact addLines_headers hc.lines hc.distinct hc.notChunked hc.saysLength Head.empty

namespace Outgoing.CleanHeaders

variable {a b : HeaderTable} {h : Bytes × Bytes} {n : Nat}

theorem nil (n : Nat) : CleanHeaders [] n := by
  constructor <;> intro h hh <;> cases hh

theorem append (ha : CleanHeaders a n) (hb : CleanHeaders b n)
    (hab : ∀ x ∈ a, ∀ y ∈ b, lowered x.1 = lowered y.1 → stripped x.2 = stripped y.2) :
    CleanHeaders (a ++ b) n := by
  constructor
  · intro x hx
    rcases List.mem_append.mp hx with hx | hx
    · exact ha.lines x hx
    · exact hb.lines x hx
  · exact distinct_append ha.distinct hb.distinct hab
  · intro x hx
    rcases List.mem_append.mp hx with hx | hx
    · exact ha.notChunked x hx
    · exact hb.notChunked x hx
  · intro x hx
    rcases List.mem_append.mp hx with hx | hx
    · exact ha.saysLength x hx
    · exact hb.saysLength x hx

/-- One header that says nothing about the body. -/
theorem single (hc : CleanHeader h) (hl : lowered h.1 ≠ ascii "content-length")
    (ht : lowered h.1 ≠ ascii "transfer-encoding") : CleanHeaders [h] n := by
  constructor
  · intro x hx
    obtain rfl := List.mem_singleton.mp hx
    exact hc
  · intro x hx y hy _
    rw [List.mem_singleton.mp hx, List.mem_singleton.mp hy]
  · intro x hx hk
    obtain rfl := List.mem_singleton.mp hx
    exact absurd hk ht
  · intro x hx hk
    obtain rfl := List.mem_singleton.mp hx
    exact absurd hk hl

theorem length {body : Bytes} (hb : body.length < 2 ^ 31) :
    CleanHeaders [lengthHeader body] body.length := by
  have hname : lowered (lengthHeader body).1 = ascii "content-length" := lowered_length
  constructor
  · intro x hx
    obtain rfl := List.mem_singleton.mp hx
    exact cleanHeader_length body
  · intro x hx y hy _
    rw [List.mem_singleton.mp hx, List.mem_singleton.mp hy]
  · intro x hx hk
    obtain rfl := List.mem_singleton.mp hx
    rw [hname] at hk
    exact absurd hk (by simp [ascii])
  · intro x hx _
    obtain rfl := List.mem_singleton.mp hx
    rw [stripped_length]
    exact parseContentLength_natText hb

end Outgoing.CleanHeaders

theorem response_comesBack {status : Int} {headers : HeaderTable} {body : Bytes}
    (h : (Outgoing.response status headers body).Clean) :
    (Outgoing.response status headers body).ComesBack := by
  obtain ⟨hpos, hlt, htotal, hc, hsame⟩ := h
  have hle : body.length ≤ (responseText status headers body).length := by
    simp only [responseText, List.length_append]
    omega
  have hmax : Struct.maxLength < 2 ^ 31 - 1 := by decide
  have hbody : body.length < 2 ^ 31 := by omega
  have hstring : httpResponse status headers body = some (responseText status headers body) := by
    have hmod : (responseText status headers body).length % 2 ^ 32 =
        (responseText status headers body).length := Nat.mod_eq_of_lt (by omega)
    rw [httpResponse, Struct.copyOut, hmod, if_pos htotal, List.take_length]
  obtain ⟨status, rfl⟩ := Int.eq_ofNat_of_zero_le hpos
  have hlt' : status < 2 ^ 31 := by omega
  have hall : Outgoing.CleanHeaders (headers ++ Outgoing.addedLength body) body.length := by
    unfold Outgoing.addedLength
    split_ifs with h0
    · refine hc.append (.length hbody) ?_
      intro x hx y hy hk
      obtain rfl := List.mem_singleton.mp hy
      rw [stripped_length]
      exact hsame h0 x hx (hk.trans lowered_length)
    · rw [List.append_nil]
      exact hc
  obtain ⟨out, hout, hchunked, hlen, heach, hother⟩ := addLines_clean hall
  have htext : responseText status headers body =
      ascii "HTTP/1.1 " ++ intText status ++ 32 :: getStatusReason status ++ [13, 10] ++
        headerLines (headers ++ Outgoing.addedLength body) ++ [13, 10] ++ body := by
    have hadded : headerLines (Outgoing.addedLength body) =
        if 0 < body.length then headerLine (lengthHeader body) ++ [13, 10] else [] := by
      unfold Outgoing.addedLength
      split_ifs
      · simp [headerLines]
      · rfl
    rw [headerLines_append, hadded, responseText]
    simp only [List.append_assoc]
  have hparse := parseHttpResponseTable_lines hlt' hall.lines hout body
  have hbodyBack : responseBody out body = some (.ok body) := by
    rw [responseBody, hchunked, if_neg (by decide)]
    rcases hlen with hlen | ⟨hlen, -⟩
    · rw [hlen]
      dsimp only
      rw [if_neg (Nat.lt_irrefl _), List.take_length]
    · rw [hlen]
  rw [← htext, finishResponse, hbodyBack] at hparse
  refine ⟨_, _, hstring, hparse, rfl, rfl, carries_of_headers heach hother, ?_⟩
  dsimp only
  omega

theorem not_fetchHeaderHas {headers : HeaderTable} {key : Bytes} (h : fetchHeaderHas headers key = false)
    {x : Bytes × Bytes} (hx : x ∈ headers) : lowered x.1 ≠ lowered key := by
  intro he
  rw [fetchHeaderHas, List.any_eq_false] at h
  exact h x hx (decide_eq_true he)

theorem fetchHeaderHas_length {headers : HeaderTable} (h : fetchHeaderHas headers (ascii "content-length") = true) :
    ∃ x ∈ headers, lowered x.1 = ascii "content-length" := by
  rw [fetchHeaderHas, List.any_eq_true] at h
  obtain ⟨x, hx, he⟩ := h
  exact ⟨x, hx, (of_decide_eq_true he).trans (by simp [toLower, ascii])⟩

theorem cleanHeader_host (url : FetchUrl) (h : findCrlf url.host = none) :
    CleanHeader (ascii "Host", url.host ++ 58 :: natText url.port) := by
  have hcolon : (58 : UInt8) ∉ ascii "Host" := by simp [ascii]
  have hzero : (0 : UInt8) ∉ ascii "Host" := by simp [ascii]
  refine ⟨hcolon, hzero, ?_⟩
  have hport : findCrlf (58 :: natText url.port) = none :=
    findCrlf_cons (by decide) (findCrlf_of_no_cr (digits_no_byte (Double.isDigits_natText _) (by decide)))
  have hvalue := findCrlf_append_none h (by decide) hport
  have hname : findCrlf (ascii "Host") = none := by simp [findCrlf, ascii]
  exact findCrlf_append_none hname (by decide) (findCrlf_cons (by decide) (findCrlf_cons (by decide) hvalue))

/-- A header in front that is left out, or whose name is new. -/
theorem Outgoing.CleanHeaders.optional {a l : HeaderTable} {n : Nat} (ha : CleanHeaders a n)
    (hl : l = [] ∨ ∃ h, l = [h] ∧ CleanHeaders [h] n ∧ ∀ x ∈ a, lowered x.1 ≠ lowered h.1) :
    CleanHeaders (l ++ a) n := by
  rcases hl with rfl | ⟨h, rfl, hh, hnew⟩
  · exact ha
  · refine hh.append ha ?_
    intro y hy x hx he
    obtain rfl := List.mem_singleton.mp hy
    exact absurd he.symm (hnew x hx)

theorem lowered_names : lowered (ascii "content-length") = lowered (ascii "Content-Length") ∧
    lowered (ascii "connection") = lowered (ascii "Connection") ∧
    lowered (ascii "host") = lowered (ascii "Host") := by
  simp only [ascii, String.reduceToList]
  exact ⟨rfl, rfl, rfl⟩

theorem lowered_apart : lowered (ascii "Content-Length") ≠ lowered (ascii "Connection") ∧
    lowered (ascii "Content-Length") ≠ lowered (ascii "Host") ∧
    lowered (ascii "Connection") ≠ lowered (ascii "Host") := by
  simp only [ascii, String.reduceToList]
  decide

theorem lowered_connection : lowered (ascii "Connection") ≠ ascii "content-length" ∧
    lowered (ascii "Connection") ≠ ascii "transfer-encoding" := by
  simp only [ascii, String.reduceToList]
  decide

theorem lowered_host : lowered (ascii "Host") ≠ ascii "content-length" ∧
    lowered (ascii "Host") ≠ ascii "transfer-encoding" := by
  simp only [ascii, String.reduceToList]
  decide

theorem cleanHeader_close : CleanHeader (ascii "Connection", ascii "close") := by
  apply cleanHeader_of_no_byte
  all_goals
    rw [ascii_ofList]
    decide

/-- The headers of a request, those in front of the table included. -/
theorem cleanHeaders_request {url : FetchUrl} {headers : HeaderTable} {body : Bytes}
    (hb : body.length < 2 ^ 31)
    (hhost : fetchHeaderHas headers (ascii "host") = false → findCrlf url.host = none)
    (hc : Outgoing.CleanHeaders headers body.length) :
    Outgoing.CleanHeaders (addedHeaders url headers body ++ headers) body.length := by
  rw [addedHeaders, List.append_assoc, List.append_assoc]
  have hlength : Outgoing.CleanHeaders
      ((if 0 < body.length ∧ fetchHeaderHas headers (ascii "content-length") = false then
        [lengthHeader body] else []) ++ headers) body.length := by
    refine hc.optional ?_
    split_ifs with h
    · refine .inr ⟨_, rfl, .length hb, fun x hx he => not_fetchHeaderHas h.2 hx (he.trans lowered_names.1.symm)⟩
    · exact .inl rfl
  have hbehind : ∀ x ∈ (if 0 < body.length ∧ fetchHeaderHas headers (ascii "content-length") = false then
      [lengthHeader body] else []) ++ headers, x ∈ headers ∨ x.1 = ascii "Content-Length" := by
    intro x hx
    rcases List.mem_append.mp hx with hx | hx
    · split_ifs at hx
      · exact .inr (by rw [List.mem_singleton.mp hx]; rfl)
      · cases hx
    · exact .inl hx
  have hconnection : Outgoing.CleanHeaders
      ((if fetchHeaderHas headers (ascii "connection") then [] else [(ascii "Connection", ascii "close")]) ++
        ((if 0 < body.length ∧ fetchHeaderHas headers (ascii "content-length") = false then
          [lengthHeader body] else []) ++ headers)) body.length := by
    refine hlength.optional ?_
    by_cases h : fetchHeaderHas headers (ascii "connection") = true
    · exact .inl (if_pos h)
    · rw [if_neg h]
      refine .inr ⟨_, rfl, .single cleanHeader_close lowered_connection.1 lowered_connection.2, fun x hx he => ?_⟩
      rcases hbehind x hx with hx | hx
      · exact not_fetchHeaderHas (Bool.eq_false_iff.mpr h) hx (he.trans lowered_names.2.1.symm)
      · rw [hx] at he
        exact lowered_apart.1 he
  refine hconnection.optional ?_
  by_cases h : fetchHeaderHas headers (ascii "host") = true
  · exact .inl (if_pos h)
  · rw [if_neg h]
    have hno := Bool.eq_false_iff.mpr h
    refine .inr ⟨_, rfl, .single (cleanHeader_host url (hhost hno)) lowered_host.1 lowered_host.2, fun x hx he => ?_⟩
    have hcase : x ∈ headers ∨ x.1 = ascii "Content-Length" ∨ x.1 = ascii "Connection" := by
      rcases List.mem_append.mp hx with hx | hx
      · split_ifs at hx
        · cases hx
        · exact .inr (.inr (by rw [List.mem_singleton.mp hx]))
      · rcases hbehind x hx with hx | hx
        · exact .inl hx
        · exact .inr (.inl hx)
    rcases hcase with hx | hx | hx
    · exact not_fetchHeaderHas hno hx (he.trans lowered_names.2.2.symm)
    · rw [hx] at he
      exact lowered_apart.2.1 he
    · rw [hx] at he
      exact lowered_apart.2.2 he

/-- A body with bytes is announced. -/
theorem length_announced {url : FetchUrl} {headers : HeaderTable} {body : Bytes} (hb : 0 < body.length) :
    ∃ x ∈ addedHeaders url headers body ++ headers, lowered x.1 = ascii "content-length" := by
  by_cases h : fetchHeaderHas headers (ascii "content-length") = true
  · obtain ⟨x, hx, he⟩ := fetchHeaderHas_length h
    exact ⟨x, List.mem_append_right _ hx, he⟩
  · have hpart : lengthHeader body ∈
        if 0 < body.length ∧ fetchHeaderHas headers (ascii "content-length") = false then
          [lengthHeader body] else [] := by
      rw [if_pos ⟨hb, Bool.eq_false_iff.mpr h⟩]
      exact List.mem_singleton_self _
    have hadded : lengthHeader body ∈ addedHeaders url headers body := List.mem_append_right _ hpart
    exact ⟨_, List.mem_append_left _ hadded, lowered_length⟩

/-- The request line of a method and a target without blanks. -/
def requestLine (method target : Bytes) (hm : (32 : UInt8) ∉ method) (ht : (32 : UInt8) ∉ target) :
    RequestLine where
  method := method
  path := target.takeWhile (· ≠ 63)
  query := match target.dropWhile (· ≠ 63) with
    | [] => none
    | _ :: q => some q
  version := ascii "HTTP/1.1"
  method_ok := fun c hc he => hm (he ▸ hc)
  path_ok := fun c hc =>
    ⟨fun he => ht (he ▸ (List.takeWhile_prefix _).subset hc), by simpa using List.mem_takeWhile_imp hc⟩
  query_ok := by
    intro q hq c hc he
    split at hq
    · cases hq
    next d q' hd =>
      cases hq
      refine ht ((List.dropWhile_suffix (· ≠ 63)).subset ?_)
      rw [hd]
      exact List.mem_cons_of_mem _ (he ▸ hc)

theorem requestLine_target {method target : Bytes} (hm : (32 : UInt8) ∉ method)
    (ht : (32 : UInt8) ∉ target) : (requestLine method target hm ht).target = target := by
  have hcut : target.takeWhile (· ≠ 63) ++ target.dropWhile (· ≠ 63) = target :=
    List.takeWhile_append_dropWhile
  rw [RequestLine.target, requestLine]
  dsimp only
  cases hd : target.dropWhile (· ≠ 63) with
  | nil =>
    rw [hd] at hcut
    exact hcut
  | cons c q =>
    have hhead := List.head?_dropWhile_not (· ≠ (63 : UInt8)) target
    rw [hd] at hhead hcut
    have hc : c = 63 := by simpa using hhead
    subst hc
    exact hcut

theorem request_comesBack {url : FetchUrl} {method : Bytes} {headers : HeaderTable} {body : Bytes}
    (h : (Outgoing.request url method headers body).Clean) :
    (Outgoing.request url method headers body).ComesBack := by
  obtain ⟨hb, hzero, hm, ht, hline, hhost, hc⟩ := h
  have hall := cleanHeaders_request hb hhost hc
  obtain ⟨out, hout, hchunked, hlen, heach, hother⟩ := addLines_clean hall
  have hmethod : method.takeWhile (· ≠ 0) = method := by
    refine List.takeWhile_eq_self_iff.mpr fun c hmem => ?_
    have hne : c ≠ 0 := fun h0 => hzero (h0 ▸ hmem)
    simpa using hne
  have hbytes : (requestLine method url.target hm ht).bytes =
      method ++ 32 :: url.target ++ ascii " HTTP/1.1" := by
    have hversion : ascii " HTTP/1.1" = 32 :: ascii "HTTP/1.1" := by simp [ascii]
    rw [RequestLine.bytes, requestLine_target, hversion]
    simp [requestLine]
  have hheadLines : ∀ l ∈ (addedHeaders url headers body ++ headers).map headerLine, HeadLine l := by
    intro l hl
    obtain ⟨x, hx, rfl⟩ := List.mem_map.mp hl
    exact headLine_headerLine (hall.lines x hx)
  have htext : buildHttpRequest url method headers body =
      (requestLine method url.target hm ht).bytes ++
        13 :: 10 :: (joinLines ((addedHeaders url headers body ++ headers).map headerLine) ++ 13 :: 10 :: body) := by
    have hversion : ascii " HTTP/1.1\r\n" = ascii " HTTP/1.1" ++ [13, 10] := by simp [ascii]
    rw [hbytes, joinLines_headerLines, headerLines_append, buildHttpRequest, hmethod, hversion]
    simp only [List.append_assoc, List.cons_append, List.nil_append]
  have hparse := httpParse_closed (hbytes ▸ hline) (parseRequestLine_bytes _) hheadLines hout body
  have hbodyBack : parseBody out body = some (.decoded body body.length) := by
    rw [parseBody, hchunked, if_neg (by decide)]
    rcases hlen with hlen | ⟨hlen, hno⟩
    · rw [hlen]
      dsimp only
      rw [if_neg (Nat.lt_irrefl _), List.take_length]
    · cases body with
      | nil => rw [hlen]; rfl
      | cons c cs =>
        obtain ⟨x, hx, he⟩ := @length_announced url headers (c :: cs) (by simp)
        exact absurd he (hno x hx)
  rw [← htext, finishRequest, hbodyBack] at hparse
  refine ⟨_, hparse, rfl, requestLine_target hm ht, rfl, ?_, ?_⟩
  · obtain ⟨-, hadded⟩ := carries_of_headers heach hother
    refine ⟨fun x hx => heach x (List.mem_append_right _ hx), fun k hk => ?_⟩
    obtain ⟨x, hx, he⟩ := hadded k hk
    exact ⟨x, List.mem_append.mpr (List.mem_append.mp hx).symm, he⟩
  · have hle : body.length ≤ (buildHttpRequest url method headers body).length := by
      rw [htext]
      simp only [List.length_append, List.length_cons]
      omega
    dsimp only
    omega

namespace Sample

def url : FetchUrl where
  host := ascii "toi"
  port := 80
  target := ascii "/a?b=1"
  host_ok := by decide
  target_ok := by decide

def put : Outgoing := .request url (ascii "PUT") [(ascii "X-Id", ascii " 7"), (ascii "content-length", ascii "2")] (ascii "hi")

/-- A value with a line break in it. -/
def injecting : Outgoing := .response 200 [(ascii "X", ascii "1\r\nY: 2")] []

theorem put_clean : put.Clean := by
  have hheaders : Outgoing.CleanHeaders
      [(ascii "X-Id", ascii " 7"), (ascii "content-length", ascii "2")] (ascii "hi").length := by
    constructor
    · unfold CleanHeader
      decide
    · unfold Distinct
      decide
    · unfold NotChunked
      decide
    · unfold SaysLength
      decide
  refine ⟨by decide, by decide, by decide, by decide, by decide, ?_,
    hheaders⟩
  intro _
  decide

end Sample

/-- The header that a response has under a name in small letters. -/
def headerOf (name : Bytes) : ResponseResult → Option Bytes
  | .response r => r.headers name
  | .error _ => none

end ToiLang.Http
