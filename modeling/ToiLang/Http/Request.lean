import Mathlib.Logic.Function.Basic
import ToiLang.Http.Chunked

namespace ToiLang.Http

/-- The digits of a `Content-Length`, added to the `int` before them, and what is behind them. -/
def parseLengthDigits (value : Nat) : Bytes → Option (Nat × Bytes)
  | [] => some (value, [])
  | c :: cs =>
    if 48 ≤ c ∧ c ≤ 57 then
      let digit := c.toNat - 48
      if value > 214748364 ∨ (value = 214748364 ∧ digit > 7) then none
      else parseLengthDigits (value * 10 + digit) cs
    else some (value, c :: cs)

def parseContentLength (s : Bytes) : Option Nat :=
  let s := s.dropWhile isSpace
  if s = [] then none
  else
    match parseLengthDigits 0 s with
    | none => none
    | some (value, rest) => if rest.dropWhile isSpace = [] then some value else none

/-- `has_csv_token_ci`, with the iterations that are left. -/
def csvToken (token : Bytes) : Nat → Bytes → Bool
  | 0, _ => false
  | fuel + 1, s =>
    let s := s.dropWhile fun c => c = 44 || isSpace c
    if s = [] then false
    else
      let item := (s.takeWhile fun c => c ≠ 44 && c ≠ 59).rdropWhile isSpace
      if item.map toLower = token.map toLower then true
      else
        let rest := s.dropWhile fun c => c ≠ 44 && c ≠ 59
        csvToken token fuel (rest.dropWhile (· ≠ 44))

def hasCsvTokenCi (s token : Bytes) : Bool := csvToken token (s.length + 1) s

/-- The first occurrence of a byte in a C string, which ends at a zero byte. -/
def strchr (s : Bytes) (c : UInt8) : Option Nat := (s.takeWhile (· ≠ 0)).idxOf? c

/-- What the header loop has collected: the headers, `content_length` if it was set, and
`transfer_chunked`. -/
structure Head where
  headers : Bytes → Option Bytes
  contentLength : Option Nat
  chunked : Bool

def Head.empty : Head := ⟨fun _ => none, none, false⟩

/-- One header with its name in lower case. `none` rejects the request. -/
def Head.add (h : Head) (name value : Bytes) : Option Head :=
  let headers := Function.update h.headers name (some value)
  if name = ascii "content-length" then
    (parseContentLength value).map fun n => { h with headers := headers, contentLength := some n }
  else if name = ascii "transfer-encoding" then
    some { h with headers := headers, chunked := h.chunked || hasCsvTokenCi value (ascii "chunked") }
  else some { h with headers := headers }

inductive HeadResult
  | done (h : Head) (rest : Bytes)
  | incomplete
  | rejected

/-- The loop over the header lines. -/
def parseHeaders : Nat → Bytes → Head → HeadResult
  | 0, _, _ => .incomplete
  | fuel + 1, p, h =>
    if p = [] then .done h []
    else
      match findCrlf p with
      | none => .incomplete
      | some n =>
        if n = 0 then .done h (p.drop 2)
        else
          match strchr p 58 with
          | none => parseHeaders fuel (p.drop (n + 2)) h
          | some colon =>
            if n < colon then parseHeaders fuel (p.drop (n + 2)) h
            else
              let line := p.take n
              match h.add ((line.take colon).map toLower) ((line.drop (colon + 1)).dropWhile isSpace) with
              | none => .rejected
              | some h => parseHeaders fuel (p.drop (n + 2)) h

/-- The table that `http.parse` returns. -/
structure Request where
  method : Bytes
  path : Bytes
  query : Option Bytes
  version : Bytes
  headers : Bytes → Option Bytes
  body : Option Bytes
  consumed : Nat

/-- `nil`, `false` or a request. -/
inductive ParseResult
  | incomplete
  | rejected
  | request (r : Request)

/-- Method, path, query and version of a request line. -/
def parseRequestLine (line : Bytes) : Option (Bytes × Bytes × Option Bytes × Bytes) :=
  let method := line.takeWhile (· ≠ 32)
  match line.dropWhile (· ≠ 32) with
  | [] => none
  | _ :: p =>
    let path := p.takeWhile fun c => c ≠ 32 && c ≠ 63
    match p.dropWhile fun c => c ≠ 32 && c ≠ 63 with
    | [] => none
    | c :: rest =>
      if c = 63 then
        match rest.dropWhile (· ≠ 32) with
        | [] => none
        | _ :: version => some (method, path, some (rest.takeWhile (· ≠ 32)), version)
      else some (method, path, none, rest)

/-- `body_len > 0` -/
def bodyField (body : Bytes) : Option Bytes := if body.length > 0 then some body else none

/-- The body behind the headers: decoded chunks, `content_length` bytes, or nothing. -/
def parseBody (h : Head) (p : Bytes) : Option ChunkResult :=
  if h.chunked then decodeChunkedBody p
  else
    match h.contentLength with
    | some n => if p.length < n then some .incomplete else some (.decoded (p.take n) n)
    | none => some (.decoded [] 0)

/-- The result of `http.parse` once the header loop has ended. -/
def finishRequest (line : Bytes × Bytes × Option Bytes × Bytes) (length : Nat) :
    HeadResult → Option ParseResult
  | .incomplete => some .incomplete
  | .rejected => some .rejected
  | .done h p =>
    match parseBody h p with
    | none => none
    | some .incomplete => some .incomplete
    | some .invalid => some .rejected
    | some (.decoded body consumed) =>
      let (method, path, query, version) := line
      some (.request ⟨method, path, query, version, h.headers, bodyField body,
        length - p.length + consumed⟩)

/-- `http.parse`; `none` is undefined. -/
def httpParse (src : Bytes) : Option ParseResult :=
  match findCrlf src with
  | none => some .incomplete
  | some n =>
    match parseRequestLine (src.take n) with
    | none => some .rejected
    | some line =>
      finishRequest line src.length (parseHeaders (src.length + 1) (src.drop (n + 2)) .empty)

end ToiLang.Http
