import ToiLang.Http.Framing
import ToiLang.Strtod
import ToiLang.Struct

namespace ToiLang.Http

open Double (natText)

/-! The texts that the server and the client send, and the parser of responses. -/

/-- The entries of a headers table with a string for a value, in the order of its slots. -/
abbrev HeaderTable := List (Bytes × Bytes)

/-- `%d` -/
def intText (n : Int) : Bytes := (if n < 0 then [45] else []) ++ natText n.natAbs

def getStatusReason (status : Int) : Bytes :=
  ascii (match status with
    | 200 => "OK"
    | 201 => "Created"
    | 204 => "No Content"
    | 301 => "Moved Permanently"
    | 302 => "Found"
    | 304 => "Not Modified"
    | 400 => "Bad Request"
    | 401 => "Unauthorized"
    | 403 => "Forbidden"
    | 404 => "Not Found"
    | 405 => "Method Not Allowed"
    | 500 => "Internal Server Error"
    | 502 => "Bad Gateway"
    | 503 => "Service Unavailable"
    | _ => "Unknown")

def headerLine (h : Bytes × Bytes) : Bytes := h.1 ++ 58 :: 32 :: h.2

def headerLines (headers : HeaderTable) : Bytes := headers.flatMap fun h => headerLine h ++ [13, 10]

/-- `Content-Length`, as both builders write it. -/
def lengthHeader (body : Bytes) : Bytes × Bytes := (ascii "Content-Length", natText body.length)

/-- The buffer that `http.response` fills. -/
def responseText (status : Int) (headers : HeaderTable) (body : Bytes) : Bytes :=
  ascii "HTTP/1.1 " ++ intText status ++ 32 :: getStatusReason status ++ [13, 10] ++
    headerLines headers ++
    (if 0 < body.length then headerLine (lengthHeader body) ++ [13, 10] else []) ++ [13, 10] ++ body

/-- `http.response`; `none` where the length is no length of a string. -/
def httpResponse (status : Int) (headers : HeaderTable) (body : Bytes) : Option Bytes :=
  Struct.copyOut (responseText status headers body)

/-- The parts of a URL that a request is built from; strings that end at a zero byte. -/
structure FetchUrl where
  host : Bytes
  port : Nat
  target : Bytes
  host_ok : (0 : UInt8) ∉ host
  target_ok : (0 : UInt8) ∉ target

def fetchHeaderHas (headers : HeaderTable) (key : Bytes) : Bool :=
  headers.any fun h => h.1.map toLower = key.map toLower

/-- The headers that `build_http_request` writes in front of those of the table. -/
def addedHeaders (url : FetchUrl) (headers : HeaderTable) (body : Bytes) : HeaderTable :=
  (if fetchHeaderHas headers (ascii "host") then []
    else [(ascii "Host", url.host ++ 58 :: natText url.port)]) ++
  (if fetchHeaderHas headers (ascii "connection") then []
    else [(ascii "Connection", ascii "close")]) ++
  (if 0 < body.length ∧ fetchHeaderHas headers (ascii "content-length") = false then [lengthHeader body]
    else [])

/-- `build_http_request`; `%.*s` stops at a zero byte. -/
def buildHttpRequest (url : FetchUrl) (method : Bytes) (headers : HeaderTable) (body : Bytes) : Bytes :=
  method.takeWhile (· ≠ 0) ++ 32 :: url.target ++ ascii " HTTP/1.1\r\n" ++
    headerLines (addedHeaders url headers body) ++ headerLines headers ++ [13, 10] ++ body

/-- The table that `parse_http_response_table` leaves. -/
structure ResponseTable where
  status : Nat
  version : Bytes
  reason : Bytes
  headers : Bytes → Option Bytes
  body : Bytes
  consumed : Nat

inductive ResponseResult
  | error (message : String)
  | response (r : ResponseTable)

/-- The digits of a status, added to the `int` before them: `none` where it overflows, `some none`
where there is no digit. -/
def parseStatus (status : Nat) : Bytes → Option (Option Nat)
  | [] => some (some status)
  | c :: cs =>
    if isDigit c then
      let status := status * 10 + (c.toNat - 48)
      if 2 ^ 31 ≤ status then none else parseStatus status cs
    else some none

/-- The body behind the headers of a response, and the length that it counts for. -/
def responseBody (h : Head) (p : Bytes) : Option (Except String Bytes) :=
  if h.chunked then
    match decodeChunkedBody p with
    | none => none
    | some (.decoded body _) => some (.ok body)
    | some _ => some (.error "invalid chunked response body")
  else
    match h.contentLength with
    | some n => some (if p.length < n then .error "truncated response body" else .ok (p.take n))
    | none => some (.ok p)

def finishResponse (status : Nat) (version reason : Bytes) (length : Nat) :
    HeadResult → Option ResponseResult
  | .incomplete => some (.error "invalid HTTP headers")
  | .rejected => some (.error "invalid content-length")
  | .done h p =>
    match responseBody h p with
    | none => none
    | some (.error message) => some (.error message)
    | some (.ok body) =>
      some (.response ⟨status, version, reason, h.headers, body, length - p.length + body.length⟩)

/-- `parse_http_response_table`; its header loop is the one of `http.parse`. `none` is undefined. -/
def parseHttpResponseTable (src : Bytes) : Option ResponseResult :=
  match findCrlf src with
  | none => some (.error "invalid HTTP response")
  | some n =>
    let line := src.take n
    match line.dropWhile (· ≠ 32) with
    | [] => some (.error "invalid HTTP status line")
    | _ :: p =>
      let status := p.takeWhile (· ≠ 32)
      if status = [] then some (.error "invalid HTTP status line")
      else
        match parseStatus 0 status with
        | none => none
        | some none => some (.error "invalid HTTP status code")
        | some (some value) =>
          finishResponse value (line.takeWhile (· ≠ 32)) ((p.dropWhile (· ≠ 32)).drop 1) src.length
            (parseHeaders (src.length + 1) (src.drop (n + 2)) .empty)

end ToiLang.Http
