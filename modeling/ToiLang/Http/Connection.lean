import ToiLang.Http.Request
import ToiLang.Incremental

namespace ToiLang.Http

/-! The connections of the HTTP server, with the string functions that they use. -/

def crlf : Bytes := [13, 10]

/-- The first occurrence of a text that is not empty. -/
def indexOf (needle : Bytes) : Bytes → Option Nat
  | [] => none
  | c :: cs => if needle.isPrefixOf (c :: cs) then some 0 else (indexOf needle cs).map (· + 1)

/-- `strstr` on a string that ends at its first zero byte. -/
def strstr (s needle : Bytes) : Option Nat := indexOf needle (s.takeWhile (· ≠ 0))

/-- `string.split`, with the separators that may be left. -/
def splitWith (sep : Bytes) : Nat → Bytes → List Bytes
  | 0, s => [s]
  | fuel + 1, s =>
    match strstr s sep with
    | none => [s]
    | some n => s.take n :: splitWith sep fuel (s.drop (n + sep.length))

/-- What `string.trim` takes off. -/
def isBlank (c : UInt8) : Bool := c = 32 || c = 9 || c = 10 || c = 13

def stringTrim (s : Bytes) : Bytes := (s.dropWhile isBlank).rdropWhile isBlank

def toUpper (c : UInt8) : UInt8 := if 97 ≤ c ∧ c ≤ 122 then c - 32 else c

/-- The loop of `upsert_response_header` over the lines behind the first. -/
def upsertLines (target entry : Bytes) : Bool → List Bytes → List Bytes
  | replaced, [] => if replaced then [] else [entry]
  | replaced, line :: lines =>
    match strstr line [58] with
    | some (n + 1) =>
      if (stringTrim (line.take (n + 1))).map toLower = target then
        if replaced then upsertLines target entry true lines
        else entry :: upsertLines target entry true lines
      else line :: upsertLines target entry replaced lines
    | _ => line :: upsertLines target entry replaced lines

def upsertResponseHeader (raw key value : Bytes) : Bytes :=
  match strstr raw (crlf ++ crlf) with
  | none => raw
  | some n =>
    match splitWith crlf (n + 1) (raw.take n) with
    | [] => raw
    | first :: lines =>
      let out := first :: upsertLines (key.map toLower) (key ++ [58, 32] ++ value) false lines
      crlf.intercalate out ++ crlf ++ crlf ++ raw.drop (n + 4)

def decorateConnectionHeaders (raw : Bytes) (keepAlive : Bool) : Bytes :=
  upsertResponseHeader raw (ascii "Connection") (ascii (if keepAlive then "keep-alive" else "close"))

/-- `http.response(400, nil, "Bad Request")`, decorated. -/
def badRequest : Bytes :=
  decorateConnectionHeaders
    (ascii "HTTP/1.1 400 Bad Request\r\nContent-Length: 11\r\n\r\nBad Request") false

/-- `http.response(500, nil, "Internal Server Error")`, decorated. -/
def internalServerError : Bytes :=
  decorateConnectionHeaders
    (ascii "HTTP/1.1 500 Internal Server Error\r\nContent-Length: 21\r\n\r\nInternal Server Error") false

/-- A response that is streamed: the head as `http.response` builds it, what the iteration yields
(`nil`, or the string of a chunk), and whether it raises behind that. -/
structure StreamResponse where
  head : Bytes
  chunks : List (Option Bytes)
  raises : Bool

/-- What comes of a request: an error before anything is sent, a text, or a stream. -/
inductive Reply
  | raises
  | text (raw : Bytes)
  | stream (s : StreamResponse)

/-- `%x` -/
def hexText (n : Nat) : Bytes := (Nat.toDigits 16 n).map fun c => UInt8.ofNat c.toNat

/-- `string.format("%x\r\n%s\r\n", #data, data)`: the conversion of a string stops at a zero byte. -/
def chunkFrame (data : Bytes) : Bytes :=
  hexText data.length ++ crlf ++ data.takeWhile (· ≠ 0) ++ crlf

/-- What `send_chunked_stream` sends for the chunks. -/
def chunkFrames (chunks : List (Option Bytes)) : List Bytes :=
  chunks.filterMap fun
    | none => none
    | some data => if data = [] then none else some (chunkFrame data)

def lastChunk : Bytes := ascii "0\r\n\r\n"

def Reply.raised : Reply → Bool
  | raises => true
  | text _ => false
  | stream s => s.raises

/-- The arguments of `client.send` for a request that is handled. -/
def Reply.sends (keepAlive : Bool) : Reply → List Bytes
  | raises => [internalServerError]
  | text raw => [decorateConnectionHeaders raw keepAlive]
  | stream s =>
    decorateConnectionHeaders s.head keepAlive :: chunkFrames s.chunks ++
      [if s.raises then internalServerError else lastChunk]

def keepAliveRequest (r : Request) : Bool :=
  let connection := ((r.headers (ascii "connection")).getD []).map toLower
  if r.version.map toUpper = ascii "HTTP/1.0" then (strstr connection (ascii "keep-alive")).isSome
  else (strstr connection (ascii "close")).isNone

/-- What `client.recv` returns: a timeout, or bytes. -/
inductive Received
  | timeout
  | data (first : UInt8) (rest : Bytes)

def Received.bytes : Received → Bytes
  | timeout => []
  | data first rest => first :: rest

/-- The inner loop has ended: the connection is closed, the request is bad, or there is one, with
the buffer and what is not received yet. -/
inductive Next
  | closed
  | rejected
  | request (r : Request) (buffer : Bytes) (input : List Received)

/-- What the inner loop does with the result of `http.parse`. -/
def Next.of (buffer : Bytes) (input : List Received) (later : Option Next) :
    Option ParseResult → Option Next
  | none => none
  | some .incomplete => later
  | some .rejected => some .rejected
  | some (.request r) => some (.request r buffer input)

/-- `recv_next_chunk` and what follows it in the inner loop. Behind the last item the connection
is closed. -/
def awaitRequest (buffer : Bytes) : List Received → Option Next
  | [] => some .closed
  | .timeout :: input => awaitRequest buffer input
  | .data first rest :: input =>
    let buffer := buffer ++ first :: rest
    Next.of buffer input (awaitRequest buffer input) (httpParse buffer)

/-- The inner loop of `handle_connection`. -/
def nextRequest (buffer : Bytes) (input : List Received) : Option Next :=
  Next.of buffer input (awaitRequest buffer input)
    (if 0 < buffer.length then httpParse buffer else some .incomplete)

/-- What a connection answers: a bad request, or a request that is handled. -/
inductive Answer
  | bad
  | reply (r : Request) (reply : Reply)

inductive Event
  | handled (r : Request)
  | sent (data : Bytes)

def Answer.sends : Answer → List Bytes
  | bad => [badRequest]
  | reply r a => a.sends (keepAliveRequest r)

def Answer.events : Answer → List Event
  | bad => [.sent badRequest]
  | reply r a => .handled r :: (a.sends (keepAliveRequest r)).map .sent

variable {σ : Type}

/-- `handle_connection` of a server that is not stopping, with a handler that may have a state.
`none` is undefined. -/
def handleConnection (handler : σ → Request → Reply × σ) :
    Nat → σ → Bytes → List Received → Option (List Answer)
  | 0, _, _, _ => none
  | fuel + 1, s, buffer, input =>
    match nextRequest buffer input with
    | none => none
    | some .closed => some []
    | some .rejected => some [.bad]
    | some (.request r buffer input) =>
      let (reply, s) := handler s r
      if !reply.raised && keepAliveRequest r then
        (handleConnection handler fuel s (buffer.drop r.consumed) input).map (.reply r reply :: ·)
      else some [.reply r reply]

/-- A connection from its start: no request is shorter than a line break. -/
def connection (handler : σ → Request → Reply × σ) (s : σ) (input : List Received) :
    Option (List Answer) :=
  handleConnection handler ((input.flatMap Received.bytes).length + 1) s [] input

/-- Bytes that `client.recv` returns together. -/
def piece : Bytes → Received
  | [] => .timeout
  | c :: cs => .data c cs

/-- A handler with one text for every request. -/
def greet (_ : Unit) (_ : Request) : Reply × Unit := (.text (ascii "HTTP/1.1 200 OK\r\n\r\n"), ())

end ToiLang.Http
