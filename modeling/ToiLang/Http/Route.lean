import ToiLang.Http.Mount

namespace ToiLang.Http

/-! The routes of an application: patterns, handlers and their calls. -/

inductive TypeHint
  | any
  | int
  | float
  | bool
  | str
  | table

/-- The values that a default may have or that a parameter of a path is coerced to. -/
inductive RouteValue
  | nil
  | bool (b : Bool)
  | number (x : Double)
  | string (s : Bytes)

/-- The table that `error`, `int` and `float` raise. -/
structure ErrorTable where
  type : Bytes
  msg : Bytes

/-- `strtol` in base 10: the `long` and what stands at the end pointer, if there is a digit. -/
def strtol (s : Bytes) : Option (Int × Bytes) :=
  let (minus, rest) := Strtod.sign (s.dropWhile isSpace)
  let ds := rest.takeWhile isDigit
  if ds = [] then none
  else
    let n : Int := if minus then -Double.natOf ds else Double.natOf ds
    some (max (-2 ^ 63) (min (2 ^ 63 - 1) n), rest.dropWhile isDigit)

/-- `int` of a string, which ends at its first zero byte. -/
def intNative (s : Bytes) : Except ErrorTable RouteValue :=
  let error := ErrorTable.mk (ascii "ValueError") (ascii "int() expects a valid base-10 string.")
  match strtol (s.takeWhile (· ≠ 0)) with
  | none => .error error
  | some (n, rest) => if rest.dropWhile isSpace = [] then .ok (.number (.ofInt64 n)) else .error error

/-- `float` of a string. -/
def floatNative (s : Bytes) : Except ErrorTable RouteValue :=
  let error := ErrorTable.mk (ascii "ValueError") (ascii "float() expects a valid number string.")
  let s := s.takeWhile (· ≠ 0)
  let (x, rest) := strtod s
  if rest = s then .error error
  else if rest.dropWhile isSpace = [] then .ok (.number x)
  else .error error

def coerceParam (raw : Bytes) : TypeHint → Except ErrorTable RouteValue
  | .int => intNative raw
  | .float => floatNative raw
  | .bool =>
    let s := raw.map toLower
    if s = ascii "true" ∨ s = ascii "1" then .ok (.bool true)
    else if s = ascii "false" ∨ s = ascii "0" then .ok (.bool false)
    else .error ⟨ascii "Error", ascii "expected bool, got '" ++ raw ++ ascii "'"⟩
  | _ => .ok (.string raw)

structure Param where
  name : Bytes
  type : TypeHint

/-- What `inspect.signature` says of a parameter. -/
structure SignatureParam extends Param where
  hasDefault : Bool

/-- The function of a handler. The variadic parameter is the last, and the defaults are those of the
last parameters in front of it. -/
structure HandlerFunction where
  params : List Param
  defaults : List RouteValue
  variadic : Bool
  defaults_le : defaults.length + variadic.toNat ≤ params.length

namespace HandlerFunction

variable (f : HandlerFunction)

def positionalCount : Nat := f.params.length - f.variadic.toNat

/-- Where the parameters with a default begin. -/
def defaultStart : Nat := f.positionalCount - f.defaults.length

/-- A function whose first parameter is `self` is bound to the table that it is read from. -/
def isSelf : Bool := f.params.head?.any fun p => p.name = ascii "self"

def signature : List SignatureParam :=
  f.params.mapIdx fun i p => ⟨p, decide (f.defaultStart ≤ i ∧ i < f.positionalCount)⟩

end HandlerFunction

inductive Handler
  | native
  | closure (f : HandlerFunction)

structure Route where
  method : Bytes
  path : Bytes
  handler : Handler

/-- `Route.compile` -/
def Route.compile (method path : Bytes) (handler : Handler) : Route := ⟨method.map toUpper, path, handler⟩

def splitPathSegments (path : Bytes) : List Bytes :=
  if path = [] then [] else (splitSlash path).filter (· ≠ [])

def parseParamSegment (seg : Bytes) : Option Bytes :=
  if 3 ≤ seg.length ∧ seg.head? = some 60 ∧ seg.getLast? = some 62 then
    let name := (seg.drop 1).take (seg.length - 2)
    if name = [] then none else some name
  else none

/-- The table of the parameters of a path. -/
abbrev PathParams := Bytes → Option Bytes

def PathParams.set (params : PathParams) (name seg : Bytes) : PathParams := Function.update params name (some seg)

def PathParams.empty : PathParams := fun _ => none

/-- The loop of `Route.match` over two lists of one length. -/
def matchSegments (params : PathParams) : List Bytes → List Bytes → Option PathParams
  | rseg :: rsegs, pseg :: psegs =>
    match parseParamSegment rseg with
    | some name => matchSegments (params.set name pseg) rsegs psegs
    | none => if rseg = pseg then matchSegments params rsegs psegs else none
  | _, _ => some params

/-- `Route.match` -/
def Route.matchPath (r : Route) (reqPath : Bytes) : Option PathParams :=
  let segments := splitPathSegments r.path
  let reqSegments := splitPathSegments reqPath
  if segments.length ≠ reqSegments.length then none else matchSegments .empty segments reqSegments

/-- `build_handler_args` -/
def buildHandlerArgs (params : PathParams) : List SignatureParam → Except ErrorTable (List RouteValue)
  | [] => .ok []
  | p :: ps =>
    match params p.name with
    | some val =>
      match coerceParam val p.type with
      | .error e => .error e
      | .ok v => (buildHandlerArgs params ps).map (v :: ·)
    | none =>
      if p.hasDefault then buildHandlerArgs params ps
      else .error ⟨ascii "Error", ascii "missing route parameter '" ++ p.name ++ ascii "'"⟩

/-- What a parameter holds when the body of a handler starts: an argument, its default, the route
that the handler is bound to, or the table of the other arguments. -/
inductive Slot
  | arg (v : RouteValue)
  | default (v : RouteValue)
  | receiver
  | rest (args : List Slot)

/-- `value_matches_type` -/
def valueMatches (C : Conversions) : RouteValue → TypeHint → Bool
  | _, .any => true
  | .number x, .int =>
    if x.lt (.ofInt64 (-2 ^ 63)) || (Double.ofInt64 (2 ^ 63 - 1)).lt x then false
    else (Double.ofInt64 (C.int64 x)).eq x
  | .number _, .float => true
  | .bool _, .bool => true
  | .string _, .str => true
  | _, _ => false

def slotMatches (C : Conversions) : Slot → TypeHint → Bool
  | .arg v, t => valueMatches C v t
  | .default v, t => valueMatches C v t
  | _, .any => true
  | _, .table => true
  | _, _ => false

/-- `call` and `finish_closure_call`, up to the frame; `none` where they raise. -/
def HandlerFunction.call (C : Conversions) (f : HandlerFunction) (args : List Slot) : Option (List Slot) :=
  let arity := f.params.length
  let slots :=
    if f.variadic then
      if args.length < arity - 1 then none
      else some (args.take (arity - 1) ++ [.rest (args.drop (arity - 1))])
    else if arity < args.length then none
    else if args.length < f.defaultStart then none
    else some (args ++ (f.defaults.drop (args.length - f.defaultStart)).map .default)
  slots.bind fun slots =>
    if (slots.zip f.params).all fun p => slotMatches C p.1 p.2.type then some slots else none

/-- What `Route.dispatch` comes to: a status with its text, or the handler of a route started. -/
inductive Dispatched
  | notFound
  | notAllowed
  | badRequest (e : ErrorTable)
  | failed
  | runNative (r : Route)
  | run (r : Route) (slots : List Slot)

/-- `route.handler(*args)` with the arguments of `build_handler_args`. -/
def Route.runHandler (C : Conversions) (r : Route) (params : PathParams) : Dispatched :=
  match r.handler with
  -- the arity of a native function is nil, and the loop over its parameters is skipped
  | .native => .runNative r
  | .closure f =>
    match buildHandlerArgs params f.signature with
    | .error e => .badRequest e
    | .ok args =>
      let receiver := if f.isSelf then [Slot.receiver] else []
      match f.call C (receiver ++ args.map .arg) with
      | none => .failed
      | some slots => .run r slots

def dispatchRoutes (C : Conversions) (method path : Bytes) (sawPath : Bool) : List Route → Dispatched
  | [] => if sawPath then .notAllowed else .notFound
  | r :: routes =>
    match r.matchPath path with
    | none => dispatchRoutes C method path sawPath routes
    | some params =>
      if r.method = method then r.runHandler C params else dispatchRoutes C method path true routes

/-- The method of a request; an empty string counts as none. -/
def requestMethod (reqMethod : Option Bytes) : Bytes :=
  let method := reqMethod.getD []
  (if method = [] then ascii "GET" else method).map toUpper

/-- `Route.dispatch`, with the method and the path of the request where it has them. -/
def dispatch (C : Conversions) (routes : List Route) (reqMethod reqPath : Option Bytes) : Dispatched :=
  dispatchRoutes C (requestMethod reqMethod) (requestPath reqPath) false routes

end ToiLang.Http
