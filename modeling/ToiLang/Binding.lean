import ToiLang.Compiler.Stmt
import ToiLang.Conversion
import ToiLang.TableMap

namespace ToiLang

/-- A parameter without its default. -/
structure Formal where
  name : Name
  hint : Option TypeHint
  deriving DecidableEq, Repr

/-- The parameters of a function: first those without a default, then those with one, and last the
one that takes the arguments that are left. -/
structure Signature where
  required : List Formal
  optional : List (Formal × DefaultLiteral)
  variadic : Option Formal
  distinct : (required.map Formal.name ++ optional.map (fun o => o.1.name) ++ variadic.toList.map Formal.name).Nodup

namespace Signature

/-- The parameters that take one argument each. -/
def ordinary (s : Signature) : List (Formal × Option DefaultLiteral) :=
  s.required.map (fun p => (p, none)) ++ s.optional.map fun o => (o.1, some o.2)

def params (s : Signature) : List Param :=
  s.ordinary.map (fun p => ⟨p.1.name, false, p.1.hint, p.2⟩) ++
    s.variadic.toList.map fun p => ⟨p.name, true, p.hint, none⟩

def names (s : Signature) : List Name := s.params.map Param.name

end Signature

/-- What a slot of a new frame holds: a value, or a table that was made for it. -/
inductive Bound
  | value (v : Value)
  | table (t : Table)
  deriving DecidableEq, Repr

namespace Binding

/-- `value_matches_type` -/
def valueMatchesType (C : Conversions) : Value → TypeHint → Bool
  | _, .any => true
  | .number x, .int =>
    if x.lt (.ofInt64 (-2 ^ 63)) || (Double.ofInt64 (2 ^ 63 - 1)).lt x then false
    else (Double.ofInt64 (C.int64 x)).eq x
  | .number _, .float => true
  | .bool _, .bool => true
  | .string _, .str => true
  | .table _, .table => true
  | _, _ => false

def boundMatchesType (C : Conversions) : Bound → TypeHint → Bool
  | .value v, type => valueMatchesType C v type
  | .table _, type => decide (type = .any) || decide (type = .table)

section Routines

variable (C : Conversions) (hash : Bytes → UInt32) (f : ObjFunction)

/-- The first parameter whose argument does not match its type. -/
def mismatch : List TypeHint → List Bound → Nat → Option Nat
  | type :: types, b :: bs, i =>
    if type ≠ .any ∧ boundMatchesType C b type = false then some i else mismatch types bs (i + 1)
  | _, _, _ => none

/-- `finish_closure_call` up to the frame -/
def finishClosureCall (slots : List Bound) : Except Bytes (List Bound) :=
  match mismatch C (f.paramTypes.take f.arity) slots 1 with
  | some i => .error (ascii s!"Type mismatch for parameter {i}.")
  | none => .ok slots

/-- `table_set_array` of one value after the other, from the place behind `pos` on. -/
def collect : Table → Nat → List Value → Table
  | t, _, [] => t
  | t, pos, v :: vs => collect ((tableSetArray t (pos + 1 : Nat) v).getD t) (pos + 1) vs

def call (args : List Value) : Except Bytes (List Bound) :=
  if f.isVariadic then
    let required := f.arity - 1
    if args.length < required then
      .error (ascii s!"Expected at least {required} arguments but got {args.length}.")
    else
      finishClosureCall C f
        ((args.take required).map .value ++ [.table (collect initTable 0 (args.drop required))])
  else if f.arity < args.length then
    .error (ascii s!"Expected {f.arity} arguments but got {args.length}.")
  else if args.length < f.arity then
    let start := f.arity - f.defaults.length
    if f.defaults = [] then
      .error (ascii s!"Expected {f.arity} arguments but got {args.length}.")
    else if args.length < start then
      .error (ascii s!"Expected at least {start} arguments (non-default parameters) but got {args.length}.")
    else finishClosureCall C f ((args ++ f.defaults.drop (args.length - start)).map .value)
  else finishClosureCall C f (args.map .value)

def nonVariadicArity : Nat := if f.isVariadic then f.arity - 1 else f.arity

def findNamedParamIndex (key : Bytes) : Option Nat :=
  (f.paramNames.take (nonVariadicArity f)).findIdx? fun name => decide (name = key)

def isOptionsParamName (name : Name) : Bool :=
  decide (name = ascii "opts") || decide (name = ascii "options") || decide (name = ascii "kwargs")

/-- What the loop of `call_named` over the named arguments works on: `bound_args` where `assigned`,
`varargs`, and `legacy_options` with `first_unexpected`. -/
structure NamedArgs where
  bound : List (Option Bound)
  varargs : Table
  legacy : Option (Table × Bytes)

def bindEntry (key : Bytes) (value : Value) (st : NamedArgs) : Option (Except Bytes NamedArgs) :=
  match findNamedParamIndex f key with
  | some index =>
    if (st.bound.getD index none).isSome then
      some (.error (ascii "Multiple values for argument '" ++ key ++ ascii "'."))
    else some (.ok { st with bound := st.bound.set index (some (.value value)) })
  | none =>
    if f.isVariadic then
      (tableSet hash st.varargs key value).map fun r => .ok { st with varargs := r.1 }
    else
      let legacy := st.legacy.getD (initTable, key)
      (tableSet hash legacy.1 key value).map fun r => .ok { st with legacy := some (r.1, legacy.2) }

def bindEntries : List Entry → NamedArgs → Option (Except Bytes NamedArgs)
  | [], st => some (.ok st)
  | e :: es, st =>
    match e.key with
    | none => bindEntries es st
    | some key => do
      match ← bindEntry hash f key e.value st with
      | .error message => return .error message
      | .ok st => bindEntries es st

def bindOptions (st : NamedArgs) : Except Bytes (List (Option Bound)) :=
  match st.legacy with
  | none => .ok st.bound
  | some (options, unexpected) =>
    match (List.range st.bound.length).find? fun i =>
        (st.bound.getD i none).isNone && (f.paramNames[i]?).any isOptionsParamName with
    | some target => .ok (st.bound.set target (some (.table options)))
    | none => .error (ascii "Unexpected named argument '" ++ unexpected ++ ascii "'.")

def missingArgument (i : Nat) : Bytes :=
  match f.paramNames[i]? with
  | some name => ascii "Missing required argument '" ++ name ++ ascii "'."
  | none => ascii s!"Missing required argument {i + 1}."

/-- The loop that puts the defaults in, from the parameter `i` on. -/
def fillDefaults : Nat → List (Option Bound) → Except Bytes (List Bound)
  | _, [] => .ok []
  | i, some b :: bs => (fillDefaults (i + 1) bs).map (b :: ·)
  | i, none :: bs =>
    let start := nonVariadicArity f - f.defaults.length
    if start ≤ i then (fillDefaults (i + 1) bs).map (.value (f.defaults.getD (i - start) .nil) :: ·)
    else .error (missingArgument f i)

/-- `call_named`, with the table that is the last argument. -/
def callNamed (args : List Value) (named : Table) : Option (Except Bytes (List Bound)) :=
  let arity := nonVariadicArity f
  if arity < args.length ∧ f.isVariadic = false then
    some (.error (ascii s!"Expected {f.arity} arguments but got {args.length}."))
  else do
    let bound := (args.take arity).map (fun v => some (.value v)) ++ List.replicate (arity - args.length) none
    match ← bindEntries hash f named.entries ⟨bound, collect initTable 0 (args.drop arity), none⟩ with
    | .error message => return .error message
    | .ok st =>
      return do
        let bound ← bindOptions f st
        let slots ← fillDefaults f 0 bound
        finishClosureCall C f (slots ++ if f.isVariadic then [.table st.varargs] else [])

end Routines

end Binding

/-- A call as it is written, with the values of its arguments. -/
inductive Call
  | positional (args : List Value)
  | named (args : List Value) (names : List (Bytes × Value))
  | spread (args : List Value) (t : Table)

namespace Binding

variable (C : Conversions) (hash : Bytes → UInt32) (f : ObjFunction)

/-- The table of named arguments, which `OP_SET_TABLE` fills. -/
def namedTable (names : List (Bytes × Value)) : Option Table :=
  names.foldlM (fun t n => (tableSet hash t n.1 n.2).map Prod.fst) initTable

def spreadValues (t : Table) : List Value := t.array.takeWhile fun v => v ≠ .nil

def tooManyArguments : Except Bytes (List Bound) := .error (ascii "Can't have more than 255 arguments.")

/-- The slots of the frame that a call starts, or the error that the compiler or the call raises. -/
def bind : Call → Option (Except Bytes (List Bound))
  | .positional args => if 255 < args.length then some tooManyArguments else some (call C f args)
  | .named args names =>
    if 255 < args.length + 1 then some tooManyArguments
    else do
      let named ← namedTable hash names
      callNamed C hash f args named
  | .spread args t =>
    let args := args ++ spreadValues t
    if 255 < args.length then some tooManyArguments
    else if 0 < t.count then do
      let named ← tableAddAll hash t initTable
      if 255 < args.length + 1 then return tooManyArguments
      else callNamed C hash f args named
    else some (call C f args)

end Binding

/-- The value of the expression that a default is written as. -/
def literalValue : DefaultLiteral → Value
  | .number x => .number x
  | .string s => .string s
  | .nil => .nil
  | .true => .bool true
  | .false => .bool false

namespace Call

variable (hash : Bytes → UInt32)

/-- The arguments by position. -/
def args : Call → List Value
  | positional args => args
  | named args _ => args
  | spread args t => args ++ Binding.spreadValues t

/-- The arguments by name; of two with one name the second counts. -/
def keyword : Call → Bytes → Option Value
  | positional _ => fun _ => none
  | named _ names => names.foldl (fun m n => Function.update m n.1 (some n.2)) fun _ => none
  | spread _ t => fun key => (tableGet hash t key).getD none

/-- Whether a table of named arguments is passed; a table that is spread has one when something
was ever in its hash part. -/
def passesTable : Call → Bool
  | positional _ => false
  | named _ _ => true
  | spread _ t => decide (0 < t.count)

/-- The table of named arguments is one argument too many. -/
def Crowded (c : Call) : Prop := c.passesTable = true ∧ c.args.length = 255

/-- All that is named is a parameter, and what is spread is a table. -/
def Proper (s : Signature) : Call → Prop
  | positional _ => True
  | named _ names => ∀ n ∈ names, n.1 ∈ s.names
  | spread _ t => ∃ m, t.Represents hash m ∧ ∀ key, m key ≠ none → key ∈ s.names

end Call

namespace Signature

variable (C : Conversions) (hash : Bytes → UInt32) (s : Signature) (c : Call)

/-- What the ordinary parameters are given, by position or by name. -/
def given (keyword : Bytes → Option Value) :
    List (Formal × Option DefaultLiteral) → List Value → List (Option Value)
  | [], _ => []
  | _ :: ps, v :: vs => some v :: given keyword ps vs
  | p :: ps, [] => keyword p.1.name :: given keyword ps []

/-- What the ordinary parameters hold, with the defaults as `literal` has them. -/
def fill (literal : DefaultLiteral → Value) :
    List (Formal × Option DefaultLiteral) → List (Option Value) → Option (List Value)
  | p :: ps, g :: gs => do
    let v ← g <|> p.2.map literal
    let vs ← fill literal ps gs
    return v :: vs
  | _, _ => some []

/-- The parameter for the arguments that are left holds them in a table, or what is passed by its
name. -/
def rest : List Bound :=
  s.variadic.toList.map fun p =>
    match c.keyword hash p.name with
    | some v => .value v
    | none => .table (Binding.collect initTable 0 (c.args.drop s.ordinary.length))

/-- An ordinary parameter by position and by name. -/
def Doubled : Prop := ∃ p ∈ s.ordinary.take c.args.length, (c.keyword hash p.1.name).isSome

/-- The parameter for the arguments that are left by its name. -/
def NamesRest : Prop := ∃ p, s.variadic = some p ∧ (c.keyword hash p.name).isSome

/-- A parameter by position and by name. -/
def Twice : Prop := s.Doubled hash c ∨ s.ordinary.length < c.args.length ∧ s.NamesRest hash c

def TooMany : Prop := 255 < c.args.length ∨ s.ordinary.length < c.args.length ∧ s.variadic = none

/-- What a call has to bind, however its arguments are passed: each parameter the argument that is
given for it, or else its default. -/
def Binds (f : ObjFunction) (slots : List Bound) : Prop :=
  ¬s.TooMany c ∧ ¬s.Twice hash c ∧
    ∃ vs, fill literalValue s.ordinary (given (c.keyword hash) s.ordinary c.args) = some vs ∧
      slots = vs.map .value ++ s.rest hash c ∧ Binding.mismatch C (f.paramTypes.take f.arity) slots 1 = none

/-- The call binds what it has to, or raises an error when there is nothing that it has to bind. -/
def BindsRight (f : ObjFunction) : Prop :=
  ∃ r, Binding.bind C hash f c = some r ∧ ∀ slots, r = .ok slots ↔ s.Binds C hash c f slots

/-- `call` takes every ordinary parameter of a function with a variadic one for required. -/
def Short : Prop := c.passesTable = false ∧ s.variadic.isSome ∧ c.args.length < s.ordinary.length

/-- A parameter takes its default, which is written `true` or `false`. -/
def BooleanDefault : Prop :=
  ∃ (i : Nat) (p : Formal × Option DefaultLiteral), s.ordinary[i]? = some p ∧ c.args.length ≤ i ∧
    c.keyword hash p.1.name = none ∧ (p.2 = some .true ∨ p.2 = some .false)

def Slip : Prop := s.Short c ∨ c.Crowded ∨ s.BooleanDefault hash c ∨ s.NamesRest hash c

/-- The slot of the parameter for the arguments that are left. -/
def tableSlot (varargs : Table) : List Bound := s.variadic.toList.map fun _ => .table varargs

/-- No parameter has a value that the hints let pass, the defaults being what they are put down as. -/
def Mismatched (f : ObjFunction) : Prop :=
  ∀ vs, fill Compile.defaultValue s.ordinary (given (c.keyword hash) s.ordinary c.args) = some vs →
    Binding.mismatch C (f.paramTypes.take f.arity) (vs.map .value ++ s.tableSlot initTable) 1 ≠ none

def Refused (f : ObjFunction) : Prop :=
  s.Short c ∨ c.Crowded ∨ s.TooMany c ∨ s.Doubled hash c ∨ s.Mismatched C hash c f

/-- When a call binds right: where nothing slips, and where there is nothing to bind and the call
is refused as well. -/
def Clear (f : ObjFunction) : Prop :=
  ¬s.Slip hash c ∨ (∀ slots, ¬s.Binds C hash c f slots) ∧ s.Refused C hash c f

end Signature

end ToiLang
