import ToiLang.Code
import ToiLang.Syntax

namespace ToiLang

structure Local where
  name : Name
  depth : Option Nat
  isCaptured : Bool
  type : TypeHint
  deriving DecidableEq, Repr

structure Upvalue where
  index : UInt8
  isLocal : Bool
  deriving DecidableEq, Repr

structure LoopContext where
  scopeDepth : Nat
  isForLoop : Bool
  slotsToPop : Nat
  deriving DecidableEq, Repr

/-- The object that the compiler builds for one function. `body` is the structured form of
`code`. -/
structure ObjFunction where
  name : Name
  arity : Nat
  upvalueCount : Nat
  code : Bytes
  constants : List Value
  defaults : List Value
  isVariadic : Bool
  paramTypes : List TypeHint
  paramNames : List Name
  isSelf : Bool
  isGenerator : Bool
  body : Code
  deriving DecidableEq, Repr

def ObjFunction.chunk (f : ObjFunction) : Chunk := ⟨f.code, f.constants⟩

/-- `struct Compiler`: the state of the function being compiled. -/
structure Compiler where
  isScript : Bool
  locals : List Local
  explicitGlobals : List Name
  upvalues : List Upvalue
  scopeDepth : Nat
  constants : List Value
  isGenerator : Bool
  loopContext : Option LoopContext
  deriving DecidableEq, Repr

def Compiler.localCount (c : Compiler) : Nat := c.locals.length

/-- The compiler's global variables. `functions` lists the finished function objects in
the order of their addresses, which start at `firstFunction`. `stalePops` is what the
`slots_to_pop` field of a `while` loop's context, which is never assigned, happens to hold. -/
structure State where
  current : Compiler
  enclosing : List Compiler
  typeStack : Nat → TypeHint
  typeStackTop : Nat
  inForRangeHeader : Bool
  lastExprWasRange : Bool
  functions : List ObjFunction
  firstFunction : Nat
  stalePops : Nat

/-- A reported error leaves no function: `none`. -/
abbrev CompileM := StateT State Option

namespace Compile

def error {α : Type} : CompileM α := fun _ => none

def typePush (t : TypeHint) : CompileM Unit := modify fun s =>
  if s.typeStackTop < 512 then
    { s with
      typeStack := fun i => if i = s.typeStackTop then t else s.typeStack i
      typeStackTop := s.typeStackTop + 1 }
  else s

def typePop : CompileM TypeHint := do
  let s ← get
  if s.typeStackTop = 0 then
    pure .any
  else
    set { s with typeStackTop := s.typeStackTop - 1 }
    pure (s.typeStack (s.typeStackTop - 1))

def getTypeStackTop : CompileM Nat := do pure (← get).typeStackTop

def setTypeStackTop (n : Nat) : CompileM Unit := modify fun s => { s with typeStackTop := n }

def isNumericType (t : TypeHint) : Bool := t = .int || t = .float

def current : CompileM Compiler := do pure (← get).current

def setCurrent (c : Compiler) : CompileM Unit := modify fun s => { s with current := c }

def localCount : CompileM Nat := do pure (← current).localCount

/-- `make_constant`: an index past 255 is an error. -/
def makeConstant (v : Value) : CompileM UInt8 := do
  let c ← current
  if c.constants.length > 255 then error else
    setCurrent { c with constants := c.constants ++ [v] }
    pure (UInt8.ofNat c.constants.length)

def identifierConstant (n : Name) : CompileM UInt8 := makeConstant (.string n)

/-- An instruction that goes on to the next one. -/
def op (o : OpCode) (args : List UInt8) : Code := .instr ⟨o, args⟩

def op0 (o : OpCode) : Code := op o []

def op1 (o : OpCode) (a : Nat) : Code := op o [UInt8.ofNat a]

def emitConstant (v : Value) : CompileM Code := do
  let k ← makeConstant v
  pure (op .opConstant [k])

def callInstr (argCount : UInt8) : Instr :=
  if argCount = 0 then ⟨.opCall0, []⟩
  else if argCount = 1 then ⟨.opCall1, []⟩
  else if argCount = 2 then ⟨.opCall2, []⟩
  else ⟨.opCall, [argCount]⟩

/-- `emit_call`, with the number of values that the surrounding code makes room for. -/
def emitCall (argCount results : Nat) : Code := .call (callInstr (UInt8.ofNat argCount)) results

def seqs : List Code → Code
  | [] => .nil
  | [c] => c
  | c :: cs => .seq c (seqs cs)

def beginScope : CompileM Unit := do
  let c ← current
  setCurrent { c with scopeDepth := c.scopeDepth + 1 }

def popLocal (l : Local) : Instr :=
  if l.isCaptured then ⟨.opCloseUpvalue, []⟩ else popInstr

/-- The locals above a scope depth, from the top of the stack down. -/
def localsAbove (depth : Nat) (ls : List Local) : List Local :=
  ls.reverse.takeWhile fun l => match l.depth with
    | some d => depth < d
    | none => false

/-- `end_scope`: an initialised local deeper than the scope that is left is dropped. -/
def endScope : CompileM Code := do
  let c ← current
  let depth := c.scopeDepth - 1
  let gone := localsAbove depth c.locals
  setCurrent { c with scopeDepth := depth, locals := c.locals.take (c.locals.length - gone.length) }
  pure (seqs (gone.map fun l => .instr (popLocal l)))

/-- The index of the innermost local with a name, and whether it is initialised. -/
def findLocal (ls : List Local) (n : Name) : Option (Nat × Bool) :=
  match ls.reverse.findIdx? (fun l => l.name = n) with
  | none => none
  | some i => some (ls.length - 1 - i, ((ls[ls.length - 1 - i]?).map (·.depth.isSome)).getD false)

/-- `resolve_local`: a local in its own initialiser is an error. -/
def resolveLocalIn (c : Compiler) (n : Name) : Option (Option Nat) :=
  match findLocal c.locals n with
  | none => some none
  | some (i, true) => some (some i)
  | some (_, false) => none

def resolveLocal (n : Name) : CompileM (Option Nat) := do
  let c ← current
  StateT.lift (resolveLocalIn c n)

def addUpvalue (c : Compiler) (index : Nat) (isLocal : Bool) : Option (Nat × Compiler) :=
  let u : Upvalue := ⟨UInt8.ofNat index, isLocal⟩
  match c.upvalues.findIdx? (· = u) with
  | some i => some (i, c)
  | none =>
    if c.upvalues.length = 256 then none
    else some (c.upvalues.length, { c with upvalues := c.upvalues ++ [u] })

def markCaptured (c : Compiler) (i : Nat) : Compiler :=
  { c with locals := c.locals.modify i fun l => { l with isCaptured := true } }

/-- `resolve_upvalue` on a compiler and those that enclose it. The outer `none` is an error. -/
def resolveUpvalueIn (c : Compiler) (n : Name) :
    List Compiler → Option (Option (Nat × Compiler × List Compiler))
  | [] => some none
  | e :: es => do
    match ← resolveLocalIn e n with
    | some l =>
      let (i, c) ← addUpvalue c l true
      pure (some (i, c, markCaptured e l :: es))
    | none =>
      match ← resolveUpvalueIn e n es with
      | some (u, e, es) =>
        let (i, c) ← addUpvalue c u false
        pure (some (i, c, e :: es))
      | none => pure none

def resolveUpvalue (n : Name) : CompileM (Option Nat) := do
  let s ← get
  match ← StateT.lift (resolveUpvalueIn s.current n s.enclosing) with
  | some (i, c, es) =>
    set { s with current := c, enclosing := es }
    pure (some i)
  | none => pure none

def isExplicitGlobalName (n : Name) : CompileM Bool := do
  pure ((← current).explicitGlobals.contains n)

def registerExplicitGlobal (n : Name) : CompileM Unit := do
  let c ← current
  if c.isScript || c.explicitGlobals.contains n then pure ()
  else if c.explicitGlobals.length = 256 then error
  else setCurrent { c with explicitGlobals := c.explicitGlobals ++ [n] }

def addLocal (n : Name) : CompileM Unit := do
  let c ← current
  if c.locals.length = 256 then error
  else setCurrent { c with locals := c.locals ++ [⟨n, none, false, .any⟩] }

/-- `mark_initialized_count`; outside the REPL the scope depth is never 0 here. -/
def markInitializedCount (count : Nat) : CompileM Unit := do
  let c ← current
  let k := c.locals.length - count
  setCurrent { c with locals := c.locals.take k ++
    (c.locals.drop k).map fun l => { l with depth := some c.scopeDepth } }

def markInitialized : CompileM Unit := markInitializedCount 1

/-- The locals that `declare_variable` compares a new name with. -/
def sameScopeLocals (depth : Nat) (ls : List Local) : List Local :=
  ls.reverse.takeWhile fun l => match l.depth with
    | some d => ¬ d < depth
    | none => true

def declareVariable (n : Name) : CompileM Unit := do
  let c ← current
  if (sameScopeLocals c.scopeDepth c.locals).any (fun l => l.name = n) then error
  else addLocal n

def setLocalType (i : Nat) (t : TypeHint) : CompileM Unit := do
  let c ← current
  setCurrent { c with locals := c.locals.modify i fun l => { l with type := t } }

/-- The type a local has after `update_local_type`. -/
def updatedType (currentType rhsType : TypeHint) : TypeHint :=
  if rhsType = .any then .any
  else if currentType = .any then rhsType
  else if currentType ≠ rhsType then .any
  else currentType

def updateLocalType (i : Nat) (rhsType : TypeHint) : CompileM Unit := do
  let c ← current
  setCurrent { c with locals := c.locals.modify i fun l =>
    { l with type := updatedType l.type rhsType } }

def localType (i : Nat) : CompileM TypeHint := do
  pure ((((← current).locals[i]?).map (·.type)).getD .any)

end Compile

end ToiLang
