import ToiLang.Compiler.State

namespace ToiLang.Compile

/-- The bits of the `double` that a small natural number converts to. -/
def doubleOfNat (n : Nat) : Double :=
  if n = 0 then 0
  else UInt64.ofNat ((n.log2 + 1023) * 2 ^ 52 + (n * 2 ^ (52 - n.log2) - 2 ^ 52))

example : doubleOfNat 1 = 0x3ff0000000000000 ∧ doubleOfNat 3 = 0x4008000000000000 := by decide

def expression (e : CompileM Code) : CompileM Code := do
  modify fun s => { s with lastExprWasRange := false }
  e

def number (x : Double) (isInt : Bool) : CompileM Code := do
  let c ← emitConstant (.number x)
  typePush (if isInt then .int else .float)
  pure c

def string (s : Bytes) : CompileM Code := do
  let c ← emitConstant (.string s)
  typePush .str
  pure c

def literal (o : OpCode) (t : TypeHint) : CompileM Code := do
  typePush t
  pure (op0 o)

def unary (o : UnaryOp) (e : CompileM Code) : CompileM Code := do
  let c ← e
  let rhs ← typePop
  match o with
  | .not =>
    typePush .bool
    pure (.seq c (op0 .opNot))
  | .minus =>
    typePush (if isNumericType rhs then rhs else .any)
    pure (.seq c (op0 .opNegate))
  | .hash =>
    typePush .int
    pure (.seq c (op0 .opLength))

def notIn (a b : CompileM Code) : CompileM Code := do
  let ca ← a
  let cb ← b
  let _ ← typePop
  let _ ← typePop
  typePush .bool
  pure (seqs [ca, cb, op0 .opIn, op0 .opNot])

/-- The opcode of an arithmetic operator: the first when both operands are known to be
integers, the second when both are known to be numbers, else the general one. -/
def arithOp (lhs rhs : TypeHint) (intOp floatOp anyOp : OpCode) : OpCode × TypeHint :=
  if isNumericType lhs && isNumericType rhs then
    if lhs = .int ∧ rhs = .int then (intOp, .int) else (floatOp, .float)
  else (anyOp, .any)

def divideOp (lhs rhs : TypeHint) : OpCode × TypeHint :=
  if isNumericType lhs && isNumericType rhs then (.opFdiv, .float) else (.opDivide, .any)

/-- The opcodes that `binary` emits for an operator and the type of the result. -/
def binaryOps (o : BinaryOp) (lhs rhs : TypeHint) : List OpCode × TypeHint :=
  match o with
  | .bangEqual => ([.opEqual, .opNot], .bool)
  | .equalEqual => ([.opEqual], .bool)
  | .greater => ([.opGreater], .bool)
  | .greaterEqual => ([.opLess, .opNot], .bool)
  | .less => ([.opLess], .bool)
  | .lessEqual => ([.opGreater, .opNot], .bool)
  | .has => ([.opHas], .bool)
  | .inOp => ([.opIn], .bool)
  | .append => ([.opAppend], .any)
  | .plus => let r := arithOp lhs rhs .opIadd .opFadd .opAdd; ([r.1], r.2)
  | .minus => let r := arithOp lhs rhs .opIsub .opFsub .opSubtract; ([r.1], r.2)
  | .star => let r := arithOp lhs rhs .opImul .opFmul .opMultiply; ([r.1], r.2)
  | .slash => let r := divideOp lhs rhs; ([r.1], r.2)
  | .power => ([.opPower], .any)
  | .intDiv => ([.opIntDiv], .any)
  | .percent => let r := arithOp lhs rhs .opImod .opFmod .opModulo; ([r.1], r.2)

def binary (o : BinaryOp) (a b : CompileM Code) : CompileM Code := do
  let ca ← a
  let cb ← b
  let rhs ← typePop
  let lhs ← typePop
  let r := binaryOps o lhs rhs
  typePush r.2
  pure (seqs (ca :: cb :: r.1.map op0))

def andOp (a b : CompileM Code) : CompileM Code := do
  let ca ← a
  let _ ← typePop
  let cb ← b
  let _ ← typePop
  typePush .any
  pure (.seq ca (.skipIfFalse (.seq (op0 .opPop) cb)))

def orOp (a b : CompileM Code) : CompileM Code := do
  let ca ← a
  let _ ← typePop
  let cb ← b
  let _ ← typePop
  typePush .any
  pure (.seq ca (.branch .nil (.seq (op0 .opPop) cb)))

def ternary (c a b : CompileM Code) : CompileM Code := do
  let cc ← c
  let _ ← typePop
  let ca ← a
  let cb ← b
  let falseType ← typePop
  let trueType ← typePop
  typePush (if trueType = falseType then trueType else .any)
  pure (.seq cc (.branch (.seq (op0 .opPop) ca) (.seq (op0 .opPop) cb)))

/-- `range_`: in the header of a `for` loop both bounds stay on the stack. -/
def range (a b : CompileM Code) : CompileM Code := do
  let ca ← a
  let cb ← b
  if (← get).inForRangeHeader then
    modify fun s => { s with lastExprWasRange := true }
    pure (.seq ca cb)
  else
    let _ ← typePop
    let _ ← typePop
    typePush .any
    pure (seqs [ca, cb, .call ⟨.opRange, []⟩ 1])

/-- What a name resolves to: the instructions that read and write it and their operand. -/
structure Target where
  getOp : OpCode
  setOp : OpCode
  arg : Nat
  declaredGlobal : Bool
  deriving DecidableEq, Repr

/-- The first lines of `named_variable`. -/
def resolveName (n : Name) : CompileM Target := do
  let declaredGlobal ← isExplicitGlobalName n
  match ← resolveLocal n with
  | some i => pure ⟨.opGetLocal, .opSetLocal, i, declaredGlobal⟩
  | none =>
    let u ← if declaredGlobal then pure none else resolveUpvalue n
    match u with
    | some i => pure ⟨.opGetUpvalue, .opSetUpvalue, i, declaredGlobal⟩
    | none =>
      let k ← identifierConstant n
      pure ⟨.opGetGlobal, .opSetGlobal, k.toNat, declaredGlobal⟩

/-- A new local in the next free slot, stored to from the top of the stack. -/
def storeNewLocal (n : Name) (t : TypeHint) : CompileM Code := do
  let i ← localCount
  addLocal n
  markInitialized
  setLocalType i t
  pure (op1 .opSetLocal i)

/-- `emit_assignment_store`, outside the REPL. -/
def emitAssignmentStore (n : Name) (t : Target) (rhsType : TypeHint) : CompileM Code := do
  if t.getOp = .opGetLocal then
    updateLocalType t.arg rhsType
    pure (op1 t.setOp t.arg)
  else if t.getOp = .opGetUpvalue then
    pure (op1 t.setOp t.arg)
  else
    storeNewLocal n rhsType

/-- `named_variable` where the name is not assigned. -/
def namedVariable (n : Name) : CompileM Code := do
  let t ← resolveName n
  if t.getOp = .opGetLocal then
    typePush (← localType t.arg)
  else
    typePush .any
  pure (op1 t.getOp t.arg)

/-- In a function, `x = e` with a new name reserves the local before `e` is compiled. -/
def predeclareLocal (n : Name) (tok : AssignTok) (t : Target) : CompileM (Code × Target × Bool) := do
  let c ← current
  if ¬ c.isScript ∧ ¬ t.declaredGlobal ∧ t.setOp = .opSetGlobal ∧ tok = .equals then
    let i ← localCount
    addLocal n
    markInitialized
    pure (seqs [op0 .opNil, op1 .opSetLocal i, op0 .opPop],
      { t with getOp := .opGetLocal, setOp := .opSetLocal, arg := i }, true)
  else
    pure (.nil, t, false)

/-- The store behind the right-hand side of `x = e` and `x := e`. -/
def assignStore (n : Name) (tok : AssignTok) (t : Target) (predeclared : Bool)
    (rhsType : TypeHint) : CompileM Code := do
  let c ← current
  if t.declaredGlobal then
    let k ← identifierConstant n
    pure (op .opSetGlobal [k])
  else if t.setOp = .opSetLocal then
    updateLocalType t.arg rhsType
    pure (op1 .opSetLocal t.arg)
  else if t.setOp = .opSetUpvalue then
    pure (op1 .opSetUpvalue t.arg)
  else if ¬ c.isScript ∧ ¬ predeclared then
    storeNewLocal n rhsType
  else if tok = .walrus ∧ t.setOp = .opSetGlobal then
    let k ← identifierConstant n
    pure (op .opSetGlobal [k])
  else
    emitAssignmentStore n t rhsType

/-- `named_variable` at `=` or `:=`. -/
def assign (n : Name) (tok : AssignTok) (rhs : CompileM Code) : CompileM Code := do
  let t ← resolveName n
  let (pre, t, predeclared) ← predeclareLocal n tok t
  let r ← rhs
  let rhsType ← typePop
  let store ← assignStore n tok t predeclared rhsType
  typePush rhsType
  pure (seqs [pre, r, store])

/-- The opcode that `emit_compound_op` emits, if any, and the type of the result. -/
def compoundOps (o : BinaryOp) (lhs rhs : TypeHint) : List OpCode × TypeHint :=
  match o with
  | .plus => let r := arithOp lhs rhs .opIadd .opFadd .opAddInplace; ([r.1], r.2)
  | .minus => let r := arithOp lhs rhs .opIsub .opFsub .opSubtract; ([r.1], r.2)
  | .star => let r := arithOp lhs rhs .opImul .opFmul .opMultiply; ([r.1], r.2)
  | .slash => let r := divideOp lhs rhs; ([r.1], r.2)
  | .percent => let r := arithOp lhs rhs .opImod .opFmod .opModulo; ([r.1], r.2)
  | _ => ([], .any)

/-- The value that a compound assignment starts from, and its static type. -/
def compoundLoad (n : Name) (t : Target) : CompileM (Code × TypeHint) := do
  let c ← current
  if t.declaredGlobal then
    let k ← identifierConstant n
    pure (op .opGetGlobal [k], .any)
  else if t.getOp = .opGetLocal then
    pure (op1 .opGetLocal t.arg, ← localType t.arg)
  else if t.getOp = .opGetUpvalue then
    pure (op1 .opGetUpvalue t.arg, .any)
  else if ¬ c.isScript then
    pure (op0 .opNil, .any)
  else
    pure (op1 t.getOp t.arg, .any)

def compoundStore (n : Name) (t : Target) (outType : TypeHint) : CompileM Code := do
  let c ← current
  if t.declaredGlobal then
    let k ← identifierConstant n
    pure (op .opSetGlobal [k])
  else if t.setOp = .opSetLocal then
    updateLocalType t.arg outType
    pure (op1 .opSetLocal t.arg)
  else if t.setOp = .opSetUpvalue then
    pure (op1 .opSetUpvalue t.arg)
  else if ¬ c.isScript then
    storeNewLocal n outType
  else
    emitAssignmentStore n t outType

/-- `named_variable` at `+=` and the like. -/
def compound (n : Name) (o : BinaryOp) (e : CompileM Code) : CompileM Code := do
  let t ← resolveName n
  let (load, lhsType) ← compoundLoad n t
  typePush lhsType
  let r ← expression e
  let rhsType ← typePop
  let lhsPopped ← typePop
  let ops := compoundOps o lhsPopped rhsType
  let store ← compoundStore n t ops.2
  typePush ops.2
  pure (seqs (load :: r :: ops.1.map op0 ++ [store]))

def emitGetNamed (n : Name) : CompileM Code := do
  match ← resolveLocal n with
  | some i => pure (op1 .opGetLocal i)
  | none =>
    match ← resolveUpvalue n with
    | some i => pure (op1 .opGetUpvalue i)
    | none => pure (op .opGetGlobal [← identifierConstant n])

def emitSetNamed (n : Name) : CompileM Code := do
  match ← resolveLocal n with
  | some i => pure (op1 .opSetLocal i)
  | none =>
    match ← resolveUpvalue n with
    | some i => pure (op1 .opSetUpvalue i)
    | none => pure (op .opSetGlobal [← identifierConstant n])

/-- The type that an access or a call leaves in place of its base. -/
def replaceType (baseTop : Nat) (t : TypeHint) : CompileM Unit := do
  setTypeStackTop baseTop
  typePush t

def dot (getOp : OpCode) (e : CompileM Code) (p : Name) : CompileM Code := do
  let c ← e
  let baseTop := (← getTypeStackTop) - 1
  let k ← identifierConstant p
  replaceType baseTop .any
  pure (seqs [c, op .opConstant [k], op0 getOp])

def dotAssign (e : CompileM Code) (p : Name) (rhs : CompileM Code) : CompileM Code := do
  let c ← e
  let baseTop := (← getTypeStackTop) - 1
  let k ← identifierConstant p
  let r ← rhs
  let rhsType ← typePop
  replaceType baseTop rhsType
  pure (seqs [c, op .opConstant [k], r, op0 .opSetTable])

def subscript (e k : CompileM Code) : CompileM Code := do
  let c ← e
  let baseTop := (← getTypeStackTop) - 1
  let ck ← expression k
  replaceType baseTop .any
  pure (seqs [c, ck, op0 .opGetTable])

def subscriptAssign (e k rhs : CompileM Code) : CompileM Code := do
  let c ← e
  let baseTop := (← getTypeStackTop) - 1
  let ck ← expression k
  let r ← rhs
  let rhsType ← typePop
  replaceType baseTop rhsType
  pure (seqs [c, ck, r, op0 .opSetTable])

def sliceStart : Option (CompileM Code) → CompileM Code
  | none => pure (op0 .opNil)
  | some e => e

def sliceStop : Option (CompileM Code) → CompileM Code
  | none => pure (op0 .opNil)
  | some e => expression e

def sliceStep : Option (CompileM Code) → CompileM Code
  | none => emitConstant (.number (doubleOfNat 1))
  | some e => expression e

def slice (e : CompileM Code) (start stop step : Option (CompileM Code)) : CompileM Code := do
  let c ← e
  let baseTop := (← getTypeStackTop) - 1
  let c1 ← sliceStart start
  let c2 ← sliceStop stop
  let c3 ← sliceStep step
  replaceType baseTop .any
  pure (seqs [c, c1, c2, c3, op0 .opSlice])

/-- `parse_array_literal_from_comma_list`, from the element with number `index`. -/
def arrayElements (index : Nat) : List (CompileM Code) → CompileM Code
  | [] => pure .nil
  | e :: es => do
    let k ← emitConstant (.number (doubleOfNat index))
    let c ← expression e
    let rest ← arrayElements (index + 1) es
    pure (seqs [op0 .opDup, k, c, op0 .opSetTable, op0 .opPop, rest])

def parseArrayLiteralFromCommaList (es : List (CompileM Code)) : CompileM Code := do
  pure (.seq (op0 .opNewTable) (← arrayElements 1 es))

/-- The positional arguments of a call, each checked against the limit of 255. -/
def callArguments (count : Nat) : List (CompileM Code) → CompileM (Code × Nat)
  | [] => pure (.nil, count)
  | e :: es => do
    let c ← expression e
    let _ ← typePop
    if count = 255 then error else
      let (rest, n) ← callArguments (count + 1) es
      pure (.seq c rest, n)

def namedArguments : List (Name × CompileM Code) → CompileM Code
  | [] => pure .nil
  | (n, e) :: es => do
    let k ← emitConstant (.string n)
    let c ← expression e
    let _ ← typePop
    let rest ← namedArguments es
    pure (seqs [op0 .opDup, k, c, op0 .opSetTable, op0 .opPop, rest])

/-- The call instruction behind the arguments, with the spread or the named table. -/
def callTail (count : Nat) (named : List (Name × CompileM Code))
    (spread : Option (CompileM Code)) : CompileM Code := do
  match named, spread with
  | [], none => pure (emitCall count 1)
  | [], some e =>
    if count = 255 then error else
      let c ← expression e
      let _ ← typePop
      pure (.seq c (.call ⟨.opCallExpand, [UInt8.ofNat count]⟩ 1))
  | _ :: _, none =>
    let c ← namedArguments named
    if count = 255 then error else
      pure (seqs [op0 .opNewTable, c, .call ⟨.opCallNamed, [UInt8.ofNat (count + 1)]⟩ 1])
  | _ :: _, some _ => error

def parseCall (f : CompileM Code) (args : List (CompileM Code))
    (named : List (Name × CompileM Code)) (spread : Option (CompileM Code)) : CompileM Code := do
  let c ← f
  let baseTop ← getTypeStackTop
  let (ca, count) ← callArguments 0 args
  let tail ← callTail count named spread
  setTypeStackTop baseTop
  let _ ← typePop
  typePush .any
  pure (seqs [c, ca, tail])

/-- `f(e for x in it)`: the generator is the only argument. -/
def callComprehension (f g : CompileM Code) : CompileM Code := do
  let c ← f
  let baseTop ← getTypeStackTop
  let cg ← g
  let _ ← typePop
  setTypeStackTop baseTop
  let _ ← typePop
  typePush .any
  pure (seqs [c, cg, emitCall 1 1])

/-- One entry of a table literal; the table is on the stack and stays there. -/
inductive Entry
  | keyed (k v : CompileM Code)
  | field (n : Name) (v : CompileM Code)
  | nameItem (n : Name)
  | shorthand (ns : List Name)
  | item (v : CompileM Code)

def shorthandFields : List Name → CompileM Code
  | [] => pure .nil
  | n :: ns => do
    let k ← emitConstant (.string n)
    let c ← namedVariable n
    let rest ← shorthandFields ns
    pure (seqs [op0 .opDup, k, c, op0 .opSetTable, op0 .opPop, rest])

/-- `parse_table_entries`, where the next array item has number `index`. -/
def tableEntries (index : Nat) : List Entry → CompileM Code
  | [] => pure .nil
  | .keyed k v :: es => do
    let ck ← expression k
    let cv ← expression v
    let rest ← tableEntries index es
    pure (seqs [op0 .opDup, ck, cv, op0 .opSetTable, op0 .opPop, rest])
  | .field n v :: es => do
    let ck ← emitConstant (.string n)
    let cv ← expression v
    let rest ← tableEntries index es
    pure (seqs [op0 .opDup, ck, cv, op0 .opSetTable, op0 .opPop, rest])
  | .nameItem n :: es => do
    let ck ← emitConstant (.number (doubleOfNat index))
    let cv ← namedVariable n
    let rest ← tableEntries (index + 1) es
    pure (seqs [op0 .opDup, ck, cv, op0 .opSetTable, op0 .opPop, rest])
  | .shorthand ns :: es => do
    let c ← shorthandFields ns
    let rest ← tableEntries index es
    pure (.seq c rest)
  | .item v :: es => do
    let ck ← emitConstant (.number (doubleOfNat index))
    let cv ← expression v
    let rest ← tableEntries (index + 1) es
    pure (seqs [op0 .opDup, ck, cv, op0 .opSetTable, op0 .opPop, rest])

def table (es : List Entry) : CompileM Code := do
  let baseTop ← getTypeStackTop
  let c ← tableEntries 1 es
  replaceType baseTop .table
  pure (.seq (op0 .opNewTable) c)

def tableInfix (m : CompileM Code) (es : List Entry) : CompileM Code := do
  let cm ← m
  let baseTop ← getTypeStackTop
  let c ← tableEntries 1 es
  replaceType (baseTop - 1) .table
  pure (seqs [cm, op0 .opNewTable, c, op0 .opSetMetatable])

def importExpression (path : Bytes) : CompileM Code := do
  let k ← makeConstant (.string path)
  typePush .any
  pure (op .opImport [k])

/-- One part of an f-string. -/
inductive FPart
  | text (s : Bytes)
  | name (n : Name)
  | nameMod (n : Name) (x : Double)
  | source (e : CompileM Code)

def fstringPart : FPart → CompileM Code
  | .text s => emitConstant (.string s)
  | .name n => do
    let c ← emitGetNamed n
    typePush .any
    pure c
  | .nameMod n x => do
    let c ← emitGetNamed n
    let k ← emitConstant (.number x)
    typePush .int
    pure (seqs [c, k, op0 .opImod])
  | .source e => expression e

def fstringParts : List FPart → CompileM Code
  | [] => pure .nil
  | p :: ps => do
    let c ← fstringPart p
    let rest ← fstringParts ps
    pure (.seq c rest)

def fstring (ps : List FPart) : CompileM Code := do
  let baseTop ← getTypeStackTop
  let c ← fstringParts ps
  if ps.isEmpty then
    let c ← emitConstant (.string [])
    replaceType baseTop .str
    pure c
  else if ps.length > 255 then
    error
  else
    replaceType baseTop .str
    pure (.seq c (op1 .opBuildString ps.length))

end ToiLang.Compile
