import ToiLang.Compiler.Expr

namespace ToiLang.Compile

def initCompiler (isScript : Bool) : Compiler :=
  { isScript, locals := [⟨[], some 0, false, .any⟩], explicitGlobals := [], upvalues := []
    scopeDepth := if isScript then 1 else 0, constants := [], isGenerator := false
    loopContext := none }

/-- `init_compiler(TYPE_FUNCTION)` and the `begin_scope` that always follows it. -/
def enterFunction : CompileM Unit := do
  modify fun s => { s with current := initCompiler false, enclosing := s.current :: s.enclosing }
  beginScope

/-- The value a literal default stands for: `true` becomes the number 1, `false` nil. -/
def defaultValue : DefaultLiteral → Value
  | .number x => .number x
  | .string s => .string s
  | .nil => .nil
  | .true => .number (doubleOfNat 1)
  | .false => .nil

/-- `param_types` reaches up to the last parameter with a type. -/
def paramTypes : List Param → List TypeHint
  | [] => []
  | p :: ps =>
    if p.hint.isNone && (paramTypes ps).isEmpty then []
    else p.hint.getD .any :: paramTypes ps

/-- The code of a finished function body, ended by `end_compiler`. -/
def endBody (body : Code) : Code := .seq body (op0 .opReturn)

def finishedFunction (c : Compiler) (name : Name) (params : List Param) (body : Code) :
    ObjFunction :=
  { name
    arity := params.length
    upvalueCount := c.upvalues.length
    code := encode ((endBody body).flatten none 0)
    constants := c.constants
    defaults := params.filterMap fun p => p.default.map defaultValue
    isVariadic := params.any (·.isVariadic)
    paramTypes := paramTypes params
    paramNames := params.map (·.name)
    isSelf := params.head?.any fun p => p.name = ascii "self"
    isGenerator := c.isGenerator
    body := endBody body }

def upvalueBytes (us : List Upvalue) : List UInt8 :=
  us.flatMap fun u => [if u.isLocal then 1 else 0, u.index]

/-- `end_compiler` and the `OP_CLOSURE` that the enclosing function makes the closure with. -/
def endCompiler (name : Name) (params : List Param) (body : Code) : CompileM Code := do
  let s ← get
  match s.enclosing with
  | [] => error
  | e :: es =>
    if (endBody body).jumpsFit none 0 then
      let id := s.firstFunction + s.functions.length
      set { s with
        current := e
        enclosing := es
        functions := s.functions ++ [finishedFunction s.current name params body] }
      let k ← makeConstant (.function id)
      pure (op .opClosure (k :: upvalueBytes s.current.upvalues))
    else error

/-- The parameter list of `function_body`; `hadDefault` says whether a parameter before had a
default. -/
def declareParams (index : Nat) (hadDefault : Bool) : List Param → CompileM Unit
  | [] => pure ()
  | p :: ps => do
    if p.isVariadic && (!ps.isEmpty || p.default.isSome) then error
    else if !p.isVariadic && (index + 1 > 255 || (hadDefault && p.default.isNone)) then error
    else
      declareVariable p.name
      match p.hint with
      | some t => setLocalType ((← localCount) - 1) t
      | none => pure ()
      declareParams (index + 1) (hadDefault || p.default.isSome) ps

def initializeLocals : CompileM Unit := do
  let c ← current
  setCurrent { c with locals := c.locals.map fun l =>
    { l with depth := some (l.depth.getD c.scopeDepth) } }

def functionBody (name : Name) (params : List Param) (body : CompileM Code) : CompileM Code := do
  enterFunction
  declareParams 0 false params
  initializeLocals
  let b ← body
  endCompiler name params b

def anonymousFunction (f : CompileM Code) : CompileM Code := do
  let c ← f
  typePush .any
  pure c

/-- A block in a scope of its own. -/
def scopedBlock (body : CompileM Code) : CompileM Code := do
  beginScope
  let b ← body
  let e ← endScope
  pure (.seq b e)

/-- An expression at the start of a statement, where the type stack is emptied. -/
def freshExpression (e : CompileM Code) : CompileM Code := do
  setTypeStackTop 0
  expression e

/-- The expressions of a comma list, each on an empty type stack. -/
def freshExpressions : List (CompileM Code) → CompileM Code
  | [] => pure .nil
  | e :: es => do
    let c ← freshExpression e
    let rest ← freshExpressions es
    pure (.seq c rest)

def nils (n : Nat) : Code := seqs (List.replicate n (op0 .opNil))
def pops (n : Nat) : Code := seqs (List.replicate n (op0 .opPop))

/-- `OP_ADJUST_STACK` to the local count, whose operand is one byte. -/
def adjustStack : CompileM Code := do
  pure (op1 .opAdjustStack (← localCount))

def printStatement (es : List (CompileM Code)) : CompileM Code := do
  let c ← freshExpressions es
  if es.length > 255 then error else
    pure (.seq c (op1 .opPrint es.length))

/-- `delete_variable`: the static type of a local stays as it was. -/
def deleteVariable (n : Name) : CompileM Code := do
  match ← resolveLocal n with
  | some i => pure (seqs [op0 .opNil, op1 .opSetLocal i, op0 .opPop])
  | none =>
    match ← resolveUpvalue n with
    | some i => pure (seqs [op0 .opNil, op1 .opSetUpvalue i, op0 .opPop])
    | none => pure (op .opDeleteGlobal [← identifierConstant n])

/-- A key of an access chain behind `del`. -/
inductive AccessKey
  | property (n : Name)
  | index (e : CompileM Code)

def accessKey : AccessKey → CompileM Code
  | .property n => do pure (op .opConstant [← identifierConstant n])
  | .index e => expression e

/-- `delete_access_chain`: all keys but the last are read through. -/
def deleteAccessChain : List AccessKey → CompileM Code
  | [] => error
  | [k] => do pure (.seq (← accessKey k) (op0 .opDeleteTable))
  | k :: ks => do
    let c ← accessKey k
    let rest ← deleteAccessChain ks
    pure (seqs [c, op0 .opGetTable, rest])

def deleteAccess (base : CompileM Code) (ks : List AccessKey) : CompileM Code := do
  let c ← base
  let rest ← deleteAccessChain ks
  pure (.seq c rest)

def sequence : List (CompileM Code) → CompileM Code
  | [] => pure .nil
  | m :: ms => do
    let c ← m
    let rest ← sequence ms
    pure (.seq c rest)

def expressionStatement (e : CompileM Code) : CompileM Code := do
  let c ← freshExpression e
  pure (seqs [c, op0 .opPop, ← adjustStack])

/-- `assign_name_from_stack`, outside the REPL. -/
def assignNameFromStack (n : Name) (rhsType : TypeHint) : CompileM Code := do
  match ← resolveLocal n with
  | some i =>
    updateLocalType i rhsType
    pure (op1 .opSetLocal i)
  | none =>
    if ← isExplicitGlobalName n then
      pure (op .opSetGlobal [← identifierConstant n])
    else
      match ← resolveUpvalue n with
      | some i => pure (op1 .opSetUpvalue i)
      | none => storeNewLocal n rhsType

/-- The new names among the targets of a multiple assignment become locals. -/
def declareTargets : List Name → CompileM Nat
  | [] => pure 0
  | n :: ns => do
    if ← isExplicitGlobalName n then declareTargets ns
    else
      match ← resolveLocal n with
      | some _ => declareTargets ns
      | none =>
        addLocal n
        pure ((← declareTargets ns) + 1)

def assignTargets : List Name → CompileM Code
  | [] => pure .nil
  | n :: ns => do
    let c ← assignNameFromStack n .any
    let rest ← assignTargets ns
    pure (seqs [c, op0 .opPop, rest])

def multiAssignmentStatement (targets : List Name) (es : List (CompileM Code)) :
    CompileM Code := do
  if targets.length > 255 then error else
    let declared ← declareTargets targets
    markInitializedCount declared
    let before ← adjustStack
    let c ← freshExpressions es
    let count ← localCount
    let fill :=
      if es.length > 1 then nils (targets.length - es.length)
      else op .opUnpack [UInt8.ofNat count, UInt8.ofNat targets.length]
    let stores ← assignTargets targets.reverse
    pure (seqs [before, c, fill, stores, ← adjustStack])

def ifStatement (c body els : CompileM Code) : CompileM Code := do
  let cc ← freshExpression c
  let cb ← scopedBlock body
  let ce ← els
  pure (.seq cc (.branch (.seq (op0 .opPop) cb) (.seq (op0 .opPop) ce)))

/-- A clause of `match`. -/
inductive Clause
  | case (e body : CompileM Code)
  | els (body : CompileM Code)

def matchClauses (slot : Nat) : List Clause → CompileM Code
  | [] => pure .nil
  | .case e body :: cs => do
    setTypeStackTop 0
    let ce ← expression e
    let cb ← scopedBlock body
    let rest ← matchClauses slot cs
    pure (seqs [op1 .opGetLocal slot, ce, op0 .opEqual,
      .branch (.seq (op0 .opPop) cb) (.seq (op0 .opPop) rest)])
  | [.els body] => scopedBlock body
  | .els _ :: _ => error

def matchStatement (e : CompileM Code) (cs : List Clause) : CompileM Code := do
  beginScope
  let c ← freshExpression e
  let slot ← localCount
  addLocal (ascii "$match_value")
  markInitialized
  setTypeStackTop 0
  if cs.isEmpty then error else
    let cc ← matchClauses slot cs
    pure (seqs [c, cc, ← endScope])

/-- An except clause: the name of the exception, the filter, the body. -/
structure ExceptHandler where
  name : Option Name
  filter : Option (CompileM Code)
  body : CompileM Code

def exceptBody (slot : Nat) (filter : Option (CompileM Code)) (body : CompileM Code) :
    CompileM Code := do
  match filter with
  | none => body
  | some f =>
    let cf ← freshExpression f
    let cb ← body
    pure (.seq cf (.branch (.seq (op0 .opPop) cb)
      (seqs [op0 .opPop, op1 .opGetLocal slot, op0 .opThrow])))

/-- The code of an except clause up to its `OP_END_TRY`. The exception is on the stack; with
a name it becomes that local. -/
def exceptClause (h : ExceptHandler) : CompileM Code := do
  beginScope
  match h.name, h.filter with
  | some n, filter =>
    let slot ← localCount
    addLocal n
    markInitialized
    let c ← exceptBody slot filter h.body
    pure (seqs [op1 .opSetLocal slot, c, ← endScope])
  | none, none =>
    let c ← h.body
    pure (seqs [op0 .opPop, c, ← endScope])
  | none, some _ => error

def optionalCode : Option (CompileM Code) → CompileM Code
  | none => pure .nil
  | some m => m

def tryStatement (body : CompileM Code) (exc : Option ExceptHandler)
    (fin : Option (CompileM Code)) : CompileM Code := do
  let depth ← localCount
  let cb ← scopedBlock body
  if exc.isNone && fin.isNone then error else
    let ce ← optionalCode (exc.map exceptClause)
    let cf ← optionalCode (fin.map scopedBlock)
    pure (.tryBlock exc.isSome true fin.isSome (UInt8.ofNat depth) cb ce cf)

/-- `as name`: a known name is stored to, a new one becomes a local. -/
def withName : Option Name → CompileM Code
  | none => pure (op0 .opPop)
  | some n => do
    match ← resolveLocal n with
    | some i => pure (.seq (op1 .opSetLocal i) (op0 .opPop))
    | none =>
      match ← resolveUpvalue n with
      | some i => pure (.seq (op1 .opSetUpvalue i) (op0 .opPop))
      | none =>
        addLocal n
        markInitialized
        pure .nil

def withStatement (e : CompileM Code) (name : Option Name) (body : CompileM Code) :
    CompileM Code := do
  beginScope
  let c ← freshExpression e
  let ctx ← localCount
  addLocal (ascii "$with_ctx")
  markInitialized
  let enter ← identifierConstant (ascii "__enter")
  let cn ← withName name
  let ex ← localCount
  addLocal (ascii "$with_ex")
  markInitialized
  let depth ← localCount
  let cb ← scopedBlock body
  let exit ← identifierConstant (ascii "__exit")
  pure (seqs [c,
    op1 .opGetLocal ctx, op .opConstant [enter], op0 .opGetTable,
    .branch (emitCall 0 1) (.seq (op0 .opPop) (op1 .opGetLocal ctx)),
    cn, op0 .opNil,
    .tryBlock true false true (UInt8.ofNat depth) cb
      (seqs [op1 .opSetLocal ex, op1 .opGetLocal ex, op0 .opThrow])
      (seqs [op1 .opGetLocal ctx, op .opConstant [exit], op0 .opGetTable,
        .branch (seqs [op1 .opGetLocal ex, emitCall 1 1, op0 .opPop]) (op0 .opPop)]),
    ← endScope])

/-- Compiles a loop body with the loop's context in place. -/
def inLoop (l : LoopContext) (body : CompileM Code) : CompileM Code := do
  let saved := (← current).loopContext
  setCurrent { (← current) with loopContext := some l }
  let c ← body
  setCurrent { (← current) with loopContext := saved }
  pure c

/-- The context of a `while` loop: `slots_to_pop` is never set. -/
def whileContext : CompileM LoopContext := do
  pure ⟨(← current).scopeDepth, false, (← get).stalePops⟩

def whileStatement (c body : CompileM Code) : CompileM Code := do
  let saved := (← current).loopContext
  let l ← whileContext
  setCurrent { (← current) with loopContext := some l }
  let cc ← freshExpression c
  let cb ← scopedBlock body
  setCurrent { (← current) with loopContext := saved }
  pure (.whileLoop cc cb)

def returnStatement (es : List (CompileM Code)) : CompileM Code := do
  let c ← freshExpressions es
  match es with
  | [] => pure (.seq (op0 .opNil) (op0 .opReturn))
  | [_] => pure (.seq c (op0 .opReturn))
  | _ => pure (.seq c (op1 .opReturnN es.length))

/-- The header of an iteration: `name[#][, second] in first, more...`. -/
structure IterHeader where
  name : Name
  sigil : Bool
  second : Option Name
  first : CompileM Code
  more : List (CompileM Code)

def IterHeader.eligibleForRange (h : IterHeader) : Bool := h.second.isNone && !h.sigil

/-- The first expression of the header; the result says whether it was a range. -/
def headerExpression (h : IterHeader) (e : CompileM Code) : CompileM (Code × Bool) := do
  modify fun s => { s with inForRangeHeader := h.eligibleForRange }
  let c ← e
  modify fun s => { s with inForRangeHeader := false }
  pure (c, h.eligibleForRange && (← get).lastExprWasRange)

/-- The loop variables: a lone name is the value, behind a hidden key. -/
def IterHeader.loopVars (h : IterHeader) : List Name :=
  match h.second with
  | some s => [h.name, s]
  | none => if h.sigil then [h.name] else [ascii "(key)", h.name]

/-- The code from the iterable to the iterator triple on the stack. A single iterable is kept
in a hidden local. -/
def iteratorTriple (h : IterHeader) (first : Code) (isRange : Bool) (more : Code) :
    CompileM Code := do
  if isRange then
    pure (.seq first (.call ⟨.opRange, []⟩ 3))
  else if h.more.isEmpty then
    addLocal (ascii "(iterable)")
    markInitialized
    let slot := (← localCount) - 1
    pure (seqs [first, op1 .opGetLocal slot,
      op0 (if h.sigil then .opIterPrepIpairs else .opIterPrep)])
  else
    pure (seqs [first, more, nils (2 - h.more.length)])

/-- The end of a loop variable's life at the bottom of the loop body. -/
def popLoopVars : Nat → CompileM Code
  | 0 => pure .nil
  | n + 1 => do
    let c ← current
    match c.locals.getLast? with
    | none => error
    | some l =>
      setCurrent { c with locals := c.locals.dropLast }
      let rest ← popLoopVars n
      pure (.seq (.instr (popLocal l)) rest)

def addLocals : List Name → CompileM Unit
  | [] => pure ()
  | n :: ns => do
    addLocal n
    addLocals ns

/-- The loop around an iterator triple that is on top of the stack. -/
def iterLoop (vars : List Name) (body : CompileM Code) : CompileM Code := do
  let iter ← localCount
  addLocals [ascii "(iter)", ascii "(state)", ascii "(control)"]
  markInitializedCount 3
  let k := vars.length
  addLocals vars
  markInitializedCount k
  let count ← localCount
  let b ← body
  let drop ← popLoopVars k
  pure (.forIn
    (seqs [op1 .opGetLocal iter, op1 .opGetLocal (iter + 1), op1 .opGetLocal (iter + 2),
      emitCall 2 2, pops (2 - k),
      op1 .opGetLocal (count - k), op0 .opNil, op0 .opEqual])
    (seqs [op0 .opPop, op1 .opGetLocal (count - k), op1 .opSetLocal (count - k - 1), op0 .opPop,
      b, drop])
    (.seq (pops k) (op0 .opPop)))

def forRangeLoop (name : Name) (bounds : Code) (scopeDepth : Nat) (body : CompileM Code) :
    CompileM Code := do
  addLocals [name, ascii "(end)"]
  markInitializedCount 2
  let count ← localCount
  let b ← inLoop ⟨scopeDepth, true, 0⟩ (scopedBlock body)
  pure (.seq bounds (.forRange (UInt8.ofNat (count - 2)) (UInt8.ofNat (count - 1)) b))

def forStatement (h : IterHeader) (body : CompileM Code) : CompileM Code := do
  beginScope
  let scopeDepth := (← current).scopeDepth
  let (first, isRange) ← headerExpression h (freshExpression h.first)
  if isRange && !h.more.isEmpty then error
  else if h.more.length > 2 then error
  else
    let more ← freshExpressions h.more
    if isRange then
      let loop ← forRangeLoop h.name first scopeDepth body
      pure (.seq loop (← endScope))
    else if h.sigil && !h.more.isEmpty then error
    else
      let triple ← iteratorTriple h first false more
      let loop ← iterLoop h.loopVars
        (inLoop ⟨scopeDepth, true, h.loopVars.length⟩ (scopedBlock body))
      pure (seqs [triple, loop, ← endScope])

def breakStatement : CompileM Code := do
  let c ← current
  match c.loopContext with
  | none => error
  | some l => pure (.breakJump ((localsAbove l.scopeDepth c.locals).map popLocal))

def continueStatement : CompileM Code := do
  let c ← current
  match c.loopContext with
  | none => error
  | some l => pure (.continueJump ((localsAbove l.scopeDepth c.locals).map popLocal ++
      List.replicate l.slotsToPop popInstr))

def throwStatement (e : CompileM Code) : CompileM Code := do
  pure (.seq (← freshExpression e) (op0 .opThrow))

/-- `yield_statement`: the values that a resumption passes stay on the stack; a generator's
`gen_next` passes none. -/
def yieldStatement (es : List (CompileM Code)) : CompileM Code := do
  let c ← current
  if c.isScript then error else
    setCurrent { c with isGenerator := true }
    let k ← identifierConstant (ascii "coroutine")
    let y ← identifierConstant (ascii "yield")
    let ce ← freshExpressions es
    pure (seqs [op .opGetGlobal [k], op .opConstant [y], op0 .opGetTable, ce,
      emitCall es.length 0])

def assertMessage : Option (CompileM Code) → CompileM Code
  | none => emitConstant (.string (ascii "assert failed"))
  | some e => freshExpression e

def assertStatement (c : CompileM Code) (message : Option (CompileM Code)) : CompileM Code := do
  let cc ← freshExpression c
  let m ← assertMessage message
  pure (.seq cc (.branch (op0 .opPop) (seqs [op0 .opPop, m, op0 .opThrow])))

/-- `function_declaration_named`. -/
def functionDeclaration (name : Name) (f : CompileM Code) : CompileM Code := do
  declareVariable name
  markInitialized
  f

/-- `global_function_declaration_named`. -/
def globalFunctionDeclaration (name : Name) (f : CompileM Code) : CompileM Code := do
  let k ← identifierConstant name
  let c ← f
  pure (.seq c (op .opDefineGlobal [k]))

/-- `compile_expression_from_string`: the type stack is put back. -/
def expressionFromString (e : CompileM Code) : CompileM Code := do
  let top ← getTypeStackTop
  let c ← expression e
  setTypeStackTop top
  pure c

/-- `apply_decorators` on the decorators from the last to the first. -/
def applyDecorators (name : Name) : List (CompileM Code) → CompileM Code
  | [] => pure .nil
  | d :: ds => do
    let c ← expressionFromString d
    let g ← emitGetNamed name
    let s ← emitSetNamed name
    let rest ← applyDecorators name ds
    pure (seqs [c, g, emitCall 1 1, s, op0 .opPop, rest])

def decorated (ds : List (CompileM Code)) (name : Name) (decl : CompileM Code) :
    CompileM Code := do
  if ds.length > 64 then error else
    let c ← decl
    let a ← applyDecorators name ds.reverse
    pure (.seq c a)

def importStatement : List (Bytes × Name) → CompileM Code
  | [] => pure .nil
  | (path, name) :: rest => do
    declareVariable name
    let k ← makeConstant (.string path)
    markInitialized
    let c ← importStatement rest
    pure (.seq (op .opImport [k]) c)

def fromImportNames (k : UInt8) : List Name → CompileM Code
  | [] => pure .nil
  | n :: ns => do
    let c ← emitConstant (.string n)
    declareVariable n
    markInitialized
    let rest ← fromImportNames k ns
    pure (seqs [op .opImport [k], c, op0 .opGetTable, rest])

def fromImportStatement (path : Bytes) (names : List Name) : CompileM Code := do
  let k ← makeConstant (.string path)
  fromImportNames k names

def fromImportStar (path : Bytes) : CompileM Code := do
  let k ← makeConstant (.string path)
  pure (.seq (op .opImport [k]) (op0 .opImportStar))

/-- The initialiser of a declaration. -/
inductive Init
  | none
  | commaList (es : List (CompileM Code))
  | exprs (es : List (CompileM Code))

/-- The values of a declaration of `varCount` names; with two or more expressions the missing
ones are nil. -/
def initializer (varCount : Nat) : Init → CompileM Code
  | .none => pure (nils varCount)
  | .commaList es => if varCount = 1 then parseArrayLiteralFromCommaList es else error
  | .exprs es => do
    let c ← freshExpressions es
    pure (.seq c (if es.length > 1 then nils (varCount - es.length) else .nil))

def declareVariables : List Name → CompileM Unit
  | [] => pure ()
  | n :: ns => do
    declareVariable n
    declareVariables ns

def variableDeclaration (names : List Name) (init : Init) : CompileM Code := do
  if names.length > 255 then error else
    declareVariables names
    let c ← initializer names.length init
    markInitializedCount names.length
    pure c

def globalNames : List Name → CompileM (List UInt8)
  | [] => pure []
  | n :: ns => do
    registerExplicitGlobal n
    let k ← identifierConstant n
    pure (k :: (← globalNames ns))

def isNoInit : Init → Bool
  | .none => true
  | _ => false

def globalDeclaration (names : List Name) (init : Init) : CompileM Code := do
  if names.length > 255 then error else
    let ks ← globalNames names
    if !(← current).isScript && isNoInit init then
      pure .nil
    else
      let c ← initializer names.length init
      pure (.seq c (seqs (ks.reverse.map fun k => op .opDefineGlobal [k])))

/-- The filter of a comprehension around its element code. -/
def filtered (cond : Option (CompileM Code)) (elem : CompileM Code) : CompileM Code := do
  match cond with
  | none => elem
  | some c =>
    let cc ← expression c
    let ce ← elem
    pure (.seq cc (.branch (.seq (op0 .opPop) ce) (op0 .opPop)))

/-- The header expressions of a comprehension, down to the iterator triple. -/
def comprehensionTriple (h : IterHeader) : CompileM Code := do
  let (first, isRange) ← headerExpression h (expression h.first)
  if isRange && !h.more.isEmpty then error
  else if h.more.length > 2 then error
  else if h.sigil && !h.more.isEmpty then error
  else
    let more ← sequence (h.more.map expression)
    iteratorTriple h first isRange more

def generatorComprehension (h : IterHeader) (cond : Option (CompileM Code))
    (elem : CompileM Code) : CompileM Code := do
  enterFunction
  setCurrent { (← current) with isGenerator := true }
  let triple ← comprehensionTriple h
  let loop ← iterLoop h.loopVars (filtered cond do
    let k ← makeConstant (.string (ascii "coroutine"))
    let y ← identifierConstant (ascii "yield")
    let c ← expressionFromString elem
    pure (seqs [op .opImport [k], op .opConstant [y], op0 .opGetTable, c, emitCall 1 0]))
  let closure ← endCompiler [] [] (.seq triple loop)
  typePush .any
  pure (.seq closure (emitCall 0 1))

/-- The code that adds one element, or one key and value, to the table being built. -/
def comprehensionElement (list idx : Nat) (key : Option (CompileM Code))
    (elem : CompileM Code) : CompileM Code := do
  match key with
  | some k =>
    let ck ← expressionFromString k
    let ce ← expressionFromString elem
    pure (seqs [op1 .opGetLocal list, ck, ce, op0 .opSetTable, op0 .opPop])
  | none =>
    let ce ← expressionFromString elem
    let one ← emitConstant (.number (doubleOfNat 1))
    pure (seqs [op1 .opGetLocal list, op1 .opGetLocal idx, ce, op0 .opSetTable, op0 .opPop,
      op1 .opGetLocal idx, one, op0 .opAdd, op1 .opSetLocal idx, op0 .opPop])

def tableComprehension (h : IterHeader) (cond : Option (CompileM Code))
    (key : Option (CompileM Code)) (elem : CompileM Code) : CompileM Code := do
  let baseTop ← getTypeStackTop
  enterFunction
  addLocal (ascii "(list)")
  markInitialized
  let list := (← localCount) - 1
  let one ← emitConstant (.number (doubleOfNat 1))
  addLocal (ascii "(idx)")
  markInitialized
  let idx := (← localCount) - 1
  let triple ← comprehensionTriple h
  let loop ← iterLoop h.loopVars (filtered cond (comprehensionElement list idx key elem))
  let closure ← endCompiler [] []
    (seqs [op0 .opNewTable, one, triple, loop, op1 .opGetLocal list])
  replaceType baseTop .table
  pure (.seq closure (emitCall 0 1))

end ToiLang.Compile
