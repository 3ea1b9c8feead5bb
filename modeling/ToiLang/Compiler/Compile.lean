import ToiLang.Compiler.Stmt

namespace ToiLang.Compile

/- The walk of the parser over a program. Every statement of a block is preceded by a mark
with the `local_count` it starts at. -/
mutual

def expr : Expr → CompileM Code
  | .number x isInt => number x isInt
  | .string s => string s
  | .fstring ps => fstring (fparts ps)
  | .literalNil => literal .opNil .any
  | .literalTrue => literal .opTrue .bool
  | .literalFalse => literal .opFalse .bool
  | .grouping e => expression (expr e)
  | .unary o e => unary o (expr e)
  | .notIn a b => notIn (expr a) (expr b)
  | .binary o a b => binary o (expr a) (expr b)
  | .andOp a b => andOp (expr a) (expr b)
  | .orOp a b => orOp (expr a) (expr b)
  | .ternary c a b => ternary (expr c) (expr a) (expr b)
  | .range a b => range (expr a) (expr b)
  | .variable n => namedVariable n
  | .assign n tok r => assign n tok (rhs r)
  | .compound n o e => compound n o (expr e)
  | .dot e p => dot .opGetTable (expr e) p
  | .dotAssign e p r => dotAssign (expr e) p (rhs r)
  | .metaDot e p => dot .opGetMetaTable (expr e) p
  | .subscript e k => subscript (expr e) (expr k)
  | .subscriptAssign e k r => subscriptAssign (expr e) (expr k) (rhs r)
  | .slice e a b c => slice (expr e) (optExpr a) (optExpr b) (optExpr c)
  | .parseCall f args named spread =>
      parseCall (expr f) (exprs args) (namedArgs named) (optExpr spread)
  | .callComprehension f c e => callComprehension (expr f) (generator c (expr e))
  | .generatorComprehension c e => generator c (expr e)
  | .table es => table (entries es)
  | .tableInfix m es => tableInfix (expr m) (entries es)
  | .tableComprehension c k e => tableCompr c (optExpr k) (expr e)
  | .importExpression path => importExpression path
  | .anonymousFunction f => anonymousFunction (function f)

def optExpr : OptExpr → Option (CompileM Code)
  | .none => none
  | .some e => some (expr e)

def rhs : Rhs → CompileM Code
  | .one e => expression (expr e)
  | .commaList es => parseArrayLiteralFromCommaList (exprs es)

def exprs : Exprs → List (CompileM Code)
  | .nil => []
  | .cons e es => expr e :: exprs es

def namedArgs : NamedArgs → List (Name × CompileM Code)
  | .nil => []
  | .cons n e es => (n, expr e) :: namedArgs es

def fparts : FParts → List FPart
  | .nil => []
  | .text s ps => .text s :: fparts ps
  | .name n ps => .name n :: fparts ps
  | .nameMod n x ps => .nameMod n x :: fparts ps
  | .source e ps => .source (expr e) :: fparts ps

def entries : Entries → List Entry
  | .nil => []
  | .keyed k v es => .keyed (expr k) (expr v) :: entries es
  | .field n v es => .field n (expr v) :: entries es
  | .nameItem n es => .nameItem n :: entries es
  | .shorthand ns es => .shorthand ns :: entries es
  | .item v es => .item (expr v) :: entries es

def generator : Comprehension → CompileM Code → CompileM Code
  | .mk name sigil second first more cond, elem =>
      generatorComprehension ⟨name, sigil, second, expr first, exprs more⟩ (optExpr cond) elem

def tableCompr : Comprehension → Option (CompileM Code) → CompileM Code → CompileM Code
  | .mk name sigil second first more cond, key, elem =>
      tableComprehension ⟨name, sigil, second, expr first, exprs more⟩ (optExpr cond) key elem

def function : Function → CompileM Code
  | .mk name params body => functionBody name params (block body)

def functionName : Function → Name
  | .mk name _ _ => name

def stmt : Stmt → CompileM Code
  | .print es => printStatement (exprs es)
  | .ifStmt c body els => ifStatement (expr c) (block body) (elseBranch els)
  | .matchStmt e cs => matchStatement (expr e) (clauses cs)
  | .tryStmt body exc fin => tryStatement (block body) (exceptHandler exc) (finallyBody fin)
  | .withStmt e n body => withStatement (expr e) n (block body)
  | .throwStmt e => throwStatement (expr e)
  | .yieldStmt es => yieldStatement (exprs es)
  | .whileStmt c body => whileStatement (expr c) (block body)
  | .forStmt name sigil second first more body =>
      forStatement ⟨name, sigil, second, expr first, exprs more⟩ (block body)
  | .returnSemicolon => pure (op0 .opReturn)
  | .returnStmt es => returnStatement (exprs es)
  | .breakStmt => breakStatement
  | .continueStmt => continueStatement
  | .gcStmt => pure (op0 .opGc)
  | .assertStmt c m => assertStatement (expr c) (optExpr m)
  | .delStmt ts => sequence (delTargets ts)
  | .multiAssignment names es => multiAssignmentStatement names (exprs es)
  | .expression e => expressionStatement (expr e)
  | .functionDeclaration f => functionDeclaration (functionName f) (function f)
  | .globalFunctionDeclaration f => globalFunctionDeclaration (functionName f) (function f)
  | .decorated ds isGlobal f =>
      decorated (exprs ds) (functionName f)
        (if isGlobal then globalFunctionDeclaration (functionName f) (function f)
          else functionDeclaration (functionName f) (function f))
  | .importStmt paths => importStatement paths
  | .fromImport path names => fromImportStatement path names
  | .fromImportStar path => fromImportStar path
  | .globalDeclaration names i => globalDeclaration names (declInit i)
  | .variableDeclaration names i => variableDeclaration names (declInit i)

def block : Stmts → CompileM Code
  | .nil => pure .nil
  | .cons s ss => do
    let n ← localCount
    let c ← stmt s
    let rest ← block ss
    pure (seqs [.mark n, c, rest])

def elseBranch : ElseBranch → CompileM Code
  | .none => pure .nil
  | .elif c body els => ifStatement (expr c) (block body) (elseBranch els)
  | .els body => scopedBlock (block body)

def clauses : Clauses → List Clause
  | .nil => []
  | .case e body cs => .case (expr e) (block body) :: clauses cs
  | .els body => [.els (block body)]

def exceptHandler : ExceptClause → Option ExceptHandler
  | .none => none
  | .some name filter body => some ⟨name, optExpr filter, block body⟩

def finallyBody : FinallyClause → Option (CompileM Code)
  | .none => none
  | .some body => some (block body)

def declInit : DeclInit → Init
  | .none => .none
  | .commaList es => .commaList (exprs es)
  | .exprs es => .exprs (exprs es)

def delTargets : DelTargets → List (CompileM Code)
  | .nil => []
  | .variable n ts => deleteVariable n :: delTargets ts
  | .access n ks ts => deleteAccess (emitGetNamed n) (delKeys ks) :: delTargets ts
  | .paren e ks ts => deleteAccess (expression (expr e)) (delKeys ks) :: delTargets ts

def delKeys : DelKeys → List AccessKey
  | .last k => [delKey k]
  | .cons k ks => delKey k :: delKeys ks

def delKey : DelKey → AccessKey
  | .property n => .property n
  | .index e => .index (expr e)

end

/-- The compiler's state when `compile` starts a script. -/
def initialState (firstFunction stalePops : Nat) : State :=
  { current := initCompiler true, enclosing := [], typeStack := fun _ => .any, typeStackTop := 0
    inForRangeHeader := false, lastExprWasRange := false, functions := [], firstFunction
    stalePops }

/-- `compile` before `optimize_chunk`: the function objects of a script at the addresses from
`firstFunction` on, the script itself behind the functions it contains. -/
def compile (firstFunction stalePops : Nat) (program : Stmts) : Option (List ObjFunction) := do
  let (c, s) ← block program (initialState firstFunction stalePops)
  if (endBody c).jumpsFit none 0 then
    pure (s.functions ++ [finishedFunction s.current [] [] c])
  else none

end ToiLang.Compile
