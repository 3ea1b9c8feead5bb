import ToiLang.Chunk

namespace ToiLang

/-- The bytes of an identifier token. -/
abbrev Name := Bytes

inductive UnaryOp
  | not | minus | hash
  deriving DecidableEq, Repr

/-- The operator tokens that `binary` handles. -/
inductive BinaryOp
  | bangEqual | equalEqual | greater | greaterEqual | less | lessEqual | has | inOp | append
  | plus | minus | star | slash | power | intDiv | percent
  deriving DecidableEq, Repr

inductive AssignTok
  | equals | walrus
  deriving DecidableEq, Repr

/-- The literals that a parameter can have as its default. -/
inductive DefaultLiteral
  | number (x : Double)
  | string (s : Bytes)
  | nil
  | true
  | false
  deriving DecidableEq, Repr

/-- A parameter as `function_body` reads it: `*name`, `name: type`, `name = literal`. -/
structure Param where
  name : Name
  isVariadic : Bool
  hint : Option TypeHint
  default : Option DefaultLiteral
  deriving DecidableEq, Repr

/- The program as the recursive-descent parser walks it. Which form a token sequence
takes (a slice or an index, a comprehension or a literal) is already decided here; the
compiler functions below say what each form emits. -/
mutual

inductive Expr
  | number (x : Double) (isInt : Bool)
  | string (s : Bytes)
  | fstring (parts : FParts)
  | literalNil
  | literalTrue
  | literalFalse
  | grouping (e : Expr)
  | unary (op : UnaryOp) (e : Expr)
  | notIn (a b : Expr)
  | binary (op : BinaryOp) (a b : Expr)
  | andOp (a b : Expr)
  | orOp (a b : Expr)
  | ternary (c a b : Expr)
  | range (a b : Expr)
  | variable (n : Name)
  | assign (n : Name) (tok : AssignTok) (rhs : Rhs)
  | compound (n : Name) (op : BinaryOp) (e : Expr)
  | dot (e : Expr) (p : Name)
  | dotAssign (e : Expr) (p : Name) (rhs : Rhs)
  | metaDot (e : Expr) (p : Name)
  | subscript (e k : Expr)
  | subscriptAssign (e k : Expr) (rhs : Rhs)
  | slice (e : Expr) (start stop step : OptExpr)
  | parseCall (f : Expr) (args : Exprs) (named : NamedArgs) (spread : OptExpr)
  | callComprehension (f : Expr) (c : Comprehension) (elem : Expr)
  | generatorComprehension (c : Comprehension) (elem : Expr)
  | table (es : Entries)
  | tableInfix (m : Expr) (es : Entries)
  | tableComprehension (c : Comprehension) (key : OptExpr) (elem : Expr)
  | importExpression (path : Bytes)
  | anonymousFunction (f : Function)

inductive OptExpr
  | none
  | some (e : Expr)

/-- What follows `=`: one expression, or the elements of a top-level comma list. -/
inductive Rhs
  | one (e : Expr)
  | commaList (es : Exprs)

inductive Exprs
  | nil
  | cons (e : Expr) (es : Exprs)

inductive NamedArgs
  | nil
  | cons (n : Name) (e : Expr) (es : NamedArgs)

/-- The parts of an f-string token: text, a plain name, `name % digits`, or source text
that is compiled as an expression of its own. -/
inductive FParts
  | nil
  | text (s : Bytes) (ps : FParts)
  | name (n : Name) (ps : FParts)
  | nameMod (n : Name) (x : Double) (ps : FParts)
  | source (e : Expr) (ps : FParts)

/-- The entries of a table literal: `[k] = v`, `n = v`, a name as an array item,
`<n, ...>`, any other array item. -/
inductive Entries
  | nil
  | keyed (k v : Expr) (es : Entries)
  | field (n : Name) (v : Expr) (es : Entries)
  | nameItem (n : Name) (es : Entries)
  | shorthand (ns : List Name) (es : Entries)
  | item (v : Expr) (es : Entries)

/-- `for name[#][, second] in first, more... [if cond]`. -/
inductive Comprehension
  | mk (name : Name) (sigil : Bool) (second : Option Name) (first : Expr) (more : Exprs)
      (cond : OptExpr)

inductive Function
  | mk (name : Name) (params : List Param) (body : Stmts)

inductive Stmt
  | print (es : Exprs)
  | ifStmt (c : Expr) (body : Stmts) (els : ElseBranch)
  | matchStmt (e : Expr) (clauses : Clauses)
  | tryStmt (body : Stmts) (exc : ExceptClause) (fin : FinallyClause)
  | withStmt (e : Expr) (asName : Option Name) (body : Stmts)
  | throwStmt (e : Expr)
  | yieldStmt (es : Exprs)
  | whileStmt (c : Expr) (body : Stmts)
  | forStmt (name : Name) (sigil : Bool) (second : Option Name) (first : Expr) (more : Exprs)
      (body : Stmts)
  | returnSemicolon
  | returnStmt (es : Exprs)
  | breakStmt
  | continueStmt
  | gcStmt
  | assertStmt (c : Expr) (message : OptExpr)
  | delStmt (ts : DelTargets)
  | multiAssignment (names : List Name) (es : Exprs)
  | expression (e : Expr)
  | functionDeclaration (f : Function)
  | globalFunctionDeclaration (f : Function)
  | decorated (decorators : Exprs) (isGlobal : Bool) (f : Function)
  | importStmt (paths : List (Bytes × Name))
  | fromImport (path : Bytes) (names : List Name)
  | fromImportStar (path : Bytes)
  | globalDeclaration (names : List Name) (init : DeclInit)
  | variableDeclaration (names : List Name) (init : DeclInit)

inductive Stmts
  | nil
  | cons (s : Stmt) (ss : Stmts)

inductive ElseBranch
  | none
  | elif (c : Expr) (body : Stmts) (els : ElseBranch)
  | els (body : Stmts)

inductive Clauses
  | nil
  | case (e : Expr) (body : Stmts) (cs : Clauses)
  | els (body : Stmts)

inductive ExceptClause
  | none
  | some (name : Option Name) (filter : OptExpr) (body : Stmts)

inductive FinallyClause
  | none
  | some (body : Stmts)

/-- The part of a declaration behind `=`, if any. -/
inductive DeclInit
  | none
  | commaList (es : Exprs)
  | exprs (es : Exprs)

/-- `del x`, `del x.a[k]`, `del (e).a`: an access chain lists its keys, the last one is
deleted. -/
inductive DelTargets
  | nil
  | variable (n : Name) (ts : DelTargets)
  | access (n : Name) (keys : DelKeys) (ts : DelTargets)
  | paren (e : Expr) (keys : DelKeys) (ts : DelTargets)

inductive DelKeys
  | last (k : DelKey)
  | cons (k : DelKey) (ks : DelKeys)

inductive DelKey
  | property (n : Name)
  | index (e : Expr)

end

def Exprs.length : Exprs → Nat
  | .nil => 0
  | .cons _ es => es.length + 1

def Exprs.isEmpty : Exprs → Bool
  | .nil => true
  | .cons _ _ => false

def NamedArgs.isEmpty : NamedArgs → Bool
  | .nil => true
  | .cons _ _ _ => false

end ToiLang
