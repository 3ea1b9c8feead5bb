import ToiLang.Compiler.ScopesStmt

namespace ToiLang.Compile

/- The walk over a program: an expression only widens the scope it is in, a statement leaves the
functions around its own as they are. -/
mutual

theorem widens_expr : ∀ e : Expr, Steps State.Widens (expr e)
  | .number x b => steps_number x b
  | .string s => steps_string s
  | .fstring ps => steps_fstring (widens_fparts ps)
  | .literalNil | .literalTrue | .literalFalse => steps_literal _ _
  | .grouping e => steps_expression (widens_expr e)
  | .unary o e => steps_unary o (widens_expr e)
  | .notIn a b => steps_notIn (widens_expr a) (widens_expr b)
  | .binary o a b => steps_binary o (widens_expr a) (widens_expr b)
  | .andOp a b => steps_andOp (widens_expr a) (widens_expr b)
  | .orOp a b => steps_orOp (widens_expr a) (widens_expr b)
  | .ternary c a b => steps_ternary (widens_expr c) (widens_expr a) (widens_expr b)
  | .range a b => steps_range (widens_expr a) (widens_expr b)
  | .variable n => steps_namedVariable n
  | .assign n tok r => widens_assign n tok (widens_rhs r)
  | .compound n o e => widens_compound n o (widens_expr e)
  | .dot e p => steps_dot _ (widens_expr e) p
  | .dotAssign e p r => steps_dotAssign (widens_expr e) p (widens_rhs r)
  | .metaDot e p => steps_dot _ (widens_expr e) p
  | .subscript e k => steps_subscript (widens_expr e) (widens_expr k)
  | .subscriptAssign e k r =>
      steps_subscriptAssign (widens_expr e) (widens_expr k) (widens_rhs r)
  | .slice e a b c =>
      steps_slice (widens_expr e) (widens_optExpr a) (widens_optExpr b) (widens_optExpr c)
  | .parseCall f args named spread =>
      steps_parseCall (widens_expr f) (widens_exprs args) (widens_namedArgs named)
        (widens_optExpr spread)
  | .callComprehension f c e => steps_callComprehension (widens_expr f)
      (sameScope_generator c (widens_expr e).nests).ofSame
  | .generatorComprehension c e => (sameScope_generator c (widens_expr e).nests).ofSame
  | .table es => steps_table (widens_entries es)
  | .tableInfix m es => steps_tableInfix (widens_expr m) (widens_entries es)
  | .tableComprehension c k e =>
      (sameScope_tableCompr c (widens_optExpr k).nests (widens_expr e).nests).ofSame
  | .importExpression path => steps_importExpression path
  | .anonymousFunction f => steps_anonymousFunction (sameScope_function f).ofSame

theorem widens_optExpr : ∀ e : OptExpr, StepsOption State.Widens (optExpr e)
  | .none => fun _ h => by cases h
  | .some e => fun _ h => by cases h; exact widens_expr e

theorem widens_rhs : ∀ r : Rhs, Steps State.Widens (rhs r)
  | .one e => steps_expression (widens_expr e)
  | .commaList es => steps_parseArrayLiteral (widens_exprs es)

theorem widens_exprs : ∀ es : Exprs, StepsAll State.Widens (exprs es)
  | .nil => fun _ h => by cases h
  | .cons e es => List.forall_mem_cons.mpr ⟨widens_expr e, widens_exprs es⟩

theorem widens_namedArgs : ∀ es : NamedArgs, StepsNamed State.Widens (namedArgs es)
  | .nil => fun _ h => by cases h
  | .cons _ e es => List.forall_mem_cons.mpr ⟨widens_expr e, widens_namedArgs es⟩

theorem widens_fparts : ∀ ps : FParts, ∀ p ∈ fparts ps, FPartSteps State.Widens p
  | .nil => fun _ h => by cases h
  | .text _ ps | .name _ ps | .nameMod _ _ ps =>
      List.forall_mem_cons.mpr ⟨trivial, widens_fparts ps⟩
  | .source e ps => List.forall_mem_cons.mpr ⟨widens_expr e, widens_fparts ps⟩

theorem widens_entries : ∀ es : Entries, ∀ e ∈ entries es, EntrySteps State.Widens e
  | .nil => fun _ h => by cases h
  | .keyed k v es => List.forall_mem_cons.mpr ⟨⟨widens_expr k, widens_expr v⟩, widens_entries es⟩
  | .field _ v es | .item v es => List.forall_mem_cons.mpr ⟨widens_expr v, widens_entries es⟩
  | .nameItem _ es | .shorthand _ es => List.forall_mem_cons.mpr ⟨trivial, widens_entries es⟩

theorem sameScope_generator {elem : CompileM Code} :
    ∀ c : Comprehension, Nests elem → Steps State.SameScope (generator c elem)
  | .mk _ _ _ first more cond, he =>
      steps_generatorComprehension
        ⟨(widens_expr first).nests, (widens_exprs more).nests⟩
        (widens_optExpr cond).nests he

theorem sameScope_tableCompr {key : Option (CompileM Code)} {elem : CompileM Code} :
    ∀ c : Comprehension, StepsOption State.Nests key → Nests elem →
      Steps State.SameScope (tableCompr c key elem)
  | .mk _ _ _ first more cond, hk, he =>
      steps_tableComprehension
        ⟨(widens_expr first).nests, (widens_exprs more).nests⟩
        (widens_optExpr cond).nests hk he

theorem sameScope_function : ∀ f : Function, Steps State.SameScope (function f)
  | .mk name ps body => steps_functionBody name ps (nests_block body)

theorem nests_stmt : ∀ s : Stmt, Nests (stmt s)
  | .print es => nests_printStatement (widens_exprs es).nests
  | .ifStmt c body els =>
      nests_ifStatement (widens_expr c).nests (nests_block body) (nests_elseBranch els)
  | .matchStmt e cs => nests_matchStatement (widens_expr e).nests (nests_clauses cs)
  | .tryStmt body exc fin =>
      nests_tryStatement (nests_block body) (nests_exceptHandler exc) (nests_finallyBody fin)
  | .withStmt e n body => nests_withStatement n (widens_expr e).nests (nests_block body)
  | .throwStmt e => nests_throwStatement (widens_expr e).nests
  | .yieldStmt es => nests_yieldStatement (widens_exprs es).nests
  | .whileStmt c body => nests_whileStatement (widens_expr c).nests (nests_block body)
  | .forStmt _ _ _ first more body =>
      nests_forStatement ⟨(widens_expr first).nests, (widens_exprs more).nests⟩ (nests_block body)
  | .returnSemicolon | .gcStmt => steps_pure _
  | .returnStmt es => nests_returnStatement (widens_exprs es).nests
  | .breakStmt => nests_breakStatement
  | .continueStmt => nests_continueStatement
  | .assertStmt c m => nests_assertStatement (widens_expr c).nests
      (widens_optExpr m).nests
  | .delStmt ts => steps_sequence (nests_delTargets ts)
  | .multiAssignment ns es => nests_multiAssignment ns (widens_exprs es).nests
  | .expression e => nests_expressionStatement (widens_expr e).nests
  | .functionDeclaration f => nests_functionDeclaration _ (sameScope_function f).ofSame
  | .globalFunctionDeclaration f => nests_globalFunctionDeclaration _ (sameScope_function f).ofSame
  | .decorated ds g f => nests_decorated _ (widens_exprs ds).nests (by
      cases g
      · exact nests_functionDeclaration _ (sameScope_function f).ofSame
      · exact nests_globalFunctionDeclaration _ (sameScope_function f).ofSame)
  | .importStmt ps => nests_importStatement ps
  | .fromImport path ns => nests_fromImportStatement path ns
  | .fromImportStar path => nests_fromImportStar path
  | .globalDeclaration ns i => nests_globalDeclaration ns (nests_declInit i)
  | .variableDeclaration ns i => nests_variableDeclaration ns (nests_declInit i)

theorem nests_block : ∀ ss : Stmts, Nests (block ss)
  | .nil => steps_pure _
  | .cons s ss => steps_bind steps_localCount fun _ => steps_bind (nests_stmt s) fun _ =>
      steps_bind (nests_block ss) fun _ => steps_pure _

theorem nests_elseBranch : ∀ e : ElseBranch, Nests (elseBranch e)
  | .none => steps_pure _
  | .elif c body els =>
      nests_ifStatement (widens_expr c).nests (nests_block body) (nests_elseBranch els)
  | .els body => nests_scopedBlock (nests_block body)

theorem nests_clauses : ∀ cs : Clauses, ∀ c ∈ clauses cs, ClauseNests c
  | .nil => fun _ h => by cases h
  | .case e body cs =>
      List.forall_mem_cons.mpr ⟨⟨(widens_expr e).nests, nests_block body⟩, nests_clauses cs⟩
  | .els body => List.forall_mem_singleton.mpr (nests_block body)

theorem nests_exceptHandler : ∀ e : ExceptClause, ∀ h, exceptHandler e = some h → HandlerNests h
  | .none => fun _ h => by cases h
  | .some _ filter body => fun _ h => by
      cases h
      exact ⟨(widens_optExpr filter).nests, nests_block body⟩

theorem nests_finallyBody : ∀ f : FinallyClause, StepsOption State.Nests (finallyBody f)
  | .none => fun _ h => by cases h
  | .some body => fun _ h => by
      cases h
      exact nests_block body

theorem nests_declInit : ∀ i : DeclInit, InitNests (declInit i)
  | .none => trivial
  | .commaList es | .exprs es => (widens_exprs es).nests

theorem nests_delTargets : ∀ ts : DelTargets, StepsAll State.Nests (delTargets ts)
  | .nil => fun _ h => by cases h
  | .variable n ts => List.forall_mem_cons.mpr ⟨nests_deleteVariable n, nests_delTargets ts⟩
  | .access n ks ts =>
      List.forall_mem_cons.mpr ⟨nests_deleteAccess (steps_emitGetNamed n) (nests_delKeys ks),
        nests_delTargets ts⟩
  | .paren e ks ts =>
      List.forall_mem_cons.mpr ⟨nests_deleteAccess (steps_expression (widens_expr e).nests)
        (nests_delKeys ks), nests_delTargets ts⟩

theorem nests_delKeys : ∀ ks : DelKeys, ∀ k ∈ delKeys ks, KeyNests k
  | .last k => List.forall_mem_singleton.mpr (nests_delKey k)
  | .cons k ks => List.forall_mem_cons.mpr ⟨nests_delKey k, nests_delKeys ks⟩

theorem nests_delKey : ∀ k : DelKey, KeyNests (delKey k)
  | .property _ => trivial
  | .index e => (widens_expr e).nests

end

/-- The right-hand sides of a statement widen its scope at most. -/
theorem widens_freshExpressions (es : Exprs) : Steps State.Widens (freshExpressions (exprs es)) :=
  steps_freshExpressions (widens_exprs es)

end ToiLang.Compile
