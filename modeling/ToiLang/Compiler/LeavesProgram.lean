import ToiLang.Compiler.LeavesStmt

namespace ToiLang.Compile

/- The walk over a program, one case for each form of the syntax. -/
mutual

theorem emits_expr (t : Final) : ∀ e : Expr, EmitsCode t (expr e)
  | .number x b => emits_number x b
  | .string s => emits_string s
  | .fstring ps => emits_fstring (emits_fparts t ps)
  | .literalNil | .literalTrue | .literalFalse =>
      emits_literal _ (leafOk_plain rfl)
  | .grouping e => emits_expression (emits_expr t e)
  | .unary o e => emits_unary o (emits_expr t e)
  | .notIn a b => emits_notIn (emits_expr t a) (emits_expr t b)
  | .binary o a b => emits_binary o (emits_expr t a) (emits_expr t b)
  | .andOp a b => emits_andOp (emits_expr t a) (emits_expr t b)
  | .orOp a b => emits_orOp (emits_expr t a) (emits_expr t b)
  | .ternary c a b => emits_ternary (emits_expr t c) (emits_expr t a) (emits_expr t b)
  | .range a b => emits_range (emits_expr t a) (emits_expr t b)
  | .variable n => emits_namedVariable n
  | .assign n tok r => emits_assign n tok (emits_rhs t r)
  | .compound n o e => emits_compound n o (emits_expr t e)
  | .dot e p => emits_dot rfl (emits_expr t e) p
  | .dotAssign e p r => emits_dotAssign (emits_expr t e) p (emits_rhs t r)
  | .metaDot e p => emits_dot rfl (emits_expr t e) p
  | .subscript e k => emits_subscript (emits_expr t e) (emits_expr t k)
  | .subscriptAssign e k r =>
      emits_subscriptAssign (emits_expr t e) (emits_expr t k) (emits_rhs t r)
  | .slice e a b c =>
      emits_slice (emits_expr t e) (emits_optExpr t a) (emits_optExpr t b) (emits_optExpr t c)
  | .parseCall f args named spread =>
      emits_parseCall (emits_expr t f) (emits_exprs t args) (emits_namedArgs t named)
        (emits_optExpr t spread)
  | .callComprehension f c e =>
      emits_callComprehension (emits_expr t f) (emits_generator t c fun t => emits_expr t e)
  | .generatorComprehension c e => emits_generator t c fun t => emits_expr t e
  | .table es => emits_table (emits_entries t es)
  | .tableInfix m es => emits_tableInfix (emits_expr t m) (emits_entries t es)
  | .tableComprehension c k e =>
      emits_tableCompr t c (fun t => emits_optExpr t k) fun t => emits_expr t e
  | .importExpression path => emits_importExpression path
  | .anonymousFunction f => emits_anonymousFunction (emits_functionNode t f)

theorem emits_optExpr (t : Final) : ∀ e : OptExpr, EmitsOption t (optExpr e)
  | .none => fun _ h => by cases h
  | .some e => fun _ h => by cases h; exact emits_expr t e

theorem emits_rhs (t : Final) : ∀ r : Rhs, EmitsCode t (rhs r)
  | .one e => emits_expression (emits_expr t e)
  | .commaList es => emits_parseArrayLiteral (emits_exprs t es)

theorem emits_exprs (t : Final) : ∀ es : Exprs, EmitsAll t (exprs es)
  | .nil => fun _ h => by cases h
  | .cons e es => List.forall_mem_cons.mpr ⟨emits_expr t e, emits_exprs t es⟩

theorem emits_namedArgs (t : Final) : ∀ es : NamedArgs, EmitsNamed t (namedArgs es)
  | .nil => fun _ h => by cases h
  | .cons _ e es => List.forall_mem_cons.mpr ⟨emits_expr t e, emits_namedArgs t es⟩

theorem emits_fparts (t : Final) : ∀ ps : FParts, ∀ p ∈ fparts ps, FPartOk t p
  | .nil => fun _ h => by cases h
  | .text _ ps | .name _ ps | .nameMod _ _ ps =>
      List.forall_mem_cons.mpr ⟨trivial, emits_fparts t ps⟩
  | .source e ps => List.forall_mem_cons.mpr ⟨emits_expr t e, emits_fparts t ps⟩

theorem emits_entries (t : Final) : ∀ es : Entries, ∀ e ∈ entries es, EntryOk t e
  | .nil => fun _ h => by cases h
  | .keyed k v es =>
      List.forall_mem_cons.mpr ⟨⟨emits_expr t k, emits_expr t v⟩, emits_entries t es⟩
  | .field _ v es | .item v es => List.forall_mem_cons.mpr ⟨emits_expr t v, emits_entries t es⟩
  | .nameItem _ es | .shorthand _ es => List.forall_mem_cons.mpr ⟨trivial, emits_entries t es⟩

theorem emits_generator (t : Final) {elem : CompileM Code} :
    ∀ c : Comprehension, (∀ t, EmitsCode t elem) → EmitsCode t (generator c elem)
  | .mk _ _ _ first more cond, he =>
      emits_generatorComprehension (fun t => ⟨emits_expr t first, emits_exprs t more⟩)
        (fun t => emits_optExpr t cond) he

theorem emits_tableCompr (t : Final) {key : Option (CompileM Code)} {elem : CompileM Code} :
    ∀ c : Comprehension, (∀ t, EmitsOption t key) → (∀ t, EmitsCode t elem) →
      EmitsCode t (tableCompr c key elem)
  | .mk _ _ _ first more cond, hk, he =>
      emits_tableComprehension (fun t => ⟨emits_expr t first, emits_exprs t more⟩)
        (fun t => emits_optExpr t cond) hk he

theorem emits_functionNode (t : Final) : ∀ f : Function, EmitsCode t (function f)
  | .mk name params body => emits_functionBody name params fun t => emits_block t body

theorem emits_stmt (t : Final) : ∀ s : Stmt, EmitsCode t (stmt s)
  | .print es => emits_printStatement (emits_exprs t es)
  | .ifStmt c body els =>
      emits_ifStatement (emits_expr t c) (emits_block t body) (emits_elseBranch t els)
  | .matchStmt e cs => emits_matchStatement (emits_expr t e) (emits_clauses t cs)
  | .tryStmt body exc fin =>
      emits_tryStatement (emits_block t body) (emits_exceptHandler t exc) (emits_finallyBody t fin)
  | .withStmt e n body => emits_withStatement n (emits_expr t e) (emits_block t body)
  | .throwStmt e => emits_throwStatement (emits_expr t e)
  | .yieldStmt es => emits_yieldStatement (emits_exprs t es)
  | .whileStmt c body => emits_whileStatement (emits_expr t c) (emits_block t body)
  | .forStmt _ _ _ first more body =>
      emits_forStatement ⟨emits_expr t first, emits_exprs t more⟩ (emits_block t body)
  | .returnSemicolon => .pure (leafOk_plain rfl)
  | .returnStmt es => emits_returnStatement (emits_exprs t es)
  | .breakStmt => emits_breakStatement
  | .continueStmt => emits_continueStatement
  | .gcStmt => .pure (leafOk_plain rfl)
  | .assertStmt c m => emits_assertStatement (emits_expr t c) (emits_optExpr t m)
  | .delStmt ts => emits_sequence (emits_delTargets t ts)
  | .multiAssignment ns es => emits_multiAssignment ns (emits_exprs t es)
  | .expression e => emits_expressionStatement (emits_expr t e)
  | .functionDeclaration f => emits_functionDeclaration _ (emits_functionNode t f)
  | .globalFunctionDeclaration f => emits_globalFunctionDeclaration _ (emits_functionNode t f)
  | .decorated ds g f => emits_decorated _ (emits_exprs t ds) (by
      cases g
      · exact emits_functionDeclaration _ (emits_functionNode t f)
      · exact emits_globalFunctionDeclaration _ (emits_functionNode t f))
  | .importStmt ps => emits_importStatement ps
  | .fromImport path ns => emits_fromImportStatement path ns
  | .fromImportStar path => emits_fromImportStar path
  | .globalDeclaration ns i => emits_globalDeclaration ns (emits_declInit t i)
  | .variableDeclaration ns i => emits_variableDeclaration ns (emits_declInit t i)

theorem emits_block (t : Final) : ∀ ss : Stmts, EmitsCode t (block ss)
  | .nil => .pure trivial
  | .cons s ss => quiet_localCount.emits.then fun _ => (emits_stmt t s).bind fun _ =>
      (emits_block t ss).bind fun _ => .pure fun hr hc => by simp [hr, hc, Code.Leaves]

theorem emits_elseBranch (t : Final) : ∀ e : ElseBranch, EmitsCode t (elseBranch e)
  | .none => .pure trivial
  | .elif c body els =>
      emits_ifStatement (emits_expr t c) (emits_block t body) (emits_elseBranch t els)
  | .els body => emits_scopedBlock (emits_block t body)

theorem emits_clauses (t : Final) : ∀ cs : Clauses, ∀ c ∈ clauses cs, ClauseOk t c
  | .nil => fun _ h => by cases h
  | .case e body cs =>
      List.forall_mem_cons.mpr ⟨⟨emits_expr t e, emits_block t body⟩, emits_clauses t cs⟩
  | .els body => List.forall_mem_singleton.mpr (emits_block t body)

theorem emits_exceptHandler (t : Final) :
    ∀ e : ExceptClause, ∀ h, exceptHandler e = some h → HandlerOk t h
  | .none => fun _ h => by cases h
  | .some _ filter body => fun _ h => by
      cases h
      exact ⟨emits_optExpr t filter, emits_block t body⟩

theorem emits_finallyBody (t : Final) : ∀ f : FinallyClause, EmitsOption t (finallyBody f)
  | .none => fun _ h => by cases h
  | .some body => fun _ h => by
      cases h
      exact emits_block t body

theorem emits_declInit (t : Final) : ∀ i : DeclInit, InitOk t (declInit i)
  | .none => trivial
  | .commaList es | .exprs es => emits_exprs t es

theorem emits_delTargets (t : Final) : ∀ ts : DelTargets, EmitsAll t (delTargets ts)
  | .nil => fun _ h => by cases h
  | .variable n ts => List.forall_mem_cons.mpr ⟨emits_deleteVariable n, emits_delTargets t ts⟩
  | .access n ks ts =>
      List.forall_mem_cons.mpr ⟨emits_deleteAccess (emits_emitGetNamed n) (emits_delKeys t ks),
        emits_delTargets t ts⟩
  | .paren e ks ts =>
      List.forall_mem_cons.mpr ⟨emits_deleteAccess (emits_expression (emits_expr t e))
        (emits_delKeys t ks), emits_delTargets t ts⟩

theorem emits_delKeys (t : Final) : ∀ ks : DelKeys, ∀ k ∈ delKeys ks, KeyOk t k
  | .last k => List.forall_mem_singleton.mpr (emits_delKey t k)
  | .cons k ks => List.forall_mem_cons.mpr ⟨emits_delKey t k, emits_delKeys t ks⟩

theorem emits_delKey (t : Final) : ∀ k : DelKey, KeyOk t (delKey k)
  | .property _ => trivial
  | .index e => emits_expr t e

end

/-- Every function of a compiled script is in order. -/
theorem compile_functionOk {first stale : Nat} {program : Stmts} {fs : List ObjFunction}
    (h : compile first stale program = some fs) :
    ∀ f ∈ fs, Final.FunctionOk ⟨[], fs, first⟩ f := by
  simp only [compile] at h
  obtain ⟨⟨c, s⟩, hc, h⟩ := Option.bind_eq_some_iff.mp h
  dsimp only at h
  split_ifs at h with hfit
  cases Option.some.inj h
  obtain ⟨hg, hq⟩ := emits_block ⟨s.current.constants,
    s.functions ++ [finishedFunction s.current [] [] c], first⟩ program _ _ _ hc
  obtain ⟨hfs, hl⟩ := hq ⟨List.prefix_rfl, List.prefix_append _ _, hg.firstFunction⟩
  intro f hf
  rcases List.mem_append.mp hf with hf | hf
  · rcases hfs f hf with hf | hf
    · cases hf
    · exact ⟨hf.code, hf.fits, hf.leaves⟩
  · rw [List.mem_singleton.mp hf]
    exact ⟨rfl, hfit, hl, leafOk_plain rfl⟩

end ToiLang.Compile
