import ToiLang.Compiler.LoopsStmt

namespace ToiLang.Compile

/- The walk over a program. An expression jumps out of no loop, wherever it stands. -/
mutual

theorem keeps_expr (k : Bool) : ∀ e : Expr, KeepsCode k false (expr e)
  | .number x b => keeps_number x b
  | .string s => keeps_string s
  | .fstring ps => keeps_fstring (keeps_fparts k ps)
  | .literalNil | .literalTrue | .literalFalse => keeps_literal _ _
  | .grouping e => keeps_expression (keeps_expr k e)
  | .unary o e => keeps_unary o (keeps_expr k e)
  | .notIn a b => keeps_notIn (keeps_expr k a) (keeps_expr k b)
  | .binary o a b => keeps_binary o (keeps_expr k a) (keeps_expr k b)
  | .andOp a b => keeps_andOp (keeps_expr k a) (keeps_expr k b)
  | .orOp a b => keeps_orOp (keeps_expr k a) (keeps_expr k b)
  | .ternary c a b => keeps_ternary (keeps_expr k c) (keeps_expr k a) (keeps_expr k b)
  | .range a b => keeps_range (keeps_expr k a) (keeps_expr k b)
  | .variable n => keeps_namedVariable n
  | .assign n tok r => keeps_assign n tok (keeps_rhs k r)
  | .compound n o e => keeps_compound n o (keeps_expr k e)
  | .dot e p => keeps_dot _ (keeps_expr k e) p
  | .dotAssign e p r => keeps_dotAssign (keeps_expr k e) p (keeps_rhs k r)
  | .metaDot e p => keeps_dot _ (keeps_expr k e) p
  | .subscript e i => keeps_subscript (keeps_expr k e) (keeps_expr k i)
  | .subscriptAssign e i r =>
      keeps_subscriptAssign (keeps_expr k e) (keeps_expr k i) (keeps_rhs k r)
  | .slice e a b c =>
      keeps_slice (keeps_expr k e) (keeps_optExpr k a) (keeps_optExpr k b) (keeps_optExpr k c)
  | .parseCall f args named spread =>
      keeps_parseCall (keeps_expr k f) (keeps_exprs k args) (keeps_namedArgs k named)
        (keeps_optExpr k spread)
  | .callComprehension f c e =>
      keeps_callComprehension (keeps_expr k f) (keeps_generator c (keeps_expr false e))
  | .generatorComprehension c e => keeps_generator c (keeps_expr false e)
  | .table es => keeps_table (keeps_entries k es)
  | .tableInfix m es => keeps_tableInfix (keeps_expr k m) (keeps_entries k es)
  | .tableComprehension c key e =>
      keeps_tableCompr c (keeps_optExpr false key) (keeps_expr false e)
  | .importExpression path => keeps_importExpression path
  | .anonymousFunction f => keeps_anonymousFunction (keeps_functionNode k f)

theorem keeps_optExpr (k : Bool) : ∀ e : OptExpr, KeepsOption k false (optExpr e)
  | .none => fun _ h => by cases h
  | .some e => fun _ h => by cases h; exact keeps_expr k e

theorem keeps_rhs (k : Bool) : ∀ r : Rhs, KeepsCode k false (rhs r)
  | .one e => keeps_expression (keeps_expr k e)
  | .commaList es => keeps_parseArrayLiteral (keeps_exprs k es)

theorem keeps_exprs (k : Bool) : ∀ es : Exprs, KeepsAll k false (exprs es)
  | .nil => fun _ h => by cases h
  | .cons e es => List.forall_mem_cons.mpr ⟨keeps_expr k e, keeps_exprs k es⟩

theorem keeps_namedArgs (k : Bool) : ∀ es : NamedArgs, KeepsNamed k false (namedArgs es)
  | .nil => fun _ h => by cases h
  | .cons _ e es => List.forall_mem_cons.mpr ⟨keeps_expr k e, keeps_namedArgs k es⟩

theorem keeps_fparts (k : Bool) : ∀ ps : FParts, ∀ p ∈ fparts ps, FPartKeeps k false p
  | .nil => fun _ h => by cases h
  | .text _ ps | .name _ ps | .nameMod _ _ ps =>
      List.forall_mem_cons.mpr ⟨trivial, keeps_fparts k ps⟩
  | .source e ps => List.forall_mem_cons.mpr ⟨keeps_expr k e, keeps_fparts k ps⟩

theorem keeps_entries (k : Bool) : ∀ es : Entries, ∀ e ∈ entries es, EntryKeeps k false e
  | .nil => fun _ h => by cases h
  | .keyed i v es =>
      List.forall_mem_cons.mpr ⟨⟨keeps_expr k i, keeps_expr k v⟩, keeps_entries k es⟩
  | .field _ v es | .item v es => List.forall_mem_cons.mpr ⟨keeps_expr k v, keeps_entries k es⟩
  | .nameItem _ es | .shorthand _ es => List.forall_mem_cons.mpr ⟨trivial, keeps_entries k es⟩

theorem keeps_generator {k : Bool} {elem : CompileM Code} :
    ∀ c : Comprehension, KeepsCode false false elem → KeepsCode k false (generator c elem)
  | .mk _ _ _ first more cond, he =>
      keeps_generatorComprehension ⟨keeps_expr false first, keeps_exprs false more⟩
        (keeps_optExpr false cond) he

theorem keeps_tableCompr {k : Bool} {key : Option (CompileM Code)} {elem : CompileM Code} :
    ∀ c : Comprehension, KeepsOption false false key → KeepsCode false false elem →
      KeepsCode k false (tableCompr c key elem)
  | .mk _ _ _ first more cond, hk, he =>
      keeps_tableComprehension ⟨keeps_expr false first, keeps_exprs false more⟩
        (keeps_optExpr false cond) hk he

theorem keeps_functionNode (k : Bool) : ∀ f : Function, KeepsCode k false (function f)
  | .mk name params body => keeps_functionBody name params (keeps_block false body)

theorem keeps_stmt (k : Bool) : ∀ s : Stmt, KeepsCode k k (stmt s)
  | .print es => (keeps_printStatement (keeps_exprs k es)).weaken
  | .ifStmt c body els =>
      keeps_ifStatement (keeps_expr k c).weaken (keeps_block k body) (keeps_elseBranch k els)
  | .matchStmt e cs => keeps_matchStatement (keeps_expr k e).weaken (keeps_clauses k cs)
  | .tryStmt body exc fin =>
      keeps_tryStatement (keeps_block k body) (keeps_exceptHandler k exc) (keeps_finallyBody k fin)
  | .withStmt e n body => keeps_withStatement n (keeps_expr k e).weaken (keeps_block k body)
  | .throwStmt e => (keeps_throwStatement (keeps_expr k e)).weaken
  | .yieldStmt es => (keeps_yieldStatement (keeps_exprs k es)).weaken
  | .whileStmt c body => (keeps_whileStatement (keeps_expr true c) (keeps_block true body)).weaken
  | .forStmt _ _ _ first more body =>
      (keeps_forStatement ⟨keeps_expr k first, keeps_exprs k more⟩ (keeps_block true body)).weaken
  | .returnSemicolon => .pure trivial
  | .returnStmt es => (keeps_returnStatement (keeps_exprs k es)).weaken
  | .breakStmt => keeps_breakStatement
  | .continueStmt => keeps_continueStatement
  | .gcStmt => .pure trivial
  | .assertStmt c m => (keeps_assertStatement (keeps_expr k c) (keeps_optExpr k m)).weaken
  | .delStmt ts => (keeps_sequence (keeps_delTargets k ts)).weaken
  | .multiAssignment ns es => (keeps_multiAssignment ns (keeps_exprs k es)).weaken
  | .expression e => (keeps_expressionStatement (keeps_expr k e)).weaken
  | .functionDeclaration f => (keeps_functionDeclaration _ (keeps_functionNode k f)).weaken
  | .globalFunctionDeclaration f => (keeps_globalFunctionDeclaration _ (keeps_functionNode k f)).weaken
  | .decorated ds g f => (keeps_decorated _ (keeps_exprs k ds) (by
      cases g
      · exact keeps_functionDeclaration _ (keeps_functionNode k f)
      · exact keeps_globalFunctionDeclaration _ (keeps_functionNode k f))).weaken
  | .importStmt ps => keeps_importStatement ps
  | .fromImport path ns => keeps_fromImportStatement path ns
  | .fromImportStar path => keeps_fromImportStar path
  | .globalDeclaration ns i => (keeps_globalDeclaration ns (keeps_declInit k i)).weaken
  | .variableDeclaration ns i => (keeps_variableDeclaration ns (keeps_declInit k i)).weaken

theorem keeps_block (k : Bool) : ∀ ss : Stmts, KeepsCode k k (block ss)
  | .nil => .pure trivial
  | .cons s ss => calm_localCount.then fun _ => Keeps.bind (keeps_stmt k s) fun _ hc =>
      Keeps.bind (keeps_block k ss) fun _ hr => .pure (by simp [hc, hr])

theorem keeps_elseBranch (k : Bool) : ∀ e : ElseBranch, KeepsCode k k (elseBranch e)
  | .none => .pure trivial
  | .elif c body els =>
      keeps_ifStatement (keeps_expr k c).weaken (keeps_block k body) (keeps_elseBranch k els)
  | .els body => keeps_scopedBlock (keeps_block k body)

theorem keeps_clauses (k : Bool) : ∀ cs : Clauses, ∀ c ∈ clauses cs, ClauseKeeps k k c
  | .nil => fun _ h => by cases h
  | .case e body cs =>
      List.forall_mem_cons.mpr ⟨⟨(keeps_expr k e).weaken, keeps_block k body⟩, keeps_clauses k cs⟩
  | .els body => List.forall_mem_singleton.mpr (keeps_block k body)

theorem keeps_exceptHandler (k : Bool) :
    ∀ e : ExceptClause, ∀ h, exceptHandler e = some h → HandlerKeeps k k h
  | .none => fun _ h => by cases h
  | .some _ filter body => fun _ h => by
      cases h
      exact ⟨fun e h => (keeps_optExpr k filter e h).weaken, keeps_block k body⟩

theorem keeps_finallyBody (k : Bool) : ∀ f : FinallyClause, KeepsOption k k (finallyBody f)
  | .none => fun _ h => by cases h
  | .some body => fun _ h => by
      cases h
      exact keeps_block k body

theorem keeps_declInit (k : Bool) : ∀ i : DeclInit, InitKeeps k false (declInit i)
  | .none => trivial
  | .commaList es | .exprs es => keeps_exprs k es

theorem keeps_delTargets (k : Bool) : ∀ ts : DelTargets, KeepsAll k false (delTargets ts)
  | .nil => fun _ h => by cases h
  | .variable n ts => List.forall_mem_cons.mpr ⟨keeps_deleteVariable n, keeps_delTargets k ts⟩
  | .access n ks ts =>
      List.forall_mem_cons.mpr ⟨keeps_deleteAccess (keeps_emitGetNamed n) (keeps_delKeys k ks),
        keeps_delTargets k ts⟩
  | .paren e ks ts =>
      List.forall_mem_cons.mpr ⟨keeps_deleteAccess (keeps_expression (keeps_expr k e))
        (keeps_delKeys k ks), keeps_delTargets k ts⟩

theorem keeps_delKeys (k : Bool) : ∀ ks : DelKeys, ∀ key ∈ delKeys ks, KeyKeeps k false key
  | .last key => List.forall_mem_singleton.mpr (keeps_delKey k key)
  | .cons key ks => List.forall_mem_cons.mpr ⟨keeps_delKey k key, keeps_delKeys k ks⟩

theorem keeps_delKey (k : Bool) : ∀ key : DelKey, KeyKeeps k false (delKey key)
  | .property _ => trivial
  | .index e => keeps_expr k e

end

/-- In every function of a compiled script the jumps out of loops are in loops. -/
theorem compile_closed {first stale : Nat} {program : Stmts} {fs : List ObjFunction}
    (h : compile first stale program = some fs) : ∀ f ∈ fs, f.Closed := by
  obtain ⟨⟨c, s⟩, hc, h⟩ := Option.bind_eq_some_iff.mp h
  dsimp only at h
  split_ifs at h
  cases Option.some.inj h
  obtain ⟨-, hfs, hq⟩ := keeps_block false program _ _ _ rfl hc
  intro f hf
  rcases List.mem_append.mp hf with hf | hf
  · rcases hfs f hf with hf | hf
    · cases hf
    · exact hf
  · rw [List.mem_singleton.mp hf]
    exact ⟨c, rfl, hq⟩

end ToiLang.Compile
