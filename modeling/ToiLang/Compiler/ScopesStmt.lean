import ToiLang.Compiler.ScopesExpr

namespace ToiLang.Compile

theorem Steps.nests {α : Type} {m : CompileM α} (h : Steps State.Widens m) :
    Steps State.Nests m :=
  fun s a s' hs => (h s a s' hs).nests

theorem StepsAll.nests {es : List (CompileM Code)} (h : StepsAll State.Widens es) :
    StepsAll State.Nests es :=
  fun e he => (h e he).nests

theorem StepsOption.nests {o : Option (CompileM Code)} (h : StepsOption State.Widens o) :
    StepsOption State.Nests o :=
  fun e he => (h e he).nests

@[grind ←] theorem nests_setCurrent (c : Compiler) : Steps State.Nests (setCurrent c) := by
  intro s a s' h
  obtain rfl := setCurrent_eq_some.mp h
  exact State.Nests.refl s

@[grind ←] theorem nests_addLocal (n : Name) : Steps State.Nests (addLocal n) := by
  grind [addLocal]

@[grind ←] theorem nests_markInitializedCount (k : Nat) :
    Steps State.Nests (markInitializedCount k) := by
  grind [markInitializedCount]

@[grind ←] theorem nests_markInitialized : Steps State.Nests markInitialized :=
  nests_markInitializedCount 1

@[grind ←] theorem nests_beginScope : Steps State.Nests beginScope := by grind [beginScope]

@[grind ←] theorem nests_endScope : Steps State.Nests endScope := by grind [endScope]

@[grind ←] theorem nests_declareVariable (n : Name) : Steps State.Nests (declareVariable n) := by
  grind [declareVariable]

@[grind ←] theorem nests_registerExplicitGlobal (n : Name) :
    Steps State.Nests (registerExplicitGlobal n) := by
  grind [registerExplicitGlobal]

@[grind ←] theorem nests_initializeLocals : Steps State.Nests initializeLocals := by
  grind [initializeLocals]

/-- A function compiled inside another: only what encloses it is left of the steps of its body. -/
theorem sameScope_inFunction {m : CompileM Code} (hm : Steps State.Nests m) (name : Name)
    (ps : List Param) :
    Steps State.SameScope (enterFunction >>= fun _ => m >>= fun b => endCompiler name ps b) := by
  intro s c s' h
  obtain ⟨_, s₁, henter, h⟩ := bind_eq_some.mp h
  obtain ⟨b, s₂, hb, h⟩ := bind_eq_some.mp h
  have h₁ : s₁.enclosing = s.current :: s.enclosing := by
    simp only [enterFunction, beginScope, bind_eq_some, modify_eq_some, current_eq_some,
      setCurrent_eq_some] at henter
    obtain ⟨_, _, rfl, _, _, ⟨rfl, rfl⟩, rfl⟩ := henter
    rfl
  have h₂ := hm s₁ b s₂ hb
  unfold State.Nests at h₂
  rw [h₁] at h₂
  obtain ⟨x, s₃, hx, hend⟩ := bind_eq_some.mp h
  obtain ⟨rfl, rfl⟩ := get_eq_some.mp hx
  cases he : s₃.enclosing with
  | nil =>
    rw [he] at h₂
    cases h₂
  | cons e es =>
    rw [he] at h₂ hend
    cases h₂ with
    | cons hcur hes =>
      dsimp only at hend
      split_ifs at hend with hfit
      · obtain ⟨_, s₄, hset, hlast⟩ := bind_eq_some.mp hend
        obtain rfl := set_eq_some.mp hset
        have hstep : Steps State.SameScope (do
            let k ← makeConstant (.function (s₃.firstFunction + s₃.functions.length))
            pure (op .opClosure (k :: upvalueBytes s₃.current.upvalues))) := by grind
        refine IsTrans.trans _ _ _ ?_ (hstep _ _ _ hlast)
        exact ⟨hcur, hes⟩
      · cases hend

section Emitters

variable {R : State → State → Prop} [ScopeStep R] {c e body els : CompileM Code}

@[grind ←] theorem steps_freshExpression (he : Steps R e) : Steps R (freshExpression e) := by
  grind [freshExpression]

theorem steps_freshExpressions {es : List (CompileM Code)} (h : StepsAll R es) :
    Steps R (freshExpressions es) := by
  induction es with
  | nil => exact steps_pure _
  | cons e es ih =>
    obtain ⟨he, hes⟩ := List.forall_mem_cons.mp h
    exact steps_bind (steps_freshExpression he) fun _ => steps_bind (ih hes) fun _ => steps_pure _

@[grind ←] theorem steps_adjustStack : Steps R adjustStack := by grind [adjustStack]

theorem steps_sequence {ms : List (CompileM Code)} (h : StepsAll R ms) : Steps R (sequence ms) := by
  induction ms with
  | nil => exact steps_pure _
  | cons m ms ih =>
    obtain ⟨hm, hms⟩ := List.forall_mem_cons.mp h
    exact steps_bind hm fun _ => steps_bind (ih hms) fun _ => steps_pure _

@[grind ←] theorem steps_anonymousFunction (he : Steps R e) : Steps R (anonymousFunction e) := by
  grind [anonymousFunction]

@[grind ←] theorem steps_expressionFromString (he : Steps R e) :
    Steps R (expressionFromString e) := by
  grind [expressionFromString]

theorem steps_optionalCode {m : Option (CompileM Code)} (h : StepsOption R m) :
    Steps R (optionalCode m) := by
  cases m with
  | none => exact steps_pure _
  | some m => exact h m rfl

end Emitters

section Statements

variable {c e body els : CompileM Code}

abbrev Nests (m : CompileM Code) : Prop := Steps State.Nests m

@[grind ←] theorem nests_scopedBlock (hb : Nests body) : Nests (scopedBlock body) := by
  grind [scopedBlock]

@[grind ←] theorem nests_storeNewLocal (n : Name) (x : TypeHint) : Nests (storeNewLocal n x) := by
  grind [storeNewLocal]

theorem nests_printStatement {es : List (CompileM Code)} (h : StepsAll State.Nests es) :
    Nests (printStatement es) :=
  steps_bind (steps_freshExpressions h) fun _ => by grind

@[grind ←] theorem nests_deleteVariable (n : Name) : Nests (deleteVariable n) := by
  refine steps_bind (steps_resolveLocal n) fun l => ?_
  cases l with
  | some i => exact steps_pure _
  | none =>
    refine steps_bind (steps_resolveUpvalue n) fun u => ?_
    cases u with
    | some i => exact steps_pure _
    | none => exact steps_constantStore n _

/-- The key expression of an access chain. -/
def KeyNests : AccessKey → Prop
  | .property _ => True
  | .index e => Nests e

theorem nests_accessKey {k : AccessKey} (h : KeyNests k) : Nests (accessKey k) := by
  cases k with
  | property n => exact steps_constantStore n _
  | index e => exact steps_expression h

theorem nests_deleteAccessChain {ks : List AccessKey} (h : ∀ k ∈ ks, KeyNests k) :
    Nests (deleteAccessChain ks) := by
  induction ks with
  | nil => exact steps_error
  | cons k ks ih =>
    obtain ⟨hk, hks⟩ := List.forall_mem_cons.mp h
    cases ks with
    | nil => exact steps_bind (nests_accessKey hk) fun _ => steps_pure _
    | cons k' ks =>
      exact steps_bind (nests_accessKey hk) fun _ => steps_bind (ih hks) fun _ => steps_pure _

theorem nests_deleteAccess {ks : List AccessKey} (hb : Nests e) (h : ∀ k ∈ ks, KeyNests k) :
    Nests (deleteAccess e ks) :=
  steps_bind hb fun _ => steps_bind (nests_deleteAccessChain h) fun _ => steps_pure _

theorem nests_expressionStatement (he : Nests e) : Nests (expressionStatement e) := by
  grind [expressionStatement]

@[grind ←] theorem nests_assignNameFromStack (n : Name) (x : TypeHint) :
    Nests (assignNameFromStack n x) := by
  refine steps_bind (steps_resolveLocal n) fun l => ?_
  cases l with
  | some i => exact steps_bind (steps_updateLocalType i x) fun _ => steps_pure _
  | none =>
    refine steps_bind (steps_isExplicitGlobalName n) fun g => steps_ite (steps_constantStore n _) ?_
    refine steps_bind (steps_resolveUpvalue n) fun u => ?_
    cases u with
    | some i => exact steps_pure _
    | none => exact nests_storeNewLocal n x

@[grind ←] theorem nests_assignTargets (ns : List Name) : Nests (assignTargets ns) := by
  induction ns with
  | nil => exact steps_pure _
  | cons n ns ih =>
    exact steps_bind (nests_assignNameFromStack n .any) fun _ => steps_bind ih fun _ => steps_pure _

@[grind ←] theorem nests_declareTargets (ns : List Name) : Steps State.Nests (declareTargets ns) := by
  induction ns with
  | nil => exact steps_pure _
  | cons n ns ih =>
    refine steps_bind (steps_isExplicitGlobalName n) fun g => steps_ite ih ?_
    refine steps_bind (steps_resolveLocal n) fun l => ?_
    cases l with
    | some i => exact ih
    | none => exact steps_bind (nests_addLocal n) fun _ => steps_bind ih fun _ => steps_pure _

theorem nests_multiAssignment (ns : List Name) {es : List (CompileM Code)}
    (h : StepsAll State.Nests es) : Nests (multiAssignmentStatement ns es) := by
  have hes := steps_freshExpressions h
  refine steps_ite steps_error (steps_bind (nests_declareTargets ns) fun d =>
    steps_bind (nests_markInitializedCount d) fun _ => ?_)
  exact steps_bind steps_adjustStack fun _ => steps_bind hes fun _ => by grind

theorem nests_ifStatement (hc : Nests c) (hb : Nests body) (he : Nests els) :
    Nests (ifStatement c body els) := by
  grind [ifStatement]

/-- The parts of a clause of `match`. -/
def ClauseNests : Clause → Prop
  | .case e body => Nests e ∧ Nests body
  | .els body => Nests body

theorem nests_matchClauses (slot : Nat) {cs : List Clause} (h : ∀ c ∈ cs, ClauseNests c) :
    Nests (matchClauses slot cs) := by
  induction cs with
  | nil => exact steps_pure _
  | cons c cs ih =>
    obtain ⟨hc, hcs⟩ := List.forall_mem_cons.mp h
    cases c with
    | case e body =>
      exact steps_bind (steps_setTypeStackTop 0) fun _ => steps_bind (steps_expression hc.1) fun _ =>
        steps_bind (nests_scopedBlock hc.2) fun _ => steps_bind (ih hcs) fun _ => steps_pure _
    | els body =>
      cases cs with
      | nil => exact nests_scopedBlock hc
      | cons => exact steps_error

theorem nests_matchStatement {cs : List Clause} (he : Nests e) (h : ∀ c ∈ cs, ClauseNests c) :
    Nests (matchStatement e cs) := by
  refine steps_bind nests_beginScope fun _ => steps_bind (steps_freshExpression he) fun _ =>
    steps_bind steps_localCount fun slot => ?_
  have hcs := nests_matchClauses slot h
  refine steps_bind (nests_addLocal _) fun _ => steps_bind nests_markInitialized fun _ => ?_
  exact steps_bind (steps_setTypeStackTop 0) fun _ => by grind

theorem nests_exceptBody (slot : Nat) {filter : Option (CompileM Code)}
    (hf : StepsOption State.Nests filter) (hb : Nests body) : Nests (exceptBody slot filter body) := by
  cases filter with
  | none => exact hb
  | some f =>
    exact steps_bind (steps_freshExpression (hf f rfl)) fun _ => steps_bind hb fun _ => steps_pure _

/-- The parts of an except clause. -/
def HandlerNests (h : ExceptHandler) : Prop := StepsOption State.Nests h.filter ∧ Nests h.body

theorem nests_exceptClause {h : ExceptHandler} (hh : HandlerNests h) : Nests (exceptClause h) := by
  refine steps_bind nests_beginScope fun _ => ?_
  obtain ⟨name, filter, body⟩ := h
  rcases name with _ | n
  · rcases filter with _ | f
    · exact steps_bind hh.2 fun _ => by grind
    · exact steps_error
  · refine steps_bind steps_localCount fun slot => ?_
    have hb := nests_exceptBody slot hh.1 hh.2
    exact steps_bind (nests_addLocal n) fun _ => by grind

theorem nests_tryStatement {exc : Option ExceptHandler} {fin : Option (CompileM Code)}
    (hb : Nests body) (he : ∀ h, exc = some h → HandlerNests h) (hf : StepsOption State.Nests fin) :
    Nests (tryStatement body exc fin) := by
  have he' : Nests (optionalCode (exc.map exceptClause)) := by
    refine steps_optionalCode fun e h => ?_
    obtain ⟨x, hx, rfl⟩ := Option.map_eq_some_iff.mp h
    exact nests_exceptClause (he x hx)
  have hf' : Nests (optionalCode (fin.map scopedBlock)) := by
    refine steps_optionalCode fun e h => ?_
    obtain ⟨x, hx, rfl⟩ := Option.map_eq_some_iff.mp h
    exact nests_scopedBlock (hf x hx)
  refine steps_bind steps_localCount fun _ => steps_bind (nests_scopedBlock hb) fun _ =>
    steps_ite steps_error ?_
  exact steps_bind he' fun _ => steps_bind hf' fun _ => steps_pure _

@[grind ←] theorem nests_withName (n : Option Name) : Nests (withName n) := by
  cases n with
  | none => exact steps_pure _
  | some n =>
    refine steps_bind (steps_resolveLocal n) fun l => ?_
    cases l with
    | some i => exact steps_pure _
    | none =>
      refine steps_bind (steps_resolveUpvalue n) fun u => ?_
      cases u with
      | some i => exact steps_pure _
      | none => exact steps_bind (nests_addLocal n) fun _ => steps_bind nests_markInitialized fun _ =>
          steps_pure _

theorem nests_withStatement (n : Option Name) (he : Nests e) (hb : Nests body) :
    Nests (withStatement e n body) := by
  refine steps_bind nests_beginScope fun _ => steps_bind (steps_freshExpression he) fun _ =>
    steps_bind steps_localCount fun _ => steps_bind (nests_addLocal _) fun _ =>
    steps_bind nests_markInitialized fun _ => steps_bind (steps_identifierConstant _) fun _ =>
    steps_bind (nests_withName n) fun _ => steps_bind steps_localCount fun _ =>
    steps_bind (nests_addLocal _) fun _ => ?_
  exact steps_bind nests_markInitialized fun _ => steps_bind steps_localCount fun _ => by grind

theorem nests_inLoop (l : LoopContext) (hb : Nests body) : Nests (inLoop l body) := by
  refine steps_bind steps_current fun _ => steps_bind steps_current fun _ =>
    steps_bind (nests_setCurrent _) fun _ => ?_
  exact steps_bind hb fun _ => by grind

theorem nests_whileStatement (hc : Nests c) (hb : Nests body) : Nests (whileStatement c body) := by
  refine steps_bind steps_current fun _ => steps_bind (by grind [whileContext]) fun _ =>
    steps_bind steps_current fun _ => steps_bind (nests_setCurrent _) fun _ => ?_
  exact steps_bind (steps_freshExpression hc) fun _ => by grind

theorem nests_returnStatement {es : List (CompileM Code)} (h : StepsAll State.Nests es) :
    Nests (returnStatement es) := by
  refine steps_bind (steps_freshExpressions h) fun c => ?_
  rcases es with _ | ⟨e, _ | ⟨e', es⟩⟩ <;> exact steps_pure _

/-- The parts of the header of an iteration. -/
def HeaderSteps (R : State → State → Prop) (h : IterHeader) : Prop :=
  Steps R h.first ∧ StepsAll R h.more

theorem steps_headerExpression {R : State → State → Prop} [ScopeStep R] (h : IterHeader)
    (he : Steps R e) : Steps R (headerExpression h e) := by
  have hin : ∀ b : Bool, Steps R (modify fun s : State => { s with inForRangeHeader := b }) :=
    fun b => steps_modify fun _ => State.sameScope_of_eq rfl rfl
  exact steps_bind (hin _) fun _ => steps_bind he fun _ => steps_bind (hin false) fun _ => by grind

@[grind ←] theorem nests_iteratorTriple (h : IterHeader) (first : Code) (isRange : Bool)
    (more : Code) : Nests (iteratorTriple h first isRange more) := by
  grind [iteratorTriple]

@[grind ←] theorem nests_popLoopVars (k : Nat) : Nests (popLoopVars k) := by
  induction k with
  | zero => exact steps_pure _
  | succ k ih =>
    refine steps_bind steps_current fun c => ?_
    cases c.locals.getLast? with
    | none => exact steps_error
    | some l => exact steps_bind (nests_setCurrent _) fun _ => steps_bind ih fun _ => steps_pure _

@[grind ←] theorem nests_addLocals (ns : List Name) : Steps State.Nests (addLocals ns) := by
  induction ns with
  | nil => exact steps_pure _
  | cons n ns ih => exact steps_bind (nests_addLocal n) fun _ => ih

theorem nests_iterLoop (vars : List Name) (hb : Nests body) : Nests (iterLoop vars body) := by
  refine steps_bind steps_localCount fun _ => steps_bind (nests_addLocals _) fun _ =>
    steps_bind (nests_markInitializedCount 3) fun _ => steps_bind (nests_addLocals vars) fun _ =>
    steps_bind (nests_markInitializedCount _) fun _ => ?_
  exact steps_bind steps_localCount fun _ => steps_bind hb fun _ => by grind

theorem nests_forRangeLoop (name : Name) (bounds : Code) (d : Nat) (hb : Nests body) :
    Nests (forRangeLoop name bounds d body) := by
  have hloop := nests_inLoop ⟨d, true, 0⟩ (nests_scopedBlock hb)
  refine steps_bind (nests_addLocals _) fun _ => steps_bind (nests_markInitializedCount 2) fun _ => ?_
  exact steps_bind steps_localCount fun _ => steps_bind hloop fun _ => steps_pure _

theorem nests_forStatement {h : IterHeader} (hh : HeaderSteps State.Nests h) (hb : Nests body) :
    Nests (forStatement h body) := by
  have hfirst := steps_headerExpression h (steps_freshExpression hh.1)
  have hmore := steps_freshExpressions hh.2
  have hloop : ∀ l, Nests (inLoop l (scopedBlock body)) := fun l =>
    nests_inLoop l (nests_scopedBlock hb)
  have hiter : ∀ l, Nests (iterLoop h.loopVars (inLoop l (scopedBlock body))) := fun l =>
    nests_iterLoop _ (hloop l)
  refine steps_bind nests_beginScope fun _ => steps_bind steps_current fun _ =>
    steps_bind hfirst fun p => ?_
  obtain ⟨first, isRange⟩ := p
  refine steps_ite steps_error (steps_ite steps_error (steps_bind hmore fun more => steps_ite ?_
    (steps_ite steps_error ?_)))
  · exact steps_bind (nests_forRangeLoop _ _ _ hb) fun _ => steps_bind nests_endScope fun _ =>
      steps_pure _
  · exact steps_bind (nests_iteratorTriple _ _ _ _) fun _ => steps_bind (hiter _) fun _ =>
      steps_bind nests_endScope fun _ => steps_pure _

theorem nests_breakStatement : Nests breakStatement := by
  refine steps_bind steps_current fun c => ?_
  cases hl : c.loopContext with
  | none => exact steps_error
  | some l => exact steps_pure _

theorem nests_continueStatement : Nests continueStatement := by
  refine steps_bind steps_current fun c => ?_
  cases hl : c.loopContext with
  | none => exact steps_error
  | some l => exact steps_pure _

theorem nests_throwStatement (he : Nests e) : Nests (throwStatement e) := by
  grind [throwStatement]

theorem nests_yieldStatement {es : List (CompileM Code)} (h : StepsAll State.Nests es) :
    Nests (yieldStatement es) := by
  have hes := steps_freshExpressions h
  refine steps_bind steps_current fun _ => steps_ite steps_error ?_
  exact steps_bind (nests_setCurrent _) fun _ => by grind

theorem nests_assertStatement {message : Option (CompileM Code)} (hc : Nests c)
    (hm : StepsOption State.Nests message) : Nests (assertStatement c message) := by
  have hmessage : Nests (assertMessage message) := by
    cases message with
    | none => exact steps_emitConstant _
    | some m => exact steps_freshExpression (hm m rfl)
  grind [assertStatement]

theorem nests_functionDeclaration (n : Name) (he : Nests e) : Nests (functionDeclaration n e) := by
  grind [functionDeclaration]

theorem nests_globalFunctionDeclaration (n : Name) (he : Nests e) :
    Nests (globalFunctionDeclaration n e) := by
  grind [globalFunctionDeclaration]

theorem nests_applyDecorators (n : Name) {ds : List (CompileM Code)}
    (h : StepsAll State.Nests ds) : Nests (applyDecorators n ds) := by
  induction ds with
  | nil => exact steps_pure _
  | cons d ds ih =>
    obtain ⟨hd, hds⟩ := List.forall_mem_cons.mp h
    exact steps_bind (steps_expressionFromString hd) fun _ => steps_bind (steps_emitGetNamed n) fun _ =>
      steps_bind (steps_emitSetNamed n) fun _ => steps_bind (ih hds) fun _ => steps_pure _

theorem nests_decorated {ds : List (CompileM Code)} (n : Name) (h : StepsAll State.Nests ds)
    (he : Nests e) : Nests (decorated ds n e) := by
  refine steps_ite steps_error (steps_bind he fun _ => steps_bind ?_ fun _ => steps_pure _)
  exact nests_applyDecorators n fun d hd => h d (List.mem_reverse.mp hd)

theorem nests_importStatement (ps : List (Bytes × Name)) : Nests (importStatement ps) := by
  induction ps with
  | nil => exact steps_pure _
  | cons p ps ih =>
    exact steps_bind (nests_declareVariable p.2) fun _ => steps_bind (steps_makeConstant _) fun _ =>
      steps_bind nests_markInitialized fun _ => steps_bind ih fun _ => steps_pure _

theorem nests_fromImportNames (k : UInt8) (ns : List Name) : Nests (fromImportNames k ns) := by
  induction ns with
  | nil => exact steps_pure _
  | cons n ns ih =>
    exact steps_bind (steps_emitConstant _) fun _ => steps_bind (nests_declareVariable n) fun _ =>
      steps_bind nests_markInitialized fun _ => steps_bind ih fun _ => steps_pure _

theorem nests_fromImportStatement (path : Bytes) (ns : List Name) :
    Nests (fromImportStatement path ns) :=
  steps_bind (steps_makeConstant _) fun k => nests_fromImportNames k ns

theorem nests_fromImportStar (path : Bytes) : Nests (fromImportStar path) := by
  grind [fromImportStar]

/-- The expressions of an initialiser. -/
def InitNests : Init → Prop
  | .none => True
  | .commaList es | .exprs es => StepsAll State.Nests es

theorem nests_initializer (k : Nat) {i : Init} (h : InitNests i) : Nests (initializer k i) := by
  cases i with
  | none => exact steps_pure _
  | commaList es => exact steps_ite (steps_parseArrayLiteral h) steps_error
  | exprs es => exact steps_bind (steps_freshExpressions h) fun _ => steps_pure _

theorem nests_variableDeclaration (ns : List Name) {i : Init} (h : InitNests i) :
    Nests (variableDeclaration ns i) := by
  have hdeclare : Steps State.Nests (declareVariables ns) := by
    induction ns with
    | nil => exact steps_pure _
    | cons n ns ih => exact steps_bind (nests_declareVariable n) fun _ => ih
  refine steps_ite steps_error (steps_bind hdeclare fun _ => ?_)
  exact steps_bind (nests_initializer _ h) fun _ => by grind

theorem nests_globalDeclaration (ns : List Name) {i : Init} (h : InitNests i) :
    Nests (globalDeclaration ns i) := by
  have hnames : Steps State.Nests (globalNames ns) := by
    induction ns with
    | nil => exact steps_pure _
    | cons n ns ih =>
      exact steps_bind (nests_registerExplicitGlobal n) fun _ =>
        steps_bind (steps_identifierConstant n) fun _ => steps_bind ih fun _ => steps_pure _
  refine steps_ite steps_error (steps_bind hnames fun _ => steps_bind steps_current fun _ =>
    steps_ite (steps_pure _) (steps_bind (nests_initializer _ h) fun _ => steps_pure _))

theorem nests_filtered {cond : Option (CompileM Code)} (hc : StepsOption State.Nests cond)
    (he : Nests e) : Nests (filtered cond e) := by
  cases cond with
  | none => exact he
  | some c => exact steps_bind (steps_expression (hc c rfl)) fun _ => steps_bind he fun _ => steps_pure _

theorem nests_comprehensionTriple {h : IterHeader} (hh : HeaderSteps State.Nests h) :
    Nests (comprehensionTriple h) := by
  have hmore : Nests (sequence (h.more.map expression)) := by
    refine steps_sequence fun e he => ?_
    obtain ⟨x, hx, rfl⟩ := List.mem_map.mp he
    exact steps_expression (hh.2 x hx)
  refine steps_bind (steps_headerExpression h (steps_expression hh.1)) fun p => ?_
  obtain ⟨first, isRange⟩ := p
  refine steps_ite steps_error (steps_ite steps_error (steps_ite steps_error ?_))
  exact steps_bind hmore fun _ => nests_iteratorTriple _ _ _ _

theorem nests_declareParams (i : Nat) (b : Bool) (ps : List Param) :
    Steps State.Nests (declareParams i b ps) := by
  induction ps generalizing i b with
  | nil => exact steps_pure _
  | cons p ps ih =>
    refine steps_ite steps_error (steps_ite steps_error (steps_bind (nests_declareVariable _) fun _ => ?_))
    cases p.hint with
    | none => exact ih _ _
    | some t =>
      exact steps_bind steps_localCount fun _ => steps_bind (steps_setLocalType _ t) fun _ => ih _ _

end Statements

section Functions

theorem steps_functionBody {R : State → State → Prop} [ScopeStep R] (name : Name)
    (ps : List Param) {body : CompileM Code} (hb : Nests body) :
    Steps R (functionBody name ps body) := by
  have hbody : Nests (do declareParams 0 false ps; initializeLocals; body) :=
    steps_bind (nests_declareParams 0 false ps) fun _ => steps_bind nests_initializeLocals fun _ => hb
  have hsame := sameScope_inFunction hbody name ps
  refine .ofSame fun s c s' h => hsame s c s' ?_
  simpa only [functionBody, bind_assoc] using h

variable {h : IterHeader} {cond key : Option (CompileM Code)} {elem : CompileM Code}

theorem steps_generatorComprehension {R : State → State → Prop} [ScopeStep R]
    (hh : HeaderSteps State.Nests h) (hc : StepsOption State.Nests cond) (he : Nests elem) :
    Steps R (generatorComprehension h cond elem) := by
  have hyield : Nests (do
      let k ← makeConstant (.string (ascii "coroutine"))
      let y ← identifierConstant (ascii "yield")
      let c ← expressionFromString elem
      pure (seqs [op .opImport [k], op .opConstant [y], op0 .opGetTable, c, emitCall 1 0])) := by
    grind
  have hloop := nests_iterLoop h.loopVars (nests_filtered hc hyield)
  have htriple := nests_comprehensionTriple hh
  have hbody : Nests (do
      setCurrent { (← current) with isGenerator := true }
      let triple ← comprehensionTriple h
      let loop ← iterLoop h.loopVars (filtered cond do
        let k ← makeConstant (.string (ascii "coroutine"))
        let y ← identifierConstant (ascii "yield")
        let c ← expressionFromString elem
        pure (seqs [op .opImport [k], op .opConstant [y], op0 .opGetTable, c, emitCall 1 0]))
      pure (.seq triple loop)) :=
    steps_bind steps_current fun _ => steps_bind (nests_setCurrent _) fun _ =>
      steps_bind htriple fun _ => steps_bind hloop fun _ => steps_pure _
  have hsame := sameScope_inFunction hbody [] []
  have htail : ∀ closure : Code, Steps State.SameScope (do
      typePush .any
      pure (Code.seq closure (emitCall 0 1))) := by grind
  have hall := steps_bind hsame htail
  refine .ofSame fun s c s' h => hall s c s' ?_
  simpa only [generatorComprehension, bind_assoc, pure_bind] using h

theorem nests_comprehensionElement (list idx : Nat) (hk : StepsOption State.Nests key)
    (he : Nests elem) : Nests (comprehensionElement list idx key elem) := by
  cases key with
  | none => grind [comprehensionElement]
  | some k =>
    exact steps_bind (steps_expressionFromString (hk k rfl)) fun _ =>
      steps_bind (steps_expressionFromString he) fun _ => steps_pure _

theorem steps_tableComprehension {R : State → State → Prop} [ScopeStep R]
    (hh : HeaderSteps State.Nests h) (hc : StepsOption State.Nests cond)
    (hk : StepsOption State.Nests key) (he : Nests elem) :
    Steps R (tableComprehension h cond key elem) := by
  have hloop : ∀ list idx, Nests (iterLoop h.loopVars
      (filtered cond (comprehensionElement list idx key elem))) := fun list idx =>
    nests_iterLoop h.loopVars (nests_filtered hc (nests_comprehensionElement list idx hk he))
  have htriple := nests_comprehensionTriple hh
  have hbody : Nests (do
      addLocal (ascii "(list)")
      markInitialized
      let list := (← localCount) - 1
      let one ← emitConstant (.number (doubleOfNat 1))
      addLocal (ascii "(idx)")
      markInitialized
      let idx := (← localCount) - 1
      let triple ← comprehensionTriple h
      let loop ← iterLoop h.loopVars (filtered cond (comprehensionElement list idx key elem))
      pure (seqs [op0 .opNewTable, one, triple, loop, op1 .opGetLocal list])) :=
    steps_bind (nests_addLocal _) fun _ => steps_bind nests_markInitialized fun _ =>
      steps_bind steps_localCount fun list => steps_bind (steps_emitConstant _) fun _ =>
      steps_bind (nests_addLocal _) fun _ => steps_bind nests_markInitialized fun _ =>
      steps_bind steps_localCount fun idx => steps_bind htriple fun _ =>
      steps_bind (hloop _ _) fun _ => steps_pure _
  have hsame := sameScope_inFunction hbody [] []
  have htail : ∀ (baseTop : Nat) (closure : Code), Steps State.SameScope (do
      replaceType baseTop .table
      pure (Code.seq closure (emitCall 0 1))) := by grind
  have hall := fun baseTop => steps_bind hsame (htail baseTop)
  have hfull : Steps State.SameScope (tableComprehension h cond key elem) := by
    refine steps_bind steps_getTypeStackTop fun baseTop s c s' hs => hall baseTop s c s' ?_
    simpa only [bind_assoc, pure_bind] using hs
  exact .ofSame hfull

end Functions

end ToiLang.Compile
