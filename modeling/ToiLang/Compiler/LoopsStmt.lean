import ToiLang.Compiler.LoopsExpr

namespace ToiLang.Compile

variable {k j : Bool}

theorem enterFunction_loops {s s' : State} {a : Unit} (h : enterFunction s = some (a, s')) :
    s'.loops = false :: s.loops ∧ s'.functions = s.functions := by
  simp only [bind_eq_some, enterFunction, modify_eq_some, beginScope, current_eq_some,
    setCurrent_eq_some] at h
  obtain ⟨_, _, rfl, _, _, ⟨rfl, rfl⟩, rfl⟩ := h
  exact ⟨rfl, rfl⟩

/-- A function is compiled outside of the loops around it. -/
theorem keeps_function {m : CompileM Code} (name : Name) (params : List Param)
    (hm : KeepsCode false false m) :
    KeepsCode k j (enterFunction >>= fun _ => m >>= fun b => endCompiler name params b) := by
  intro s c s' _ h
  obtain ⟨_, s1, h1, h⟩ := bind_eq_some.mp h
  obtain ⟨b, s2, hb, h⟩ := bind_eq_some.mp h
  obtain ⟨hl1, hf1⟩ := enterFunction_loops h1
  obtain ⟨hl2, hf2, hb2⟩ := hm s1 b s2 (List.cons.inj hl1).1 hb
  obtain ⟨e, es, i, he, -, hk, rfl⟩ := endCompiler_spec h
  obtain ⟨hl3, hf3⟩ := calm_makeConstant _ _ _ _ hk
  have hloops : e.loopContext.isSome :: es.map (fun c => c.loopContext.isSome) = s.loops := by
    have htail := (List.cons.inj (hl2.trans hl1)).2
    rw [he] at htail
    exact htail
  refine ⟨hl3.trans hloops, fun f hf => ?_, trivial⟩
  rw [hf3] at hf
  rcases List.mem_append.mp hf with hf | hf
  · have h2 := hf2 f hf
    rwa [hf1] at h2
  · rw [List.mem_singleton.mp hf]
    exact .inr ⟨b, rfl, hb2⟩

/-- The same for a function that is called where it is made. -/
theorem keeps_calledFunction {m : CompileM Code} {q : CompileM Unit} (hm : KeepsCode false false m)
    (hq : Calm q) :
    KeepsCode k j (enterFunction >>= fun _ => m >>= fun b => endCompiler [] [] b >>= fun c =>
      q >>= fun _ => pure (.seq c (emitCall 0 1))) := by
  have h : KeepsCode k j ((enterFunction >>= fun _ => m >>= fun b => endCompiler [] [] b) >>=
      fun c => q >>= fun _ => pure (.seq c (emitCall 0 1))) :=
    Keeps.bind (keeps_function (j := j) [] [] hm) fun _ hc => hq.then fun _ => .pure ⟨hc, trivial⟩
  simpa only [bind_assoc] using h

theorem keeps_functionBody (name : Name) (params : List Param) {body : CompileM Code}
    (hb : KeepsCode false false body) : KeepsCode k j (functionBody name params body) := by
  have h : functionBody name params body = (enterFunction >>= fun _ =>
      (declareParams 0 false params >>= fun _ => initializeLocals >>= fun _ => body) >>=
        fun b => endCompiler name params b) := by
    simp only [functionBody, bind_assoc]
  rw [h]
  exact keeps_function name params ((calm_declareParams _ _ _).then fun _ =>
    calm_initializeLocals.then fun _ => hb)

theorem keeps_anonymousFunction {f : CompileM Code} (hf : KeepsCode k j f) :
    KeepsCode k j (anonymousFunction f) :=
  Keeps.bind hf fun _ hc => (calm_typePush _).then fun _ => .pure hc

theorem Keeps.update {β : Type} {f : Compiler → Compiler} {m : Unit → CompileM β} {R : β → Prop}
    (h : ∀ c, (f c).loopContext = c.loopContext) (hm : Keeps k (m ()) R) :
    Keeps k (current >>= fun c => setCurrent (f c) >>= m) R := by
  rw [← bind_assoc]
  exact (calm_update h).then fun _ => hm

/-- The same where the change may be refused. -/
theorem Keeps.checked {β : Type} {p : Compiler → Prop} [DecidablePred p] {f : Compiler → Compiler}
    {m : Unit → CompileM β} {R : β → Prop} (h : ∀ c, (f c).loopContext = c.loopContext)
    (hm : Keeps k (m ()) R) :
    Keeps k (current >>= fun c => if p c then Compile.error else setCurrent (f c) >>= m) R := by
  intro s a s' hk hs
  obtain ⟨c, w, hc, hs⟩ := bind_eq_some.mp hs
  simp only [ite_eq_some, error_eq_some, and_false, false_or] at hs
  exact Keeps.update h hm s a s' hk (bind_eq_some.mpr ⟨c, w, hc, hs.2⟩)

theorem formed_popLocals (ls : List Local) : (seqs (ls.map fun l => .instr (popLocal l))).formed j := by
  rw [Code.formed_seqs]
  intro c hc
  obtain ⟨l, -, rfl⟩ := List.mem_map.mp hc
  exact trivial

theorem keeps_endScope : KeepsCode k j endScope := by
  intro s c s' _ h
  simp only [endScope, bind_eq_some, current_eq_some, setCurrent_eq_some] at h
  obtain ⟨_, _, ⟨rfl, rfl⟩, _, _, rfl, h⟩ := h
  obtain ⟨rfl, rfl⟩ := pure_eq_some.mp h
  exact ⟨rfl, fun f hf => .inl hf, formed_popLocals _⟩

theorem keeps_scopedBlock {body : CompileM Code} (hb : KeepsCode k j body) :
    KeepsCode k j (scopedBlock body) :=
  calm_beginScope.then fun _ => Keeps.bind hb fun _ hb => Keeps.bind (keeps_endScope (j := j))
    fun _ he => .pure ⟨hb, he⟩

theorem keeps_freshExpression {e : CompileM Code} (he : KeepsCode k j e) :
    KeepsCode k j (freshExpression e) :=
  (calm_setTypeStackTop 0).then fun _ => keeps_expression he

theorem keeps_freshExpressions {es : List (CompileM Code)} (h : KeepsAll k j es) :
    KeepsCode k j (freshExpressions es) := by
  induction es with
  | nil => exact .pure trivial
  | cons e es ih =>
    obtain ⟨he, hes⟩ := List.forall_mem_cons.mp h
    exact Keeps.bind (keeps_freshExpression he) fun c hc => Keeps.bind (ih hes) fun rest hr =>
      .pure ⟨hc, hr⟩

theorem keeps_adjustStack : KeepsCode k j adjustStack := calm_localCount.then fun _ => .pure trivial

theorem keeps_printStatement {es : List (CompileM Code)} (h : KeepsAll k j es) :
    KeepsCode k j (printStatement es) :=
  Keeps.bind (keeps_freshExpressions h) fun _ hc => .ite .error (.pure ⟨hc, trivial⟩)

theorem keeps_deleteVariable (n : Name) : KeepsCode k j (deleteVariable n) := by
  refine (calm_resolveLocal n).then fun l => ?_
  cases l with
  | some i => exact .pure (by simp)
  | none =>
    refine (calm_resolveUpvalue n).then fun u => ?_
    cases u with
    | some i => exact .pure (by simp)
    | none => exact keeps_constantStore n _

/-- The key expression of an access chain keeps to the loops. -/
def KeyKeeps (k j : Bool) : AccessKey → Prop
  | .property _ => True
  | .index e => KeepsCode k j e

theorem keeps_accessKey {key : AccessKey} (h : KeyKeeps k j key) : KeepsCode k j (accessKey key) := by
  cases key with
  | property n => exact keeps_constantStore n _
  | index e => exact keeps_expression h

theorem keeps_deleteAccessChain {ks : List AccessKey} (h : ∀ key ∈ ks, KeyKeeps k j key) :
    KeepsCode k j (deleteAccessChain ks) := by
  induction ks with
  | nil => exact .error
  | cons key ks ih =>
    obtain ⟨hk, hks⟩ := List.forall_mem_cons.mp h
    cases ks with
    | nil => exact Keeps.bind (keeps_accessKey hk) fun _ hc => .pure ⟨hc, trivial⟩
    | cons key' ks =>
      refine Keeps.bind (keeps_accessKey hk) fun c hc => Keeps.bind (ih hks) fun rest hr => .pure ?_
      simp [hc, hr]

theorem keeps_deleteAccess {base : CompileM Code} {ks : List AccessKey} (hb : KeepsCode k j base)
    (h : ∀ key ∈ ks, KeyKeeps k j key) : KeepsCode k j (deleteAccess base ks) :=
  Keeps.bind hb fun _ hc => Keeps.bind (keeps_deleteAccessChain h) fun _ hr => .pure ⟨hc, hr⟩

theorem keeps_sequence {ms : List (CompileM Code)} (h : KeepsAll k j ms) :
    KeepsCode k j (sequence ms) := by
  induction ms with
  | nil => exact .pure trivial
  | cons m ms ih =>
    obtain ⟨hm, hms⟩ := List.forall_mem_cons.mp h
    exact Keeps.bind hm fun c hc => Keeps.bind (ih hms) fun rest hr => .pure ⟨hc, hr⟩

theorem keeps_expressionStatement {e : CompileM Code} (he : KeepsCode k j e) :
    KeepsCode k j (expressionStatement e) := by
  refine Keeps.bind (keeps_freshExpression he) fun c hc => Keeps.bind (keeps_adjustStack (j := j))
    fun a ha => .pure ?_
  simp [hc, ha]

theorem keeps_assignNameFromStack (n : Name) (x : TypeHint) :
    KeepsCode k j (assignNameFromStack n x) := by
  refine (calm_resolveLocal n).then fun l => ?_
  cases l with
  | some i => exact (calm_updateLocalType i x).then fun _ => .pure trivial
  | none =>
    refine (calm_isExplicitGlobalName n).then fun g => .ite (keeps_constantStore n _) ?_
    refine (calm_resolveUpvalue n).then fun u => ?_
    cases u with
    | some i => exact .pure trivial
    | none => exact keeps_storeNewLocal n x

theorem keeps_assignTargets (ns : List Name) : KeepsCode k j (assignTargets ns) := by
  induction ns with
  | nil => exact .pure trivial
  | cons n ns ih =>
    refine Keeps.bind (keeps_assignNameFromStack (j := j) n .any) fun c hc => Keeps.bind ih
      fun rest hr => .pure ?_
    simp [hc, hr]

theorem keeps_multiAssignment (ns : List Name) {es : List (CompileM Code)} (h : KeepsAll k j es) :
    KeepsCode k j (multiAssignmentStatement ns es) := by
  refine .ite .error ((calm_declareTargets ns).then fun d => (calm_markInitializedCount d).then
    fun _ => Keeps.bind (keeps_adjustStack (j := j)) fun before hb =>
      Keeps.bind (keeps_freshExpressions h) fun c hc => calm_localCount.then fun _ =>
        Keeps.bind (keeps_assignTargets (j := j) ns.reverse) fun stores hs =>
          Keeps.bind (keeps_adjustStack (j := j)) fun a ha => .pure ?_)
  have hfill : ∀ x y, (if es.length > 1 then nils (ns.length - es.length)
      else op .opUnpack [x, y]).formed j := by
    intro x y
    split_ifs
    · exact formed_nils _
    · exact trivial
  simp [hb, hc, hs, ha, hfill]

theorem keeps_ifStatement {c body els : CompileM Code} (hc : KeepsCode k j c)
    (hb : KeepsCode k j body) (he : KeepsCode k j els) : KeepsCode k j (ifStatement c body els) :=
  Keeps.bind (keeps_freshExpression hc) fun _ hc => Keeps.bind (keeps_scopedBlock hb) fun _ hb =>
    Keeps.bind he fun _ he => .pure ⟨hc, ⟨trivial, hb⟩, trivial, he⟩

/-- The parts of a `match` clause keep to the loops. -/
def ClauseKeeps (k j : Bool) : Clause → Prop
  | .case e body => KeepsCode k j e ∧ KeepsCode k j body
  | .els body => KeepsCode k j body

theorem keeps_matchClauses (slot : Nat) {cs : List Clause} (h : ∀ c ∈ cs, ClauseKeeps k j c) :
    KeepsCode k j (matchClauses slot cs) := by
  induction cs with
  | nil => exact .pure trivial
  | cons c cs ih =>
    obtain ⟨hc, hcs⟩ := List.forall_mem_cons.mp h
    cases c with
    | case e body =>
      refine (calm_setTypeStackTop 0).then fun _ => Keeps.bind (keeps_expression hc.1) fun ce he =>
        Keeps.bind (keeps_scopedBlock hc.2) fun cb hb => Keeps.bind (ih hcs) fun rest hr => .pure ?_
      simp [he, hb, hr]
    | els body =>
      cases cs with
      | nil => exact keeps_scopedBlock hc
      | cons => exact .error

theorem keeps_matchStatement {e : CompileM Code} {cs : List Clause} (he : KeepsCode k j e)
    (h : ∀ c ∈ cs, ClauseKeeps k j c) : KeepsCode k j (matchStatement e cs) := by
  refine calm_beginScope.then fun _ => Keeps.bind (keeps_freshExpression he) fun c hc =>
    calm_localCount.then fun _ => (calm_addLocal _).then fun _ => calm_markInitialized.then fun _ =>
      (calm_setTypeStackTop 0).then fun _ => .ite .error ?_
  refine Keeps.bind (keeps_matchClauses _ h) fun cc hcc => Keeps.bind (keeps_endScope (j := j))
    fun e he => .pure ?_
  simp [hc, hcc, he]

theorem keeps_exceptBody (slot : Nat) {filter : Option (CompileM Code)} {body : CompileM Code}
    (hf : KeepsOption k j filter) (hb : KeepsCode k j body) :
    KeepsCode k j (exceptBody slot filter body) := by
  cases filter with
  | none => exact hb
  | some f =>
    refine Keeps.bind (keeps_freshExpression (hf f rfl)) fun cf hf => Keeps.bind hb fun cb hb => .pure ?_
    simp [hf, hb]

/-- The parts of an except clause keep to the loops. -/
def HandlerKeeps (k j : Bool) (h : ExceptHandler) : Prop :=
  KeepsOption k j h.filter ∧ KeepsCode k j h.body

theorem keeps_exceptClause {h : ExceptHandler} (ho : HandlerKeeps k j h) :
    KeepsCode k j (exceptClause h) := by
  refine calm_beginScope.then fun _ => ?_
  obtain ⟨name, filter, body⟩ := h
  rcases name with _ | n
  · rcases filter with _ | f
    · refine Keeps.bind ho.2 fun c hc => Keeps.bind (keeps_endScope (j := j)) fun e he => .pure ?_
      simp [hc, he]
    · exact .error
  · refine calm_localCount.then fun _ => (calm_addLocal n).then fun _ => calm_markInitialized.then
      fun _ => Keeps.bind (keeps_exceptBody _ ho.1 ho.2) fun c hc =>
        Keeps.bind (keeps_endScope (j := j)) fun e he => .pure ?_
    simp [hc, he]

theorem keeps_optionalCode {m : Option (CompileM Code)} (h : KeepsOption k j m) :
    Keeps k (optionalCode m) fun c => c.formed j ∧ (m.isSome = false → c = .nil) := by
  cases m with
  | none => exact .pure ⟨trivial, fun _ => rfl⟩
  | some e => exact Keeps.mono (h e rfl) fun c hc => ⟨hc, fun h => nomatch h⟩

theorem keeps_tryStatement {body : CompileM Code} {exc : Option ExceptHandler}
    {fin : Option (CompileM Code)} (hb : KeepsCode k j body)
    (he : ∀ h, exc = some h → HandlerKeeps k j h) (hf : KeepsOption k j fin) :
    KeepsCode k j (tryStatement body exc fin) := by
  have he' : KeepsOption k j (exc.map exceptClause) := by
    intro e h
    obtain ⟨x, hx, rfl⟩ := Option.map_eq_some_iff.mp h
    exact keeps_exceptClause (he x hx)
  have hf' : KeepsOption k j (fin.map scopedBlock) := by
    intro e h
    obtain ⟨x, hx, rfl⟩ := Option.map_eq_some_iff.mp h
    exact keeps_scopedBlock (hf x hx)
  refine calm_localCount.then fun _ => Keeps.bind (keeps_scopedBlock hb) fun cb hb => .ite .error ?_
  exact Keeps.bind (keeps_optionalCode he') fun ce he => Keeps.bind (keeps_optionalCode hf')
    fun cf hf => .pure ⟨hb, he.1, hf.1, fun h => he.2 (by simpa using h), fun h => hf.2 (by simpa using h)⟩

theorem keeps_withName (n : Option Name) : KeepsCode k j (withName n) := by
  cases n with
  | none => exact .pure trivial
  | some n =>
    refine (calm_resolveLocal n).then fun l => ?_
    cases l with
    | some i => exact .pure ⟨trivial, trivial⟩
    | none =>
      refine (calm_resolveUpvalue n).then fun u => ?_
      cases u with
      | some i => exact .pure ⟨trivial, trivial⟩
      | none => exact (calm_addLocal n).then fun _ => calm_markInitialized.then fun _ => .pure trivial

theorem keeps_withStatement {e : CompileM Code} (n : Option Name) {body : CompileM Code}
    (he : KeepsCode k j e) (hb : KeepsCode k j body) : KeepsCode k j (withStatement e n body) := by
  refine calm_beginScope.then fun _ => Keeps.bind (keeps_freshExpression he) fun c hc =>
    calm_localCount.then fun _ => (calm_addLocal _).then fun _ => calm_markInitialized.then fun _ =>
    (calm_identifierConstant _).then fun _ => Keeps.bind (keeps_withName (j := j) n) fun cn hn =>
    calm_localCount.then fun _ => (calm_addLocal _).then fun _ => calm_markInitialized.then fun _ =>
    calm_localCount.then fun _ => Keeps.bind (keeps_scopedBlock hb) fun cb hb =>
    (calm_identifierConstant _).then fun _ => Keeps.bind (keeps_endScope (j := j)) fun es hs => .pure ?_
  simp [hc, hn, hb, hs]

/-- What is compiled with a loop in place, and with the old one put back behind it. -/
theorem keeps_within (l : LoopContext) {m : CompileM Code} (hm : KeepsCode true j m) :
    KeepsCode k j (do
      let saved := (← current).loopContext
      setCurrent { (← current) with loopContext := some l }
      let c ← m
      setCurrent { (← current) with loopContext := saved }
      pure c) := by
  intro s c s' _ h
  simp only [bind_eq_some, current_eq_some, setCurrent_eq_some] at h
  obtain ⟨_, _, ⟨rfl, rfl⟩, _, _, ⟨rfl, rfl⟩, _, s1, rfl, c', s2, hc, _, _, ⟨rfl, rfl⟩, _, _, rfl, h⟩ := h
  obtain ⟨rfl, rfl⟩ := pure_eq_some.mp h
  obtain ⟨hl, hf, hq⟩ := hm _ _ _ rfl hc
  refine ⟨?_, hf, hq⟩
  exact congrArg (List.cons _) (List.cons.inj hl).2

theorem keeps_inLoop (l : LoopContext) {body : CompileM Code} (hb : KeepsCode true j body) :
    KeepsCode k j (inLoop l body) := keeps_within l hb

theorem keeps_whileStatement {c body : CompileM Code} (hc : KeepsCode true j c)
    (hb : KeepsCode true true body) : KeepsCode k j (whileStatement c body) := by
  have hm : KeepsCode true j (do
      let cc ← freshExpression c
      let cb ← scopedBlock body
      pure (.whileLoop cc cb)) :=
    Keeps.bind (keeps_freshExpression hc) fun _ hc => Keeps.bind (keeps_scopedBlock hb) fun _ hb =>
      .pure ⟨hc, hb⟩
  intro s c s' hk h
  simp only [whileStatement, whileContext, bind_assoc, pure_bind] at h
  obtain ⟨_, _, hs, h⟩ := bind_eq_some.mp h
  obtain ⟨rfl, rfl⟩ := current_eq_some.mp hs
  obtain ⟨_, _, hs, h⟩ := bind_eq_some.mp h
  obtain ⟨rfl, rfl⟩ := current_eq_some.mp hs
  obtain ⟨_, w, hs, h⟩ := bind_eq_some.mp h
  obtain ⟨rfl, rfl⟩ := get_eq_some.mp hs
  refine keeps_within ⟨w.current.scopeDepth, false, w.stalePops⟩ hm _ c s' hk ?_
  simp only [bind_assoc, pure_bind]
  exact bind_eq_some.mpr ⟨_, _, current_eq_some.mpr ⟨rfl, rfl⟩, h⟩

theorem keeps_returnStatement {es : List (CompileM Code)} (h : KeepsAll k j es) :
    KeepsCode k j (returnStatement es) := by
  refine Keeps.bind (keeps_freshExpressions h) fun c hc => ?_
  rcases es with _ | ⟨e, _ | ⟨e', es⟩⟩
  · exact .pure ⟨trivial, trivial⟩
  · exact .pure ⟨hc, trivial⟩
  · exact .pure ⟨hc, trivial⟩

/-- The expressions of an iteration header keep to the loops. -/
def HeaderKeeps (k j : Bool) (h : IterHeader) : Prop := KeepsCode k j h.first ∧ KeepsAll k j h.more

theorem keeps_headerExpression (h : IterHeader) {e : CompileM Code} (he : KeepsCode k j e) :
    Keeps k (headerExpression h e) fun p => p.1.formed j :=
  Calm.then (calm_modify fun _ => ⟨rfl, rfl⟩) fun _ => Keeps.bind he fun _ hc =>
    Calm.then (calm_modify fun _ => ⟨rfl, rfl⟩) fun _ => calm_get.then fun _ => .pure hc

theorem keeps_iteratorTriple (h : IterHeader) {first more : Code} (r : Bool) (hf : first.formed j)
    (hm : more.formed j) : KeepsCode k j (iteratorTriple h first r more) := by
  refine .ite (.pure ⟨hf, trivial⟩) (.ite ?_ (.pure ?_))
  · refine (calm_addLocal _).then fun _ => calm_markInitialized.then fun _ =>
      calm_localCount.then fun _ => .pure ?_
    simp [hf]
  · simp [hf, hm]

theorem keeps_popLoopVars (n : Nat) : KeepsCode k j (popLoopVars n) := by
  induction n with
  | zero => exact .pure trivial
  | succ n ih =>
    intro s c s' hk h
    simp only [popLoopVars, bind_eq_some, current_eq_some] at h
    obtain ⟨_, w, ⟨rfl, rfl⟩, h⟩ := h
    cases hl : w.current.locals.getLast? with
    | none => simp [hl] at h
    | some l =>
      simp only [hl, bind_eq_some, setCurrent_eq_some] at h
      obtain ⟨_, _, rfl, rest, _, hr, hc⟩ := h
      obtain ⟨rfl, rfl⟩ := pure_eq_some.mp hc
      obtain ⟨hloops, hfun, hq⟩ := ih { w with current := { w.current with locals := w.current.locals.dropLast } }
        rest _ hk hr
      exact ⟨hloops, hfun, trivial, hq⟩

theorem keeps_iterLoop (vars : List Name) {body : CompileM Code} (hb : KeepsCode k true body) :
    KeepsCode k j (iterLoop vars body) := by
  refine calm_localCount.then fun _ => (calm_addLocals _).then fun _ =>
    (calm_markInitializedCount 3).then fun _ => (calm_addLocals _).then fun _ =>
    (calm_markInitializedCount _).then fun _ => calm_localCount.then fun _ =>
    Keeps.bind hb fun b hb => Keeps.bind (keeps_popLoopVars (j := true) _) fun d hd => .pure ?_
  simp [hb, hd]

theorem keeps_forRangeLoop (n : Name) {bounds : Code} (d : Nat) {body : CompileM Code}
    (hbounds : bounds.formed j) (hb : KeepsCode true true body) :
    KeepsCode k j (forRangeLoop n bounds d body) :=
  (calm_addLocals _).then fun _ => (calm_markInitializedCount 2).then fun _ =>
    calm_localCount.then fun _ => Keeps.bind (keeps_inLoop _ (keeps_scopedBlock hb)) fun _ hb =>
      .pure ⟨hbounds, hb⟩

theorem keeps_forStatement {h : IterHeader} {body : CompileM Code} (hh : HeaderKeeps k j h)
    (hb : KeepsCode true true body) : KeepsCode k j (forStatement h body) := by
  refine calm_beginScope.then fun _ => calm_current.then fun _ =>
    Keeps.bind (keeps_headerExpression h (keeps_freshExpression hh.1)) fun p hf =>
      .ite .error (.ite .error ?_)
  refine Keeps.bind (keeps_freshExpressions hh.2) fun more hm => .ite ?_ (.ite .error ?_)
  · exact Keeps.bind (keeps_forRangeLoop _ _ hf hb) fun loop hl =>
      Keeps.bind (keeps_endScope (j := j)) fun e he => .pure ⟨hl, he⟩
  · refine Keeps.bind (keeps_iteratorTriple h false hf hm) fun triple ht =>
      Keeps.bind (keeps_iterLoop (j := j) _ (keeps_inLoop _ (keeps_scopedBlock hb))) fun loop hl =>
        Keeps.bind (keeps_endScope (j := j)) fun e he => .pure ?_
    simp [ht, hl, he]

/-- A jump out of a loop is refused where there is none. -/
theorem keeps_breakStatement : KeepsCode k k breakStatement := by
  intro s c s' hk h
  simp only [breakStatement, bind_eq_some, current_eq_some] at h
  obtain ⟨_, w, ⟨rfl, rfl⟩, h⟩ := h
  rw [← hk]
  cases hl : w.current.loopContext with
  | none => simp [hl] at h
  | some l =>
    simp only [hl] at h
    obtain ⟨rfl, rfl⟩ := pure_eq_some.mp h
    exact ⟨rfl, fun f hf => .inl hf, by simp [State.inLoop, hl]⟩

theorem keeps_continueStatement : KeepsCode k k continueStatement := by
  intro s c s' hk h
  simp only [continueStatement, bind_eq_some, current_eq_some] at h
  obtain ⟨_, w, ⟨rfl, rfl⟩, h⟩ := h
  rw [← hk]
  cases hl : w.current.loopContext with
  | none => simp [hl] at h
  | some l =>
    simp only [hl] at h
    obtain ⟨rfl, rfl⟩ := pure_eq_some.mp h
    exact ⟨rfl, fun f hf => .inl hf, by simp [State.inLoop, hl]⟩

theorem keeps_throwStatement {e : CompileM Code} (he : KeepsCode k j e) :
    KeepsCode k j (throwStatement e) :=
  Keeps.bind (keeps_freshExpression he) fun _ hc => .pure ⟨hc, trivial⟩

theorem keeps_yieldStatement {es : List (CompileM Code)} (h : KeepsAll k j es) :
    KeepsCode k j (yieldStatement es) := by
  refine Keeps.checked (p := fun c => c.isScript = true) (fun _ => rfl) ?_
  refine (calm_identifierConstant _).then fun _ => (calm_identifierConstant _).then fun _ =>
    Keeps.bind (keeps_freshExpressions h) fun c hc => .pure ?_
  simp [hc]

theorem keeps_assertStatement {c : CompileM Code} {m : Option (CompileM Code)}
    (hc : KeepsCode k j c) (hm : KeepsOption k j m) : KeepsCode k j (assertStatement c m) := by
  have h : KeepsCode k j (assertMessage m) := by
    cases m with
    | none => exact keeps_emitConstant _
    | some e => exact keeps_freshExpression (hm e rfl)
  refine Keeps.bind (keeps_freshExpression hc) fun _ hc => Keeps.bind h fun _ hm => .pure ?_
  simp [hc, hm]

theorem keeps_functionDeclaration (n : Name) {f : CompileM Code} (hf : KeepsCode k j f) :
    KeepsCode k j (functionDeclaration n f) :=
  (calm_declareVariable n).then fun _ => calm_markInitialized.then fun _ => hf

theorem keeps_globalFunctionDeclaration (n : Name) {f : CompileM Code} (hf : KeepsCode k j f) :
    KeepsCode k j (globalFunctionDeclaration n f) :=
  (calm_identifierConstant n).then fun _ => Keeps.bind hf fun _ hc => .pure ⟨hc, trivial⟩

theorem keeps_expressionFromString {e : CompileM Code} (he : KeepsCode k j e) :
    KeepsCode k j (expressionFromString e) :=
  calm_getTypeStackTop.then fun _ => Keeps.bind (keeps_expression he) fun _ hc =>
    (calm_setTypeStackTop _).then fun _ => .pure hc

theorem keeps_applyDecorators (n : Name) {ds : List (CompileM Code)} (h : KeepsAll k j ds) :
    KeepsCode k j (applyDecorators n ds) := by
  induction ds with
  | nil => exact .pure trivial
  | cons d ds ih =>
    obtain ⟨hd, hds⟩ := List.forall_mem_cons.mp h
    refine Keeps.bind (keeps_expressionFromString hd) fun _ hd =>
      Keeps.bind (keeps_emitGetNamed (j := j) n) fun _ hg =>
        Keeps.bind (keeps_emitSetNamed (j := j) n) fun _ hs => Keeps.bind (ih hds) fun _ hr => .pure ?_
    simp [hd, hg, hs, hr]

theorem keeps_decorated (n : Name) {ds : List (CompileM Code)} {decl : CompileM Code}
    (h : KeepsAll k j ds) (hd : KeepsCode k j decl) : KeepsCode k j (decorated ds n decl) := by
  have hr : KeepsAll k j ds.reverse := fun d hd => h d (List.mem_reverse.mp hd)
  exact .ite .error (Keeps.bind hd fun _ hc => Keeps.bind (keeps_applyDecorators n hr) fun _ ha =>
    .pure ⟨hc, ha⟩)

theorem keeps_importStatement (ps : List (Bytes × Name)) : KeepsCode k j (importStatement ps) := by
  induction ps with
  | nil => exact .pure trivial
  | cons p ps ih =>
    exact (calm_declareVariable _).then fun _ => (calm_makeConstant _).then fun _ =>
      calm_markInitialized.then fun _ => Keeps.bind ih fun _ hr => .pure ⟨trivial, hr⟩

theorem keeps_fromImportNames (i : UInt8) (ns : List Name) : KeepsCode k j (fromImportNames i ns) := by
  induction ns with
  | nil => exact .pure trivial
  | cons n ns ih =>
    refine Keeps.bind (keeps_emitConstant (j := j) _) fun _ hc => (calm_declareVariable n).then fun _ =>
      calm_markInitialized.then fun _ => Keeps.bind ih fun _ hr => .pure ?_
    simp [hc, hr]

theorem keeps_fromImportStatement (path : Bytes) (ns : List Name) :
    KeepsCode k j (fromImportStatement path ns) :=
  (calm_makeConstant _).then fun i => keeps_fromImportNames i ns

theorem keeps_fromImportStar (path : Bytes) : KeepsCode k j (fromImportStar path) :=
  (calm_makeConstant _).then fun _ => .pure ⟨trivial, trivial⟩

/-- The expressions of an initialiser keep to the loops. -/
def InitKeeps (k j : Bool) : Init → Prop
  | .none => True
  | .commaList es | .exprs es => KeepsAll k j es

theorem keeps_initializer (n : Nat) {i : Init} (h : InitKeeps k j i) :
    KeepsCode k j (initializer n i) := by
  cases i with
  | none => exact .pure (formed_nils n)
  | commaList es => exact .ite (keeps_parseArrayLiteral h) .error
  | exprs es =>
    refine Keeps.bind (keeps_freshExpressions h) fun c hc => .pure ⟨hc, ?_⟩
    split_ifs
    · exact formed_nils _
    · exact trivial

theorem keeps_variableDeclaration (ns : List Name) {i : Init} (h : InitKeeps k j i) :
    KeepsCode k j (variableDeclaration ns i) :=
  .ite .error ((calm_declareVariables ns).then fun _ => Keeps.bind (keeps_initializer _ h) fun _ hc =>
    (calm_markInitializedCount _).then fun _ => .pure hc)

theorem keeps_globalDeclaration (ns : List Name) {i : Init} (h : InitKeeps k j i) :
    KeepsCode k j (globalDeclaration ns i) := by
  refine .ite .error ((calm_globalNames ns).then fun ks => calm_current.then fun _ =>
    .ite (.pure trivial) (Keeps.bind (keeps_initializer _ h) fun _ hc => .pure ⟨hc, ?_⟩))
  rw [Code.formed_seqs]
  intro c hc
  obtain ⟨x, -, rfl⟩ := List.mem_map.mp hc
  exact trivial

theorem keeps_filtered {cond : Option (CompileM Code)} {elem : CompileM Code}
    (hc : KeepsOption k j cond) (he : KeepsCode k j elem) : KeepsCode k j (filtered cond elem) := by
  cases cond with
  | none => exact he
  | some c =>
    exact Keeps.bind (keeps_expression (hc c rfl)) fun _ hc => Keeps.bind he fun _ he =>
      .pure ⟨hc, ⟨trivial, he⟩, trivial⟩

theorem keeps_comprehensionTriple {h : IterHeader} (hh : HeaderKeeps k j h) :
    KeepsCode k j (comprehensionTriple h) := by
  refine Keeps.bind (keeps_headerExpression h (keeps_expression hh.1)) fun p hf =>
    .ite .error (.ite .error (.ite .error ?_))
  have hm : KeepsAll k j (h.more.map expression) := by
    intro e he
    obtain ⟨x, hx, rfl⟩ := List.mem_map.mp he
    exact keeps_expression (hh.2 x hx)
  exact Keeps.bind (keeps_sequence hm) fun _ hm => keeps_iteratorTriple h p.2 hf hm

theorem keeps_generatorComprehension {h : IterHeader} {cond : Option (CompileM Code)}
    {elem : CompileM Code} (hh : HeaderKeeps false false h) (hc : KeepsOption false false cond)
    (he : KeepsCode false false elem) : KeepsCode k j (generatorComprehension h cond elem) := by
  have hel : KeepsCode false true (do
      let i ← makeConstant (.string (ascii "coroutine"))
      let y ← identifierConstant (ascii "yield")
      let c ← expressionFromString elem
      pure (seqs [op .opImport [i], op .opConstant [y], op0 .opGetTable, c, emitCall 1 0])) := by
    refine (calm_makeConstant _).then fun _ => (calm_identifierConstant _).then fun _ =>
      Keeps.bind (keeps_expressionFromString (he.weaken (j := true))) fun _ hc => .pure ?_
    simp [hc]
  have hb : KeepsCode false false (do
      setCurrent { (← current) with isGenerator := true }
      let triple ← comprehensionTriple h
      let loop ← iterLoop h.loopVars (filtered cond do
        let i ← makeConstant (.string (ascii "coroutine"))
        let y ← identifierConstant (ascii "yield")
        let c ← expressionFromString elem
        pure (seqs [op .opImport [i], op .opConstant [y], op0 .opGetTable, c, emitCall 1 0]))
      pure (.seq triple loop)) :=
    Keeps.update (fun _ => rfl) (Keeps.bind (keeps_comprehensionTriple hh) fun _ ht =>
      Keeps.bind (keeps_iterLoop (j := false) _ (keeps_filtered (fun c h => (hc c h).weaken) hel))
        fun _ hl => .pure ⟨ht, hl⟩)
  have h : KeepsCode k j _ := keeps_calledFunction hb (calm_typePush .any)
  simpa only [generatorComprehension, bind_assoc, pure_bind] using h

theorem keeps_comprehensionElement (l i : Nat) {key : Option (CompileM Code)}
    {elem : CompileM Code} (hk : KeepsOption k j key) (he : KeepsCode k j elem) :
    KeepsCode k j (comprehensionElement l i key elem) := by
  cases key with
  | some key =>
    refine Keeps.bind (keeps_expressionFromString (hk key rfl)) fun _ hk =>
      Keeps.bind (keeps_expressionFromString he) fun _ he => .pure ?_
    simp [hk, he]
  | none =>
    refine Keeps.bind (keeps_expressionFromString he) fun _ he =>
      Keeps.bind (keeps_emitConstant (j := j) _) fun _ hc => .pure ?_
    simp [he, hc]

theorem keeps_tableComprehension {h : IterHeader} {cond key : Option (CompileM Code)}
    {elem : CompileM Code} (hh : HeaderKeeps false false h) (hc : KeepsOption false false cond)
    (hk : KeepsOption false false key) (he : KeepsCode false false elem) :
    KeepsCode k j (tableComprehension h cond key elem) := by
  have hb : KeepsCode false false (do
      addLocal (ascii "(list)")
      markInitialized
      let list := (← localCount) - 1
      let one ← emitConstant (.number (doubleOfNat 1))
      addLocal (ascii "(idx)")
      markInitialized
      let idx := (← localCount) - 1
      let triple ← comprehensionTriple h
      let loop ← iterLoop h.loopVars (filtered cond (comprehensionElement list idx key elem))
      pure (seqs [op0 .opNewTable, one, triple, loop, op1 .opGetLocal list])) := by
    refine (calm_addLocal _).then fun _ => calm_markInitialized.then fun _ =>
      calm_localCount.then fun l => Keeps.bind (keeps_emitConstant (j := false) _) fun _ ho =>
      (calm_addLocal _).then fun _ => calm_markInitialized.then fun _ =>
      calm_localCount.then fun i => Keeps.bind (keeps_comprehensionTriple hh) fun _ ht =>
      Keeps.bind (keeps_iterLoop (j := false) _ (keeps_filtered (fun c h => (hc c h).weaken)
        (keeps_comprehensionElement (l - 1) (i - 1) (fun c h => (hk c h).weaken) he.weaken)))
        fun _ hl => .pure ?_
    simp [ho, ht, hl]
  have h : KeepsCode k j _ := calm_getTypeStackTop.then fun top =>
    keeps_calledFunction hb (calm_replaceType top .table)
  simpa only [tableComprehension, bind_assoc, pure_bind] using h

end ToiLang.Compile
