import ToiLang.Compiler.Leaves

namespace ToiLang.Compile

variable {t : Final}

theorem Emits.update {β : Type} {f : Compiler → Compiler} {k : Unit → CompileM β}
    {R : β → Prop} (h : ∀ c, (f c).constants = c.constants) (hk : Emits t (k ()) R) :
    Emits t (current >>= fun c => setCurrent (f c) >>= k) R := by
  rw [← bind_assoc]
  exact (quiet_update h).emits.then fun _ => hk

/-- The same where the change may be refused. -/
theorem Emits.checked {β : Type} {p : Compiler → Prop} [DecidablePred p] {f : Compiler → Compiler}
    {k : Unit → CompileM β} {R : β → Prop} (h : ∀ c, (f c).constants = c.constants)
    (hk : Emits t (k ()) R) :
    Emits t (current >>= fun c => if p c then Compile.error else setCurrent (f c) >>= k) R := by
  intro s a s' hs
  obtain ⟨c, w, hc, hs⟩ := bind_eq_some.mp hs
  simp only [ite_eq_some, error_eq_some, and_false, false_or] at hs
  exact Emits.update h hk s a s' (bind_eq_some.mpr ⟨c, w, hc, hs.2⟩)

theorem enterFunction_spec {s s' : State} {a : Unit} (h : enterFunction s = some (a, s')) :
    s'.enclosing = s.current :: s.enclosing ∧ s'.functions = s.functions ∧
      s'.firstFunction = s.firstFunction := by
  simp only [bind_eq_some, enterFunction, modify_eq_some, beginScope, current_eq_some,
    setCurrent_eq_some] at h
  obtain ⟨_, _, rfl, _, _, ⟨rfl, rfl⟩, rfl⟩ := h
  exact ⟨rfl, rfl, rfl⟩

theorem endCompiler_spec {name : Name} {params : List Param} {b c : Code} {s s' : State}
    (h : endCompiler name params b s = some (c, s')) :
    ∃ e es k, s.enclosing = e :: es ∧ (endBody b).jumpsFit none 0 = true ∧
      makeConstant (.function (s.firstFunction + s.functions.length))
        { s with
          current := e
          enclosing := es
          functions := s.functions ++ [finishedFunction s.current name params b] } = some (k, s') ∧
      c = op .opClosure (k :: upvalueBytes s.current.upvalues) := by
  simp only [endCompiler, bind_eq_some, get_eq_some] at h
  obtain ⟨_, w, ⟨rfl, rfl⟩, h⟩ := h
  rcases he : w.enclosing with _ | ⟨e, es⟩
  · simp [he] at h
  simp only [he, ite_eq_some, error_eq_some, and_false, or_false, bind_eq_some, set_eq_some] at h
  obtain ⟨hfit, _, _, rfl, k, _, hk, hc⟩ := h
  obtain ⟨rfl, rfl⟩ := pure_eq_some.mp hc
  exact ⟨e, es, k, rfl, hfit, hk, rfl⟩

theorem upvalueBytes_length (us : List Upvalue) : (upvalueBytes us).length = 2 * us.length := by
  induction us with
  | nil => rfl
  | cons u us ih =>
    simp only [upvalueBytes, List.flatMap_cons, List.length_append, List.length_cons,
      List.length_nil] at ih ⊢
    omega

/-- A function compiled between `enterFunction` and `endCompiler` is in order when its body is,
whatever constants it ends with. -/
theorem emits_function {m : CompileM Code} (name : Name) (params : List Param)
    (hm : ∀ t, EmitsCode t m) :
    EmitsCode t (enterFunction >>= fun _ => m >>= fun b => endCompiler name params b) := by
  intro s c s' h
  obtain ⟨_, s1, h1, h⟩ := bind_eq_some.mp h
  obtain ⟨b, s2, hb, h⟩ := bind_eq_some.mp h
  obtain ⟨henc, hfun1, hfirst1⟩ := enterFunction_spec h1
  obtain ⟨hg, hq⟩ := hm { t with constants := s2.current.constants } _ _ _ hb
  obtain ⟨e, es, k, he, hfit, hk, rfl⟩ := endCompiler_spec h
  obtain ⟨hgk, hqk⟩ := emits_makeConstant (t := t) _ _ _ _ hk
  obtain ⟨hec, hes⟩ : e.constants = s.current.constants ∧
      es.map (·.constants) = s.enclosing.map (·.constants) := by
    simpa [he, henc] using hg.enclosing
  have hfun : s.functions <+: s2.functions := hfun1 ▸ hg.functions
  have hfirst : s2.firstFunction = s.firstFunction := hg.firstFunction.trans hfirst1
  have hgrow : Grows s s' := by
    refine Grows.trans ?_ hgk
    exact ⟨hec ▸ List.prefix_rfl, hfun.trans (List.prefix_append _ _), hfirst, hes⟩
  refine ⟨hgrow, fun hw => ?_⟩
  obtain ⟨hfs, hka⟩ := hqk hw
  have hw3 := hgk.within hw
  have hw2 : Within s2 { t with constants := s2.current.constants } :=
    ⟨List.prefix_rfl, (List.prefix_append _ _).trans hw3.functions, hw3.firstFunction⟩
  obtain ⟨hfs2, hbody⟩ := hq hw2
  constructor
  · intro f hf
    rcases hfs f hf with hf | hf
    · rcases List.mem_append.mp hf with hf | hf
      · rw [hfun1] at hfs2
        exact (hfs2 f hf).imp_right fun ho => ⟨ho.code, ho.fits, ho.leaves⟩
      · rw [List.mem_singleton.mp hf]
        exact .inr ⟨rfl, hfit, hbody, leafOk_plain rfl⟩
    · exact .inr hf
  · have hfirst3 : s2.firstFunction = t.firstFunction := hw3.firstFunction
    obtain ⟨tail, htail⟩ := hw3.functions
    refine ⟨rfl, k, _, _, finishedFunction s2.current name params b, rfl, hka, ?_,
      upvalueBytes_length _⟩
    simp only [Final.function, ← htail, ← hfirst3]
    rw [if_neg (by omega), Nat.add_sub_cancel_left]
    simp

/-- The same for a function that is called where it is made. -/
theorem emits_calledFunction {m : CompileM Code} {q : CompileM Unit} (hm : ∀ t, EmitsCode t m)
    (hq : Quiet q) :
    EmitsCode t (enterFunction >>= fun _ => m >>= fun b => endCompiler [] [] b >>= fun c =>
      q >>= fun _ => pure (.seq c (emitCall 0 1))) := by
  have h : EmitsCode t ((enterFunction >>= fun _ => m >>= fun b => endCompiler [] [] b) >>=
      fun c => q >>= fun _ => pure (.seq c (emitCall 0 1))) :=
    (emits_function [] [] hm).bind fun _ => hq.emits.then fun _ => .pure fun hc =>
      ⟨hc, leaves_emitCall 0 1⟩
  simpa only [bind_assoc] using h

theorem emits_functionBody (name : Name) (params : List Param) {body : CompileM Code}
    (hb : ∀ t, EmitsCode t body) : EmitsCode t (functionBody name params body) := by
  have h : functionBody name params body = (enterFunction >>= fun _ =>
      (declareParams 0 false params >>= fun _ => initializeLocals >>= fun _ => body) >>=
        fun b => endCompiler name params b) := by
    simp only [functionBody, bind_assoc]
  rw [h]
  exact emits_function name params fun t => (quiet_declareParams _ _ _).emits.then fun _ =>
    quiet_initializeLocals.emits.then fun _ => hb t

theorem emits_anonymousFunction {f : CompileM Code} (hf : EmitsCode t f) :
    EmitsCode t (anonymousFunction f) :=
  hf.bind fun _ => (quiet_typePush _).emits.then fun _ => .pure id

theorem emits_endScope : EmitsCode t endScope := by
  intro s c s' h
  simp only [endScope, bind_eq_some, current_eq_some, setCurrent_eq_some] at h
  obtain ⟨_, _, ⟨rfl, rfl⟩, _, _, rfl, h⟩ := h
  obtain ⟨rfl, rfl⟩ := pure_eq_some.mp h
  refine ⟨⟨List.prefix_rfl, List.prefix_rfl, rfl, rfl⟩, fun _ => ⟨fun f hf => .inl hf, ?_⟩⟩
  simp only [Code.leaves_seqs, List.mem_map]
  rintro _ ⟨l, _, rfl⟩
  exact leafOk_popLocal l

theorem emits_scopedBlock {body : CompileM Code} (hb : EmitsCode t body) :
    EmitsCode t (scopedBlock body) :=
  quiet_beginScope.emits.then fun _ => hb.bind fun _ => emits_endScope.bind fun _ =>
    .pure fun he hb => ⟨hb, he⟩

theorem emits_freshExpression {e : CompileM Code} (he : EmitsCode t e) :
    EmitsCode t (freshExpression e) :=
  (quiet_setTypeStackTop 0).emits.then fun _ => emits_expression he

theorem emits_freshExpressions {es : List (CompileM Code)} (h : EmitsAll t es) :
    EmitsCode t (freshExpressions es) := by
  induction es with
  | nil => exact .pure trivial
  | cons e es ih =>
    exact (emits_freshExpression (h e (by simp))).bind fun c =>
      (ih fun e he => h e (by simp [he])).bind fun rest => .pure fun hr hc => ⟨hc, hr⟩

@[simp] theorem leaves_nils (n : Nat) : (nils n).Leaves t.LeafOk := by
  simp only [nils, Code.leaves_seqs, List.mem_replicate]
  rintro _ ⟨_, rfl⟩
  exact leafOk_plain rfl

@[simp] theorem leaves_pops (n : Nat) : (pops n).Leaves t.LeafOk := by
  simp only [pops, Code.leaves_seqs, List.mem_replicate]
  rintro _ ⟨_, rfl⟩
  exact leafOk_plain rfl

theorem emits_adjustStack : EmitsCode t adjustStack :=
  quiet_localCount.emits.then fun _ => .pure (leafOk_plain rfl)

theorem emits_printStatement {es : List (CompileM Code)} (h : EmitsAll t es) :
    EmitsCode t (printStatement es) :=
  (emits_freshExpressions h).bind fun _ => Emits.ite .error (.pure fun hc =>
    ⟨hc, leafOk_plain rfl⟩)

theorem emits_deleteVariable (n : Name) : EmitsCode t (deleteVariable n) := by
  refine (quiet_resolveLocal n).emits.then fun l => ?_
  cases l with
  | some i => exact .pure (by simp )
  | none =>
    refine (quiet_resolveUpvalue n).emits.then fun u => ?_
    cases u with
    | some i => exact .pure (by simp )
    | none => exact (emits_identifierConstant n).bind fun _ => .pure fun _ =>
        leafOk_plain rfl

/-- The key expression of an access chain is in order. -/
def KeyOk (t : Final) : AccessKey → Prop
  | .property _ => True
  | .index e => EmitsCode t e

theorem emits_accessKey {k : AccessKey} (h : KeyOk t k) : EmitsCode t (accessKey k) := by
  cases k with
  | property n =>
    exact (emits_identifierConstant n).bind fun _ => .pure fun _ => leafOk_plain rfl
  | index e => exact emits_expression h

theorem emits_deleteAccessChain {ks : List AccessKey} (h : ∀ k ∈ ks, KeyOk t k) :
    EmitsCode t (deleteAccessChain ks) := by
  induction ks with
  | nil => exact .error
  | cons k ks ih =>
    have hk := emits_accessKey (h k (by simp))
    cases ks with
    | nil => exact hk.bind fun _ => .pure fun hc => ⟨hc, leafOk_plain rfl⟩
    | cons k' ks =>
      exact hk.bind fun c => (ih fun k hk => h k (List.mem_cons_of_mem _ hk)).bind fun rest =>
        .pure fun hr hc => by simp [hc, hr]

theorem emits_deleteAccess {base : CompileM Code} {ks : List AccessKey} (hb : EmitsCode t base)
    (h : ∀ k ∈ ks, KeyOk t k) : EmitsCode t (deleteAccess base ks) :=
  hb.bind fun _ => (emits_deleteAccessChain h).bind fun _ => .pure fun hr hc => ⟨hc, hr⟩

theorem emits_sequence {ms : List (CompileM Code)} (h : EmitsAll t ms) :
    EmitsCode t (sequence ms) := by
  induction ms with
  | nil => exact .pure trivial
  | cons m ms ih =>
    exact (h m (by simp)).bind fun c => (ih fun e he => h e (by simp [he])).bind fun rest =>
      .pure fun hr hc => ⟨hc, hr⟩

theorem emits_expressionStatement {e : CompileM Code} (he : EmitsCode t e) :
    EmitsCode t (expressionStatement e) :=
  (emits_freshExpression he).bind fun c => emits_adjustStack.bind fun a => .pure fun ha hc => by
    simp [ha, hc]

theorem emits_assignNameFromStack (n : Name) (x : TypeHint) :
    EmitsCode t (assignNameFromStack n x) := by
  refine (quiet_resolveLocal n).emits.then fun l => ?_
  cases l with
  | some i =>
    exact (quiet_updateLocalType i x).emits.then fun _ => .pure (leafOk_plain rfl)
  | none =>
    refine (quiet_isExplicitGlobalName n).emits.then fun g => Emits.ite ?_ ?_
    · exact (emits_identifierConstant n).bind fun _ => .pure fun _ =>
        leafOk_plain rfl
    · refine (quiet_resolveUpvalue n).emits.then fun u => ?_
      cases u with
      | some i => exact .pure (leafOk_plain rfl)
      | none => exact emits_storeNewLocal n x

theorem emits_assignTargets (ns : List Name) : EmitsCode t (assignTargets ns) := by
  induction ns with
  | nil => exact .pure trivial
  | cons n ns ih =>
    exact (emits_assignNameFromStack n .any).bind fun c => ih.bind fun rest => .pure fun hr hc => by
      simp [hc, hr]

theorem emits_multiAssignment (ns : List Name) {es : List (CompileM Code)} (h : EmitsAll t es) :
    EmitsCode t (multiAssignmentStatement ns es) := by
  refine Emits.ite .error ?_
  refine (quiet_declareTargets ns).emits.then fun d => (quiet_markInitializedCount d).emits.then
    fun _ => emits_adjustStack.bind fun before => (emits_freshExpressions h).bind fun c =>
      quiet_localCount.emits.then fun _ => (emits_assignTargets ns.reverse).bind fun s =>
        emits_adjustStack.bind fun a => .pure fun ha hs hc hb => ?_
  have hfill : ∀ x y, (if es.length > 1 then nils (ns.length - es.length)
      else op .opUnpack [x, y]).Leaves t.LeafOk := by
    intro x y
    split_ifs
    · simp
    · exact leafOk_plain rfl
  simp [ha, hs, hc, hb, hfill]

theorem emits_ifStatement {c body els : CompileM Code} (hc : EmitsCode t c)
    (hb : EmitsCode t body) (he : EmitsCode t els) : EmitsCode t (ifStatement c body els) :=
  (emits_freshExpression hc).bind fun cc => (emits_scopedBlock hb).bind fun cb => he.bind fun ce =>
    .pure fun he hb hc => by simp [hc, hb, he]

/-- The parts of a `match` clause are in order. -/
def ClauseOk (t : Final) : Clause → Prop
  | .case e body => EmitsCode t e ∧ EmitsCode t body
  | .els body => EmitsCode t body

theorem emits_matchClauses (slot : Nat) {cs : List Clause} (h : ∀ c ∈ cs, ClauseOk t c) :
    EmitsCode t (matchClauses slot cs) := by
  induction cs with
  | nil => exact .pure trivial
  | cons c cs ih =>
    have hc := h c List.mem_cons_self
    cases c with
    | case e body =>
      exact (quiet_setTypeStackTop 0).emits.then fun _ => (emits_expression hc.1).bind fun ce =>
        (emits_scopedBlock hc.2).bind fun cb => (ih fun c hc => h c (by simp [hc])).bind
          fun rest => .pure fun hr hb he => by
            simp [hr, hb, he]
    | els body =>
      cases cs with
      | nil => exact emits_scopedBlock hc
      | cons => exact .error

theorem emits_matchStatement {e : CompileM Code} {cs : List Clause} (he : EmitsCode t e)
    (h : ∀ c ∈ cs, ClauseOk t c) : EmitsCode t (matchStatement e cs) := by
  refine quiet_beginScope.emits.then fun _ => (emits_freshExpression he).bind fun c =>
    quiet_localCount.emits.then fun _ => (quiet_addLocal _).emits.then fun _ =>
      quiet_markInitialized.emits.then fun _ => (quiet_setTypeStackTop 0).emits.then fun _ =>
        Emits.ite .error ?_
  exact (emits_matchClauses _ h).bind fun cc => emits_endScope.bind fun e => .pure
    fun he hc h => by simp [he, hc, h]

theorem emits_exceptBody (slot : Nat) {filter : Option (CompileM Code)} {body : CompileM Code}
    (hf : EmitsOption t filter) (hb : EmitsCode t body) :
    EmitsCode t (exceptBody slot filter body) := by
  cases filter with
  | none => exact hb
  | some f =>
    exact (emits_freshExpression (hf f rfl)).bind fun cf => hb.bind fun cb => .pure
      fun hb hf => by simp [hb, hf]

/-- The parts of an except clause are in order. -/
def HandlerOk (t : Final) (h : ExceptHandler) : Prop :=
  EmitsOption t h.filter ∧ EmitsCode t h.body

theorem emits_exceptClause {h : ExceptHandler} (ho : HandlerOk t h) :
    EmitsCode t (exceptClause h) := by
  refine quiet_beginScope.emits.then fun _ => ?_
  obtain ⟨name, filter, body⟩ := h
  rcases name with _ | n
  · rcases filter with _ | f
    · exact (show EmitsCode t body from ho.2).bind fun c => emits_endScope.bind fun e => .pure
        fun he hc => by simp [he, hc]
    · exact .error
  · exact quiet_localCount.emits.then fun _ => (quiet_addLocal n).emits.then fun _ =>
      quiet_markInitialized.emits.then fun _ => (emits_exceptBody _ ho.1 ho.2).bind fun c =>
        emits_endScope.bind fun e => .pure fun he hc => by
          simp [he, hc]

theorem emits_optionalCode {m : Option (CompileM Code)} (h : EmitsOption t m) :
    EmitsCode t (optionalCode m) := by
  cases m with
  | none => exact .pure trivial
  | some e => exact h e rfl

theorem emits_tryStatement {body : CompileM Code} {exc : Option ExceptHandler}
    {fin : Option (CompileM Code)} (hb : EmitsCode t body)
    (he : ∀ h, exc = some h → HandlerOk t h) (hf : EmitsOption t fin) :
    EmitsCode t (tryStatement body exc fin) := by
  have he' : EmitsOption t (exc.map exceptClause) := by
    intro e h
    obtain ⟨x, hx, rfl⟩ := Option.map_eq_some_iff.mp h
    exact emits_exceptClause (he x hx)
  have hf' : EmitsOption t (fin.map scopedBlock) := by
    intro e h
    obtain ⟨x, hx, rfl⟩ := Option.map_eq_some_iff.mp h
    exact emits_scopedBlock (hf x hx)
  refine quiet_localCount.emits.then fun _ => (emits_scopedBlock hb).bind fun cb =>
    Emits.ite .error ?_
  exact (emits_optionalCode he').bind fun ce => (emits_optionalCode hf').bind fun cf => .pure
    fun hf he hb => ⟨hb, he, hf, by simp⟩

theorem emits_withName (n : Option Name) : EmitsCode t (withName n) := by
  cases n with
  | none => exact .pure (leafOk_plain rfl)
  | some n =>
    refine (quiet_resolveLocal n).emits.then fun l => ?_
    cases l with
    | some i => exact .pure (by simp)
    | none =>
      refine (quiet_resolveUpvalue n).emits.then fun u => ?_
      cases u with
      | some i => exact .pure (by simp)
      | none =>
        exact (quiet_addLocal n).emits.then fun _ => quiet_markInitialized.emits.then fun _ =>
          .pure trivial

theorem emits_withStatement {e : CompileM Code} (n : Option Name) {body : CompileM Code}
    (he : EmitsCode t e) (hb : EmitsCode t body) : EmitsCode t (withStatement e n body) := by
  refine quiet_beginScope.emits.then fun _ => (emits_freshExpression he).bind fun c =>
    quiet_localCount.emits.then fun _ => (quiet_addLocal _).emits.then fun _ =>
    quiet_markInitialized.emits.then fun _ => (emits_identifierConstant _).bind fun _ =>
    (emits_withName n).bind fun cn => quiet_localCount.emits.then fun _ =>
    (quiet_addLocal _).emits.then fun _ => quiet_markInitialized.emits.then fun _ =>
    quiet_localCount.emits.then fun _ => (emits_scopedBlock hb).bind fun cb =>
    (emits_identifierConstant _).bind fun _ => emits_endScope.bind fun es => .pure ?_
  intro hs _ hb hn _ hc
  have hx : ∀ a b : Code, (seqs [a, b, op0 .opThrow]).stops = true := fun _ _ => rfl
  simp [hs, hb, hn, hc, hx]

theorem emits_inLoop (l : LoopContext) {body : CompileM Code} (hb : EmitsCode t body) :
    EmitsCode t (inLoop l body) := by
  refine quiet_current.emits.then fun c => Emits.update (fun _ => rfl) (hb.bind fun cb => ?_)
  exact Emits.update (fun _ => rfl) (.pure id)

theorem emits_whileStatement {c body : CompileM Code} (hc : EmitsCode t c)
    (hb : EmitsCode t body) : EmitsCode t (whileStatement c body) := by
  refine quiet_current.emits.then fun saved => Emits.then (Quiet.emits ?_) fun l => ?_
  · exact quiet_current.bind fun _ => quiet_get.bind fun _ => .pure _
  · refine Emits.update (fun _ => rfl) ?_
    refine (emits_freshExpression hc).bind fun cc => (emits_scopedBlock hb).bind fun cb => ?_
    exact Emits.update (fun _ => rfl) (.pure fun hb hc => ⟨hc, hb⟩)

theorem emits_returnStatement {es : List (CompileM Code)} (h : EmitsAll t es) :
    EmitsCode t (returnStatement es) := by
  refine (emits_freshExpressions h).bind fun c => ?_
  rcases es with _ | ⟨e, _ | ⟨e', es⟩⟩
  · exact .pure fun _ => by simp
  · exact .pure fun hc => ⟨hc, leafOk_plain rfl⟩
  · exact .pure fun hc => ⟨hc, leafOk_plain rfl⟩

/-- The expressions of an iteration header are in order. -/
def HeaderOk (t : Final) (h : IterHeader) : Prop := EmitsCode t h.first ∧ EmitsAll t h.more

theorem emits_headerExpression (h : IterHeader) {e : CompileM Code} (he : EmitsCode t e) :
    Emits t (headerExpression h e) fun p => p.1.Leaves t.LeafOk := by
  refine Emits.then (quiet_modify fun _ => ?_).emits fun _ => he.bind fun c =>
    Emits.then (quiet_modify fun _ => ?_).emits fun _ => quiet_get.emits.then fun _ => .pure id
  · exact ⟨rfl, rfl, rfl, rfl⟩
  · exact ⟨rfl, rfl, rfl, rfl⟩

theorem emits_iteratorTriple (h : IterHeader) {first more : Code} (r : Bool) :
    Emits t (iteratorTriple h first r more) fun c =>
      first.Leaves t.LeafOk → more.Leaves t.LeafOk → c.Leaves t.LeafOk := by
  refine Emits.ite (.pure fun hf _ => ⟨hf, leafOk_plain rfl⟩) (Emits.ite ?_ ?_)
  · refine (quiet_addLocal _).emits.then fun _ => quiet_markInitialized.emits.then fun _ =>
      quiet_localCount.emits.then fun _ => .pure fun hf _ => ?_
    cases h.sigil <;> simp [hf]
  · exact .pure fun hf hm => by simp [hf, hm]

theorem emits_popLoopVars (k : Nat) : EmitsCode t (popLoopVars k) := by
  induction k with
  | zero => exact .pure trivial
  | succ k ih =>
    intro s c s' h
    simp only [popLoopVars, bind_eq_some, current_eq_some] at h
    obtain ⟨_, w, ⟨rfl, rfl⟩, h⟩ := h
    cases hl : w.current.locals.getLast? with
    | none => simp [hl] at h
    | some l =>
      simp only [hl, bind_eq_some, setCurrent_eq_some] at h
      obtain ⟨_, _, rfl, rest, _, hr, hc⟩ := h
      obtain ⟨rfl, rfl⟩ := pure_eq_some.mp hc
      obtain ⟨hg, hq⟩ := ih _ _ _ hr
      refine ⟨⟨hg.constants, hg.functions, hg.firstFunction, hg.enclosing⟩, fun hw => ?_⟩
      exact ⟨(hq hw).1, leafOk_popLocal l, (hq hw).2⟩

theorem emits_iterLoop (vars : List Name) {body : CompileM Code} (hb : EmitsCode t body) :
    EmitsCode t (iterLoop vars body) := by
  refine quiet_localCount.emits.then fun _ => (quiet_addLocals _).emits.then fun _ =>
    (quiet_markInitializedCount 3).emits.then fun _ => (quiet_addLocals _).emits.then fun _ =>
    (quiet_markInitializedCount _).emits.then fun _ => quiet_localCount.emits.then fun _ =>
    hb.bind fun b => (emits_popLoopVars _).bind fun d => .pure fun hd hb => ?_
  simp [hd, hb]

theorem emits_forRangeLoop (n : Name) {bounds : Code} (d : Nat) {body : CompileM Code}
    (hb : EmitsCode t body) :
    Emits t (forRangeLoop n bounds d body) fun c => bounds.Leaves t.LeafOk → c.Leaves t.LeafOk :=
  (quiet_addLocals _).emits.then fun _ => (quiet_markInitializedCount 2).emits.then fun _ =>
    quiet_localCount.emits.then fun _ => (emits_inLoop _ (emits_scopedBlock hb)).bind fun _ =>
      .pure fun hb hbs => ⟨hbs, hb⟩

theorem emits_forStatement {h : IterHeader} {body : CompileM Code} (hh : HeaderOk t h)
    (hb : EmitsCode t body) : EmitsCode t (forStatement h body) := by
  refine quiet_beginScope.emits.then fun _ => quiet_current.emits.then fun _ =>
    (emits_headerExpression h (emits_freshExpression hh.1)).bind fun p =>
      Emits.ite .error (Emits.ite .error ?_)
  refine (emits_freshExpressions hh.2).bind fun more => Emits.ite ?_ (Emits.ite .error ?_)
  · exact (emits_forRangeLoop _ _ hb).bind fun loop => emits_endScope.bind fun e => .pure
      fun he hl _ hf => ⟨hl hf, he⟩
  · exact (emits_iteratorTriple h false).bind fun triple =>
      (emits_iterLoop _ (emits_inLoop _ (emits_scopedBlock hb))).bind fun loop =>
        emits_endScope.bind fun e => .pure fun he hl ht hm hf => by simp [he, hl, ht hf hm]

theorem emits_breakStatement : EmitsCode t breakStatement := by
  refine quiet_current.emits.then fun c => ?_
  cases c.loopContext with
  | none => exact .error
  | some l =>
    refine .pure fun i hi => ?_
    obtain ⟨x, _, rfl⟩ := List.mem_map.mp hi
    exact leafOk_popLocal x

theorem emits_continueStatement : EmitsCode t continueStatement := by
  refine quiet_current.emits.then fun c => ?_
  cases c.loopContext with
  | none => exact .error
  | some l =>
    refine .pure fun i hi => ?_
    rcases List.mem_append.mp hi with hi | hi
    · obtain ⟨x, _, rfl⟩ := List.mem_map.mp hi
      exact leafOk_popLocal x
    · rw [List.eq_of_mem_replicate hi]
      exact leafOk_popInstr

theorem emits_throwStatement {e : CompileM Code} (he : EmitsCode t e) :
    EmitsCode t (throwStatement e) :=
  (emits_freshExpression he).bind fun _ => .pure fun hc =>
    ⟨hc, leafOk_plain rfl⟩

theorem emits_yieldStatement {es : List (CompileM Code)} (h : EmitsAll t es) :
    EmitsCode t (yieldStatement es) := by
  refine Emits.checked (p := fun c => c.isScript = true) (fun _ => rfl) ?_
  exact (emits_identifierConstant _).bind fun _ => (emits_identifierConstant _).bind fun _ =>
    (emits_freshExpressions h).bind fun c => .pure fun hc _ _ => by
      simp [hc]

theorem emits_assertStatement {c : CompileM Code} {m : Option (CompileM Code)}
    (hc : EmitsCode t c) (hm : EmitsOption t m) : EmitsCode t (assertStatement c m) := by
  have h : EmitsCode t (assertMessage m) := by
    cases m with
    | none => exact emits_emitConstant _
    | some e => exact emits_freshExpression (hm e rfl)
  exact (emits_freshExpression hc).bind fun _ => h.bind fun _ => .pure fun hm hc => by
    simp [hm, hc]

theorem emits_functionDeclaration (n : Name) {f : CompileM Code} (hf : EmitsCode t f) :
    EmitsCode t (functionDeclaration n f) :=
  (quiet_declareVariable n).emits.then fun _ => quiet_markInitialized.emits.then fun _ => hf

theorem emits_globalFunctionDeclaration (n : Name) {f : CompileM Code} (hf : EmitsCode t f) :
    EmitsCode t (globalFunctionDeclaration n f) :=
  (emits_identifierConstant n).bind fun _ => hf.bind fun _ => .pure fun hc _ =>
    ⟨hc, leafOk_plain rfl⟩

theorem emits_expressionFromString {e : CompileM Code} (he : EmitsCode t e) :
    EmitsCode t (expressionFromString e) :=
  quiet_getTypeStackTop.emits.then fun _ => (emits_expression he).bind fun _ =>
    (quiet_setTypeStackTop _).emits.then fun _ => .pure id

theorem emits_applyDecorators (n : Name) {ds : List (CompileM Code)} (h : EmitsAll t ds) :
    EmitsCode t (applyDecorators n ds) := by
  induction ds with
  | nil => exact .pure trivial
  | cons d ds ih =>
    exact (emits_expressionFromString (h d (by simp))).bind fun _ => (emits_emitGetNamed n).bind
      fun _ => (emits_emitSetNamed n).bind fun _ => (ih fun e he => h e (by simp [he])).bind
        fun _ => .pure fun hr hs hg hd => by
          simp [hr, hs, hg, hd]

theorem emits_decorated (n : Name) {ds : List (CompileM Code)} {decl : CompileM Code}
    (h : EmitsAll t ds) (hd : EmitsCode t decl) : EmitsCode t (decorated ds n decl) :=
  Emits.ite .error (hd.bind fun _ => (emits_applyDecorators n fun d hd =>
    h d (List.mem_reverse.mp hd)).bind fun _ => .pure fun ha hd => ⟨hd, ha⟩)

theorem emits_importStatement (ps : List (Bytes × Name)) : EmitsCode t (importStatement ps) := by
  induction ps with
  | nil => exact .pure trivial
  | cons p ps ih =>
    exact (quiet_declareVariable _).emits.then fun _ => (emits_makeConstant _).bind fun _ =>
      quiet_markInitialized.emits.then fun _ => ih.bind fun _ => .pure fun hr _ =>
        ⟨leafOk_plain rfl, hr⟩

theorem emits_fromImportNames (k : UInt8) (ns : List Name) :
    EmitsCode t (fromImportNames k ns) := by
  induction ns with
  | nil => exact .pure trivial
  | cons n ns ih =>
    exact (emits_emitConstant _).bind fun _ => (quiet_declareVariable n).emits.then fun _ =>
      quiet_markInitialized.emits.then fun _ => ih.bind fun _ => .pure fun hr hc => by
        simp [hr, hc]

theorem emits_fromImportStatement (path : Bytes) (ns : List Name) :
    EmitsCode t (fromImportStatement path ns) :=
  (emits_makeConstant _).bind fun k => (emits_fromImportNames k ns).mono fun _ hc _ => hc

theorem emits_fromImportStar (path : Bytes) : EmitsCode t (fromImportStar path) :=
  (emits_makeConstant _).bind fun _ => .pure fun _ =>
    ⟨leafOk_plain rfl, leafOk_plain rfl⟩

/-- The expressions of an initialiser are in order. -/
def InitOk (t : Final) : Init → Prop
  | .none => True
  | .commaList es | .exprs es => EmitsAll t es

theorem emits_initializer (k : Nat) {i : Init} (h : InitOk t i) : EmitsCode t (initializer k i) := by
  cases i with
  | none => exact .pure (leaves_nils k)
  | commaList es => exact Emits.ite (emits_parseArrayLiteral h) .error
  | exprs es =>
    refine (emits_freshExpressions h).bind fun c => .pure fun hc => ⟨hc, ?_⟩
    split_ifs
    · exact leaves_nils _
    · exact trivial

theorem emits_variableDeclaration (ns : List Name) {i : Init} (h : InitOk t i) :
    EmitsCode t (variableDeclaration ns i) :=
  Emits.ite .error ((quiet_declareVariables ns).emits.then fun _ => (emits_initializer _ h).bind
    fun _ => (quiet_markInitializedCount _).emits.then fun _ => .pure id)

theorem emits_globalNames (ns : List Name) : Emits t (globalNames ns) fun _ => True := by
  induction ns with
  | nil => exact .pure trivial
  | cons n ns ih =>
    exact (quiet_registerExplicitGlobal n).emits.then fun _ =>
      ((emits_identifierConstant n).mono fun _ _ => trivial).then fun _ => ih.then fun _ =>
        .pure trivial

theorem emits_globalDeclaration (ns : List Name) {i : Init} (h : InitOk t i) :
    EmitsCode t (globalDeclaration ns i) := by
  refine Emits.ite .error ((emits_globalNames ns).then fun ks => quiet_current.emits.then fun _ =>
    Emits.ite (.pure trivial) ((emits_initializer _ h).bind fun _ => .pure fun hc => ⟨hc, ?_⟩))
  simp only [Code.leaves_seqs, List.mem_map]
  rintro _ ⟨k, _, rfl⟩
  exact leafOk_plain rfl

theorem emits_filtered {cond : Option (CompileM Code)} {elem : CompileM Code}
    (hc : EmitsOption t cond) (he : EmitsCode t elem) : EmitsCode t (filtered cond elem) := by
  cases cond with
  | none => exact he
  | some c =>
    exact (emits_expression (hc c rfl)).bind fun _ => he.bind fun _ => .pure fun he hc => by
      simp [he, hc]

theorem emits_comprehensionTriple {h : IterHeader} (hh : HeaderOk t h) :
    EmitsCode t (comprehensionTriple h) := by
  refine (emits_headerExpression h (emits_expression hh.1)).bind fun p => Emits.ite .error
    (Emits.ite .error (Emits.ite .error ?_))
  have hm : EmitsAll t (h.more.map expression) := by
    intro e he
    obtain ⟨x, hx, rfl⟩ := List.mem_map.mp he
    exact emits_expression (hh.2 x hx)
  exact (emits_sequence hm).bind fun _ => (emits_iteratorTriple h p.2).mono fun _ ht hm hf => ht hf hm

/-- The code that a generator comprehension yields one element with. -/
theorem emits_generatorElement {elem : CompileM Code} (he : EmitsCode t elem) :
    EmitsCode t (do
      let k ← makeConstant (.string (ascii "coroutine"))
      let y ← identifierConstant (ascii "yield")
      let c ← expressionFromString elem
      pure (seqs [op .opImport [k], op .opConstant [y], op0 .opGetTable, c, emitCall 1 0])) :=
  (emits_makeConstant _).bind fun _ => (emits_identifierConstant _).bind fun _ =>
    (emits_expressionFromString he).bind fun _ => .pure fun hc _ _ => by
      simp [hc]

theorem emits_generatorComprehension {h : IterHeader} {cond : Option (CompileM Code)}
    {elem : CompileM Code} (hh : ∀ t, HeaderOk t h) (hc : ∀ t, EmitsOption t cond)
    (he : ∀ t, EmitsCode t elem) : EmitsCode t (generatorComprehension h cond elem) := by
  have hb : ∀ t, EmitsCode t (do
      setCurrent { (← current) with isGenerator := true }
      let triple ← comprehensionTriple h
      let loop ← iterLoop h.loopVars (filtered cond do
        let k ← makeConstant (.string (ascii "coroutine"))
        let y ← identifierConstant (ascii "yield")
        let c ← expressionFromString elem
        pure (seqs [op .opImport [k], op .opConstant [y], op0 .opGetTable, c, emitCall 1 0]))
      pure (.seq triple loop)) := fun t =>
    Emits.update (fun _ => rfl) ((emits_comprehensionTriple (hh t)).bind fun _ =>
      (emits_iterLoop _ (emits_filtered (hc t) (emits_generatorElement (he t)))).bind fun _ =>
        .pure fun hl ht => ⟨ht, hl⟩)
  have h : EmitsCode t _ := emits_calledFunction hb (quiet_typePush .any)
  simpa only [generatorComprehension, bind_assoc, pure_bind] using h

theorem emits_comprehensionElement (l i : Nat) {key : Option (CompileM Code)}
    {elem : CompileM Code} (hk : EmitsOption t key) (he : EmitsCode t elem) :
    EmitsCode t (comprehensionElement l i key elem) := by
  cases key with
  | some k =>
    exact (emits_expressionFromString (hk k rfl)).bind fun _ =>
      (emits_expressionFromString he).bind fun _ => .pure fun he hk => by
        simp [he, hk]
  | none =>
    exact (emits_expressionFromString he).bind fun _ => (emits_emitConstant _).bind fun _ =>
      .pure fun hk he => by simp [he, hk]

theorem emits_tableComprehension {h : IterHeader} {cond key : Option (CompileM Code)}
    {elem : CompileM Code} (hh : ∀ t, HeaderOk t h) (hc : ∀ t, EmitsOption t cond)
    (hk : ∀ t, EmitsOption t key) (he : ∀ t, EmitsCode t elem) :
    EmitsCode t (tableComprehension h cond key elem) := by
  have hb : ∀ t, EmitsCode t (do
      addLocal (ascii "(list)")
      markInitialized
      let list := (← localCount) - 1
      let one ← emitConstant (.number (doubleOfNat 1))
      addLocal (ascii "(idx)")
      markInitialized
      let idx := (← localCount) - 1
      let triple ← comprehensionTriple h
      let loop ← iterLoop h.loopVars (filtered cond (comprehensionElement list idx key elem))
      pure (seqs [op0 .opNewTable, one, triple, loop, op1 .opGetLocal list])) := by
    intro t
    refine (quiet_addLocal _).emits.then fun _ => quiet_markInitialized.emits.then fun _ =>
      quiet_localCount.emits.then fun l => (emits_emitConstant _).bind fun _ =>
      (quiet_addLocal _).emits.then fun _ => quiet_markInitialized.emits.then fun _ =>
      quiet_localCount.emits.then fun i => (emits_comprehensionTriple (hh t)).bind fun _ =>
      (emits_iterLoop _ (emits_filtered (hc t)
        (emits_comprehensionElement (l - 1) (i - 1) (hk t) (he t)))).bind fun _ =>
          .pure fun hl ht ho => ?_
    simp [hl, ht, ho]
  have h : EmitsCode t _ := quiet_getTypeStackTop.emits.then fun top =>
    emits_calledFunction hb (quiet_replaceType top .table)
  simpa only [tableComprehension, bind_assoc, pure_bind] using h

end ToiLang.Compile
