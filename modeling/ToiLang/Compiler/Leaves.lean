import ToiLang.Compiler.Emits

namespace ToiLang

@[simp] theorem Code.leaves_seqs {P : Instr → Prop} {cs : List Code} :
    (Compile.seqs cs).Leaves P ↔ ∀ c ∈ cs, c.Leaves P := by
  induction cs with
  | nil => simp [Compile.seqs, Code.Leaves]
  | cons c cs ih =>
    cases cs with
    | nil => simp [Compile.seqs]
    | cons d ds => simp [Compile.seqs, Code.Leaves, ih]

namespace Compile

variable {t : Final}

@[simp] theorem leaves_op {P : Instr → Prop} {o : OpCode} {args : List UInt8} :
    (op o args).Leaves P ↔ P ⟨o, args⟩ := Iff.rfl

@[simp] theorem leaves_op0 {P : Instr → Prop} {o : OpCode} : (op0 o).Leaves P ↔ P ⟨o, []⟩ := Iff.rfl

@[simp] theorem leaves_op1 {P : Instr → Prop} {o : OpCode} {a : Nat} :
    (op1 o a).Leaves P ↔ P ⟨o, [UInt8.ofNat a]⟩ := Iff.rfl

/-- Every opcode but `OP_CLOSURE` only needs the right number of operands. -/
theorem leafOk_plain {i : Instr} (h : i.op.isPlain i.args.length = true) : t.LeafOk i := by
  simp only [OpCode.isPlain, Bool.and_eq_true, Bool.not_eq_true', bne_iff_ne, beq_iff_eq] at h
  refine ⟨h.1.1, ?_⟩
  rw [Final.Operands, if_neg h.1.2]
  exact h.2.symm

/-- The emitters' fixed instructions: an opcode with as many bytes as it reads. -/
@[simp] theorem leafOk_nil {o : OpCode} (h : o.isPlain 0 = true) : t.LeafOk ⟨o, []⟩ :=
  leafOk_plain h

@[simp] theorem leafOk_byte {o : OpCode} {a : UInt8} (h : o.isPlain 1 = true) :
    t.LeafOk ⟨o, [a]⟩ := leafOk_plain h

@[simp] theorem leafOk_bytes {o : OpCode} {a b : UInt8} (h : o.isPlain 2 = true) :
    t.LeafOk ⟨o, [a, b]⟩ := leafOk_plain h

@[simp] theorem leaves_call {i : Instr} {n : Nat} {P : Instr → Prop} :
    (Code.call i n).Leaves P ↔ P i := Iff.rfl

theorem leafOk_callInstr (n : UInt8) : t.LeafOk (callInstr n) := by
  unfold callInstr
  split_ifs <;> exact leafOk_plain rfl

@[simp] theorem leaves_emitCall (n results : Nat) : (emitCall n results).Leaves t.LeafOk :=
  leafOk_callInstr _

@[simp] theorem leafOk_popLocal (l : Local) : t.LeafOk (popLocal l) := by
  unfold popLocal
  split_ifs <;> exact leafOk_plain rfl

@[simp] theorem leafOk_popInstr : t.LeafOk popInstr := leafOk_plain rfl

theorem quiet_modify {f : State → State}
    (h : ∀ s, (f s).current.constants = s.current.constants ∧ (f s).functions = s.functions ∧
      (f s).firstFunction = s.firstFunction ∧
      (f s).enclosing.map (·.constants) = s.enclosing.map (·.constants)) :
    Quiet (modify f : CompileM Unit) := by
  intro s a s' hs
  obtain rfl := modify_eq_some.mp hs
  exact h s

theorem quiet_get : Quiet (get : CompileM State) := by
  intro s a s' hs
  obtain ⟨rfl, rfl⟩ := get_eq_some.mp hs
  exact ⟨rfl, rfl, rfl, rfl⟩

theorem quiet_current : Quiet current := by
  intro s a s' hs
  obtain ⟨rfl, rfl⟩ := current_eq_some.mp hs
  exact ⟨rfl, rfl, rfl, rfl⟩

theorem quiet_typePush (x : TypeHint) : Quiet (typePush x) :=
  quiet_modify fun s => by split_ifs <;> exact ⟨rfl, rfl, rfl, rfl⟩

theorem quiet_setTypeStackTop (n : Nat) : Quiet (setTypeStackTop n) :=
  quiet_modify fun _ => ⟨rfl, rfl, rfl, rfl⟩

theorem quiet_typePop : Quiet typePop := by
  intro s a s' h
  simp only [typePop, bind_eq_some, get_eq_some, ite_eq_some, set_eq_some, pure_eq_some] at h
  obtain ⟨_, _, ⟨rfl, rfl⟩, ⟨_, _, rfl⟩ | ⟨_, _, _, rfl, _, rfl⟩⟩ := h <;>
    exact ⟨rfl, rfl, rfl, rfl⟩

theorem quiet_getTypeStackTop : Quiet getTypeStackTop := quiet_get.bind fun _ => .pure _

theorem quiet_localCount : Quiet localCount := quiet_current.bind fun _ => .pure _

theorem quiet_localType (i : Nat) : Quiet (localType i) := quiet_current.bind fun _ => .pure _

theorem quiet_isExplicitGlobalName (n : Name) : Quiet (isExplicitGlobalName n) :=
  quiet_current.bind fun _ => .pure _

/-- Changing the current compiler in anything but its constants. -/
theorem quiet_update {f : Compiler → Compiler} (h : ∀ c, (f c).constants = c.constants) :
    Quiet (current >>= fun c => setCurrent (f c)) := by
  intro s a s' hs
  simp only [bind_eq_some, current_eq_some, setCurrent_eq_some] at hs
  obtain ⟨_, _, ⟨rfl, rfl⟩, rfl⟩ := hs
  exact ⟨h _, rfl, rfl, rfl⟩

/-- The same where the change may be refused. -/
theorem quiet_checked {p : Compiler → Prop} [DecidablePred p] {f : Compiler → Compiler}
    (h : ∀ c, (f c).constants = c.constants) :
    Quiet (current >>= fun c => if p c then error else setCurrent (f c)) := by
  intro s a s' hs
  simp only [bind_eq_some, current_eq_some, ite_eq_some, error_eq_some, setCurrent_eq_some] at hs
  obtain ⟨_, _, ⟨rfl, rfl⟩, ⟨_, hf⟩ | ⟨_, rfl⟩⟩ := hs
  · exact hf.elim
  · exact ⟨h _, rfl, rfl, rfl⟩

theorem quiet_beginScope : Quiet beginScope := quiet_update fun _ => rfl

theorem quiet_addLocal (n : Name) : Quiet (addLocal n) := quiet_checked fun _ => rfl

theorem quiet_markInitializedCount (k : Nat) : Quiet (markInitializedCount k) :=
  quiet_update fun _ => rfl

theorem quiet_markInitialized : Quiet markInitialized := quiet_markInitializedCount 1

theorem quiet_setLocalType (i : Nat) (x : TypeHint) : Quiet (setLocalType i x) :=
  quiet_update fun _ => rfl

theorem quiet_updateLocalType (i : Nat) (x : TypeHint) : Quiet (updateLocalType i x) :=
  quiet_update fun _ => rfl

theorem quiet_initializeLocals : Quiet initializeLocals := quiet_update fun _ => rfl

theorem quiet_error {α : Type} : Quiet (error : CompileM α) := by
  intro s a s' h
  cases h

theorem quiet_ite {α : Type} {p : Prop} [Decidable p] {m n : CompileM α} (hm : Quiet m)
    (hn : Quiet n) : Quiet (if p then m else n) := by
  split
  · exact hm
  · exact hn

theorem quiet_declareVariable (n : Name) : Quiet (declareVariable n) :=
  quiet_current.bind fun _ => quiet_ite quiet_error (quiet_addLocal n)

theorem quiet_registerExplicitGlobal (n : Name) : Quiet (registerExplicitGlobal n) := by
  intro s a s' hs
  simp only [registerExplicitGlobal, bind_eq_some, current_eq_some, ite_eq_some, error_eq_some,
    pure_eq_some, setCurrent_eq_some] at hs
  obtain ⟨_, _, ⟨rfl, rfl⟩, ⟨_, _, rfl⟩ | ⟨_, ⟨_, hf⟩ | ⟨_, rfl⟩⟩⟩ := hs
  · exact ⟨rfl, rfl, rfl, rfl⟩
  · exact hf.elim
  · exact ⟨rfl, rfl, rfl, rfl⟩

theorem quiet_resolveLocal (n : Name) : Quiet (resolveLocal n) := by
  intro s a s' hs
  simp only [resolveLocal, bind_eq_some, current_eq_some, lift_eq_some] at hs
  obtain ⟨_, _, ⟨rfl, rfl⟩, _, rfl⟩ := hs
  exact ⟨rfl, rfl, rfl, rfl⟩

theorem addUpvalue_constants {c c' : Compiler} {i j : Nat} {b : Bool}
    (h : addUpvalue c i b = some (j, c')) : c'.constants = c.constants := by
  unfold addUpvalue at h
  dsimp only at h
  split at h
  · cases Option.some.inj h
    rfl
  · split at h
    · cases h
    · cases Option.some.inj h
      rfl

theorem resolveUpvalueIn_constants {c c' : Compiler} {n : Name} {es es' : List Compiler} {i : Nat}
    (h : resolveUpvalueIn c n es = some (some (i, c', es'))) :
    c'.constants = c.constants ∧ es'.map (·.constants) = es.map (·.constants) := by
  induction es generalizing c c' es' i with
  | nil => cases Option.some.inj h
  | cons e es ih =>
    unfold resolveUpvalueIn at h
    obtain ⟨l, hl, h⟩ := Option.bind_eq_some_iff.mp h
    cases l with
    | some l =>
      obtain ⟨⟨j, d⟩, hd, h⟩ := Option.bind_eq_some_iff.mp h
      cases Option.some.inj (Option.some.inj h)
      exact ⟨addUpvalue_constants hd, rfl⟩
    | none =>
      obtain ⟨u, hu, h⟩ := Option.bind_eq_some_iff.mp h
      rcases u with _ | ⟨u, e', es1⟩
      · cases Option.some.inj h
      · obtain ⟨⟨j, d⟩, hd, h⟩ := Option.bind_eq_some_iff.mp h
        cases Option.some.inj (Option.some.inj h)
        obtain ⟨he, hes⟩ := ih hu
        exact ⟨addUpvalue_constants hd, by simp [he, hes]⟩

theorem quiet_resolveUpvalue (n : Name) : Quiet (resolveUpvalue n) := by
  intro s a s' hs
  simp only [resolveUpvalue, bind_eq_some, get_eq_some, lift_eq_some] at hs
  obtain ⟨_, _, ⟨rfl, rfl⟩, u, _, ⟨hu, rfl⟩, hs⟩ := hs
  rcases u with _ | ⟨i, c, es⟩
  · obtain ⟨_, rfl⟩ := pure_eq_some.mp hs
    exact ⟨rfl, rfl, rfl, rfl⟩
  · simp only [bind_eq_some, set_eq_some, pure_eq_some] at hs
    obtain ⟨_, _, rfl, _, rfl⟩ := hs
    obtain ⟨hc, he⟩ := resolveUpvalueIn_constants hu
    exact ⟨hc, rfl, rfl, he⟩

theorem quiet_declareVariables (ns : List Name) : Quiet (declareVariables ns) := by
  induction ns with
  | nil => exact .pure _
  | cons n ns ih => exact (quiet_declareVariable n).bind fun _ => ih

theorem quiet_addLocals (ns : List Name) : Quiet (addLocals ns) := by
  induction ns with
  | nil => exact .pure _
  | cons n ns ih => exact (quiet_addLocal n).bind fun _ => ih

theorem quiet_declareTargets (ns : List Name) : Quiet (declareTargets ns) := by
  induction ns with
  | nil => exact .pure _
  | cons n ns ih =>
    refine (quiet_isExplicitGlobalName n).bind fun _ => quiet_ite ih ?_
    refine (quiet_resolveLocal n).bind fun l => ?_
    cases l with
    | some _ => exact ih
    | none => exact (quiet_addLocal n).bind fun _ => ih.bind fun _ => .pure _

theorem quiet_declareParams (i : Nat) (b : Bool) (ps : List Param) :
    Quiet (declareParams i b ps) := by
  induction ps generalizing i b with
  | nil => exact .pure _
  | cons p ps ih =>
    refine quiet_ite quiet_error (quiet_ite quiet_error ?_)
    refine (quiet_declareVariable _).bind fun _ => ?_
    cases p.hint with
    | some x =>
      exact quiet_localCount.bind fun _ => (quiet_setLocalType _ x).bind fun _ => ih _ _
    | none => exact ih _ _

/-- An emitter all of whose instructions have the operands their opcodes read. -/
def EmitsCode (t : Final) (m : CompileM Code) : Prop := Emits t m (Code.Leaves t.LeafOk)

theorem emits_makeConstant (v : Value) :
    Emits t (makeConstant v) fun k => t.constants[k.toNat]? = some v := by
  intro s a s' hs
  simp only [makeConstant, bind_eq_some, current_eq_some, ite_eq_some, error_eq_some,
    setCurrent_eq_some, pure_eq_some] at hs
  obtain ⟨_, w, ⟨rfl, rfl⟩, ⟨_, hf⟩ | ⟨hl, _, _, rfl, rfl, rfl⟩⟩ := hs
  · exact hf.elim
  · refine ⟨⟨List.prefix_append _ _, List.prefix_rfl, rfl, rfl⟩,
      fun hw => ⟨fun f hf => .inl hf, ?_⟩⟩
    have hk : (UInt8.ofNat w.current.constants.length).toNat = w.current.constants.length := by
      rw [UInt8.toNat_ofNat']
      omega
    obtain ⟨tail, ht⟩ := hw.constants
    show t.constants[_]? = some v
    rw [hk, ← ht]
    simp

theorem emits_identifierConstant (n : Name) :
    Emits t (identifierConstant n) fun k => t.constants[k.toNat]? = some (.string n) :=
  emits_makeConstant _

theorem emits_emitConstant (v : Value) : EmitsCode t (emitConstant v) :=
  (emits_makeConstant v).bind fun _ => .pure fun _ => by simp 

theorem emits_expression {e : CompileM Code} (he : EmitsCode t e) :
    EmitsCode t (expression e) := by
  refine Emits.then (quiet_modify fun _ => ?_).emits fun _ => he
  exact ⟨rfl, rfl, rfl, rfl⟩

theorem emits_number (x : Double) (b : Bool) : EmitsCode t (number x b) :=
  (emits_emitConstant _).bind fun _ => (quiet_typePush _).emits.then fun _ => .pure id

theorem emits_string (s : Bytes) : EmitsCode t (string s) :=
  (emits_emitConstant _).bind fun _ => (quiet_typePush _).emits.then fun _ => .pure id

theorem emits_literal {o : OpCode} (x : TypeHint) (ho : t.LeafOk ⟨o, []⟩) :
    EmitsCode t (literal o x) :=
  (quiet_typePush x).emits.then fun _ => .pure ho

theorem emits_unary (o : UnaryOp) {e : CompileM Code} (he : EmitsCode t e) :
    EmitsCode t (unary o e) := by
  refine he.bind fun c => quiet_typePop.emits.then fun rhs => ?_
  cases o <;> exact (quiet_typePush _).emits.then fun _ => .pure fun hc =>
    ⟨hc, leafOk_plain rfl⟩

theorem emits_notIn {a b : CompileM Code} (ha : EmitsCode t a) (hb : EmitsCode t b) :
    EmitsCode t (notIn a b) :=
  ha.bind fun ca => hb.bind fun cb => quiet_typePop.emits.then fun _ =>
    quiet_typePop.emits.then fun _ => (quiet_typePush _).emits.then fun _ => .pure fun hb ha => by
      simp [ha, hb]

/-- An opcode without operands that is not one of control flow. -/
abbrev IsSimple (o : OpCode) : Prop := o.isPlain 0 = true

theorem simple_arithOp {l r : TypeHint} {o₁ o₂ o₃ : OpCode} (h₁ : IsSimple o₁) (h₂ : IsSimple o₂)
    (h₃ : IsSimple o₃) : IsSimple (arithOp l r o₁ o₂ o₃).1 := by
  unfold arithOp
  split_ifs <;> assumption

theorem simple_divideOp (l r : TypeHint) : IsSimple (divideOp l r).1 := by
  unfold divideOp
  split_ifs <;> exact rfl

theorem simple_binaryOps (o : BinaryOp) (l r : TypeHint) :
    ∀ p ∈ (binaryOps o l r).1, IsSimple p := by
  cases o <;> simp only [binaryOps, List.mem_cons, List.not_mem_nil, or_false] <;>
    rintro p (rfl | rfl)
  all_goals first
    | exact rfl
    | exact simple_divideOp l r
    | exact simple_arithOp rfl rfl rfl

theorem leafOk_simple {o : OpCode} (h : IsSimple o) : t.LeafOk ⟨o, []⟩ := leafOk_nil h

theorem emits_binary (o : BinaryOp) {a b : CompileM Code} (ha : EmitsCode t a)
    (hb : EmitsCode t b) : EmitsCode t (binary o a b) := by
  refine ha.bind fun ca => hb.bind fun cb => quiet_typePop.emits.then fun r =>
    quiet_typePop.emits.then fun l => (quiet_typePush _).emits.then fun _ => .pure fun hb ha => ?_
  simp only [Code.leaves_seqs, List.mem_cons, List.mem_map]
  rintro c (rfl | rfl | ⟨p, hp, rfl⟩)
  · exact ha
  · exact hb
  · exact leafOk_simple (simple_binaryOps o l r p hp)

theorem emits_andOp {a b : CompileM Code} (ha : EmitsCode t a) (hb : EmitsCode t b) :
    EmitsCode t (andOp a b) :=
  ha.bind fun ca => quiet_typePop.emits.then fun _ => hb.bind fun cb =>
    quiet_typePop.emits.then fun _ => (quiet_typePush _).emits.then fun _ => .pure fun hb ha => by
      simp [ha, hb]

theorem emits_orOp {a b : CompileM Code} (ha : EmitsCode t a) (hb : EmitsCode t b) :
    EmitsCode t (orOp a b) :=
  ha.bind fun ca => quiet_typePop.emits.then fun _ => hb.bind fun cb =>
    quiet_typePop.emits.then fun _ => (quiet_typePush _).emits.then fun _ => .pure fun hb ha => by
      simp [ha, hb]

theorem emits_ternary {c a b : CompileM Code} (hc : EmitsCode t c) (ha : EmitsCode t a)
    (hb : EmitsCode t b) : EmitsCode t (ternary c a b) :=
  hc.bind fun cc => quiet_typePop.emits.then fun _ => ha.bind fun ca => hb.bind fun cb =>
    quiet_typePop.emits.then fun _ => quiet_typePop.emits.then fun _ =>
      (quiet_typePush _).emits.then fun _ => .pure fun hb ha hc => by
        simp [ha, hb, hc]

theorem emits_range {a b : CompileM Code} (ha : EmitsCode t a) (hb : EmitsCode t b) :
    EmitsCode t (range a b) := by
  refine ha.bind fun ca => hb.bind fun cb => quiet_get.emits.then fun s => ?_
  refine Emits.ite (Emits.then (quiet_modify fun _ => ?_).emits fun _ => .pure fun hb ha => ⟨ha, hb⟩) ?_
  · exact ⟨rfl, rfl, rfl, rfl⟩
  · exact quiet_typePop.emits.then fun _ => quiet_typePop.emits.then fun _ =>
      (quiet_typePush _).emits.then fun _ => .pure fun hb ha => by
        simp [ha, hb]

/-- The opcodes of a target take one operand byte. -/
def Target.Ok (g : Target) : Prop := ∀ a, t.LeafOk ⟨g.getOp, [a]⟩ ∧ t.LeafOk ⟨g.setOp, [a]⟩

theorem target_ok {g s : OpCode} {a : Nat} {b : Bool} (hg : g.isPlain 1 = true)
    (hs : s.isPlain 1 = true) : Target.Ok (t := t) ⟨g, s, a, b⟩ :=
  fun _ => ⟨leafOk_byte hg, leafOk_byte hs⟩

theorem emits_resolveName (n : Name) : Emits t (resolveName n) (Target.Ok (t := t)) := by
  refine (quiet_isExplicitGlobalName n).emits.then fun d => (quiet_resolveLocal n).emits.then fun l => ?_
  cases l with
  | some i => exact .pure (target_ok rfl rfl)
  | none =>
    have hglobal : Emits t (do
        let k ← identifierConstant n
        pure ⟨.opGetGlobal, .opSetGlobal, k.toNat, d⟩) (Target.Ok (t := t)) :=
      (emits_identifierConstant n).bind fun _ => .pure fun _ => target_ok rfl rfl
    cases d with
    | true => exact hglobal
    | false =>
      refine (quiet_resolveUpvalue n).emits.then fun u => ?_
      cases u with
      | none => exact hglobal
      | some i => exact .pure (target_ok rfl rfl)

theorem emits_storeNewLocal (n : Name) (x : TypeHint) : EmitsCode t (storeNewLocal n x) :=
  quiet_localCount.emits.then fun _ => (quiet_addLocal n).emits.then fun _ =>
    quiet_markInitialized.emits.then fun _ => (quiet_setLocalType _ x).emits.then fun _ =>
      .pure (leafOk_plain rfl)

theorem emits_emitAssignmentStore (n : Name) (g : Target) (x : TypeHint) :
    Emits t (emitAssignmentStore n g x) fun c => Target.Ok (t := t) g → c.Leaves t.LeafOk := by
  refine Emits.ite ?_ (Emits.ite ?_ ((emits_storeNewLocal n x).mono fun _ hc _ => hc))
  · exact (quiet_updateLocalType _ x).emits.then fun _ => .pure fun hg => (hg _).2
  · exact .pure fun hg => (hg _).2

theorem emits_namedVariable (n : Name) : EmitsCode t (namedVariable n) := by
  refine (emits_resolveName n).bind fun g => ?_
  dsimp only
  split
  · exact (quiet_localType _).emits.then fun _ => (quiet_typePush _).emits.then fun _ =>
      .pure fun hg => (hg _).1
  · exact (quiet_typePush _).emits.then fun _ => .pure fun hg => (hg _).1

theorem emits_predeclareLocal (n : Name) (tok : AssignTok) (g : Target) :
    Emits t (predeclareLocal n tok g) fun p =>
      p.1.Leaves t.LeafOk ∧ (Target.Ok (t := t) g → Target.Ok (t := t) p.2.1) := by
  refine quiet_current.emits.then fun c => Emits.ite ?_ (.pure ⟨trivial, id⟩)
  exact quiet_localCount.emits.then fun _ => (quiet_addLocal n).emits.then fun _ =>
    quiet_markInitialized.emits.then fun _ => .pure
      ⟨by simp , fun _ => target_ok rfl rfl⟩

theorem emits_assignStore (n : Name) (tok : AssignTok) (g : Target) (p : Bool) (x : TypeHint) :
    Emits t (assignStore n tok g p x) fun c => Target.Ok (t := t) g → c.Leaves t.LeafOk := by
  have hk : Emits t (do let k ← identifierConstant n; pure (op .opSetGlobal [k]))
      fun c => Target.Ok (t := t) g → c.Leaves t.LeafOk :=
    (emits_identifierConstant n).bind fun _ => .pure fun _ _ => leafOk_plain rfl
  refine quiet_current.emits.then fun c => Emits.ite hk (Emits.ite ?_ (Emits.ite ?_ (Emits.ite ?_
    (Emits.ite hk (emits_emitAssignmentStore n g x)))))
  · exact (quiet_updateLocalType _ x).emits.then fun _ => .pure fun _ =>
      leafOk_plain rfl
  · exact .pure fun _ => leafOk_plain rfl
  · exact (emits_storeNewLocal n x).mono fun _ hc _ => hc

theorem emits_assign (n : Name) (tok : AssignTok) {r : CompileM Code} (hr : EmitsCode t r) :
    EmitsCode t (assign n tok r) := by
  refine (emits_resolveName n).bind fun g => (emits_predeclareLocal n tok g).bind fun p => ?_
  refine hr.bind fun cr => quiet_typePop.emits.then fun x =>
    (emits_assignStore n tok p.2.1 p.2.2 x).bind fun cs =>
      (quiet_typePush _).emits.then fun _ => .pure fun hs hr hp hg => ?_
  simp [hp.1, hr, hs (hp.2 hg)]

theorem simple_compoundOps (o : BinaryOp) (l r : TypeHint) :
    ∀ p ∈ (compoundOps o l r).1, IsSimple p := by
  cases o <;> simp only [compoundOps, List.mem_cons, List.not_mem_nil, or_false, false_implies,
    implies_true] <;> rintro p rfl
  all_goals first
    | exact simple_divideOp l r
    | exact simple_arithOp rfl rfl rfl

theorem emits_compoundLoad (n : Name) (g : Target) :
    Emits t (compoundLoad n g) fun p => Target.Ok (t := t) g → p.1.Leaves t.LeafOk := by
  refine quiet_current.emits.then fun c => Emits.ite ?_ (Emits.ite ?_ (Emits.ite ?_ (Emits.ite ?_ ?_)))
  · exact (emits_identifierConstant n).bind fun _ => .pure fun _ _ =>
      leafOk_plain rfl
  · exact (quiet_localType _).emits.then fun _ => .pure fun _ => leafOk_plain rfl
  · exact .pure fun _ => leafOk_plain rfl
  · exact .pure fun _ => leafOk_plain rfl
  · exact .pure fun hg => (hg _).1

theorem emits_compoundStore (n : Name) (g : Target) (x : TypeHint) :
    Emits t (compoundStore n g x) fun c => Target.Ok (t := t) g → c.Leaves t.LeafOk := by
  refine quiet_current.emits.then fun c => Emits.ite ?_ (Emits.ite ?_ (Emits.ite ?_ (Emits.ite
    ((emits_storeNewLocal n x).mono fun _ hc _ => hc) (emits_emitAssignmentStore n g x))))
  · exact (emits_identifierConstant n).bind fun _ => .pure fun _ _ =>
      leafOk_plain rfl
  · exact (quiet_updateLocalType _ x).emits.then fun _ => .pure fun _ =>
      leafOk_plain rfl
  · exact .pure fun _ => leafOk_plain rfl

theorem emits_compound (n : Name) (o : BinaryOp) {e : CompileM Code} (he : EmitsCode t e) :
    EmitsCode t (compound n o e) := by
  refine (emits_resolveName n).bind fun g => (emits_compoundLoad n g).bind fun p =>
    (quiet_typePush _).emits.then fun _ => (emits_expression he).bind fun ce =>
      quiet_typePop.emits.then fun r => quiet_typePop.emits.then fun l =>
        (emits_compoundStore n g _).bind fun cs => (quiet_typePush _).emits.then fun _ =>
          .pure fun hs he hp hg => ?_
  simp only [Code.leaves_seqs, List.mem_cons, List.mem_append, List.mem_map, List.not_mem_nil,
    or_false]
  rintro c ((rfl | rfl | ⟨q, hq, rfl⟩) | rfl)
  · exact hp hg
  · exact he
  · exact leafOk_simple (simple_compoundOps o l r q hq)
  · exact hs hg

theorem emits_emitGetNamed (n : Name) : EmitsCode t (emitGetNamed n) := by
  refine (quiet_resolveLocal n).emits.then fun l => ?_
  cases l with
  | some i => exact .pure (leafOk_plain rfl)
  | none =>
    refine (quiet_resolveUpvalue n).emits.then fun u => ?_
    cases u with
    | some i => exact .pure (leafOk_plain rfl)
    | none => exact (emits_identifierConstant n).bind fun _ => .pure fun _ =>
        leafOk_plain rfl

theorem emits_emitSetNamed (n : Name) : EmitsCode t (emitSetNamed n) := by
  refine (quiet_resolveLocal n).emits.then fun l => ?_
  cases l with
  | some i => exact .pure (leafOk_plain rfl)
  | none =>
    refine (quiet_resolveUpvalue n).emits.then fun u => ?_
    cases u with
    | some i => exact .pure (leafOk_plain rfl)
    | none => exact (emits_identifierConstant n).bind fun _ => .pure fun _ =>
        leafOk_plain rfl

theorem quiet_replaceType (n : Nat) (x : TypeHint) : Quiet (replaceType n x) :=
  (quiet_setTypeStackTop n).bind fun _ => quiet_typePush x

theorem emits_dot {o : OpCode} (ho : IsSimple o) {e : CompileM Code} (he : EmitsCode t e)
    (p : Name) : EmitsCode t (dot o e p) :=
  he.bind fun c => quiet_getTypeStackTop.emits.then fun _ =>
    (emits_identifierConstant p).bind fun _ => (quiet_replaceType _ _).emits.then fun _ =>
      .pure fun _ hc => by
        simp only [Code.leaves_seqs, List.mem_cons, List.not_mem_nil, or_false]
        rintro _ (rfl | rfl | rfl)
        · exact hc
        · exact leafOk_plain rfl
        · exact leafOk_simple ho

theorem emits_dotAssign {e r : CompileM Code} (he : EmitsCode t e) (p : Name)
    (hr : EmitsCode t r) : EmitsCode t (dotAssign e p r) :=
  he.bind fun c => quiet_getTypeStackTop.emits.then fun _ =>
    (emits_identifierConstant p).bind fun _ => hr.bind fun cr => quiet_typePop.emits.then fun _ =>
      (quiet_replaceType _ _).emits.then fun _ => .pure fun hr _ hc => by
        simp [hc, hr]

theorem emits_subscript {e k : CompileM Code} (he : EmitsCode t e) (hk : EmitsCode t k) :
    EmitsCode t (subscript e k) :=
  he.bind fun c => quiet_getTypeStackTop.emits.then fun _ => (emits_expression hk).bind fun ck =>
    (quiet_replaceType _ _).emits.then fun _ => .pure fun hk hc => by
      simp [hc, hk]

theorem emits_subscriptAssign {e k r : CompileM Code} (he : EmitsCode t e) (hk : EmitsCode t k)
    (hr : EmitsCode t r) : EmitsCode t (subscriptAssign e k r) :=
  he.bind fun c => quiet_getTypeStackTop.emits.then fun _ => (emits_expression hk).bind fun ck =>
    hr.bind fun cr => quiet_typePop.emits.then fun _ => (quiet_replaceType _ _).emits.then fun _ =>
      .pure fun hr hk hc => by simp [hc, hk, hr]

/-- An optional part of an expression, where it is there, is in order. -/
def EmitsOption (t : Final) (m : Option (CompileM Code)) : Prop := ∀ e, m = some e → EmitsCode t e

theorem emits_slice {e : CompileM Code} {a b c : Option (CompileM Code)} (he : EmitsCode t e)
    (ha : EmitsOption t a) (hb : EmitsOption t b) (hc : EmitsOption t c) :
    EmitsCode t (slice e a b c) := by
  have h1 : EmitsCode t (sliceStart a) := by
    cases a with
    | none => exact .pure (leafOk_plain rfl)
    | some e => exact ha e rfl
  have h2 : EmitsCode t (sliceStop b) := by
    cases b with
    | none => exact .pure (leafOk_plain rfl)
    | some e => exact emits_expression (hb e rfl)
  have h3 : EmitsCode t (sliceStep c) := by
    cases c with
    | none => exact emits_emitConstant _
    | some e => exact emits_expression (hc e rfl)
  exact he.bind fun c => quiet_getTypeStackTop.emits.then fun _ => h1.bind fun c1 =>
    h2.bind fun c2 => h3.bind fun c3 => (quiet_replaceType _ _).emits.then fun _ =>
      .pure fun h3 h2 h1 hc => by simp [hc, h1, h2, h3]

/-- The parts of a list are in order. -/
def EmitsAll (t : Final) (es : List (CompileM Code)) : Prop := ∀ e ∈ es, EmitsCode t e

theorem emits_arrayElements (i : Nat) {es : List (CompileM Code)} (h : EmitsAll t es) :
    EmitsCode t (arrayElements i es) := by
  induction es generalizing i with
  | nil => exact .pure trivial
  | cons e es ih =>
    exact (emits_emitConstant _).bind fun k => (emits_expression (h e (by simp))).bind fun c =>
      (ih (i + 1) fun e he => h e (by simp [he])).bind fun rest => .pure fun hr hc hk => by
        simp [hc, hk, hr]

theorem emits_parseArrayLiteral {es : List (CompileM Code)} (h : EmitsAll t es) :
    EmitsCode t (parseArrayLiteralFromCommaList es) :=
  (emits_arrayElements 1 h).bind fun _ => .pure fun hc => ⟨leafOk_plain rfl, hc⟩

theorem emits_callArguments (n : Nat) {es : List (CompileM Code)} (h : EmitsAll t es) :
    Emits t (callArguments n es) fun p => p.1.Leaves t.LeafOk := by
  induction es generalizing n with
  | nil => exact .pure trivial
  | cons e es ih =>
    refine (emits_expression (h e (by simp))).bind fun c => quiet_typePop.emits.then fun _ =>
      Emits.ite .error ?_
    exact (ih (n + 1) fun e he => h e (by simp [he])).bind fun p => .pure fun hp hc => ⟨hc, hp⟩

/-- The values of a list of named parts are in order. -/
def EmitsNamed (t : Final) (es : List (Name × CompileM Code)) : Prop :=
  ∀ p ∈ es, EmitsCode t p.2

theorem emits_namedArguments {es : List (Name × CompileM Code)} (h : EmitsNamed t es) :
    EmitsCode t (namedArguments es) := by
  induction es with
  | nil => exact .pure trivial
  | cons p es ih =>
    exact (emits_emitConstant _).bind fun k => (emits_expression (h p (by simp))).bind fun c =>
      quiet_typePop.emits.then fun _ => (ih fun e he => h e (by simp [he])).bind fun rest =>
        .pure fun hr hc hk => by simp [hc, hk, hr]

theorem emits_callTail (n : Nat) {named : List (Name × CompileM Code)}
    {spread : Option (CompileM Code)} (hn : EmitsNamed t named) (hs : EmitsOption t spread) :
    EmitsCode t (callTail n named spread) := by
  rcases named with _ | ⟨p, named⟩ <;> rcases spread with _ | e
  · exact .pure (leafOk_callInstr _)
  · refine Emits.ite .error ?_
    exact (emits_expression (hs e rfl)).bind fun c => quiet_typePop.emits.then fun _ =>
      .pure fun hc => ⟨hc, leafOk_plain rfl⟩
  · refine (emits_namedArguments hn).bind fun c => Emits.ite .error (.pure fun hc => ?_)
    simp [hc]
  · exact .error

theorem emits_parseCall {f : CompileM Code} {args : List (CompileM Code)}
    {named : List (Name × CompileM Code)} {spread : Option (CompileM Code)} (hf : EmitsCode t f)
    (ha : EmitsAll t args) (hn : EmitsNamed t named) (hs : EmitsOption t spread) :
    EmitsCode t (parseCall f args named spread) :=
  hf.bind fun c => quiet_getTypeStackTop.emits.then fun _ => (emits_callArguments 0 ha).bind
    fun p => (emits_callTail p.2 hn hs).bind fun tail => (quiet_setTypeStackTop _).emits.then
      fun _ => quiet_typePop.emits.then fun _ => (quiet_typePush _).emits.then fun _ =>
        .pure fun ht ha hc => by simp [hc, ha, ht]

theorem emits_callComprehension {f g : CompileM Code} (hf : EmitsCode t f) (hg : EmitsCode t g) :
    EmitsCode t (callComprehension f g) :=
  hf.bind fun c => quiet_getTypeStackTop.emits.then fun _ => hg.bind fun cg =>
    quiet_typePop.emits.then fun _ => (quiet_setTypeStackTop _).emits.then fun _ =>
      quiet_typePop.emits.then fun _ => (quiet_typePush _).emits.then fun _ =>
        .pure fun hg hc => by simp [hc, hg]

/-- The parts of a table entry are in order. -/
def EntryOk (t : Final) : Entry → Prop
  | .keyed k v => EmitsCode t k ∧ EmitsCode t v
  | .field _ v | .item v => EmitsCode t v
  | .nameItem _ | .shorthand _ => True

theorem emits_shorthandFields (ns : List Name) : EmitsCode t (shorthandFields ns) := by
  induction ns with
  | nil => exact .pure trivial
  | cons n ns ih =>
    exact (emits_emitConstant _).bind fun k => (emits_namedVariable n).bind fun c =>
      ih.bind fun rest => .pure fun hr hc hk => by
        simp [hc, hk, hr]

theorem emits_tableEntries (i : Nat) {es : List Entry} (h : ∀ e ∈ es, EntryOk t e) :
    EmitsCode t (tableEntries i es) := by
  induction es generalizing i with
  | nil => exact .pure trivial
  | cons e es ih =>
    have ht : ∀ i, EmitsCode t (tableEntries i es) := fun i =>
      ih i fun e he => h e (List.mem_cons_of_mem _ he)
    have he := h e List.mem_cons_self
    -- every entry that stores one value is laid out alike
    have store : ∀ {k v : CompileM Code} (j : Nat), EmitsCode t k → EmitsCode t v →
        EmitsCode t (do
          let ck ← k
          let cv ← v
          let rest ← tableEntries j es
          pure (seqs [op0 .opDup, ck, cv, op0 .opSetTable, op0 .opPop, rest])) := fun j hk hv =>
      hk.bind fun ck => hv.bind fun cv => (ht j).bind fun rest => .pure fun hr hv hk => by
        simp [hk, hv, hr]
    cases e with
    | keyed k v => exact store i (emits_expression he.1) (emits_expression he.2)
    | field n v => exact store i (emits_emitConstant _) (emits_expression he)
    | nameItem n => exact store (i + 1) (emits_emitConstant _) (emits_namedVariable n)
    | shorthand ns =>
      exact (emits_shorthandFields ns).bind fun c => (ht i).bind fun rest => .pure fun hr hc =>
        ⟨hc, hr⟩
    | item v => exact store (i + 1) (emits_emitConstant _) (emits_expression he)

theorem emits_table {es : List Entry} (h : ∀ e ∈ es, EntryOk t e) : EmitsCode t (table es) :=
  quiet_getTypeStackTop.emits.then fun _ => (emits_tableEntries 1 h).bind fun _ =>
    (quiet_replaceType _ _).emits.then fun _ => .pure fun hc =>
      ⟨leafOk_plain rfl, hc⟩

theorem emits_tableInfix {m : CompileM Code} {es : List Entry} (hm : EmitsCode t m)
    (h : ∀ e ∈ es, EntryOk t e) : EmitsCode t (tableInfix m es) :=
  hm.bind fun cm => quiet_getTypeStackTop.emits.then fun _ => (emits_tableEntries 1 h).bind
    fun c => (quiet_replaceType _ _).emits.then fun _ => .pure fun hc hm => by
      simp [hc, hm]

theorem emits_importExpression (path : Bytes) : EmitsCode t (importExpression path) :=
  (emits_makeConstant _).bind fun _ => (quiet_typePush _).emits.then fun _ => .pure fun _ =>
    leafOk_plain rfl

/-- The source of an f-string part is in order. -/
def FPartOk (t : Final) : FPart → Prop
  | .source e => EmitsCode t e
  | _ => True

theorem emits_fstringPart {p : FPart} (h : FPartOk t p) : EmitsCode t (fstringPart p) := by
  cases p with
  | text s => exact emits_emitConstant _
  | name n =>
    exact (emits_emitGetNamed n).bind fun c => (quiet_typePush _).emits.then fun _ => .pure id
  | nameMod n x =>
    exact (emits_emitGetNamed n).bind fun c => (emits_emitConstant _).bind fun k =>
      (quiet_typePush _).emits.then fun _ => .pure fun hk hc => by
        simp [hk, hc]
  | source e => exact emits_expression h

theorem emits_fstringParts {ps : List FPart} (h : ∀ p ∈ ps, FPartOk t p) :
    EmitsCode t (fstringParts ps) := by
  induction ps with
  | nil => exact .pure trivial
  | cons p ps ih =>
    exact (emits_fstringPart (h p (by simp))).bind fun c =>
      (ih fun p hp => h p (by simp [hp])).bind fun rest => .pure fun hr hc => ⟨hc, hr⟩

theorem emits_fstring {ps : List FPart} (h : ∀ p ∈ ps, FPartOk t p) :
    EmitsCode t (fstring ps) := by
  refine quiet_getTypeStackTop.emits.then fun _ => (emits_fstringParts h).bind fun c =>
    Emits.ite ?_ (Emits.ite .error ?_)
  · exact (emits_emitConstant _).bind fun _ => (quiet_replaceType _ _).emits.then fun _ =>
      .pure fun hc _ => hc
  · exact (quiet_replaceType _ _).emits.then fun _ => .pure fun hc =>
      ⟨hc, leafOk_plain rfl⟩

end Compile

end ToiLang
