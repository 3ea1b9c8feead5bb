import ToiLang.Compiler.LeavesProgram

namespace ToiLang

/-- Every `break` and `continue` is in a loop, and a clause that is not there has no code; `k` says
whether there is a loop around. -/
@[simp] def Code.formed : Bool → Code → Prop
  | _, .nil | _, .instr _ | _, .call .. | _, .mark _ => True
  | k, .seq a b | k, .branch a b => a.formed k ∧ b.formed k
  | k, .skipIfFalse a => a.formed k
  | k, .whileLoop c b => c.formed k ∧ b.formed true
  | k, .forIn h b e => h.formed k ∧ b.formed true ∧ e.formed k
  | _, .forRange _ _ b => b.formed true
  | k, .tryBlock x _ f _ b exc fin =>
      b.formed k ∧ exc.formed k ∧ fin.formed k ∧ (x = false → exc = .nil) ∧ (f = false → fin = .nil)
  | k, .breakJump _ | k, .continueJump _ => k = true

theorem Code.formed_mono {c : Code} {k : Bool} (h : c.formed false) : c.formed k := by
  induction c with
  | nil | instr | call | mark => exact trivial
  | seq a b iha ihb | branch a b iha ihb => exact ⟨iha h.1, ihb h.2⟩
  | skipIfFalse a ih => exact ih h
  | whileLoop c b ihc => exact ⟨ihc h.1, h.2⟩
  | forIn hd b e ihh ihb ihe => exact ⟨ihh h.1, h.2.1, ihe h.2.2⟩
  | forRange => exact h
  | tryBlock x e f d b exc fin ihb ihe ihf => exact ⟨ihb h.1, ihe h.2.1, ihf h.2.2.1, h.2.2.2⟩
  | breakJump | continueJump => cases h

@[simp] theorem Code.formed_seqs {k : Bool} {cs : List Code} :
    (Compile.seqs cs).formed k ↔ ∀ c ∈ cs, c.formed k := by
  induction cs with
  | nil => simp [Compile.seqs]
  | cons c cs ih =>
    cases cs with
    | nil => simp [Compile.seqs]
    | cons d ds => simp [Compile.seqs, ih]

/-- The code of a finished function: a body whose jumps are in loops and the return behind it. -/
def ObjFunction.Closed (f : ObjFunction) : Prop :=
  ∃ c : Code, f.body = Compile.endBody c ∧ c.formed false

def State.inLoop (s : State) : Bool := s.current.loopContext.isSome

/-- Which of the functions being compiled are in a loop at this moment. -/
def State.loops (s : State) : List Bool :=
  s.inLoop :: s.enclosing.map fun c => c.loopContext.isSome

namespace Compile

@[simp] theorem formed_op {k : Bool} {o : OpCode} {args : List UInt8} : (op o args).formed k :=
  trivial

@[simp] theorem formed_op0 {k : Bool} {o : OpCode} : (op0 o).formed k := trivial

@[simp] theorem formed_op1 {k : Bool} {o : OpCode} {a : Nat} : (op1 o a).formed k := trivial

@[simp] theorem formed_emitCall {k : Bool} {n results : Nat} : (emitCall n results).formed k :=
  trivial

theorem formed_replicate {k : Bool} (n : Nat) {o : OpCode} :
    (seqs (List.replicate n (op0 o))).formed k := by
  rw [Code.formed_seqs]
  intro c hc
  rw [List.eq_of_mem_replicate hc]
  exact trivial

@[simp] theorem formed_nils {k : Bool} (n : Nat) : (nils n).formed k := formed_replicate n

@[simp] theorem formed_pops {k : Bool} (n : Nat) : (pops n).formed k := formed_replicate n

/-- An action that leaves the loops and the finished functions alone. -/
def Calm {α : Type} (m : CompileM α) : Prop :=
  ∀ s a s', m s = some (a, s') → s'.loops = s.loops ∧ s'.functions = s.functions

/-- An action that comes back to the loops it starts in, where `k` says whether there is one. -/
def Keeps {α : Type} (k : Bool) (m : CompileM α) (Q : α → Prop) : Prop :=
  ∀ s a s', s.inLoop = k → m s = some (a, s') →
    s'.loops = s.loops ∧ (∀ f ∈ s'.functions, f ∈ s.functions ∨ f.Closed) ∧ Q a

/-- The same for an emitter whose code is put where `j` says whether there is a loop around. -/
def KeepsCode (k j : Bool) (m : CompileM Code) : Prop := Keeps k m (Code.formed j)

theorem Keeps.bind {α β : Type} {k : Bool} {m : CompileM α} {f : α → CompileM β} {Q : α → Prop}
    {R : β → Prop} (hm : Keeps k m Q) (hf : ∀ a, Q a → Keeps k (f a) R) : Keeps k (m >>= f) R := by
  intro s b s'' hk h
  obtain ⟨a, s', ha, hb⟩ := bind_eq_some.mp h
  obtain ⟨hl, hfun, hq⟩ := hm s a s' hk ha
  have hk' : s'.inLoop = k := (List.cons.inj hl).1.trans hk
  obtain ⟨hl', hfun', hr⟩ := hf a hq s' b s'' hk' hb
  refine ⟨hl'.trans hl, fun f hf => ?_, hr⟩
  rcases hfun' f hf with hf | hf
  · exact hfun f hf
  · exact .inr hf

theorem Keeps.pure {α : Type} {k : Bool} {a : α} {Q : α → Prop} (h : Q a) :
    Keeps k (pure a : CompileM α) Q := by
  intro s b s' _ hs
  obtain ⟨rfl, rfl⟩ := pure_eq_some.mp hs
  exact ⟨rfl, fun f hf => .inl hf, h⟩

theorem Keeps.error {α : Type} {k : Bool} {Q : α → Prop} : Keeps k (error : CompileM α) Q := by
  intro s a s' _ h
  cases h

theorem Keeps.ite {α : Type} {k : Bool} {p : Prop} [Decidable p] {m n : CompileM α} {Q : α → Prop}
    (hm : Keeps k m Q) (hn : Keeps k n Q) : Keeps k (if p then m else n) Q := by
  split
  · exact hm
  · exact hn

theorem Keeps.mono {α : Type} {k : Bool} {m : CompileM α} {Q R : α → Prop} (h : Keeps k m Q)
    (hq : ∀ a, Q a → R a) : Keeps k m R := by
  intro s a s' hk hs
  obtain ⟨hl, hf, ha⟩ := h s a s' hk hs
  exact ⟨hl, hf, hq a ha⟩

theorem KeepsCode.weaken {k j : Bool} {m : CompileM Code} (h : KeepsCode k false m) :
    KeepsCode k j m :=
  Keeps.mono h fun _ hc => Code.formed_mono hc

theorem Calm.keeps {α : Type} {k : Bool} {m : CompileM α} (h : Calm m) :
    Keeps k m fun _ => True := by
  intro s a s' _ hs
  obtain ⟨hl, hf⟩ := h s a s' hs
  exact ⟨hl, fun f hm => .inl (hf ▸ hm), trivial⟩

/-- The step of a bind whose first part is calm. -/
theorem Calm.then {α β : Type} {k : Bool} {m : CompileM α} {f : α → CompileM β} {R : β → Prop}
    (hm : Calm m) (hf : ∀ a, Keeps k (f a) R) : Keeps k (m >>= f) R :=
  hm.keeps.bind fun a _ => hf a

theorem Calm.bind {α β : Type} {m : CompileM α} {f : α → CompileM β} (hm : Calm m)
    (hf : ∀ a, Calm (f a)) : Calm (m >>= f) := by
  intro s b s'' h
  obtain ⟨a, s', ha, hb⟩ := bind_eq_some.mp h
  obtain ⟨hl, hf1⟩ := hm s a s' ha
  obtain ⟨hl', hf'⟩ := hf a s' b s'' hb
  exact ⟨hl'.trans hl, hf'.trans hf1⟩

theorem Calm.pure {α : Type} (a : α) : Calm (pure a : CompileM α) := by
  intro s b s' hs
  obtain ⟨rfl, rfl⟩ := pure_eq_some.mp hs
  exact ⟨rfl, rfl⟩

theorem Calm.error {α : Type} : Calm (error : CompileM α) := by
  intro s a s' h
  cases h

theorem Calm.ite {α : Type} {p : Prop} [Decidable p] {m n : CompileM α} (hm : Calm m)
    (hn : Calm n) : Calm (if p then m else n) := by
  split
  · exact hm
  · exact hn

theorem calm_get : Calm (get : CompileM State) := by
  intro s a s' hs
  obtain ⟨rfl, rfl⟩ := get_eq_some.mp hs
  exact ⟨rfl, rfl⟩

theorem calm_modify {f : State → State}
    (h : ∀ s, (f s).loops = s.loops ∧ (f s).functions = s.functions) :
    Calm (modify f : CompileM Unit) := by
  intro s a s' hs
  obtain rfl := modify_eq_some.mp hs
  exact h s

theorem calm_current : Calm current := calm_get.bind fun _ => .pure _

theorem calm_localCount : Calm localCount := calm_current.bind fun _ => .pure _

theorem calm_localType (i : Nat) : Calm (localType i) := calm_current.bind fun _ => .pure _

theorem calm_getTypeStackTop : Calm getTypeStackTop := calm_get.bind fun _ => .pure _

theorem calm_isExplicitGlobalName (n : Name) : Calm (isExplicitGlobalName n) :=
  calm_current.bind fun _ => .pure _

theorem calm_typePush (x : TypeHint) : Calm (typePush x) :=
  calm_modify fun s => by split_ifs <;> exact ⟨rfl, rfl⟩

theorem calm_setTypeStackTop (n : Nat) : Calm (setTypeStackTop n) := calm_modify fun _ => ⟨rfl, rfl⟩

theorem calm_replaceType (n : Nat) (x : TypeHint) : Calm (replaceType n x) :=
  (calm_setTypeStackTop n).bind fun _ => calm_typePush x

theorem calm_typePop : Calm typePop := by
  intro s a s' h
  simp only [typePop, bind_eq_some, get_eq_some, ite_eq_some, set_eq_some, pure_eq_some] at h
  obtain ⟨_, _, ⟨rfl, rfl⟩, ⟨_, _, rfl⟩ | ⟨_, _, _, rfl, _, rfl⟩⟩ := h <;> exact ⟨rfl, rfl⟩

/-- Changing the current compiler in anything but its loop. -/
theorem calm_update {f : Compiler → Compiler} (h : ∀ c, (f c).loopContext = c.loopContext) :
    Calm (current >>= fun c => setCurrent (f c)) := by
  intro s a s' hs
  simp only [bind_eq_some, current_eq_some, setCurrent_eq_some] at hs
  obtain ⟨_, _, ⟨rfl, rfl⟩, rfl⟩ := hs
  exact ⟨by simp [State.loops, State.inLoop, h], rfl⟩

/-- The same where the change may be refused. -/
theorem calm_checked {p : Compiler → Prop} [DecidablePred p] {f : Compiler → Compiler}
    (h : ∀ c, (f c).loopContext = c.loopContext) :
    Calm (current >>= fun c => if p c then Compile.error else setCurrent (f c)) := by
  intro s a s' hs
  obtain ⟨c, w, hc, hs⟩ := bind_eq_some.mp hs
  simp only [ite_eq_some, error_eq_some, and_false, false_or] at hs
  exact calm_update h s a s' (bind_eq_some.mpr ⟨c, w, hc, hs.2⟩)

theorem calm_beginScope : Calm beginScope := calm_update fun _ => rfl

theorem calm_addLocal (n : Name) : Calm (addLocal n) := calm_checked fun _ => rfl

theorem calm_markInitializedCount (n : Nat) : Calm (markInitializedCount n) := calm_update fun _ => rfl

theorem calm_markInitialized : Calm markInitialized := calm_markInitializedCount 1

theorem calm_setLocalType (i : Nat) (x : TypeHint) : Calm (setLocalType i x) :=
  calm_update fun _ => rfl

theorem calm_updateLocalType (i : Nat) (x : TypeHint) : Calm (updateLocalType i x) :=
  calm_update fun _ => rfl

theorem calm_initializeLocals : Calm initializeLocals := calm_update fun _ => rfl

theorem calm_declareVariable (n : Name) : Calm (declareVariable n) :=
  calm_current.bind fun _ => .ite .error (calm_addLocal n)

theorem calm_registerExplicitGlobal (n : Name) : Calm (registerExplicitGlobal n) := by
  intro s a s' hs
  simp only [registerExplicitGlobal, bind_eq_some, current_eq_some, ite_eq_some, error_eq_some,
    pure_eq_some, setCurrent_eq_some] at hs
  obtain ⟨_, _, ⟨rfl, rfl⟩, ⟨_, _, rfl⟩ | ⟨_, ⟨_, hf⟩ | ⟨_, rfl⟩⟩⟩ := hs
  · exact ⟨rfl, rfl⟩
  · exact hf.elim
  · exact ⟨rfl, rfl⟩

theorem calm_resolveLocal (n : Name) : Calm (resolveLocal n) := by
  intro s a s' hs
  simp only [resolveLocal, bind_eq_some, current_eq_some, lift_eq_some] at hs
  obtain ⟨_, _, ⟨rfl, rfl⟩, _, rfl⟩ := hs
  exact ⟨rfl, rfl⟩

theorem addUpvalue_loopContext {c c' : Compiler} {i j : Nat} {b : Bool}
    (h : addUpvalue c i b = some (j, c')) : c'.loopContext = c.loopContext := by
  unfold addUpvalue at h
  dsimp only at h
  split at h
  · cases Option.some.inj h
    rfl
  · split at h
    · cases h
    · cases Option.some.inj h
      rfl

theorem resolveUpvalueIn_loopContext {c c' : Compiler} {n : Name} {es es' : List Compiler} {i : Nat}
    (h : resolveUpvalueIn c n es = some (some (i, c', es'))) :
    c'.loopContext = c.loopContext ∧ es'.map (·.loopContext) = es.map (·.loopContext) := by
  induction es generalizing c c' es' i with
  | nil => cases Option.some.inj h
  | cons e es ih =>
    unfold resolveUpvalueIn at h
    obtain ⟨l, hl, h⟩ := Option.bind_eq_some_iff.mp h
    cases l with
    | some l =>
      obtain ⟨⟨j, d⟩, hd, h⟩ := Option.bind_eq_some_iff.mp h
      cases Option.some.inj (Option.some.inj h)
      exact ⟨addUpvalue_loopContext hd, rfl⟩
    | none =>
      obtain ⟨u, hu, h⟩ := Option.bind_eq_some_iff.mp h
      rcases u with _ | ⟨u, e', es1⟩
      · cases Option.some.inj h
      · obtain ⟨⟨j, d⟩, hd, h⟩ := Option.bind_eq_some_iff.mp h
        cases Option.some.inj (Option.some.inj h)
        obtain ⟨he, hes⟩ := ih hu
        exact ⟨addUpvalue_loopContext hd, by simp [he, hes]⟩

theorem calm_resolveUpvalue (n : Name) : Calm (resolveUpvalue n) := by
  intro s a s' hs
  simp only [resolveUpvalue, bind_eq_some, get_eq_some, lift_eq_some] at hs
  obtain ⟨_, _, ⟨rfl, rfl⟩, u, _, ⟨hu, rfl⟩, hs⟩ := hs
  rcases u with _ | ⟨i, c, es⟩
  · obtain ⟨_, rfl⟩ := pure_eq_some.mp hs
    exact ⟨rfl, rfl⟩
  · simp only [bind_eq_some, set_eq_some, pure_eq_some] at hs
    obtain ⟨_, _, rfl, _, rfl⟩ := hs
    obtain ⟨hc, he⟩ := resolveUpvalueIn_loopContext hu
    have hmap := congrArg (List.map Option.isSome) he
    simp only [List.map_map] at hmap
    refine ⟨?_, rfl⟩
    simp only [State.loops, State.inLoop, hc]
    exact congrArg _ hmap

theorem calm_declareVariables (ns : List Name) : Calm (declareVariables ns) := by
  induction ns with
  | nil => exact .pure _
  | cons n ns ih => exact (calm_declareVariable n).bind fun _ => ih

theorem calm_addLocals (ns : List Name) : Calm (addLocals ns) := by
  induction ns with
  | nil => exact .pure _
  | cons n ns ih => exact (calm_addLocal n).bind fun _ => ih

theorem calm_declareTargets (ns : List Name) : Calm (declareTargets ns) := by
  induction ns with
  | nil => exact .pure _
  | cons n ns ih =>
    refine (calm_isExplicitGlobalName n).bind fun _ => .ite ih ?_
    refine (calm_resolveLocal n).bind fun l => ?_
    cases l with
    | some _ => exact ih
    | none => exact (calm_addLocal n).bind fun _ => ih.bind fun _ => .pure _

theorem calm_declareParams (i : Nat) (b : Bool) (ps : List Param) : Calm (declareParams i b ps) := by
  induction ps generalizing i b with
  | nil => exact .pure _
  | cons p ps ih =>
    refine .ite .error (.ite .error ?_)
    refine (calm_declareVariable _).bind fun _ => ?_
    cases p.hint with
    | some x => exact calm_localCount.bind fun _ => (calm_setLocalType _ x).bind fun _ => ih _ _
    | none => exact ih _ _

theorem calm_makeConstant (v : Value) : Calm (makeConstant v) := by
  intro s a s' hs
  simp only [makeConstant, bind_eq_some, current_eq_some, ite_eq_some, error_eq_some,
    setCurrent_eq_some, pure_eq_some] at hs
  obtain ⟨_, _, ⟨rfl, rfl⟩, ⟨_, hf⟩ | ⟨_, _, _, rfl, _, rfl⟩⟩ := hs
  · exact hf.elim
  · exact ⟨rfl, rfl⟩

theorem calm_identifierConstant (n : Name) : Calm (identifierConstant n) := calm_makeConstant _

theorem calm_globalNames (ns : List Name) : Calm (globalNames ns) := by
  induction ns with
  | nil => exact .pure _
  | cons n ns ih =>
    exact (calm_registerExplicitGlobal n).bind fun _ => (calm_identifierConstant n).bind fun _ =>
      ih.bind fun _ => .pure _

theorem calm_resolveName (n : Name) : Calm (resolveName n) := by
  refine (calm_isExplicitGlobalName n).bind fun d => (calm_resolveLocal n).bind fun l => ?_
  cases l with
  | some i => exact .pure _
  | none =>
    have hglobal : @Calm Target (do
        let k ← identifierConstant n
        pure ⟨.opGetGlobal, .opSetGlobal, k.toNat, d⟩) := (calm_identifierConstant n).bind fun _ => .pure _
    cases d with
    | true => exact hglobal
    | false =>
      refine (calm_resolveUpvalue n).bind fun u => ?_
      cases u with
      | none => exact hglobal
      | some i => exact .pure _

end Compile

end ToiLang
