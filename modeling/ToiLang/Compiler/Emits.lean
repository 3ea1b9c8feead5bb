import ToiLang.Compiler.Compile
import ToiLang.Decode

namespace ToiLang

/-- An opcode of a plain instruction with `n` operand bytes. -/
@[simp] def OpCode.isPlain (o : OpCode) (n : Nat) : Bool :=
  !o.isControl && o != .opClosure && o.operandBytes == n

/-- The function objects of a finished compilation and the constants of one finished chunk. -/
structure Final where
  constants : List Value
  functions : List ObjFunction
  firstFunction : Nat

def Final.function (t : Final) (a : Nat) : Option ObjFunction :=
  if a < t.firstFunction then none else t.functions[a - t.firstFunction]?

/-- The operands of an instruction are as many as its opcode reads. -/
def Final.Operands (t : Final) (i : Instr) : Prop :=
  if i.op = .opClosure then
    ∃ k upvalues a f, i.args = k :: upvalues ∧ t.constants[k.toNat]? = some (.function a) ∧
      t.function a = some f ∧ upvalues.length = 2 * f.upvalueCount
  else i.args.length = i.op.operandBytes

/-- What every emitter but those of control flow writes. -/
def Final.LeafOk (t : Final) (i : Instr) : Prop := i.op.isControl = false ∧ t.Operands i

/-- Control never runs off the end of the code. -/
def Code.stops : Code → Bool
  | .instr i => !i.op.fallsThrough
  | .seq _ b => b.stops
  | _ => false

/-- A property of the instructions outside the control-flow skeletons. An except clause without
`OP_END_TRY` ends in a throw. -/
@[simp] def Code.Leaves (P : Instr → Prop) : Code → Prop
  | .nil | .mark _ => True
  | .instr i | .call i _ => P i
  | .seq a b | .branch a b | .whileLoop a b => a.Leaves P ∧ b.Leaves P
  | .skipIfFalse a => a.Leaves P
  | .forIn h b e => h.Leaves P ∧ b.Leaves P ∧ e.Leaves P
  | .forRange _ _ b => b.Leaves P
  | .tryBlock x e _ _ b exc fin =>
      b.Leaves P ∧ exc.Leaves P ∧ fin.Leaves P ∧ (x = true → e = false → exc.stops = true)
  | .breakJump ps | .continueJump ps => ∀ i ∈ ps, P i

/-- The chunk of a finished function is its code laid out, and every instruction in it has the
operands its opcode reads. -/
structure Final.FunctionOk (t : Final) (f : ObjFunction) : Prop where
  code : f.code = encode (f.body.flatten none 0)
  fits : f.body.jumpsFit none 0 = true
  leaves : f.body.Leaves { t with constants := f.constants }.LeafOk

namespace Compile

/-- The state is on the way to a finished compilation. -/
structure Within (s : State) (t : Final) : Prop where
  constants : s.current.constants <+: t.constants
  functions : s.functions <+: t.functions
  firstFunction : s.firstFunction = t.firstFunction

/-- What compiling a part never takes back. -/
structure Grows (s s' : State) : Prop where
  constants : s.current.constants <+: s'.current.constants
  functions : s.functions <+: s'.functions
  firstFunction : s'.firstFunction = s.firstFunction
  enclosing : s'.enclosing.map (·.constants) = s.enclosing.map (·.constants)

theorem Grows.refl (s : State) : Grows s s := ⟨List.prefix_rfl, List.prefix_rfl, rfl, rfl⟩

theorem Grows.trans {s s' s'' : State} (h : Grows s s') (h' : Grows s' s'') : Grows s s'' :=
  ⟨h.constants.trans h'.constants, h.functions.trans h'.functions,
    h'.firstFunction.trans h.firstFunction, h'.enclosing.trans h.enclosing⟩

theorem Grows.within {s s' : State} {t : Final} (h : Grows s s') (hw : Within s' t) :
    Within s t :=
  ⟨h.constants.trans hw.constants, h.functions.trans hw.functions,
    h.firstFunction.symm.trans hw.firstFunction⟩

/-- An action that only adds to the constants and the functions; the functions it finishes
are in order, and so is its result, for every way the compilation is finished. -/
def Emits {α : Type} (t : Final) (m : CompileM α) (Q : α → Prop) : Prop :=
  ∀ s a s', m s = some (a, s') → Grows s s' ∧
    (Within s' t → (∀ f ∈ s'.functions, f ∈ s.functions ∨ t.FunctionOk f) ∧ Q a)

@[simp] theorem bind_eq_some {α β : Type} {m : CompileM α} {f : α → CompileM β} {s : State}
    {p : β × State} :
    (m >>= f) s = some p ↔ ∃ a s', m s = some (a, s') ∧ f a s' = some p := by
  constructor
  · intro h
    obtain ⟨⟨a, s'⟩, ha, hf⟩ := Option.bind_eq_some_iff.mp h
    exact ⟨a, s', ha, hf⟩
  · rintro ⟨a, s', ha, hf⟩
    exact Option.bind_eq_some_iff.mpr ⟨(a, s'), ha, hf⟩

section Inversion

variable {α : Type} {s s' : State}

@[simp] theorem pure_eq_some {a b : α} : (pure a : CompileM α) s = some (b, s') ↔ b = a ∧ s' = s := by
  constructor
  · intro h
    obtain ⟨rfl, rfl⟩ := Prod.mk.inj (Option.some.inj h)
    exact ⟨rfl, rfl⟩
  · rintro ⟨rfl, rfl⟩
    rfl

@[simp] theorem get_eq_some {a : State} : (get : CompileM State) s = some (a, s') ↔ a = s ∧ s' = s :=
  pure_eq_some

@[simp] theorem set_eq_some {n : State} {a : PUnit} :
    (set n : CompileM PUnit) s = some (a, s') ↔ s' = n := by
  constructor
  · exact fun h => (Prod.mk.inj (Option.some.inj h)).2.symm
  · rintro rfl
    rfl

@[simp] theorem modify_eq_some {f : State → State} {a : PUnit} :
    (modify f : CompileM PUnit) s = some (a, s') ↔ s' = f s := by
  constructor
  · exact fun h => (Prod.mk.inj (Option.some.inj h)).2.symm
  · rintro rfl
    rfl

@[simp] theorem current_eq_some {a : Compiler} : current s = some (a, s') ↔ a = s.current ∧ s' = s := by
  constructor
  · intro h
    obtain ⟨rfl, rfl⟩ := Prod.mk.inj (Option.some.inj h)
    exact ⟨rfl, rfl⟩
  · rintro ⟨rfl, rfl⟩
    rfl

@[simp] theorem setCurrent_eq_some {c : Compiler} {a : Unit} :
    setCurrent c s = some (a, s') ↔ s' = { s with current := c } := by
  constructor
  · exact fun h => (Prod.mk.inj (Option.some.inj h)).2.symm
  · rintro rfl
    rfl

@[simp] theorem error_eq_some {a : α} : (error : CompileM α) s = some (a, s') ↔ False := by
  constructor
  · intro h
    cases h
  · exact False.elim

@[simp] theorem ite_eq_some {p : Prop} [Decidable p] {m n : CompileM α} {r : α × State} :
    (if p then m else n) s = some r ↔ p ∧ m s = some r ∨ ¬p ∧ n s = some r := by
  split_ifs with h <;> simp [h]

@[simp] theorem lift_eq_some {o : Option α} {a : α} :
    (StateT.lift o : CompileM α) s = some (a, s') ↔ o = some a ∧ s' = s := by
  cases o with
  | none => simp [StateT.lift]
  | some b =>
    constructor
    · intro h
      obtain ⟨rfl, rfl⟩ := Prod.mk.inj (Option.some.inj h)
      exact ⟨rfl, rfl⟩
    · rintro ⟨h, rfl⟩
      cases Option.some.inj h
      rfl

end Inversion

theorem Emits.bind {α β : Type} {t : Final} {m : CompileM α} {f : α → CompileM β}
    {Q : α → Prop} {R : β → Prop} (hm : Emits t m Q)
    (hf : ∀ a, Emits t (f a) fun b => Q a → R b) : Emits t (m >>= f) R := by
  intro s b s'' h
  obtain ⟨a, s', ha, hb⟩ := bind_eq_some.mp h
  obtain ⟨hg, hq⟩ := hm s a s' ha
  obtain ⟨hg', hr⟩ := hf a s' b s'' hb
  refine ⟨hg.trans hg', fun hw => ?_⟩
  obtain ⟨hfs, hqa⟩ := hq (hg'.within hw)
  obtain ⟨hfs', hrb⟩ := hr hw
  refine ⟨fun f hf => ?_, hrb hqa⟩
  rcases hfs' f hf with hf | hf
  · exact hfs f hf
  · exact .inr hf

theorem Emits.pure {α : Type} {t : Final} {a : α} {Q : α → Prop} (h : Q a) :
    Emits t (pure a : CompileM α) Q := by
  intro s b s' hs
  obtain ⟨rfl, rfl⟩ := pure_eq_some.mp hs
  exact ⟨.refl _, fun _ => ⟨fun f hf => .inl hf, h⟩⟩

theorem Emits.mono {α : Type} {t : Final} {m : CompileM α} {Q R : α → Prop}
    (h : Emits t m Q) (hq : ∀ a, Q a → R a) : Emits t m R := by
  intro s a s' hs
  obtain ⟨hg, hq'⟩ := h s a s' hs
  exact ⟨hg, fun hw => ⟨(hq' hw).1, hq a (hq' hw).2⟩⟩

theorem Emits.error {α : Type} {t : Final} {Q : α → Prop} : Emits t (error : CompileM α) Q := by
  intro s a s' h
  cases h

theorem Emits.ite {α : Type} {t : Final} {p : Prop} [Decidable p] {m n : CompileM α}
    {Q : α → Prop} (hm : Emits t m Q) (hn : Emits t n Q) : Emits t (if p then m else n) Q := by
  split
  · exact hm
  · exact hn

/-- The step of a bind whose first part has nothing to say about its result. -/
theorem Emits.then {α β : Type} {t : Final} {m : CompileM α} {f : α → CompileM β}
    {R : β → Prop} (hm : Emits t m fun _ => True) (hf : ∀ a, Emits t (f a) R) :
    Emits t (m >>= f) R :=
  hm.bind fun a => (hf a).mono fun _ hr _ => hr

/-- An action that leaves the constants and the functions alone. -/
def Quiet {α : Type} (m : CompileM α) : Prop :=
  ∀ s a s', m s = some (a, s') → s'.current.constants = s.current.constants ∧
    s'.functions = s.functions ∧ s'.firstFunction = s.firstFunction ∧
    s'.enclosing.map (·.constants) = s.enclosing.map (·.constants)

theorem Quiet.emits {α : Type} {t : Final} {m : CompileM α} (h : Quiet m) :
    Emits t m fun _ => True := by
  intro s a s' hs
  obtain ⟨hc, hf, h1, he⟩ := h s a s' hs
  exact ⟨⟨hc ▸ List.prefix_rfl, hf ▸ List.prefix_rfl, h1, he⟩,
    fun _ => ⟨fun f hm => .inl (hf ▸ hm), trivial⟩⟩

theorem Quiet.bind {α β : Type} {m : CompileM α} {f : α → CompileM β} (hm : Quiet m)
    (hf : ∀ a, Quiet (f a)) : Quiet (m >>= f) := by
  intro s b s'' h
  obtain ⟨a, s', ha, hb⟩ := bind_eq_some.mp h
  obtain ⟨hc, hf1, h1, he⟩ := hm s a s' ha
  obtain ⟨hc', hf', h1', he'⟩ := hf a s' b s'' hb
  exact ⟨hc'.trans hc, hf'.trans hf1, h1'.trans h1, he'.trans he⟩

theorem Quiet.pure {α : Type} (a : α) : Quiet (pure a : CompileM α) := by
  intro s b s' hs
  obtain ⟨rfl, rfl⟩ := pure_eq_some.mp hs
  exact ⟨rfl, rfl, rfl, rfl⟩

end Compile

end ToiLang
