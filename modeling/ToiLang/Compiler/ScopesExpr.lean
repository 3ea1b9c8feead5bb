import ToiLang.Compiler.Scopes

namespace ToiLang.Compile

section Emitters

variable {R : State → State → Prop} [ScopeStep R] {a b c e m : CompileM Code}

@[grind ←] theorem steps_expression (he : Steps R e) : Steps R (expression e) :=
  steps_bind (steps_modify fun _ => State.sameScope_of_eq rfl rfl) fun _ => he

@[grind ←] theorem steps_number (x : Double) (i : Bool) : Steps R (number x i) := by grind [number]

@[grind ←] theorem steps_string (s : Bytes) : Steps R (string s) := by grind [string]

@[grind ←] theorem steps_literal (o : OpCode) (x : TypeHint) : Steps R (literal o x) := by grind [literal]

theorem steps_unary (o : UnaryOp) (he : Steps R e) : Steps R (unary o e) := by
  cases o <;> grind [unary]

theorem steps_notIn (ha : Steps R a) (hb : Steps R b) : Steps R (notIn a b) := by grind [notIn]

theorem steps_binary (o : BinaryOp) (ha : Steps R a) (hb : Steps R b) : Steps R (binary o a b) := by grind [binary]

theorem steps_andOp (ha : Steps R a) (hb : Steps R b) : Steps R (andOp a b) := by grind [andOp]

theorem steps_orOp (ha : Steps R a) (hb : Steps R b) : Steps R (orOp a b) := by grind [orOp]

theorem steps_ternary (hc : Steps R c) (ha : Steps R a) (hb : Steps R b) :
    Steps R (ternary c a b) :=
  steps_bind hc fun _ => steps_bind steps_typePop fun _ => steps_bind ha fun _ => by grind

theorem steps_range (ha : Steps R a) (hb : Steps R b) : Steps R (range a b) := by
  have hmark : Steps R (modify fun s : State => { s with lastExprWasRange := true }) :=
    steps_modify fun _ => State.sameScope_of_eq rfl rfl
  grind [range]

@[grind ←] theorem steps_resolveName (n : Name) : Steps R (resolveName n) := by
  refine steps_bind (steps_isExplicitGlobalName n) fun g => steps_bind (steps_resolveLocal n) fun l => ?_
  cases l with
  | some i => exact steps_pure _
  | none =>
    dsimp only
    split
    · exact steps_bind (steps_pure none) fun u => by cases u <;> simp
    · exact steps_bind (steps_resolveUpvalue n) fun u => by cases u <;> simp

@[grind ←] theorem steps_namedVariable (n : Name) : Steps R (namedVariable n) := by grind [namedVariable]

@[grind ←] theorem steps_emitGetNamed (n : Name) : Steps R (emitGetNamed n) := by
  refine steps_bind (steps_resolveLocal n) fun l => ?_
  cases l with
  | some i => simp
  | none =>
    refine steps_bind (steps_resolveUpvalue n) fun u => ?_
    cases u <;> simp

@[grind ←] theorem steps_emitSetNamed (n : Name) : Steps R (emitSetNamed n) := by
  refine steps_bind (steps_resolveLocal n) fun l => ?_
  cases l with
  | some i => simp
  | none =>
    refine steps_bind (steps_resolveUpvalue n) fun u => ?_
    cases u <;> simp

theorem steps_dot (o : OpCode) (he : Steps R e) (p : Name) : Steps R (dot o e p) := by grind [dot]

theorem steps_dotAssign (he : Steps R e) (p : Name) (hm : Steps R m) : Steps R (dotAssign e p m) := by grind [dotAssign]

theorem steps_subscript (he : Steps R e) (ha : Steps R a) : Steps R (subscript e a) := by grind [subscript]

theorem steps_subscriptAssign (he : Steps R e) (ha : Steps R a) (hm : Steps R m) :
    Steps R (subscriptAssign e a m) := by grind [subscriptAssign]

/-- An optional part, when it is there. -/
def StepsOption (R : State → State → Prop) (o : Option (CompileM Code)) : Prop :=
  ∀ e, o = some e → Steps R e

def StepsAll (R : State → State → Prop) (es : List (CompileM Code)) : Prop :=
  ∀ e ∈ es, Steps R e

theorem steps_slice {x y z : Option (CompileM Code)} (he : Steps R e) (hx : StepsOption R x)
    (hy : StepsOption R y) (hz : StepsOption R z) : Steps R (slice e x y z) := by
  have hstart : Steps R (sliceStart x) := by
    cases x with
    | none => simp [sliceStart]
    | some x => exact hx x rfl
  have hstop : Steps R (sliceStop y) := by
    cases y with
    | none => simp [sliceStop]
    | some y => exact steps_expression (hy y rfl)
  have hstep : Steps R (sliceStep z) := by
    cases z with
    | none => simp [sliceStep]
    | some z => exact steps_expression (hz z rfl)
  grind [slice]

@[grind ←] theorem steps_arrayElements {es : List (CompileM Code)} (h : StepsAll R es) (i : Nat) :
    Steps R (arrayElements i es) := by
  induction es generalizing i with
  | nil => simp [arrayElements]
  | cons e es ih =>
    obtain ⟨he, hes⟩ := List.forall_mem_cons.mp h
    have hrest := ih hes (i + 1)
    clear h hes ih
    grind [arrayElements]

theorem steps_parseArrayLiteral {es : List (CompileM Code)} (h : StepsAll R es) :
    Steps R (parseArrayLiteralFromCommaList es) := by grind [parseArrayLiteralFromCommaList]

@[grind ←] theorem steps_callArguments {es : List (CompileM Code)} (h : StepsAll R es) (k : Nat) :
    Steps R (callArguments k es) := by
  induction es generalizing k with
  | nil => simp [callArguments]
  | cons e es ih =>
    obtain ⟨he, hes⟩ := List.forall_mem_cons.mp h
    have hrest := ih hes (k + 1)
    clear h hes ih
    grind [callArguments]

def StepsNamed (R : State → State → Prop) (es : List (Name × CompileM Code)) : Prop :=
  ∀ e ∈ es, Steps R e.2

@[grind ←] theorem steps_namedArguments {es : List (Name × CompileM Code)} (h : StepsNamed R es) :
    Steps R (namedArguments es) := by
  induction es with
  | nil => simp [namedArguments]
  | cons e es ih =>
    obtain ⟨he, hes⟩ := List.forall_mem_cons.mp h
    have hrest := ih hes
    clear h hes ih
    grind [namedArguments]

@[grind ←] theorem steps_callTail (k : Nat) {named : List (Name × CompileM Code)}
    {spread : Option (CompileM Code)} (hn : StepsNamed R named) (hs : StepsOption R spread) :
    Steps R (callTail k named spread) := by
  cases named with
  | nil =>
    cases spread with
    | none => simp [callTail]
    | some e =>
      have he := hs e rfl
      grind [callTail]
  | cons n named =>
    cases spread with
    | none => simp [callTail, steps_namedArguments hn]
    | some e => exact steps_error

theorem steps_parseCall {args : List (CompileM Code)} {named : List (Name × CompileM Code)}
    {spread : Option (CompileM Code)} (he : Steps R e) (ha : StepsAll R args)
    (hn : StepsNamed R named) (hs : StepsOption R spread) :
    Steps R (parseCall e args named spread) := by
  refine steps_bind he fun _ => steps_bind steps_getTypeStackTop fun _ =>
    steps_bind (steps_callArguments ha 0) fun p => ?_
  obtain ⟨ca, k⟩ := p
  exact steps_bind (steps_callTail k hn hs) fun _ => by grind

theorem steps_callComprehension (he : Steps R e) (hm : Steps R m) :
    Steps R (callComprehension e m) :=
  steps_bind he fun _ => steps_bind steps_getTypeStackTop fun _ => steps_bind hm fun _ => by grind

@[grind ←] theorem steps_shorthandFields (ns : List Name) : Steps R (shorthandFields ns) := by
  induction ns with
  | nil => simp [shorthandFields]
  | cons n ns ih => grind [shorthandFields]

/-- The parts of an entry. -/
def EntrySteps (R : State → State → Prop) : Entry → Prop
  | .keyed k v => Steps R k ∧ Steps R v
  | .field _ v | .item v => Steps R v
  | .nameItem _ | .shorthand _ => True

@[grind ←] theorem steps_tableEntries {es : List Entry} (h : ∀ e ∈ es, EntrySteps R e) (i : Nat) :
    Steps R (tableEntries i es) := by
  induction es generalizing i with
  | nil => simp [tableEntries]
  | cons e es ih =>
    obtain ⟨he, hes⟩ := List.forall_mem_cons.mp h
    have hrest := ih hes
    clear h hes ih
    cases e with
    | keyed k v =>
      exact steps_bind (steps_expression he.1) fun _ => steps_bind (steps_expression he.2) fun _ =>
        steps_bind (hrest i) fun _ => steps_pure _
    | field n v | item v =>
      exact steps_bind (steps_emitConstant _) fun _ => steps_bind (steps_expression he) fun _ =>
        steps_bind (hrest _) fun _ => steps_pure _
    | nameItem n => grind [tableEntries]
    | shorthand ns => grind [tableEntries]

theorem steps_table {es : List Entry} (h : ∀ e ∈ es, EntrySteps R e) : Steps R (table es) := by grind [table]

theorem steps_tableInfix {es : List Entry} (hm : Steps R m) (h : ∀ e ∈ es, EntrySteps R e) :
    Steps R (tableInfix m es) := by grind [tableInfix]

theorem steps_importExpression (path : Bytes) : Steps R (importExpression path) := by grind [importExpression]

/-- The source text of a part of an f-string. -/
def FPartSteps (R : State → State → Prop) : FPart → Prop
  | .source e => Steps R e
  | _ => True

theorem steps_fstring {ps : List FPart} (h : ∀ p ∈ ps, FPartSteps R p) : Steps R (fstring ps) := by
  have hparts : Steps R (fstringParts ps) := by
    induction ps with
    | nil => simp [fstringParts]
    | cons p ps ih =>
      obtain ⟨hp, hps⟩ := List.forall_mem_cons.mp h
      have hpart : Steps R (fstringPart p) := by
        cases p with
        | source e => exact steps_expression hp
        | _ => grind [fstringPart]
      grind [fstringParts]
  grind [fstring]

end Emitters

/-- What a name resolves to, read off the instructions of its target. -/
inductive Resolves (s : State) (n : Name) (t : Target) : Prop
  | loc (hget : t.getOp = .opGetLocal) (hset : t.setOp = .opSetLocal)
      (hl : findLocal s.current.locals n = some (t.arg, true))
  | upvalue (hget : t.getOp = .opGetUpvalue) (hset : t.setOp = .opSetUpvalue)
      (hg : n ∉ s.current.explicitGlobals) (hl : findLocal s.current.locals n = none)
      (hu : ∃ c es, resolveUpvalueIn s.current n s.enclosing = some (some (t.arg, c, es)))
  | global (hget : t.getOp = .opGetGlobal) (hset : t.setOp = .opSetGlobal)
      (hl : findLocal s.current.locals n = none)
      (hu : n ∉ s.current.explicitGlobals → resolveUpvalueIn s.current n s.enclosing = some none)

theorem resolveLocalIn_eq_some {c : Compiler} {n : Name} {l : Option Nat}
    (h : resolveLocalIn c n = some l) : findLocal c.locals n = l.map fun i => (i, true) := by
  unfold resolveLocalIn at h
  split at h
  next hf =>
    cases Option.some.inj h
    exact hf
  next i hf =>
    cases Option.some.inj h
    exact hf
  next => cases h

theorem isExplicitGlobalName_eq_some {n : Name} {s s' : State} {b : Bool} :
    isExplicitGlobalName n s = some (b, s') ↔ b = s.current.explicitGlobals.contains n ∧ s' = s := by
  simp only [isExplicitGlobalName, bind_eq_some, current_eq_some, pure_eq_some]
  constructor
  · rintro ⟨_, _, ⟨rfl, rfl⟩, rfl, rfl⟩
    exact ⟨rfl, rfl⟩
  · rintro ⟨rfl, rfl⟩
    exact ⟨_, _, ⟨rfl, rfl⟩, rfl, rfl⟩

theorem resolveLocal_eq_some {n : Name} {s s' : State} {l : Option Nat} :
    resolveLocal n s = some (l, s') ↔ resolveLocalIn s.current n = some l ∧ s' = s := by
  simp only [resolveLocal, bind_eq_some, current_eq_some, lift_eq_some]
  constructor
  · rintro ⟨_, _, ⟨rfl, rfl⟩, hl, rfl⟩
    exact ⟨hl, rfl⟩
  · rintro ⟨hl, rfl⟩
    exact ⟨_, _, ⟨rfl, rfl⟩, hl, rfl⟩

/-- The upvalue of a name, whatever becomes of the scopes it is captured from. -/
theorem resolveUpvalue_eq_some {n : Name} {s s' : State} {u : Option Nat}
    (h : resolveUpvalue n s = some (u, s')) :
    ∃ r, resolveUpvalueIn s.current n s.enclosing = some r ∧ u = r.map (·.1) := by
  simp only [resolveUpvalue, bind_eq_some, get_eq_some, lift_eq_some] at h
  obtain ⟨_, _, ⟨rfl, rfl⟩, r, _, ⟨hr, rfl⟩, h⟩ := h
  refine ⟨r, hr, ?_⟩
  cases r with
  | none => exact (pure_eq_some.mp h).1
  | some r =>
    simp only [bind_eq_some, set_eq_some, pure_eq_some] at h
    obtain ⟨_, _, -, rfl, -⟩ := h
    rfl

theorem resolveName_spec {n : Name} {s s' : State} {t : Target}
    (h : resolveName n s = some (t, s')) :
    t.declaredGlobal = s.current.explicitGlobals.contains n ∧ Resolves s n t := by
  obtain ⟨g, s₁, hg, h⟩ := bind_eq_some.mp h
  obtain ⟨l, s₂, hl, h⟩ := bind_eq_some.mp h
  obtain ⟨rfl, rfl⟩ := isExplicitGlobalName_eq_some.mp hg
  obtain ⟨hl, rfl⟩ := resolveLocal_eq_some.mp hl
  have hf := resolveLocalIn_eq_some hl
  cases l with
  | some i =>
    obtain ⟨rfl, -⟩ := pure_eq_some.mp h
    exact ⟨rfl, .loc rfl rfl hf⟩
  | none =>
    dsimp only at h
    split at h
    next hd =>
      obtain ⟨u, s₃, hu, h⟩ := bind_eq_some.mp h
      obtain ⟨rfl, rfl⟩ := pure_eq_some.mp hu
      obtain ⟨k, _, -, h⟩ := bind_eq_some.mp h
      obtain ⟨rfl, -⟩ := pure_eq_some.mp h
      exact ⟨rfl, .global rfl rfl hf fun hn => absurd (by simpa using hd) hn⟩
    next hd =>
      have hn : n ∉ s₂.current.explicitGlobals := by simpa using hd
      obtain ⟨u, s₃, hu, h⟩ := bind_eq_some.mp h
      obtain ⟨r, hr, rfl⟩ := resolveUpvalue_eq_some hu
      cases r with
      | none =>
        obtain ⟨k, _, -, h⟩ := bind_eq_some.mp h
        obtain ⟨rfl, -⟩ := pure_eq_some.mp h
        exact ⟨rfl, .global rfl rfl hf fun _ => hr⟩
      | some r =>
        obtain ⟨rfl, -⟩ := pure_eq_some.mp h
        exact ⟨rfl, .upvalue rfl rfl hn hf ⟨r.2.1, r.2.2, hr⟩⟩

/-- A local that is added and initialised at once. -/
theorem declareLocal_spec {n : Name} {s s₁ s₂ : State} {u v : Unit}
    (h : addLocal n s = some (u, s₁)) (h' : markInitialized s₁ = some (v, s₂)) :
    s₂.current.locals.map Local.key = s.current.locals.map Local.key ++ [(n, true)] ∧
      s₂.current.explicitGlobals = s.current.explicitGlobals ∧ s₂.enclosing = s.enclosing ∧
      s₂.current.localCount = s.current.localCount + 1 := by
  simp only [addLocal, bind_eq_some, current_eq_some, ite_eq_some, error_eq_some, setCurrent_eq_some]
    at h
  obtain ⟨_, _, ⟨rfl, rfl⟩, ⟨-, hf⟩ | ⟨-, rfl⟩⟩ := h
  · cases hf
  · simp only [markInitialized, markInitializedCount, bind_eq_some, current_eq_some,
      setCurrent_eq_some] at h'
    obtain ⟨_, _, ⟨rfl, rfl⟩, rfl⟩ := h'
    simp [Local.key, Compiler.localCount]

/-- A name that neither a local nor a declared global of the function has. -/
def Unknown (s : State) (n : Name) : Prop :=
  n ∉ s.current.explicitGlobals ∧ findLocal s.current.locals n = none

theorem widens_declareLocal {n : Name} {s s₁ s₂ s₃ : State} {u v : Unit} (hw : s.Widens s₁)
    (hn : Unknown s n) (h : addLocal n s₁ = some (u, s₂)) (h' : markInitialized s₂ = some (v, s₃)) :
    s.Widens s₃ := by
  obtain ⟨hkeys, hglobals, henclosing, -⟩ := declareLocal_spec h h'
  refine ⟨hw.current.declare hn.1 hn.2 hkeys hglobals, ?_⟩
  unfold State.Nests
  rw [henclosing]
  exact hw.nests

theorem widens_storeNewLocal {n : Name} {x : TypeHint} {s s₁ s₂ : State} {c : Code}
    (hw : s.Widens s₁) (hn : Unknown s n) (h : storeNewLocal n x s₁ = some (c, s₂)) :
    s.Widens s₂ := by
  obtain ⟨i, s₃, hi, h⟩ := bind_eq_some.mp h
  obtain ⟨_, s₄, hadd, h⟩ := bind_eq_some.mp h
  obtain ⟨_, s₅, hmark, h⟩ := bind_eq_some.mp h
  have hw₃ := hw.trans (steps_localCount s₁ i s₃ hi)
  have hrest : Steps State.Widens (do setLocalType i x; pure (op1 .opSetLocal i)) := by grind
  exact (widens_declareLocal hw₃ hn hadd hmark).trans (hrest _ _ _ h)

theorem widens_emitAssignmentStore {n : Name} {x : TypeHint} {t : Target} {s s₁ s₂ : State}
    {c : Code} (hw : s.Widens s₁)
    (hn : t.getOp ≠ .opGetLocal → t.getOp ≠ .opGetUpvalue → Unknown s n)
    (h : emitAssignmentStore n t x s₁ = some (c, s₂)) : s.Widens s₂ := by
  unfold emitAssignmentStore at h
  split_ifs at h with hl hu
  · have hstep : Steps State.Widens (do updateLocalType t.arg x; pure (op1 t.setOp t.arg)) := by grind
    exact hw.trans (hstep _ _ _ h)
  · exact hw.trans (steps_pure _ _ _ _ h)
  · exact widens_storeNewLocal hw (hn hl hu) h

/-- The target of a name that the function does not know is a global. -/
theorem Resolves.unknown {s : State} {n : Name} {t : Target} (h : Resolves s n t)
    (hg : t.declaredGlobal = false) (hd : t.declaredGlobal = s.current.explicitGlobals.contains n)
    (hl : t.getOp ≠ .opGetLocal) (hu : t.getOp ≠ .opGetUpvalue) : Unknown s n := by
  have hn : n ∉ s.current.explicitGlobals := by simpa [hg] using hd.symm
  cases h with
  | loc hget => exact absurd hget hl
  | upvalue hget => exact absurd hget hu
  | global _ _ hf => exact ⟨hn, hf⟩

theorem Resolves.get_of_set {s : State} {n : Name} {t : Target} (h : Resolves s n t) :
    (t.setOp = .opSetLocal ↔ t.getOp = .opGetLocal) ∧
      (t.setOp = .opSetUpvalue ↔ t.getOp = .opGetUpvalue) := by
  cases h with
  | loc hget hset | upvalue hget hset | global hget hset => simp [hget, hset]

/-- What the stores ask of a target: a name that is stored to as a new local is unknown. -/
def StoresNew (s : State) (n : Name) (t : Target) : Prop :=
  t.declaredGlobal = false → t.setOp ≠ .opSetLocal → t.setOp ≠ .opSetUpvalue → Unknown s n

theorem Resolves.storesNew {s : State} {n : Name} {t : Target} (h : Resolves s n t)
    (hd : t.declaredGlobal = s.current.explicitGlobals.contains n) : StoresNew s n t := by
  intro hg hl hu
  obtain ⟨hloc, hup⟩ := h.get_of_set
  exact h.unknown hg hd (fun hc => hl (hloc.mpr hc)) fun hc => hu (hup.mpr hc)

theorem steps_constantStore {R : State → State → Prop} [ScopeStep R] (n : Name) (o : OpCode) :
    Steps R (do let k ← identifierConstant n; pure (op o [k])) := by
  grind

theorem widens_assignStore {n : Name} {tok : AssignTok} {t : Target} {p : Bool} {x : TypeHint}
    {s s₁ s₂ : State} {c : Code} (hw : s.Widens s₁) (hn : StoresNew s n t)
    (h : assignStore n tok t p x s₁ = some (c, s₂)) : s.Widens s₂ := by
  obtain ⟨k, s₃, hk, h⟩ := bind_eq_some.mp h
  have hw₃ := hw.trans (steps_current s₁ k s₃ hk)
  split_ifs at h with hg hl hu hnew hwal
  · exact hw₃.trans (steps_constantStore n _ _ _ _ h)
  · have hstep : Steps State.Widens (do updateLocalType t.arg x; pure (op1 .opSetLocal t.arg)) := by
      grind
    exact hw₃.trans (hstep _ _ _ h)
  · exact hw₃.trans (steps_pure _ _ _ _ h)
  · exact widens_storeNewLocal hw₃ (hn (by simpa using hg) hl hu) h
  · exact hw₃.trans (steps_constantStore n _ _ _ _ h)
  · exact widens_emitAssignmentStore hw₃ (fun _ _ => hn (by simpa using hg) hl hu) h

theorem widens_compoundStore {n : Name} {t : Target} {x : TypeHint} {s s₁ s₂ : State} {c : Code}
    (hw : s.Widens s₁) (hn : StoresNew s n t) (h : compoundStore n t x s₁ = some (c, s₂)) :
    s.Widens s₂ := by
  obtain ⟨k, s₃, hk, h⟩ := bind_eq_some.mp h
  have hw₃ := hw.trans (steps_current s₁ k s₃ hk)
  split_ifs at h with hg hl hu hnew
  · exact hw₃.trans (steps_constantStore n _ _ _ _ h)
  · have hstep : Steps State.Widens (do updateLocalType t.arg x; pure (op1 .opSetLocal t.arg)) := by
      grind
    exact hw₃.trans (hstep _ _ _ h)
  · exact hw₃.trans (steps_pure _ _ _ _ h)
  · exact widens_emitAssignmentStore hw₃ (fun _ _ => hn (by simpa using hg) hl hu) h
  · exact widens_storeNewLocal hw₃ (hn (by simpa using hg) hl hu) h

/-- Reserving a local in front of the right-hand side leaves nothing unknown to store to. -/
theorem widens_predeclareLocal {n : Name} {tok : AssignTok} {t t' : Target} {pre : Code} {p : Bool}
    {s s₁ s₂ : State} (hw : s.Widens s₁) (hn : StoresNew s n t)
    (h : predeclareLocal n tok t s₁ = some ((pre, t', p), s₂)) :
    s.Widens s₂ ∧ StoresNew s n t' := by
  obtain ⟨k, s₃, hk, h⟩ := bind_eq_some.mp h
  have hw₃ := hw.trans (steps_current s₁ k s₃ hk)
  split_ifs at h with hc
  · obtain ⟨i, s₄, hi, h⟩ := bind_eq_some.mp h
    obtain ⟨_, s₅, hadd, h⟩ := bind_eq_some.mp h
    obtain ⟨_, s₆, hmark, h⟩ := bind_eq_some.mp h
    obtain ⟨heq, rfl⟩ := pure_eq_some.mp h
    have ht : t'.setOp = .opSetLocal := by
      simp only [Prod.mk.injEq] at heq
      rw [heq.2.1]
    have hunknown := hn (by simpa using hc.2.1) (by simp [hc.2.2.1]) (by simp [hc.2.2.1])
    have hw₄ := hw₃.trans (steps_localCount s₃ i s₄ hi)
    exact ⟨widens_declareLocal hw₄ hunknown hadd hmark, fun _ hl => absurd ht hl⟩
  · obtain ⟨heq, rfl⟩ := pure_eq_some.mp h
    simp only [Prod.mk.injEq] at heq
    exact ⟨hw₃, heq.2.1 ▸ hn⟩

theorem widens_assign (n : Name) (tok : AssignTok) {r : CompileM Code} (hr : Steps State.Widens r) :
    Steps State.Widens (assign n tok r) := by
  intro s c s' h
  obtain ⟨t, s₁, ht, h⟩ := bind_eq_some.mp h
  obtain ⟨⟨pre, t', p⟩, s₂, hp, h⟩ := bind_eq_some.mp h
  obtain ⟨cr, s₃, hcr, h⟩ := bind_eq_some.mp h
  obtain ⟨x, s₄, hx, h⟩ := bind_eq_some.mp h
  obtain ⟨cs, s₅, hs, h⟩ := bind_eq_some.mp h
  obtain ⟨hd, hres⟩ := resolveName_spec ht
  obtain ⟨hw₂, hnew⟩ := widens_predeclareLocal (steps_resolveName n s t s₁ ht) (hres.storesNew hd) hp
  have hw₄ := (hw₂.trans (hr _ _ _ hcr)).trans (steps_typePop _ _ _ hx)
  have hw₅ := widens_assignStore hw₄ hnew hs
  have hrest : Steps State.Widens (do typePush x; pure (seqs [pre, cr, cs])) := by grind
  exact hw₅.trans (hrest _ _ _ h)

theorem steps_compoundLoad {R : State → State → Prop} [ScopeStep R] (n : Name) (t : Target) :
    Steps R (compoundLoad n t) := by
  grind [compoundLoad]

theorem widens_compound (n : Name) (o : BinaryOp) {e : CompileM Code} (he : Steps State.Widens e) :
    Steps State.Widens (compound n o e) := by
  intro s c s' h
  obtain ⟨t, s₁, ht, h⟩ := bind_eq_some.mp h
  obtain ⟨⟨load, y⟩, s₂, hl, h⟩ := bind_eq_some.mp h
  obtain ⟨_, s₃, hp, h⟩ := bind_eq_some.mp h
  obtain ⟨cr, s₄, hcr, h⟩ := bind_eq_some.mp h
  obtain ⟨x, s₅, hx, h⟩ := bind_eq_some.mp h
  obtain ⟨z, s₆, hz, h⟩ := bind_eq_some.mp h
  obtain ⟨cs, s₇, hs, h⟩ := bind_eq_some.mp h
  obtain ⟨hd, hres⟩ := resolveName_spec ht
  have hw₃ := ((steps_resolveName n s t s₁ ht : s.Widens s₁).trans
    (steps_compoundLoad n t _ _ _ hl)).trans (steps_typePush y _ _ _ hp)
  have hw₆ := ((hw₃.trans (steps_expression he _ _ _ hcr)).trans (steps_typePop _ _ _ hx)).trans
    (steps_typePop _ _ _ hz)
  have hw₇ := widens_compoundStore hw₆ (hres.storesNew hd) hs
  obtain ⟨_, s₈, hpush, h⟩ := bind_eq_some.mp h
  exact (hw₇.trans (steps_typePush _ _ _ _ hpush)).trans (steps_pure _ _ _ _ h)

end ToiLang.Compile
