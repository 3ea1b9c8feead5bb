import ToiLang.Compiler.Loops

namespace ToiLang.Compile

variable {k j : Bool}

theorem keeps_emitConstant (v : Value) : KeepsCode k j (emitConstant v) :=
  (calm_makeConstant v).then fun _ => .pure trivial

theorem calm_markExpression : Calm (modify fun s : State => { s with lastExprWasRange := false }) :=
  calm_modify fun _ => ⟨rfl, rfl⟩

theorem keeps_expression {e : CompileM Code} (he : KeepsCode k j e) :
    KeepsCode k j (expression e) :=
  calm_markExpression.then fun _ => he

theorem keeps_number (x : Double) (b : Bool) : KeepsCode k j (number x b) :=
  Keeps.bind (keeps_emitConstant (j := j) _) fun _ hc => (calm_typePush _).then fun _ => .pure hc

theorem keeps_string (s : Bytes) : KeepsCode k j (string s) :=
  Keeps.bind (keeps_emitConstant (j := j) _) fun _ hc => (calm_typePush _).then fun _ => .pure hc

theorem keeps_literal (o : OpCode) (x : TypeHint) : KeepsCode k j (literal o x) :=
  (calm_typePush x).then fun _ => .pure trivial

theorem keeps_unary (o : UnaryOp) {e : CompileM Code} (he : KeepsCode k j e) :
    KeepsCode k j (unary o e) := by
  refine Keeps.bind he fun c hc => calm_typePop.then fun rhs => ?_
  cases o <;> exact (calm_typePush _).then fun _ => .pure ⟨hc, trivial⟩

theorem keeps_notIn {a b : CompileM Code} (ha : KeepsCode k j a) (hb : KeepsCode k j b) :
    KeepsCode k j (notIn a b) := by
  refine Keeps.bind ha fun ca ha => Keeps.bind hb fun cb hb => ?_
  refine calm_typePop.then fun _ => calm_typePop.then fun _ => (calm_typePush _).then fun _ => .pure ?_
  simp [ha, hb]

theorem keeps_binary (o : BinaryOp) {a b : CompileM Code} (ha : KeepsCode k j a)
    (hb : KeepsCode k j b) : KeepsCode k j (binary o a b) := by
  refine Keeps.bind ha fun ca ha => Keeps.bind hb fun cb hb => ?_
  refine calm_typePop.then fun r => calm_typePop.then fun l => (calm_typePush _).then fun _ => .pure ?_
  simp [ha, hb]

theorem keeps_andOp {a b : CompileM Code} (ha : KeepsCode k j a) (hb : KeepsCode k j b) :
    KeepsCode k j (andOp a b) := by
  refine Keeps.bind ha fun ca ha => calm_typePop.then fun _ => Keeps.bind hb fun cb hb => ?_
  exact calm_typePop.then fun _ => (calm_typePush _).then fun _ => .pure ⟨ha, trivial, hb⟩

theorem keeps_orOp {a b : CompileM Code} (ha : KeepsCode k j a) (hb : KeepsCode k j b) :
    KeepsCode k j (orOp a b) := by
  refine Keeps.bind ha fun ca ha => calm_typePop.then fun _ => Keeps.bind hb fun cb hb => ?_
  exact calm_typePop.then fun _ => (calm_typePush _).then fun _ => .pure ⟨ha, trivial, trivial, hb⟩

theorem keeps_ternary {c a b : CompileM Code} (hc : KeepsCode k j c) (ha : KeepsCode k j a)
    (hb : KeepsCode k j b) : KeepsCode k j (ternary c a b) := by
  refine Keeps.bind hc fun cc hc => calm_typePop.then fun _ => Keeps.bind ha fun ca ha =>
    Keeps.bind hb fun cb hb => calm_typePop.then fun _ => calm_typePop.then fun _ => ?_
  exact (calm_typePush _).then fun _ => .pure ⟨hc, ⟨trivial, ha⟩, trivial, hb⟩

theorem keeps_range {a b : CompileM Code} (ha : KeepsCode k j a) (hb : KeepsCode k j b) :
    KeepsCode k j (range a b) := by
  refine Keeps.bind ha fun ca ha => Keeps.bind hb fun cb hb => calm_get.then fun s => .ite ?_ ?_
  · exact Calm.then (calm_modify fun _ => ⟨rfl, rfl⟩) fun _ => .pure ⟨ha, hb⟩
  · refine calm_typePop.then fun _ => calm_typePop.then fun _ => (calm_typePush _).then fun _ => .pure ?_
    simp [ha, hb]

theorem keeps_storeNewLocal (n : Name) (x : TypeHint) : KeepsCode k j (storeNewLocal n x) :=
  calm_localCount.then fun _ => (calm_addLocal n).then fun _ => calm_markInitialized.then fun _ =>
    (calm_setLocalType _ x).then fun _ => .pure trivial

theorem keeps_emitAssignmentStore (n : Name) (g : Target) (x : TypeHint) :
    KeepsCode k j (emitAssignmentStore n g x) :=
  .ite ((calm_updateLocalType _ x).then fun _ => .pure trivial)
    (.ite (.pure trivial) (keeps_storeNewLocal n x))

theorem keeps_namedVariable (n : Name) : KeepsCode k j (namedVariable n) := by
  refine (calm_resolveName n).then fun g => ?_
  dsimp only
  split
  · exact (calm_localType _).then fun _ => (calm_typePush _).then fun _ => .pure trivial
  · exact (calm_typePush _).then fun _ => .pure trivial

theorem keeps_predeclareLocal (n : Name) (tok : AssignTok) (g : Target) :
    Keeps k (predeclareLocal n tok g) fun p => p.1.formed j := by
  refine calm_current.then fun c => .ite ?_ (.pure trivial)
  refine calm_localCount.then fun _ => (calm_addLocal n).then fun _ =>
    calm_markInitialized.then fun _ => .pure ?_
  simp

theorem keeps_constantStore (n : Name) (o : OpCode) :
    KeepsCode k j (do let i ← identifierConstant n; pure (op o [i])) :=
  (calm_identifierConstant n).then fun _ => .pure trivial

theorem keeps_assignStore (n : Name) (tok : AssignTok) (g : Target) (p : Bool) (x : TypeHint) :
    KeepsCode k j (assignStore n tok g p x) := by
  refine calm_current.then fun c => .ite (keeps_constantStore n _) (.ite ?_ (.ite (.pure trivial)
    (.ite (keeps_storeNewLocal n x) (.ite (keeps_constantStore n _) (keeps_emitAssignmentStore n g x)))))
  exact (calm_updateLocalType _ x).then fun _ => .pure trivial

theorem keeps_assign (n : Name) (tok : AssignTok) {r : CompileM Code} (hr : KeepsCode k j r) :
    KeepsCode k j (assign n tok r) := by
  refine (calm_resolveName n).then fun g => Keeps.bind (keeps_predeclareLocal (j := j) n tok g) fun p hp =>
    Keeps.bind hr fun cr hr => calm_typePop.then fun x =>
      Keeps.bind (keeps_assignStore (j := j) n tok p.2.1 p.2.2 x) fun cs hs =>
        (calm_typePush _).then fun _ => .pure ?_
  simp [hp, hr, hs]

theorem keeps_compoundLoad (n : Name) (g : Target) :
    Keeps k (compoundLoad n g) fun p => p.1.formed j := by
  refine calm_current.then fun c => .ite ?_ (.ite ?_ (.ite (.pure trivial) (.ite (.pure trivial)
    (.pure trivial))))
  · exact (calm_identifierConstant n).then fun _ => .pure trivial
  · exact (calm_localType _).then fun _ => .pure trivial

theorem keeps_compoundStore (n : Name) (g : Target) (x : TypeHint) :
    KeepsCode k j (compoundStore n g x) := by
  refine calm_current.then fun c => .ite (keeps_constantStore n _) (.ite ?_ (.ite (.pure trivial)
    (.ite (keeps_storeNewLocal n x) (keeps_emitAssignmentStore n g x))))
  exact (calm_updateLocalType _ x).then fun _ => .pure trivial

theorem keeps_compound (n : Name) (o : BinaryOp) {e : CompileM Code} (he : KeepsCode k j e) :
    KeepsCode k j (compound n o e) := by
  refine (calm_resolveName n).then fun g => Keeps.bind (keeps_compoundLoad (j := j) n g) fun p hp =>
    (calm_typePush _).then fun _ => Keeps.bind (keeps_expression he) fun ce he =>
      calm_typePop.then fun r => calm_typePop.then fun l =>
        Keeps.bind (keeps_compoundStore (j := j) n g _) fun cs hs => (calm_typePush _).then fun _ => .pure ?_
  rw [Code.formed_seqs]
  intro c hc
  simp only [List.mem_cons, List.mem_append, List.mem_map, List.not_mem_nil, or_false] at hc
  rcases hc with (rfl | rfl | ⟨q, -, rfl⟩) | rfl
  · exact hp
  · exact he
  · exact trivial
  · exact hs

theorem keeps_named (n : Name) (l u g : OpCode) :
    KeepsCode k j (do
      match ← resolveLocal n with
      | some i => pure (op1 l i)
      | none =>
        match ← resolveUpvalue n with
        | some i => pure (op1 u i)
        | none => pure (op g [← identifierConstant n])) := by
  refine (calm_resolveLocal n).then fun i => ?_
  cases i with
  | some i => exact .pure trivial
  | none =>
    refine (calm_resolveUpvalue n).then fun i => ?_
    cases i with
    | some i => exact .pure trivial
    | none => exact keeps_constantStore n g

theorem keeps_emitGetNamed (n : Name) : KeepsCode k j (emitGetNamed n) := keeps_named n _ _ _

theorem keeps_emitSetNamed (n : Name) : KeepsCode k j (emitSetNamed n) := keeps_named n _ _ _

theorem keeps_dot (o : OpCode) {e : CompileM Code} (he : KeepsCode k j e) (p : Name) :
    KeepsCode k j (dot o e p) := by
  refine Keeps.bind he fun c hc => calm_getTypeStackTop.then fun _ =>
    (calm_identifierConstant p).then fun _ => (calm_replaceType _ _).then fun _ => .pure ?_
  simp [hc]

theorem keeps_dotAssign {e r : CompileM Code} (he : KeepsCode k j e) (p : Name)
    (hr : KeepsCode k j r) : KeepsCode k j (dotAssign e p r) := by
  refine Keeps.bind he fun c hc => calm_getTypeStackTop.then fun _ =>
    (calm_identifierConstant p).then fun _ => Keeps.bind hr fun cr hr => calm_typePop.then fun _ =>
      (calm_replaceType _ _).then fun _ => .pure ?_
  simp [hc, hr]

theorem keeps_subscript {e i : CompileM Code} (he : KeepsCode k j e) (hi : KeepsCode k j i) :
    KeepsCode k j (subscript e i) := by
  refine Keeps.bind he fun c hc => calm_getTypeStackTop.then fun _ =>
    Keeps.bind (keeps_expression hi) fun ci hi => (calm_replaceType _ _).then fun _ => .pure ?_
  simp [hc, hi]

theorem keeps_subscriptAssign {e i r : CompileM Code} (he : KeepsCode k j e) (hi : KeepsCode k j i)
    (hr : KeepsCode k j r) : KeepsCode k j (subscriptAssign e i r) := by
  refine Keeps.bind he fun c hc => calm_getTypeStackTop.then fun _ =>
    Keeps.bind (keeps_expression hi) fun ci hi => Keeps.bind hr fun cr hr =>
      calm_typePop.then fun _ => (calm_replaceType _ _).then fun _ => .pure ?_
  simp [hc, hi, hr]

/-- An optional part, where it is there, keeps to the loops. -/
def KeepsOption (k j : Bool) (m : Option (CompileM Code)) : Prop := ∀ e, m = some e → KeepsCode k j e

theorem keeps_slice {e : CompileM Code} {a b c : Option (CompileM Code)} (he : KeepsCode k j e)
    (ha : KeepsOption k j a) (hb : KeepsOption k j b) (hc : KeepsOption k j c) :
    KeepsCode k j (slice e a b c) := by
  have h1 : KeepsCode k j (sliceStart a) := by
    cases a with
    | none => exact .pure trivial
    | some e => exact ha e rfl
  have h2 : KeepsCode k j (sliceStop b) := by
    cases b with
    | none => exact .pure trivial
    | some e => exact keeps_expression (hb e rfl)
  have h3 : KeepsCode k j (sliceStep c) := by
    cases c with
    | none => exact keeps_emitConstant _
    | some e => exact keeps_expression (hc e rfl)
  refine Keeps.bind he fun c hc => calm_getTypeStackTop.then fun _ => Keeps.bind h1 fun c1 h1 =>
    Keeps.bind h2 fun c2 h2 => Keeps.bind h3 fun c3 h3 => (calm_replaceType _ _).then fun _ => .pure ?_
  simp [hc, h1, h2, h3]

/-- The parts of a list keep to the loops. -/
def KeepsAll (k j : Bool) (es : List (CompileM Code)) : Prop := ∀ e ∈ es, KeepsCode k j e

theorem keeps_arrayElements (i : Nat) {es : List (CompileM Code)} (h : KeepsAll k j es) :
    KeepsCode k j (arrayElements i es) := by
  induction es generalizing i with
  | nil => exact .pure trivial
  | cons e es ih =>
    obtain ⟨he, hes⟩ := List.forall_mem_cons.mp h
    refine Keeps.bind (keeps_emitConstant (j := j) _) fun ck hk => Keeps.bind (keeps_expression he) fun c hc =>
      Keeps.bind (ih (i + 1) hes) fun rest hr => .pure ?_
    simp [hc, hk, hr]

theorem keeps_parseArrayLiteral {es : List (CompileM Code)} (h : KeepsAll k j es) :
    KeepsCode k j (parseArrayLiteralFromCommaList es) :=
  Keeps.bind (keeps_arrayElements 1 h) fun _ hc => .pure ⟨trivial, hc⟩

theorem keeps_callArguments (n : Nat) {es : List (CompileM Code)} (h : KeepsAll k j es) :
    Keeps k (callArguments n es) fun p => p.1.formed j := by
  induction es generalizing n with
  | nil => exact .pure trivial
  | cons e es ih =>
    obtain ⟨he, hes⟩ := List.forall_mem_cons.mp h
    refine Keeps.bind (keeps_expression he) fun c hc => calm_typePop.then fun _ => .ite .error ?_
    exact Keeps.bind (ih (n + 1) hes) fun p hp => .pure ⟨hc, hp⟩

/-- The values of a list of named parts keep to the loops. -/
def KeepsNamed (k j : Bool) (es : List (Name × CompileM Code)) : Prop := ∀ p ∈ es, KeepsCode k j p.2

theorem keeps_namedArguments {es : List (Name × CompileM Code)} (h : KeepsNamed k j es) :
    KeepsCode k j (namedArguments es) := by
  induction es with
  | nil => exact .pure trivial
  | cons p es ih =>
    obtain ⟨he, hes⟩ := List.forall_mem_cons.mp h
    refine Keeps.bind (keeps_emitConstant (j := j) _) fun ck hk => Keeps.bind (keeps_expression he) fun c hc =>
      calm_typePop.then fun _ => Keeps.bind (ih hes) fun rest hr => .pure ?_
    simp [hc, hk, hr]

theorem keeps_callTail (n : Nat) {named : List (Name × CompileM Code)}
    {spread : Option (CompileM Code)} (hn : KeepsNamed k j named) (hs : KeepsOption k j spread) :
    KeepsCode k j (callTail n named spread) := by
  rcases named with _ | ⟨p, named⟩ <;> rcases spread with _ | e
  · exact .pure trivial
  · refine .ite .error ?_
    exact Keeps.bind (keeps_expression (hs e rfl)) fun c hc => calm_typePop.then fun _ =>
      .pure ⟨hc, trivial⟩
  · refine Keeps.bind (keeps_namedArguments hn) fun c hc => .ite .error (.pure ?_)
    simp [hc]
  · exact .error

theorem keeps_parseCall {f : CompileM Code} {args : List (CompileM Code)}
    {named : List (Name × CompileM Code)} {spread : Option (CompileM Code)} (hf : KeepsCode k j f)
    (ha : KeepsAll k j args) (hn : KeepsNamed k j named) (hs : KeepsOption k j spread) :
    KeepsCode k j (parseCall f args named spread) := by
  refine Keeps.bind hf fun c hc => calm_getTypeStackTop.then fun _ =>
    Keeps.bind (keeps_callArguments 0 ha) fun p ha => Keeps.bind (keeps_callTail p.2 hn hs)
      fun tail ht => (calm_setTypeStackTop _).then fun _ => calm_typePop.then fun _ =>
        (calm_typePush _).then fun _ => .pure ?_
  simp [hc, ha, ht]

theorem keeps_callComprehension {f g : CompileM Code} (hf : KeepsCode k j f) (hg : KeepsCode k j g) :
    KeepsCode k j (callComprehension f g) := by
  refine Keeps.bind hf fun c hc => calm_getTypeStackTop.then fun _ => Keeps.bind hg fun cg hg =>
    calm_typePop.then fun _ => (calm_setTypeStackTop _).then fun _ => calm_typePop.then fun _ =>
      (calm_typePush _).then fun _ => .pure ?_
  simp [hc, hg]

/-- The parts of a table entry keep to the loops. -/
def EntryKeeps (k j : Bool) : Entry → Prop
  | .keyed key v => KeepsCode k j key ∧ KeepsCode k j v
  | .field _ v | .item v => KeepsCode k j v
  | .nameItem _ | .shorthand _ => True

theorem keeps_shorthandFields (ns : List Name) : KeepsCode k j (shorthandFields ns) := by
  induction ns with
  | nil => exact .pure trivial
  | cons n ns ih =>
    refine Keeps.bind (keeps_emitConstant (j := j) _) fun ck hk => Keeps.bind (keeps_namedVariable (j := j) n) fun c hc =>
      Keeps.bind ih fun rest hr => .pure ?_
    simp [hc, hk, hr]

theorem keeps_tableEntries (i : Nat) {es : List Entry} (h : ∀ e ∈ es, EntryKeeps k j e) :
    KeepsCode k j (tableEntries i es) := by
  induction es generalizing i with
  | nil => exact .pure trivial
  | cons e es ih =>
    obtain ⟨he, hes⟩ := List.forall_mem_cons.mp h
    -- every entry that stores one value is laid out alike
    have store : ∀ {key v : CompileM Code} (i : Nat), KeepsCode k j key → KeepsCode k j v →
        KeepsCode k j (do
          let ck ← key
          let cv ← v
          let rest ← tableEntries i es
          pure (seqs [op0 .opDup, ck, cv, op0 .opSetTable, op0 .opPop, rest])) := by
      intro key v i hk hv
      refine Keeps.bind hk fun ck hk => Keeps.bind hv fun cv hv => Keeps.bind (ih i hes)
        fun rest hr => .pure ?_
      simp [hk, hv, hr]
    cases e with
    | keyed key v => exact store i (keeps_expression he.1) (keeps_expression he.2)
    | field n v => exact store i (keeps_emitConstant _) (keeps_expression he)
    | nameItem n => exact store (i + 1) (keeps_emitConstant _) (keeps_namedVariable n)
    | shorthand ns =>
      exact Keeps.bind (keeps_shorthandFields (j := j) ns) fun c hc => Keeps.bind (ih i hes) fun rest hr =>
        .pure ⟨hc, hr⟩
    | item v => exact store (i + 1) (keeps_emitConstant _) (keeps_expression he)

theorem keeps_table {es : List Entry} (h : ∀ e ∈ es, EntryKeeps k j e) : KeepsCode k j (table es) :=
  calm_getTypeStackTop.then fun _ => Keeps.bind (keeps_tableEntries 1 h) fun _ hc =>
    (calm_replaceType _ _).then fun _ => .pure ⟨trivial, hc⟩

theorem keeps_tableInfix {m : CompileM Code} {es : List Entry} (hm : KeepsCode k j m)
    (h : ∀ e ∈ es, EntryKeeps k j e) : KeepsCode k j (tableInfix m es) := by
  refine Keeps.bind hm fun cm hm => calm_getTypeStackTop.then fun _ =>
    Keeps.bind (keeps_tableEntries 1 h) fun c hc => (calm_replaceType _ _).then fun _ => .pure ?_
  simp [hm, hc]

theorem keeps_importExpression (path : Bytes) : KeepsCode k j (importExpression path) :=
  (calm_makeConstant _).then fun _ => (calm_typePush _).then fun _ => .pure trivial

/-- The source of an f-string part keeps to the loops. -/
def FPartKeeps (k j : Bool) : FPart → Prop
  | .source e => KeepsCode k j e
  | _ => True

theorem keeps_fstringPart {p : FPart} (h : FPartKeeps k j p) : KeepsCode k j (fstringPart p) := by
  cases p with
  | text s => exact keeps_emitConstant _
  | name n =>
    exact Keeps.bind (keeps_emitGetNamed (j := j) n) fun c hc => (calm_typePush _).then fun _ => .pure hc
  | nameMod n x =>
    refine Keeps.bind (keeps_emitGetNamed (j := j) n) fun c hc => Keeps.bind (keeps_emitConstant (j := j) _) fun ck hk =>
      (calm_typePush _).then fun _ => .pure ?_
    simp [hc, hk]
  | source e => exact keeps_expression h

theorem keeps_fstringParts {ps : List FPart} (h : ∀ p ∈ ps, FPartKeeps k j p) :
    KeepsCode k j (fstringParts ps) := by
  induction ps with
  | nil => exact .pure trivial
  | cons p ps ih =>
    obtain ⟨hp, hps⟩ := List.forall_mem_cons.mp h
    exact Keeps.bind (keeps_fstringPart hp) fun c hc => Keeps.bind (ih hps) fun rest hr =>
      .pure ⟨hc, hr⟩

theorem keeps_fstring {ps : List FPart} (h : ∀ p ∈ ps, FPartKeeps k j p) :
    KeepsCode k j (fstring ps) := by
  refine calm_getTypeStackTop.then fun _ => Keeps.bind (keeps_fstringParts h) fun c hc =>
    .ite ?_ (.ite .error ?_)
  · exact Keeps.bind (keeps_emitConstant (j := j) _) fun ck hk => (calm_replaceType _ _).then fun _ => .pure hk
  · exact (calm_replaceType _ _).then fun _ => .pure ⟨hc, trivial⟩

end ToiLang.Compile
