import Mathlib.Data.List.Forall2
import Mathlib.Data.List.Induction
import Mathlib.Order.Defs.Unbundled
import ToiLang.Compiler.Emits

namespace ToiLang

/-- What `resolve_local` looks at in a local: its name and whether it is initialised. -/
def Local.key (l : Local) : Name × Bool := (l.name, l.depth.isSome)

/-- The locals and the declared globals of a function stay; captures and types may change. -/
structure Compiler.SameScope (c c' : Compiler) : Prop where
  keys : c'.locals.map Local.key = c.locals.map Local.key
  globals : c'.explicitGlobals = c.explicitGlobals

namespace Compiler

theorem SameScope.refl (c : Compiler) : c.SameScope c := ⟨rfl, rfl⟩

theorem SameScope.trans {c c' c'' : Compiler} (h : c.SameScope c') (h' : c'.SameScope c'') :
    c.SameScope c'' := ⟨h'.keys.trans h.keys, h'.globals.trans h.globals⟩

theorem SameScope.localCount {c c' : Compiler} (h : c.SameScope c') :
    c'.localCount = c.localCount := by
  simpa [Compiler.localCount] using congrArg List.length h.keys

end Compiler

namespace Compile

theorem findLocal_append (ls : List Local) (l : Local) (n : Name) :
    findLocal (ls ++ [l]) n =
      if l.name = n then some (ls.length, l.depth.isSome) else findLocal ls n := by
  unfold findLocal
  rw [List.reverse_append, List.reverse_singleton, List.singleton_append, List.findIdx?_cons]
  by_cases h : l.name = n
  · simp [h]
  · simp only [h, decide_false, Bool.false_eq_true, if_false]
    cases hf : ls.reverse.findIdx? fun l => l.name = n with
    | none => rfl
    | some i =>
      have hi : i < ls.length := by
        obtain ⟨hi, -⟩ := List.findIdx?_eq_some_iff_getElem.mp hf
        simpa using hi
      have hsub : (ls ++ [l]).length - 1 - (i + 1) = ls.length - 1 - i := by
        simp only [List.length_append, List.length_singleton]
        omega
      simp only [Option.map_some, hsub]
      rw [List.getElem?_append_left (by omega)]

@[simp] theorem findLocal_nil (n : Name) : findLocal [] n = none := rfl

/-- `findLocal` looks at nothing but the keys. -/
theorem findLocal_congr {ls ls' : List Local} (h : ls'.map Local.key = ls.map Local.key) (n : Name) :
    findLocal ls' n = findLocal ls n := by
  have hlen : ls'.length = ls.length := by simpa using congrArg List.length h
  have hidx : ∀ ks : List Local, (ks.reverse.findIdx? fun l => l.name = n) =
      (ks.map Local.key).reverse.findIdx? fun k => k.1 = n := by
    intro ks
    rw [← List.map_reverse, List.findIdx?_map]
    rfl
  have hflag : ∀ (ks : List Local) (i : Nat),
      (ks[i]?).map (·.depth.isSome) = ((ks.map Local.key)[i]?).map Prod.snd := by
    intro ks i
    rw [List.getElem?_map, Option.map_map]
    rfl
  unfold findLocal
  simp only [hidx, hflag, h, hlen]

theorem findLocal_append_fresh {ls more : List Local} {n : Name} (h : ∀ l ∈ more, l.name ≠ n) :
    findLocal (ls ++ more) n = findLocal ls n := by
  induction more using List.reverseRecOn with
  | nil => rw [List.append_nil]
  | append_singleton more l ih =>
    rw [← List.append_assoc, findLocal_append, if_neg (h l (by simp))]
    exact ih fun k hk => h k (List.mem_append_left _ hk)

theorem findLocal_lt {ls : List Local} {n : Name} {i : Nat} {b : Bool}
    (h : findLocal ls n = some (i, b)) :
    i < ls.length ∧ (ls[i]?).map (·.name) = some n := by
  induction ls using List.reverseRecOn with
  | nil => cases h
  | append_singleton ls l ih =>
    rw [findLocal_append] at h
    split_ifs at h with hn
    · obtain ⟨rfl, -⟩ := Prod.mk.inj (Option.some.inj h)
      simp [hn]
    · obtain ⟨hi, hname⟩ := ih h
      refine ⟨by simp; omega, ?_⟩
      rw [List.getElem?_append_left hi]
      exact hname

end Compile

/-- The scope of a function may gain locals of names that it did not resolve before. -/
structure Compiler.Widens (c c' : Compiler) : Prop where
  keys : ∃ ks, c'.locals.map Local.key = c.locals.map Local.key ++ ks ∧
    ∀ k ∈ ks, k.1 ∉ c.explicitGlobals ∧ Compile.findLocal c.locals k.1 = none
  globals : c'.explicitGlobals = c.explicitGlobals

namespace Compiler

theorem SameScope.widens {c c' : Compiler} (h : c.SameScope c') : c.Widens c' :=
  ⟨⟨[], by simp [h.keys], fun k hk => by cases hk⟩, h.globals⟩

/-- A scope that widens resolves the names it knew as before. -/
theorem Widens.findLocal {c c' : Compiler} (h : c.Widens c') {n : Name}
    (hn : n ∈ c.explicitGlobals ∨ Compile.findLocal c.locals n ≠ none) :
    Compile.findLocal c'.locals n = Compile.findLocal c.locals n := by
  obtain ⟨ks, hks, hfresh⟩ := h.keys
  have htake : (c'.locals.take c.localCount).map Local.key = c.locals.map Local.key := by
    rw [List.map_take, hks, List.take_append_of_le_length (by simp [localCount])]
    exact List.take_of_length_le (by simp [localCount])
  have hdrop : (c'.locals.drop c.localCount).map Local.key = ks := by
    rw [List.map_drop, hks]
    exact List.drop_left' (by simp [localCount])
  rw [← List.take_append_drop c.localCount c'.locals, Compile.findLocal_append_fresh]
  · exact Compile.findLocal_congr htake n
  · intro l hl hln
    obtain ⟨hg, hm⟩ := hfresh l.key (hdrop ▸ List.mem_map_of_mem hl)
    have hkey : l.key.1 = n := hln
    rw [hkey] at hg hm
    exact hn.elim hg (absurd hm)

theorem Widens.localCount_le {c c' : Compiler} (h : c.Widens c') : c.localCount ≤ c'.localCount := by
  obtain ⟨ks, hks, -⟩ := h.keys
  have hlen := congrArg List.length hks
  simp only [List.length_map, List.length_append] at hlen
  simp only [Compiler.localCount]
  omega

/-- A wider scope resolves every name that the scope it came from does. -/
theorem Widens.findLocal_none {c c' : Compiler} (h : c.Widens c') {n : Name}
    (hn : Compile.findLocal c'.locals n = none) : Compile.findLocal c.locals n = none := by
  by_contra hc
  exact hc (h.findLocal (.inr hc) ▸ hn)

theorem Widens.trans {c c' c'' : Compiler} (h : c.Widens c') (h' : c'.Widens c'') :
    c.Widens c'' := by
  obtain ⟨ks, hks, hfresh⟩ := h.keys
  obtain ⟨ks', hks', hfresh'⟩ := h'.keys
  refine ⟨⟨ks ++ ks', by rw [hks', hks, List.append_assoc], fun k hk => ?_⟩,
    h'.globals.trans h.globals⟩
  rcases List.mem_append.mp hk with hk | hk
  · exact hfresh k hk
  · obtain ⟨hg, hn⟩ := hfresh' k hk
    exact ⟨h.globals ▸ hg, h.findLocal_none hn⟩

/-- A local of an unknown name is declared at the end of a scope that has widened. -/
theorem Widens.declare {c c' c'' : Compiler} {n : Name} {b : Bool} (h : c.Widens c')
    (hg : n ∉ c.explicitGlobals) (hn : Compile.findLocal c.locals n = none)
    (hkeys : c''.locals.map Local.key = c'.locals.map Local.key ++ [(n, b)])
    (hglobals : c''.explicitGlobals = c'.explicitGlobals) : c.Widens c'' := by
  obtain ⟨ks, hks, hfresh⟩ := h.keys
  refine ⟨⟨ks ++ [(n, b)], by rw [hkeys, hks, List.append_assoc], fun k hk => ?_⟩,
    hglobals.trans h.globals⟩
  rcases List.mem_append.mp hk with hk | hk
  · exact hfresh k hk
  · rw [List.mem_singleton.mp hk]
    exact ⟨hg, hn⟩

end Compiler

/-- The functions around the one being compiled keep their scopes. -/
def State.Nests (s s' : State) : Prop := List.Forall₂ Compiler.SameScope s.enclosing s'.enclosing

/-- The step of an expression: the scope it is in widens at most. -/
structure State.Widens (s s' : State) : Prop where
  current : s.current.Widens s'.current
  nests : s.Nests s'

/-- The step of what declares nothing. -/
structure State.SameScope (s s' : State) : Prop where
  current : s.current.SameScope s'.current
  nests : s.Nests s'

namespace State

theorem Nests.refl (s : State) : s.Nests s := List.forall₂_same.mpr fun c _ => .refl c

theorem Nests.trans {s s' s'' : State} (h : s.Nests s') (h' : s'.Nests s'') : s.Nests s'' := by
  unfold Nests at *
  generalize s.enclosing = a at h
  generalize s'.enclosing = b at h h'
  generalize s''.enclosing = c at h'
  induction h generalizing c with
  | nil => exact h'
  | cons hab _ ih =>
    cases h' with
    | cons hbc hrest => exact .cons (hab.trans hbc) (ih _ hrest)

theorem Widens.trans {s s' s'' : State} (h : s.Widens s') (h' : s'.Widens s'') : s.Widens s'' :=
  ⟨h.current.trans h'.current, h.nests.trans h'.nests⟩

theorem SameScope.widens {s s' : State} (h : s.SameScope s') : s.Widens s' :=
  ⟨h.current.widens, h.nests⟩

end State

/-- A kind of step that declaring nothing is one of. -/
class ScopeStep (R : State → State → Prop) : Prop extends IsPreorder State R where
  ofSame : ∀ {s s' : State}, s.SameScope s' → R s s'

instance : ScopeStep State.Nests where
  refl := .refl
  trans _ _ _ := .trans
  ofSame h := h.nests

instance : ScopeStep State.Widens where
  refl s := ⟨(Compiler.SameScope.refl _).widens, .refl s⟩
  trans _ _ _ := .trans
  ofSame h := h.widens

instance : ScopeStep State.SameScope where
  refl s := ⟨.refl _, .refl s⟩
  trans _ _ _ h h' := ⟨h.current.trans h'.current, h.nests.trans h'.nests⟩
  ofSame h := h

namespace Compile

/-- Every run of an action is a step of this kind. -/
def Steps (R : State → State → Prop) {α : Type} (m : CompileM α) : Prop :=
  ∀ s a s', m s = some (a, s') → R s s'

section Rules

variable {α β : Type} {R : State → State → Prop} [ScopeStep R] {m : CompileM α}

theorem Steps.ofSame (h : Steps State.SameScope m) : Steps R m :=
  fun s a s' hs => ScopeStep.ofSame (h s a s' hs)

@[simp, grind ←] theorem steps_bind {f : α → CompileM β} (hm : Steps R m) (hf : ∀ a, Steps R (f a)) :
    Steps R (m >>= f) := by
  intro s b s'' h
  obtain ⟨a, s', ha, hb⟩ := bind_eq_some.mp h
  exact IsTrans.trans _ _ _ (hm s a s' ha) (hf a s' b s'' hb)

omit [ScopeStep R] in
@[simp, grind ←] theorem steps_map {f : α → β} (hm : Steps R m) : Steps R (f <$> m) := by
  intro s b s' h
  rw [map_eq_pure_bind] at h
  obtain ⟨a, s₁, ha, hb⟩ := bind_eq_some.mp h
  obtain ⟨-, rfl⟩ := pure_eq_some.mp hb
  exact hm s a s' ha

@[simp, grind ←] theorem steps_pure (a : α) : Steps R (pure a : CompileM α) := by
  intro s b s' hs
  obtain ⟨-, rfl⟩ := pure_eq_some.mp hs
  exact refl s'

omit [ScopeStep R] in
@[simp, grind ←] theorem steps_error : Steps R (error : CompileM α) := by
  intro s a s' h
  cases h

omit [ScopeStep R] in
@[simp] theorem steps_ite {p : Prop} [Decidable p] {n : CompileM α} (hm : Steps R m)
    (hn : Steps R n) : Steps R (if p then m else n) := by
  split
  · exact hm
  · exact hn

theorem steps_modify {f : State → State} (h : ∀ s, State.SameScope s (f s)) :
    Steps R (modify f : CompileM Unit) := by
  intro s a s' hs
  obtain rfl := modify_eq_some.mp hs
  exact ScopeStep.ofSame (h s)

@[simp, grind ←] theorem steps_get : Steps R (get : CompileM State) := by
  intro s a s' hs
  obtain ⟨-, rfl⟩ := get_eq_some.mp hs
  exact refl s'

@[simp, grind ←] theorem steps_lift (o : Option α) : Steps R (StateT.lift o : CompileM α) := by
  intro s a s' hs
  obtain ⟨-, rfl⟩ := lift_eq_some.mp hs
  exact refl s'

@[simp, grind ←] theorem steps_current : Steps R current := by simp [current]

@[simp, grind ←] theorem steps_localCount : Steps R localCount := by simp [localCount]

@[simp, grind ←] theorem steps_localType (i : Nat) : Steps R (localType i) := by simp [localType]

@[simp, grind ←] theorem steps_getTypeStackTop : Steps R getTypeStackTop := by simp [getTypeStackTop]

@[simp, grind ←] theorem steps_isExplicitGlobalName (n : Name) : Steps R (isExplicitGlobalName n) := by
  simp [isExplicitGlobalName]

@[simp, grind ←] theorem steps_resolveLocal (n : Name) : Steps R (resolveLocal n) := by simp [resolveLocal]

/-- A change of the compiler's global variables. -/
theorem State.sameScope_of_eq {s s' : State} (hc : s'.current = s.current)
    (he : s'.enclosing = s.enclosing) : s.SameScope s' :=
  ⟨hc ▸ .refl _, by
    unfold State.Nests
    rw [he]
    exact State.Nests.refl s⟩

@[simp, grind ←] theorem steps_typePush (x : TypeHint) : Steps R (typePush x) :=
  steps_modify fun s => by split_ifs <;> exact State.sameScope_of_eq rfl rfl

@[simp, grind ←] theorem steps_setTypeStackTop (n : Nat) : Steps R (setTypeStackTop n) :=
  steps_modify fun _ => State.sameScope_of_eq rfl rfl

@[simp, grind ←] theorem steps_replaceType (n : Nat) (x : TypeHint) : Steps R (replaceType n x) := by
  simp [replaceType]

@[simp, grind ←] theorem steps_typePop : Steps R typePop := by
  intro s a s' h
  simp only [typePop, bind_eq_some, get_eq_some, ite_eq_some, set_eq_some, pure_eq_some] at h
  obtain ⟨_, _, ⟨rfl, rfl⟩, ⟨_, _, rfl⟩ | ⟨_, _, _, rfl, _, rfl⟩⟩ := h
  · exact refl s'
  · exact ScopeStep.ofSame (State.sameScope_of_eq rfl rfl)

/-- A change of the current function that leaves its locals' keys and globals alone. -/
theorem steps_setCurrent {f : Compiler → Compiler}
    (h : ∀ c, Compiler.SameScope c (f c)) :
    Steps R (current >>= fun c => setCurrent (f c)) := by
  intro s a s' hs
  simp only [bind_eq_some, current_eq_some, setCurrent_eq_some] at hs
  obtain ⟨_, _, ⟨rfl, rfl⟩, rfl⟩ := hs
  exact ScopeStep.ofSame ⟨h _, State.Nests.refl _⟩

theorem map_key_modify {f : Local → Local} (h : ∀ l, (f l).key = l.key) (ls : List Local) (i : Nat) :
    (ls.modify i f).map Local.key = ls.map Local.key := by
  apply List.ext_getElem?
  intro j
  rw [List.getElem?_map, List.getElem?_map, List.getElem?_modify]
  cases ls[j]? with
  | none => rfl
  | some l =>
    simp only [Option.map_some]
    split <;> simp [h]

@[simp, grind ←] theorem steps_setLocalType (i : Nat) (x : TypeHint) : Steps R (setLocalType i x) := by
  refine steps_setCurrent fun c => ⟨map_key_modify ?_ _ _, rfl⟩
  exact fun _ => rfl

@[simp, grind ←] theorem steps_updateLocalType (i : Nat) (x : TypeHint) : Steps R (updateLocalType i x) := by
  refine steps_setCurrent fun c => ⟨map_key_modify ?_ _ _, rfl⟩
  exact fun _ => rfl

theorem markCaptured_sameScope (c : Compiler) (i : Nat) : c.SameScope (markCaptured c i) := by
  refine ⟨map_key_modify ?_ _ _, rfl⟩
  exact fun _ => rfl

@[simp, grind ←] theorem steps_makeConstant (v : Value) : Steps R (makeConstant v) := by
  intro s a s' h
  simp only [makeConstant, bind_eq_some, current_eq_some, ite_eq_some, setCurrent_eq_some,
    error_eq_some, pure_eq_some] at h
  obtain ⟨_, _, ⟨rfl, rfl⟩, ⟨-, hf⟩ | ⟨-, _, _, rfl, -, rfl⟩⟩ := h
  · cases hf
  · exact ScopeStep.ofSame ⟨⟨rfl, rfl⟩, State.Nests.refl _⟩

@[simp, grind ←] theorem steps_identifierConstant (n : Name) : Steps R (identifierConstant n) :=
  steps_makeConstant _

@[simp, grind ←] theorem steps_emitConstant (v : Value) : Steps R (emitConstant v) := by
  simp [emitConstant]

theorem addUpvalue_sameScope {c c' : Compiler} {index i : Nat} {isLocal : Bool}
    (h : addUpvalue c index isLocal = some (i, c')) : c.SameScope c' := by
  simp only [addUpvalue] at h
  cases hf : c.upvalues.findIdx? (· = (⟨UInt8.ofNat index, isLocal⟩ : Upvalue)) with
  | some j =>
    rw [hf] at h
    obtain ⟨-, rfl⟩ := Prod.mk.inj (Option.some.inj h)
    exact .refl _
  | none =>
    rw [hf] at h
    dsimp only at h
    split_ifs at h
    obtain ⟨-, rfl⟩ := Prod.mk.inj (Option.some.inj h)
    exact ⟨rfl, rfl⟩

/-- Capturing a variable changes no function's scope. -/
theorem resolveUpvalueIn_sameScope {n : Name} {es es' : List Compiler} {c c' : Compiler} {i : Nat}
    (h : resolveUpvalueIn c n es = some (some (i, c', es'))) :
    c.SameScope c' ∧ List.Forall₂ Compiler.SameScope es es' := by
  induction es generalizing c c' i es' with
  | nil => simp [resolveUpvalueIn] at h
  | cons e es ih =>
    have hrest : ∀ es : List Compiler, List.Forall₂ Compiler.SameScope es es :=
      fun es => List.forall₂_same.mpr fun c _ => .refl c
    simp only [resolveUpvalueIn, Option.bind_eq_bind, Option.bind_eq_some_iff] at h
    obtain ⟨l, -, h⟩ := h
    cases l with
    | some l =>
      obtain ⟨⟨j, d⟩, hadd, h⟩ := Option.bind_eq_some_iff.mp h
      obtain ⟨rfl, rfl, rfl⟩ : j = i ∧ d = c' ∧ markCaptured e l :: es = es' := by
        simpa using Option.some.inj h
      exact ⟨addUpvalue_sameScope hadd, .cons (markCaptured_sameScope e l) (hrest es)⟩
    | none =>
      obtain ⟨r, hr, h⟩ := Option.bind_eq_some_iff.mp h
      cases r with
      | none => simp at h
      | some r =>
        obtain ⟨u, e', es₁⟩ := r
        obtain ⟨⟨j, d⟩, hadd, h⟩ := Option.bind_eq_some_iff.mp h
        obtain ⟨rfl, rfl, rfl⟩ : j = i ∧ d = c' ∧ e' :: es₁ = es' := by
          simpa using Option.some.inj h
        obtain ⟨he, hes⟩ := ih hr
        exact ⟨addUpvalue_sameScope hadd, .cons he hes⟩

@[simp, grind ←] theorem steps_resolveUpvalue (n : Name) : Steps R (resolveUpvalue n) := by
  intro s a s' h
  simp only [resolveUpvalue, bind_eq_some, get_eq_some, lift_eq_some] at h
  obtain ⟨_, _, ⟨rfl, rfl⟩, r, _, ⟨hr, rfl⟩, h⟩ := h
  cases r with
  | none =>
    obtain ⟨-, rfl⟩ := pure_eq_some.mp h
    exact refl s'
  | some r =>
    obtain ⟨i, c, es⟩ := r
    simp only [bind_eq_some, set_eq_some, pure_eq_some] at h
    obtain ⟨_, _, rfl, -, rfl⟩ := h
    obtain ⟨hc, hes⟩ := resolveUpvalueIn_sameScope hr
    exact ScopeStep.ofSame ⟨hc, hes⟩

end Rules

end Compile

end ToiLang
