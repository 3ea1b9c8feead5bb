import ToiLang.Compiler.LeavesStmt
import ToiLang.Compiler.ScopesProgram

namespace ToiLang

/-- The variable that a store instruction writes. -/
inductive Place
  | slot (i : Nat)
  | upvalue (i : Nat)
  | global (n : Name)
  deriving DecidableEq, Repr

/-- The instruction that stores to a variable, in code with these constants. -/
def Place.StoredBy (constants : List Value) (i : Instr) : Place → Prop
  | .slot k => i = ⟨.opSetLocal, [UInt8.ofNat k]⟩
  | .upvalue k => i = ⟨.opSetUpvalue, [UInt8.ofNat k]⟩
  | .global n => ∃ k, i = ⟨.opSetGlobal, [k]⟩ ∧ constants[k.toNat]? = some (.string n)

theorem Place.StoredBy.mono {cs cs' : List Value} {i : Instr} {p : Place} (h : p.StoredBy cs i)
    (hc : cs <+: cs') : p.StoredBy cs' i := by
  cases p with
  | slot | upvalue => exact h
  | global n =>
    obtain ⟨k, hi, hk⟩ := h
    obtain ⟨rest, rfl⟩ := hc
    refine ⟨k, hi, ?_⟩
    rw [List.getElem?_append_left (List.getElem?_eq_some_iff.mp hk).1]
    exact hk

namespace Compile

/-- The state with new locals that are not yet initialised. -/
def withNew (s : State) (new : List Name) : State :=
  { s with current := { s.current with
      locals := s.current.locals ++ new.map fun n => ⟨n, none, false, .any⟩ } }

theorem addLocal_eq_some {n : Name} {s s' : State} {u : Unit} (h : addLocal n s = some (u, s')) :
    s' = withNew s [n] := by
  simp only [addLocal, bind_eq_some, current_eq_some, ite_eq_some, error_eq_some,
    setCurrent_eq_some] at h
  obtain ⟨_, _, ⟨rfl, rfl⟩, ⟨-, hf⟩ | ⟨-, rfl⟩⟩ := h
  · cases hf
  · rfl

theorem findLocal_withNew {s : State} {n m : Name} :
    findLocal (withNew s [n]).current.locals m =
      if n = m then some (s.current.localCount, false) else findLocal s.current.locals m :=
  findLocal_append _ _ _

/-- What becomes of the targets: every one is a declared global, a local, or new. -/
theorem declareTargets_spec {ns : List Name} {s s' : State} {k : Nat}
    (h : declareTargets ns s = some (k, s')) :
    ∃ new : List Name, k = new.length ∧ s' = withNew s new ∧
      (∀ n ∈ new, n ∈ ns ∧ Unknown s n) ∧
      ∀ n ∈ ns, n ∈ s.current.explicitGlobals ∨
        (∃ i, findLocal s.current.locals n = some (i, true)) ∨ n ∈ new := by
  induction ns generalizing s k with
  | nil =>
    obtain ⟨rfl, rfl⟩ := pure_eq_some.mp h
    exact ⟨[], rfl, by simp [withNew], by simp, by simp⟩
  | cons n ns ih =>
    obtain ⟨g, s₁, hg, h⟩ := bind_eq_some.mp h
    obtain ⟨rfl, rfl⟩ := isExplicitGlobalName_eq_some.mp hg
    rw [ite_eq_some] at h
    rcases h with ⟨hd, h⟩ | ⟨hd, h⟩
    · obtain ⟨new, hk, hs, hnew, hall⟩ := ih h
      refine ⟨new, hk, hs, fun m hm => ?_, fun m hm => ?_⟩
      · exact ⟨List.mem_cons_of_mem n (hnew m hm).1, (hnew m hm).2⟩
      · rcases List.mem_cons.mp hm with rfl | hm
        · exact .inl (by simpa using hd)
        · exact hall m hm
    · obtain ⟨l, s₂, hl, h⟩ := bind_eq_some.mp h
      obtain ⟨hl, rfl⟩ := resolveLocal_eq_some.mp hl
      have hf := resolveLocalIn_eq_some hl
      cases l with
      | some i =>
        obtain ⟨new, hk, hs, hnew, hall⟩ := ih h
        refine ⟨new, hk, hs, fun m hm => ?_, fun m hm => ?_⟩
        · exact ⟨List.mem_cons_of_mem n (hnew m hm).1, (hnew m hm).2⟩
        · rcases List.mem_cons.mp hm with rfl | hm
          · exact .inr (.inl ⟨i, hf⟩)
          · exact hall m hm
      | none =>
        obtain ⟨_, s₃, hadd, h⟩ := bind_eq_some.mp h
        obtain ⟨j, s₄, hrest, h⟩ := bind_eq_some.mp h
        obtain ⟨rfl, rfl⟩ := pure_eq_some.mp h
        obtain rfl := addLocal_eq_some hadd
        obtain ⟨new, rfl, hs, hnew, hall⟩ := ih hrest
        have hunknown : ∀ m ∈ new, Unknown s₂ m := by
          intro m hm
          obtain ⟨-, hg, hnone⟩ := hnew m hm
          rw [findLocal_withNew] at hnone
          split_ifs at hnone
          exact ⟨hg, hnone⟩
        refine ⟨n :: new, rfl, ?_, fun m hm => ?_, fun m hm => ?_⟩
        · rw [hs]
          simp [withNew]
        · rcases List.mem_cons.mp hm with rfl | hm
          · exact ⟨List.mem_cons_self, by simpa using hd, hf⟩
          · exact ⟨List.mem_cons_of_mem n (hnew m hm).1, hunknown m hm⟩
        · rcases List.mem_cons.mp hm with rfl | hm
          · exact .inr (.inr List.mem_cons_self)
          · rcases hall m hm with hg | ⟨i, hi⟩ | hm
            · exact .inl hg
            · rw [findLocal_withNew] at hi
              by_cases hnm : n = m
              · rw [if_pos hnm] at hi
                cases hi
              · rw [if_neg hnm] at hi
                exact .inr (.inl ⟨i, hi⟩)
            · exact .inr (.inr (List.mem_cons_of_mem n hm))

/-- The first lines of `multi_assignment_statement`. -/
def declareNames (targets : List Name) : CompileM Unit := do
  let declared ← declareTargets targets
  markInitializedCount declared

/-- The variable that a target is stored to once all are declared. -/
def storedPlace (s : State) (n : Name) : Place :=
  match findLocal s.current.locals n with
  | some (i, _) => .slot i
  | none => .global n

/-- Every target has a variable: a local, or a declared global. -/
def Placed (s : State) (n : Name) : Prop :=
  (∃ i, findLocal s.current.locals n = some (i, true)) ∨ n ∈ s.current.explicitGlobals

theorem findLocal_append_mem {ls ks : List Local} {n : Name}
    (hall : ∀ l ∈ ks, l.depth.isSome = true) (hn : n ∈ ks.map (·.name)) :
    ∃ i, findLocal (ls ++ ks) n = some (i, true) ∧ ls.length ≤ i := by
  induction ks using List.reverseRecOn with
  | nil => simp at hn
  | append_singleton ks l ih =>
    rw [← List.append_assoc, findLocal_append]
    by_cases h : l.name = n
    · rw [if_pos h, hall l (by simp)]
      exact ⟨_, rfl, by simp⟩
    · rw [if_neg h]
      refine ih (fun k hk => hall k (List.mem_append_left _ hk)) ?_
      have hmem : n ∈ ks.map (·.name) ∨ n = l.name := by simpa using hn
      exact hmem.resolve_right fun hl => h hl.symm

theorem declareNames_spec {targets : List Name} {s s' : State} {u : Unit}
    (h : declareNames targets s = some (u, s')) :
    s.Widens s' ∧ s'.enclosing = s.enclosing ∧ (∀ n ∈ targets, Placed s' n) ∧
      s'.current.constants = s.current.constants ∧
      ∀ n ∈ targets, Unknown s n → ∃ i, findLocal s'.current.locals n = some (i, true) ∧
        s.current.localCount ≤ i := by
  obtain ⟨k, s₁, hd, hm⟩ := bind_eq_some.mp h
  obtain ⟨new, rfl, rfl, hnew, hall⟩ := declareTargets_spec hd
  simp only [markInitializedCount, bind_eq_some, current_eq_some, setCurrent_eq_some] at hm
  obtain ⟨c, s₂, ⟨rfl, rfl⟩, rfl⟩ := hm
  -- the new names as initialised locals
  let added : List Local := new.map fun n => ⟨n, some s.current.scopeDepth, false, .any⟩
  have hlocals : (withNew s new).current.locals.take
      ((withNew s new).current.locals.length - new.length) ++
      ((withNew s new).current.locals.drop
        ((withNew s new).current.locals.length - new.length)).map
          (fun l => { l with depth := some (withNew s new).current.scopeDepth }) =
      s.current.locals ++ added := by
    simp [withNew, added]
  have hfound : ∀ n, n ∉ new → findLocal (s.current.locals ++ added) n = findLocal s.current.locals n := by
    intro n hn
    refine findLocal_append_fresh fun l hl hname => hn ?_
    obtain ⟨m, hm, rfl⟩ := List.mem_map.mp hl
    exact hname ▸ hm
  have hnewfound : ∀ n ∈ new, ∃ i, findLocal (s.current.locals ++ added) n = some (i, true) ∧
      s.current.localCount ≤ i := by
    intro n hn
    apply findLocal_append_mem
    · intro l hl
      obtain ⟨m, -, rfl⟩ := List.mem_map.mp hl
      rfl
    · simpa [added] using hn
  have hw : s.current.Widens { (withNew s new).current with locals := s.current.locals ++ added } := by
    refine ⟨⟨new.map fun n => (n, true), by simp [added, Local.key], fun k hk => ?_⟩, rfl⟩
    obtain ⟨n, hn, rfl⟩ := List.mem_map.mp hk
    exact (hnew n hn).2
  simp only [hlocals]
  refine ⟨⟨hw, State.Nests.refl s⟩, rfl, fun n hn => ?_, rfl, fun n hn hu => ?_⟩
  · rcases hall n hn with hg | ⟨i, hi⟩ | hm
    · exact .inr hg
    · exact .inl ⟨i, (hw.findLocal (.inr (by simp [hi]))).trans hi⟩
    · obtain ⟨i, hi, -⟩ := hnewfound n hm
      exact .inl ⟨i, hi⟩
  · rcases hall n hn with hg | ⟨i, hi⟩ | hm
    · exact absurd hg hu.1
    · rw [hu.2] at hi
      cases hi
    · exact hnewfound n hm

theorem resolveLocalIn_of_findLocal {c : Compiler} {n : Name} {i : Nat}
    (h : findLocal c.locals n = some (i, true)) : resolveLocalIn c n = some (some i) := by
  rw [resolveLocalIn, h]

theorem makeConstant_spec {v : Value} {s s' : State} {k : UInt8}
    (h : makeConstant v s = some (k, s')) : s'.current.constants[k.toNat]? = some v := by
  simp only [makeConstant, bind_eq_some, current_eq_some, ite_eq_some, setCurrent_eq_some,
    error_eq_some, pure_eq_some] at h
  obtain ⟨_, _, ⟨rfl, rfl⟩, ⟨-, hf⟩ | ⟨hlen, _, _, rfl, rfl, rfl⟩⟩ := h
  · cases hf
  · rw [UInt8.toNat_ofNat_of_lt' (by simp only [UInt8.size]; omega)]
    simp

/-- The store behind a target that has a variable. -/
theorem assignNameFromStack_spec {n : Name} {s s' : State} {c : Code} (hn : Placed s n)
    (h : assignNameFromStack n .any s = some (c, s')) :
    s.SameScope s' ∧ ∃ i, c = .instr i ∧ (storedPlace s n).StoredBy s'.current.constants i := by
  obtain ⟨l, s₁, hl, h⟩ := bind_eq_some.mp h
  obtain ⟨hl, rfl⟩ := resolveLocal_eq_some.mp hl
  have hf := resolveLocalIn_eq_some hl
  cases l with
  | some i =>
    obtain ⟨_, s₂, hu, h⟩ := bind_eq_some.mp h
    obtain ⟨rfl, rfl⟩ := pure_eq_some.mp h
    refine ⟨steps_updateLocalType i .any _ _ _ hu, _, rfl, ?_⟩
    rw [storedPlace, hf]
    rfl
  | none =>
    have hg : n ∈ s₁.current.explicitGlobals := by
      rcases hn with ⟨i, hi⟩ | hg
      · rw [hf] at hi
        cases hi
      · exact hg
    obtain ⟨g, s₂, hg', h⟩ := bind_eq_some.mp h
    obtain ⟨rfl, rfl⟩ := isExplicitGlobalName_eq_some.mp hg'
    rw [if_pos (by simpa using hg)] at h
    obtain ⟨k, s₃, hk, h⟩ := bind_eq_some.mp h
    obtain ⟨rfl, rfl⟩ := pure_eq_some.mp h
    refine ⟨steps_identifierConstant n _ _ _ hk, _, rfl, ?_⟩
    rw [storedPlace, hf]
    exact ⟨k, rfl, makeConstant_spec hk⟩

/-- The stores to the targets, each with the pop behind it. -/
def storeCode : List Instr → Code
  | [] => .nil
  | i :: is => seqs [.instr i, op0 .opPop, storeCode is]

theorem SameScope.placed {s s' : State} (h : s.SameScope s') (n : Name) : Placed s n ↔ Placed s' n := by
  unfold Placed
  rw [findLocal_congr h.current.keys, h.current.globals]

theorem SameScope.storedPlace {s s' : State} (h : s.SameScope s') (n : Name) :
    storedPlace s' n = storedPlace s n := by
  unfold Compile.storedPlace
  rw [findLocal_congr h.current.keys]

theorem assignTargets_spec {ns : List Name} {s s' : State} {c : Code} (hn : ∀ n ∈ ns, Placed s n)
    (h : assignTargets ns s = some (c, s')) :
    s.SameScope s' ∧ ∃ is, c = storeCode is ∧
      List.Forall₂ (fun n i => (Compile.storedPlace s n).StoredBy s'.current.constants i) ns is := by
  induction ns generalizing s c with
  | nil =>
    obtain ⟨rfl, rfl⟩ := pure_eq_some.mp h
    exact ⟨refl s', [], rfl, .nil⟩
  | cons n ns ih =>
    obtain ⟨c₁, s₁, h₁, h⟩ := bind_eq_some.mp h
    obtain ⟨c₂, s₂, h₂, h⟩ := bind_eq_some.mp h
    obtain ⟨rfl, rfl⟩ := pure_eq_some.mp h
    obtain ⟨hs₁, i, rfl, hi⟩ := assignNameFromStack_spec (hn n List.mem_cons_self) h₁
    obtain ⟨hs₂, is, rfl, his⟩ := ih (fun m hm => (SameScope.placed hs₁ m).mp
      (hn m (List.mem_cons_of_mem n hm))) h₂
    have hgrow : s₁.current.constants <+: s'.current.constants :=
      (emits_assignTargets (t := ⟨[], [], 0⟩) ns _ _ _ h₂).1.constants
    refine ⟨IsTrans.trans _ _ _ hs₁ hs₂, i :: is, rfl, .cons (hi.mono hgrow) ?_⟩
    exact his.imp fun m j hj => SameScope.storedPlace hs₁ m ▸ hj

/-- What a single assignment to a name writes: a variable that is there, or a new local. -/
inductive Variable
  | known (p : Place)
  | fresh
  deriving DecidableEq, Repr

/-- The variable of `n = e`: a declared global before a local, a local before a variable of an
enclosing function. -/
def singleVariable (s : State) (n : Name) : Option Variable := do
  let l ← resolveLocalIn s.current n
  if s.current.explicitGlobals.contains n then some (.known (.global n))
  else
    match l with
    | some i => some (.known (.slot i))
    | none =>
      match ← resolveUpvalueIn s.current n s.enclosing with
      | some (u, _, _) => some (.known (.upvalue u))
      | none => some .fresh

/-- A place is the variable, where a new local is one behind those there were. -/
def Variable.Is (s s' : State) (n : Name) (p : Place) : Variable → Prop
  | .known q => p = q
  | .fresh => ∃ k, p = .slot k ∧ s.current.localCount ≤ k ∧
      (s'.current.locals[k]?).map (·.name) = some n

theorem Widens.name {s s' : State} (h : s.Widens s') {k : Nat} {n : Name} {b : Bool}
    (hk : (s.current.locals.map Local.key)[k]? = some (n, b)) :
    (s'.current.locals[k]?).map (·.name) = some n := by
  obtain ⟨ks, hks, -⟩ := h.current.keys
  have hkey : (s'.current.locals.map Local.key)[k]? = some (n, b) := by
    rw [hks, List.getElem?_append_left (List.getElem?_eq_some_iff.mp hk).1]
    exact hk
  rw [List.getElem?_map, Option.map_eq_some_iff] at hkey
  obtain ⟨l, hl, hkey⟩ := hkey
  rw [hl]
  exact congrArg some (congrArg Prod.fst hkey)

end Compile

end ToiLang
