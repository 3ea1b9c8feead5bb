import ToiLang.Vm.Sample
import ToiLang.Vm.Straight

namespace ToiLang

namespace Compile

/-- A multiple assignment that compiles: the state once its names are declared, the code of the
right-hand side and the state behind it, the stores. -/
structure MultiAssignment (targets : List Name) (es : Exprs) (s : State) where
  declared : State
  evaluated : State
  final : State
  rhs : Code
  stores : Code
  short : targets.length ≤ 255
  declares : declareNames targets s = some ((), declared)
  evaluates : freshExpressions (exprs es) declared = some (rhs, evaluated)
  assigns : assignTargets targets.reverse evaluated = some (stores, final)

def adjustTo (s : State) : Instr := ⟨.opAdjustStack, [UInt8.ofNat s.current.localCount]⟩

/-- The parts of a statement, where it compiles. -/
def multiAssignment (targets : List Name) (es : Exprs) (s : State) :
    Option (MultiAssignment targets es s) :=
  if hshort : targets.length ≤ 255 then
    match hd : declareNames targets s with
    | none => none
    | some ((), declared) =>
      match he : freshExpressions (exprs es) declared with
      | none => none
      | some (rhs, evaluated) =>
        match ha : assignTargets targets.reverse evaluated with
        | none => none
        | some (stores, final) => some ⟨declared, evaluated, final, rhs, stores, hshort, hd, he, ha⟩
  else none

namespace MultiAssignment

variable {targets : List Name} {es : Exprs} {s : State} (c : MultiAssignment targets es s)

/-- What brings the values to the number of the targets. -/
def fill : List Instr :=
  if 1 < es.length then List.replicate (targets.length - es.length) ⟨.opNil, []⟩
  else [⟨.opUnpack, [UInt8.ofNat c.evaluated.current.localCount, UInt8.ofNat targets.length]⟩]

def fillCode : Code :=
  if 1 < es.length then nils (targets.length - es.length)
  else op .opUnpack [UInt8.ofNat c.evaluated.current.localCount, UInt8.ofNat targets.length]

def code : Code :=
  seqs [.instr (adjustTo c.declared), c.rhs, c.fillCode, c.stores, .instr (adjustTo c.final)]

/-- The instructions behind the right-hand side. -/
def behind : List Instr := c.fill ++ c.stores.flatten none 0 ++ [adjustTo c.final]

end MultiAssignment

theorem flatten_storeCode (is : List Instr) (L : Option Code.Targets) (base : Nat) :
    (storeCode is).flatten L base = is.flatMap fun i => [i, popInstr] := by
  induction is generalizing base with
  | nil => rfl
  | cons i is ih =>
    rw [storeCode, List.flatMap_cons, ← ih (base + i.size + 1)]
    rfl

namespace MultiAssignment

variable {targets : List Name} {es : Exprs} {s : State} (c : MultiAssignment targets es s)

theorem declared_spec : s.Widens c.declared ∧ (∀ n ∈ targets, Placed c.declared n) ∧
    ∀ n ∈ targets, Unknown s n → ∃ i, findLocal c.declared.current.locals n = some (i, true) ∧
      s.current.localCount ≤ i := by
  obtain ⟨hw, -, hplaced, -, hnew⟩ := declareNames_spec c.declares
  exact ⟨hw, hplaced, hnew⟩

theorem evaluated_widens : c.declared.Widens c.evaluated :=
  widens_freshExpressions es _ _ _ c.evaluates

/-- The right-hand side changes no target's place. -/
theorem storedPlace_evaluated {n : Name} (hn : Placed c.declared n) :
    storedPlace c.evaluated n = storedPlace c.declared n ∧ Placed c.evaluated n := by
  have hf : findLocal c.evaluated.current.locals n = findLocal c.declared.current.locals n := by
    refine c.evaluated_widens.current.findLocal ?_
    rcases hn with ⟨i, hi⟩ | hg
    · exact .inr (by simp [hi])
    · exact .inl hg
  unfold storedPlace Placed
  rw [hf, c.evaluated_widens.current.globals]
  exact ⟨rfl, hn⟩

theorem stores_spec : c.evaluated.SameScope c.final ∧ ∃ is, c.stores = storeCode is ∧
    List.Forall₂ (fun p i => p.StoredBy c.final.current.constants i)
      (targets.reverse.map (storedPlace c.declared)) is := by
  obtain ⟨-, hplaced, -⟩ := c.declared_spec
  have hall : ∀ n ∈ targets.reverse, Placed c.evaluated n := fun n hn =>
    (c.storedPlace_evaluated (hplaced n (List.mem_reverse.mp hn))).2
  obtain ⟨hsame, is, hcode, his⟩ := assignTargets_spec hall c.assigns
  refine ⟨hsame, is, hcode, ?_⟩
  have hplaces : targets.reverse.map (storedPlace c.declared) =
      targets.reverse.map (storedPlace c.evaluated) :=
    List.map_congr_left fun n hn =>
      (c.storedPlace_evaluated (hplaced n (List.mem_reverse.mp hn))).1.symm
  rw [hplaces]
  exact List.forall₂_map_left_iff.mpr his

/-- The slots of the targets are below the values of the right-hand side. -/
theorem storedPlace_bound (n : Name) :
    (∃ m, storedPlace c.declared n = .global m) ∨
      ∃ k, storedPlace c.declared n = .slot k ∧ k < c.declared.current.localCount := by
  unfold storedPlace
  cases hf : findLocal c.declared.current.locals n with
  | none => exact .inl ⟨n, rfl⟩
  | some p => exact .inr ⟨p.1, rfl, (findLocal_lt hf).1⟩

variable {W : Type}

/-- The right-hand side has been evaluated to these values on the machine that began the statement:
every expression has left its values, one at least where there are two expressions or more. -/
structure Evaluated (E : Env W) (start : VM W) (values : List Value) (vm : VM W) : Prop where
  thread : vm.currentThread = vm.run.frameThread
  frame : vm.frame = start.frame
  height : vm.thread.stackTop =
    vm.frame.slots + (UInt8.ofNat c.declared.current.localCount).toNat + values.length
  each : 1 < es.length → es.length ≤ values.length
  constants : c.final.current.constants <+: (vm.function E).constants

/-- The locals that the right-hand side itself declares. -/
def inner : Nat := c.evaluated.current.localCount - c.declared.current.localCount

/-- The value that a target is due: an element where the right-hand side is one table, else the
value at its position, nil behind the last. -/
def wanted (_c : MultiAssignment targets es s) (E : Env W) (vm : VM W) (values : List Value)
    (i : Nat) : Value :=
  match values with
  | [.table a] => if 1 < es.length then values.getD i .nil else E.tableGetArray vm.toWorld a (i + 1)
  | _ => values.getD i .nil

/-- The statement does what a multiple assignment is to do: from the machine behind the right-hand
side its stores give every target the variable and the value it is due, and the stack ends at the
height it began at with the new locals on it. -/
def AssignsRight (E : Env W) (start : VM W) (values : List Value) (vm : VM W) : Prop :=
  ∃ last log, vm.performAll E c.behind = some (last, log) ∧ log.length = targets.length ∧
    (∀ i n, targets[i]? = some n → ∃ v p, singleVariable s n = some v ∧ v.Is s c.final n p ∧
      log.reverse[i]? = some (p, c.wanted E vm values i)) ∧
    last.thread.stackTop =
      start.thread.stackTop + (c.final.current.localCount - s.current.localCount)

/-- A single assignment to the name writes what a multiple one does: a declared global has no local
of its name, and an unknown name no variable in an enclosing function. -/
structure ClearName (s : State) (n : Name) : Prop where
  global : n ∈ s.current.explicitGlobals → findLocal s.current.locals n = none
  upvalue : Unknown s n → resolveUpvalueIn s.current n s.enclosing = some none

/-- The cell of the stack that stands for a target, counted from the top once the missing values
are filled in. -/
def given (E : Env W) (values : List Value) (vm : VM W) (i : Nat) : Value :=
  let cells := vm.thread.top values.length
  let n := targets.length
  if 1 < es.length then cells.getD (cells.length + (n - es.length) - n + i) .nil
  else VM.unpackedCell E vm n (cells.drop c.inner) i

/-- The right-hand side is evaluated, and the cells that stand for the targets hold the values they
are due. -/
structure Aligned (E : Env W) (values : List Value) (vm : VM W) : Prop where
  enough : ¬ 1 < es.length → c.inner ≤ values.length
  cells : ∀ i < targets.length, c.given E values vm i = c.wanted E vm values i

structure Clear (E : Env W) (values : List Value) (vm : VM W) : Prop where
  names : ∀ n ∈ targets, ClearName s n
  room : c.final.current.localCount < 256
  cells : c.Aligned E values vm

/-- The place a target is stored to is the variable of a single assignment just when the name is
clear. -/
theorem clearName_iff {n : Name} (hn : n ∈ targets) :
    (∃ v, singleVariable s n = some v ∧ v.Is s c.final n (storedPlace c.declared n)) ↔
      ClearName s n := by
  obtain ⟨hw, hplaced, hnew⟩ := c.declared_spec
  have hnone : findLocal s.current.locals n = none → resolveLocalIn s.current n = some none :=
    fun hf => by rw [resolveLocalIn, hf]
  by_cases hg : n ∈ s.current.explicitGlobals
  · have hf : findLocal c.declared.current.locals n = findLocal s.current.locals n :=
      hw.current.findLocal (.inl hg)
    constructor
    · rintro ⟨v, hv, his⟩
      refine ⟨fun _ => ?_, fun hu => absurd hg hu.1⟩
      have hvar : v = .known (.global n) := by
        obtain ⟨l, -, hv⟩ := Option.bind_eq_some_iff.mp hv
        rw [if_pos (by simpa using hg)] at hv
        exact (Option.some.inj hv).symm
      rw [hvar] at his
      unfold storedPlace at his
      rw [hf] at his
      cases hl : findLocal s.current.locals n with
      | none => rfl
      | some p =>
        rw [hl] at his
        cases his
    · intro h
      have hl := h.global hg
      refine ⟨.known (.global n), ?_, ?_⟩
      · simp [singleVariable, hnone hl, hg]
      · unfold storedPlace
        rw [hf, hl]
        rfl
  · cases hl : findLocal s.current.locals n with
    | some p =>
      have hf : findLocal c.declared.current.locals n = some p :=
        (hw.current.findLocal (.inr (by simp [hl]))).trans hl
      have hp : p = (p.1, true) := by
        rcases hplaced n hn with ⟨i, hi⟩ | hg'
        · rw [hf] at hi
          cases hi
          rfl
        · exact absurd (hw.current.globals ▸ hg') hg
      have hres := resolveLocalIn_of_findLocal (c := s.current) (hl.trans (congrArg some hp))
      refine iff_of_true ⟨.known (.slot p.1), ?_, ?_⟩ ⟨fun hc => absurd hc hg, fun hu => ?_⟩
      · simp [singleVariable, hres, hg]
      · unfold storedPlace
        rw [hf]
        rfl
      · rw [hu.2] at hl
        cases hl
    | none =>
      obtain ⟨k, hk, hle⟩ := hnew n hn ⟨hg, hl⟩
      have hplace : storedPlace c.declared n = .slot k := by
        unfold storedPlace
        rw [hk]
      rw [hplace]
      constructor
      · rintro ⟨v, hv, his⟩
        refine ⟨fun hc => absurd hc hg, fun _ => ?_⟩
        simp only [singleVariable, hnone hl, Option.bind_eq_bind, Option.bind_some] at hv
        rw [if_neg (by simpa using hg)] at hv
        obtain ⟨r, hr, hv⟩ := Option.bind_eq_some_iff.mp hv
        cases r with
        | none => exact hr
        | some r =>
          cases hv
          cases his
      · intro h
        have hu := h.upvalue ⟨hg, hl⟩
        refine ⟨.fresh, by simp [singleVariable, hnone hl, hg, hu], k, rfl, hle, ?_⟩
        have hwide : c.declared.Widens c.final :=
          c.evaluated_widens.trans c.stores_spec.1.widens
        obtain ⟨l, hget, hname⟩ := Option.map_eq_some_iff.mp (findLocal_lt hk).2
        have hkey : (c.declared.current.locals.map Local.key)[k]? = some (n, l.depth.isSome) := by
          rw [List.getElem?_map, hget, ← hname]
          rfl
        exact Widens.name hwide hkey

theorem inner_spec : c.declared.current.localCount + c.inner = c.final.current.localCount ∧
    c.evaluated.current.localCount = c.final.current.localCount := by
  have hle := c.evaluated_widens.current.localCount_le
  have hsame := c.stores_spec.1.current.localCount
  unfold inner
  omega

/-- The values that are on the stack when the first target is stored to, those of the targets
last. -/
theorem performAll_fill {E : Env W} {start vm : VM W} {values : List Value}
    (hev : c.Evaluated E start values vm) (hroom : c.final.current.localCount < 256)
    (hinner : ¬ 1 < es.length → c.inner ≤ values.length) :
    ∃ vm₁ front, vm.performAll E c.fill = some (vm₁, []) ∧
      vm₁.thread.Cells (vm.frame.slots + c.declared.current.localCount)
        (front ++ (List.range targets.length).map (c.given E values vm)) := by
  obtain ⟨hdeclared, hevaluated⟩ := c.inner_spec
  have hlocals : (UInt8.ofNat c.declared.current.localCount).toNat = c.declared.current.localCount :=
    UInt8.toNat_ofNat_of_lt' (by simp only [UInt8.size]; omega)
  have hcells := ObjThread.cells_top (hlocals ▸ hev.height)
  unfold fill
  by_cases hm : 1 < es.length
  · simp only [hm, if_true]
    obtain ⟨vm₁, hrun, h⟩ := VM.performAll_nils E hcells (targets.length - es.length)
    have heach := hev.each hm
    have hlen : (vm.thread.top values.length ++ List.replicate (targets.length - es.length)
        Value.nil).length = values.length + (targets.length - es.length) := by simp
    rw [← List.take_append_drop ((vm.thread.top values.length ++ List.replicate
      (targets.length - es.length) Value.nil).length - targets.length)
      (vm.thread.top values.length ++ List.replicate _ _), drop_last_eq (by rw [hlen]; omega)] at h
    have hgiven : c.given E values vm = fun i => (vm.thread.top values.length ++
        List.replicate (targets.length - es.length) Value.nil).getD ((vm.thread.top values.length ++
          List.replicate (targets.length - es.length) Value.nil).length - targets.length + i) .nil := by
      funext i
      simp only [given, hm, if_true, getD_append_nils, hlen, ObjThread.length_top]
    rw [← hgiven] at h
    exact ⟨vm₁, _, hrun, h⟩
  · simp only [hm, if_false]
    have hlen := hinner hm
    have hn : (UInt8.ofNat targets.length).toNat = targets.length :=
      UInt8.toNat_ofNat_of_lt' (by have := c.short; simp only [UInt8.size]; omega)
    have hdepth : (UInt8.ofNat c.evaluated.current.localCount).toNat =
        c.evaluated.current.localCount :=
      UInt8.toNat_ofNat_of_lt' (by simp only [UInt8.size]; omega)
    rw [← List.take_append_drop c.inner (vm.thread.top values.length)] at hcells
    obtain ⟨vm₁, hstep, h⟩ := VM.opUnpack_spec E c.evaluated.current.localCount
      targets.length hcells (by rw [List.length_take, ObjThread.length_top]; omega)
    rw [← List.take_append_drop ((VM.unpacked E vm targets.length _).length - targets.length)
      (VM.unpacked E vm targets.length _), ← List.append_assoc, VM.drop_last_unpacked] at h
    have hperform : vm.perform E .opUnpack [UInt8.ofNat c.evaluated.current.localCount,
        UInt8.ofNat targets.length] = .next vm₁ := by
      simp only [VM.perform, List.getD_cons_zero, List.getD_cons_succ, hdepth, hn]
      exact hstep
    have hgiven : c.given E values vm =
        VM.unpackedCell E vm targets.length ((vm.thread.top values.length).drop c.inner) := by
      funext i
      simp only [given, hm, if_false]
    rw [← hgiven] at h
    exact ⟨vm₁, _, VM.performAll_cons hperform rfl, h⟩

theorem straight_fill : ∀ i ∈ c.fill, VM.Straight i.op := by
  intro i hi
  unfold fill at hi
  split_ifs at hi
  · rw [List.eq_of_mem_replicate hi]
    exact .inl rfl
  · rw [List.mem_singleton.mp hi]
    exact .inr (.inl rfl)

theorem straight_stores {cs : List Value} {ps : List Place} {is : List Instr}
    (h : List.Forall₂ (fun p i => p.StoredBy cs i) ps is)
    (hps : ∀ p ∈ ps, (∃ n, p = .global n) ∨ ∃ k, p = .slot k) :
    ∀ i ∈ is.flatMap fun i => [i, popInstr], VM.Straight i.op := by
  induction h with
  | nil => simp
  | @cons p i ps is hpi _ ih =>
    obtain ⟨hp, hps⟩ := List.forall_mem_cons.mp hps
    intro j hj
    rw [List.flatMap_cons, List.mem_append] at hj
    rcases hj with hj | hj
    · rcases List.mem_cons.mp hj with rfl | hj
      · rcases hp with ⟨n, rfl⟩ | ⟨k, rfl⟩
        · obtain ⟨k, rfl, -⟩ := hpi
          exact .inr (.inr (.inr (.inl rfl)))
        · obtain rfl := hpi
          exact .inr (.inr (.inl rfl))
      · rw [List.mem_singleton.mp hj]
        exact .inr (.inr (.inr (.inr (.inl rfl))))
    · exact ih hps j hj

/-- The places of the targets, in the order in which they are stored to. -/
def places : List Place := targets.reverse.map (storedPlace c.declared)

theorem places_bound : ∀ p ∈ c.places, (∃ n, p = .global n) ∨
    ∃ k, p = .slot k ∧ k < c.declared.current.localCount := by
  intro p hp
  obtain ⟨n, -, rfl⟩ := List.mem_map.mp hp
  exact c.storedPlace_bound n

/-- However the run goes, it ends in the adjusted stack. -/
theorem performAll_height {E : Env W} {vm last : VM W} {log : List (Place × Value)}
    (h : vm.performAll E c.behind = some (last, log)) :
    last.thread.stackTop =
      vm.frame.slots + (UInt8.ofNat c.final.current.localCount).toNat := by
  obtain ⟨-, is, hcode, his⟩ := c.stores_spec
  rw [behind, hcode, flatten_storeCode, VM.performAll_append] at h
  obtain ⟨⟨vm₁, log₁⟩, hrun, h⟩ := Option.bind_eq_some_iff.mp h
  obtain ⟨⟨vm₂, log₂⟩, hlast, h⟩ := Option.bind_eq_some_iff.mp h
  cases h
  have hplaces : ∀ p ∈ c.places, (∃ n, p = .global n) ∨ ∃ k, p = .slot k := fun p hp =>
    (c.places_bound p hp).imp id fun ⟨k, hk, _⟩ => ⟨k, hk⟩
  have hstraight : ∀ i ∈ c.fill ++ is.flatMap fun i => [i, popInstr], VM.Straight i.op := by
    intro i hi
    rcases List.mem_append.mp hi with hi | hi
    · exact c.straight_fill i hi
    · exact straight_stores his hplaces i hi
  have hsame := VM.performAll_sameRun hstraight hrun
  rw [adjustTo, VM.performAll_adjust] at hlast
  cases hlast
  rw [VM.adjusted, VM.thread_setThread, ← hsame.frame]

/-- The run behind the right-hand side, where it is not stopped by `OP_UNPACK`. -/
theorem performAll_behind {E : Env W} {start vm : VM W} {values : List Value}
    (hev : c.Evaluated E start values vm) (hroom : c.final.current.localCount < 256)
    (hinner : ¬ 1 < es.length → c.inner ≤ values.length) :
    ∃ last log, vm.performAll E c.behind = some (last, log) ∧ log.length = targets.length ∧
      ∀ i n, targets[i]? = some n →
        log.reverse[i]? = some (storedPlace c.declared n, c.given E values vm i) := by
  obtain ⟨hdeclared, hevaluated⟩ := c.inner_spec
  obtain ⟨-, is, hcode, his⟩ := c.stores_spec
  obtain ⟨vm₁, front, hfill, hcells⟩ := c.performAll_fill hev hroom hinner
  have hsame := VM.performAll_sameRun c.straight_fill hfill
  let vs := (List.range targets.length).map (c.given E values vm)
  have hvs : vs.length = targets.length := by simp [vs]
  have hplaces : c.places.length = targets.length := by simp [places]
  have hstored : List.Forall₂ (fun p i => p.StoredBy (vm₁.function E).constants i) c.places is := by
    rw [hsame.function_eq]
    exact his.imp fun p i hi => hi.mono hev.constants
  have hbelow : ∀ p ∈ c.places, (∃ n, p = .global n) ∨ ∃ k, p = .slot k ∧ k < 256 ∧
      vm₁.frame.slots + k < vm.frame.slots + c.declared.current.localCount := by
    intro p hp
    rcases c.places_bound p hp with hg | ⟨k, rfl, hk⟩
    · exact .inl hg
    · exact .inr ⟨k, rfl, by omega, by rw [hsame.frame]; omega⟩
  have hthread : vm₁.currentThread = vm₁.run.frameThread := by
    rw [hsame.thread, hsame.run]
    exact hev.thread
  have hcells' : vm₁.thread.Cells (vm.frame.slots + c.declared.current.localCount)
      (front ++ vs.reverse.reverse) := by
    rw [List.reverse_reverse]
    exact hcells
  obtain ⟨vm₂, hstores, -⟩ := VM.performAll_stores hcells' rfl hstored hthread (by simp [hvs, hplaces])
    hbelow
  refine ⟨vm₂.adjusted (UInt8.ofNat c.final.current.localCount), c.places.zip vs.reverse, ?_,
    by simp [hvs, hplaces], fun i n hi => ?_⟩
  · rw [behind, hcode, flatten_storeCode, VM.performAll_append, VM.performAll_append, hfill]
    simp only [Option.bind_eq_bind, Option.bind_some, hstores, adjustTo, VM.performAll_adjust,
      List.nil_append, List.append_nil]
  · have hin : i < targets.length := (List.getElem?_eq_some_iff.mp hi).1
    have hzip : (c.places.zip vs.reverse).reverse = (targets.map (storedPlace c.declared)).zip vs := by
      rw [List.zip, List.reverse_zipWith (by simp [hvs, hplaces])]
      simp [places]
    rw [hzip, List.getElem?_zip_eq_some.mpr ⟨?_, ?_⟩]
    · rw [List.getElem?_map, hi]
      rfl
    · rw [List.getElem?_map, List.getElem?_range hin]
      rfl

/-- Where the right-hand side declares more locals than it leaves values, `OP_UNPACK` fails. -/
theorem performAll_behind_none {E : Env W} {start vm : VM W} {values : List Value}
    (hev : c.Evaluated E start values vm) (hroom : c.final.current.localCount < 256)
    (hm : ¬ 1 < es.length) (hinner : values.length < c.inner) : vm.performAll E c.behind = none := by
  obtain ⟨hdeclared, hevaluated⟩ := c.inner_spec
  have hlocals : (UInt8.ofNat c.declared.current.localCount).toNat = c.declared.current.localCount :=
    UInt8.toNat_ofNat_of_lt' (by simp only [UInt8.size]; omega)
  have hdepth : (UInt8.ofNat c.evaluated.current.localCount).toNat = c.evaluated.current.localCount :=
    UInt8.toNat_ofNat_of_lt' (by simp only [UInt8.size]; omega)
  have hlow : vm.thread.stackTop < vm.frame.slots + c.evaluated.current.localCount := by
    rw [hev.height, hlocals]
    omega
  have hperform : ∀ k, vm.perform E .opUnpack [UInt8.ofNat c.evaluated.current.localCount, k] =
      .error (vm.runtimeError "Internal error: invalid stack state in unpack.") := by
    intro k
    simp only [VM.perform, List.getD_cons_zero, hdepth, VM.opUnpack, if_pos hlow]
  rw [behind, fill, if_neg hm, List.singleton_append, List.cons_append, VM.performAll, hperform]

end MultiAssignment

/-- `a, b = 1, 2, ...` as a script. -/
def sampleTargets : List Name := [ascii "a", ascii "b"]

def sampleNumbers : List Nat → Exprs
  | [] => .nil
  | n :: ns => .cons (.number (doubleOfNat n) true) (sampleNumbers ns)

def sampleValues (ns : List Nat) : List Value := ns.map fun n => .number (doubleOfNat n)

abbrev SampleAssignment (ns : List Nat) : Type :=
  MultiAssignment sampleTargets (sampleNumbers ns) (initialState 0 0)

/-- The script compiled, and its machine after the steps up to the point behind the right-hand
side. -/
def sampleAssignment (ns : List Nat)
    (test : List ObjFunction → VM Tables → SampleAssignment ns → Bool) : Bool :=
  match compile 0 0 (.cons (.multiAssignment sampleTargets (sampleNumbers ns)) .nil) with
  | none => false
  | some fs =>
    match sampleRun fs (fun _ => true) (1 + ns.length),
      multiAssignment sampleTargets (sampleNumbers ns) (initialState 0 0) with
    | some vm, some c => test fs vm c
    | _, _ => false

theorem sampleAssignment_run (ns : List Nat)
    (test : List ObjFunction → VM Tables → SampleAssignment ns → Bool)
    (h : sampleAssignment ns test = true) :
    ∃ fs vm c, compile 0 0 (.cons (.multiAssignment sampleTargets (sampleNumbers ns)) .nil) = some fs ∧
      sampleRun fs (fun _ => true) (1 + ns.length) = some vm ∧ test fs vm c = true := by
  unfold sampleAssignment at h
  split at h
  · cases h
  next fs hc =>
    split at h
    next vm c hr _ => exact ⟨fs, vm, c, hc, hr, h⟩
    next => cases h

/-- The facts that `Evaluated` lists, on the machine of the script. -/
def sampleEvaluated (ns : List Nat) (fs : List ObjFunction) (vm : VM Tables)
    (c : SampleAssignment ns) : Bool :=
  decide (vm.currentThread = vm.run.frameThread ∧ vm.frame = (sampleStart fs).frame ∧
    vm.thread.stackTop = vm.frame.slots + (UInt8.ofNat c.declared.current.localCount).toNat +
      (sampleValues ns).length ∧
    c.final.current.constants <+: (vm.function (sampleEnv fs)).constants ∧
    (sampleStart fs).thread.stackTop = (sampleStart fs).frame.slots + 1)

theorem sampleEvaluated_spec {ns : List Nat} {fs : List ObjFunction} {vm : VM Tables}
    {c : SampleAssignment ns} (h : sampleEvaluated ns fs vm c = true) :
    c.Evaluated (sampleEnv fs) (sampleStart fs) (sampleValues ns) vm ∧
      (sampleStart fs).thread.stackTop =
        (sampleStart fs).frame.slots + (initialState 0 0).current.localCount := by
  obtain ⟨hthread, hframe, hheight, hconst, hstart⟩ := of_decide_eq_true h
  have hlen : ∀ ns, (sampleNumbers ns).length = ns.length := by
    intro ns
    induction ns with
    | nil => rfl
    | cons n ns ih => exact congrArg (· + 1) ih
  exact ⟨⟨hthread, hframe, hheight, fun _ => by simp [hlen, sampleValues], hconst⟩, hstart⟩

/-- A script has neither declared globals nor functions around it. -/
theorem clearName_script (n : Name) : MultiAssignment.ClearName (initialState 0 0) n :=
  ⟨(nomatch ·), fun _ => rfl⟩

end Compile

end ToiLang
