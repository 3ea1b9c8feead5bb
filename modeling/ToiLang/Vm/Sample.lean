import ToiLang.Decoders
import ToiLang.Transition
import ToiLang.Vm.Step

namespace ToiLang

/-- A small heap to run scripts on: tables with string keys, and their metatables. -/
structure Tables where
  fields : Nat → List (Bytes × Value)
  metatable : Nat → Option Nat
  count : Nat

namespace Tables

def get (h : Tables) (t : Nat) (k : Bytes) : Value := ((h.fields t).lookup k).getD .nil

def set (h : Tables) (t : Nat) (k : Bytes) (v : Value) : Tables :=
  { h with fields := Function.update h.fields t ((k, v) :: h.fields t) }

def metamethod (h : Tables) (v : Value) (name : Bytes) : Value :=
  match v with
  | .table t => ((h.metatable t).map fun m => h.get m name).getD .nil
  | _ => .nil

end Tables

/-- The instructions on data that the scripts below use. -/
def sampleData (w : World Tables) (op : OpCode) (operands : List Value) : DataAct Tables :=
  match op, operands with
  | .opNewTable, _ =>
    .push { w with heap := { w.heap with count := w.heap.count + 1 } } [.table w.heap.count]
  | .opGetTable, [.table t, .string k] => .push w [w.heap.get t k]
  | .opSetTable, [.table t, .string k, v] => .push { w with heap := w.heap.set t k v } [v]
  | .opEqual, [a, b] => .push w [.bool (a = b)]
  | _, _ => .fail w

/-- `setmetatable` -/
def sampleNative (w : World Tables) : NativeInput → NativeAct Tables
  | .start [.table t, .table m] =>
    .returns { w with
      heap := { w.heap with metatable := Function.update w.heap.metatable t (some m) } } [.table t]
  | _ => .fails w

def sampleEnv (fs : List ObjFunction) : Env Tables where
  fns := Final.store ⟨[], fs, 0⟩
  isFalsey := fun _ v => v = .nil ∨ v = .bool false ∨ v = .number 0
  valueMatchesType := fun _ _ => true
  greater := fun a b => b.toNat < a.toNat
  lessEqual := fun a b => a.toNat ≤ b.toNat
  increment := fun a => a
  negate := fun v => v
  typedArith := fun _ a _ => a
  newTable := fun w _ => ({ w with heap := { w.heap with count := w.heap.count + 1 } }, w.heap.count)
  tableGetArray := fun _ _ _ => .nil
  spread := fun _ _ => []
  spreadNamed := fun _ _ => none
  metamethod := fun w v name => w.heap.metamethod v name
  bindNamed := fun w _ vs => (w, .ok vs.dropLast)
  data := sampleData
  importModule := fun w _ => .missing w
  printValue := fun w _ => w
  printNewline := fun w => w
  generatorIndexValue := fun _ => .nil
  collectGarbage := fun w => w
  native := fun w _ _ i => sampleNative w i

def sampleWorld : World Tables where
  globals := fun n => if n = ascii "setmetatable" then some (.native 0) else none
  modules := fun _ => none
  heap := ⟨fun _ => [], fun _ => none, 0⟩

/-- The machine that is about to run a compiled script. -/
def sampleStart (fs : List ObjFunction) : VM Tables :=
  VM.interpret (sampleEnv fs) sampleWorld (fs.length - 1)

/-- The machine after `n` steps that meet a test. -/
def sampleRun (fs : List ObjFunction) (ok : VM Tables → Bool) (n : Nat) : Option (VM Tables) :=
  Nat.rec (some (sampleStart fs))
    (fun _ vm => do
      let vm ← vm
      if ok vm then (vm.turn (sampleEnv fs) false).settle else none) n

/-- A step of `vm_run` that ends at `break`. -/
def sampleNext (fs : List ObjFunction) (vm : VM Tables) : Bool :=
  match vm.control, vm.turn (sampleEnv fs) false with
  | .native _ .runFailed, _ => false
  | _, .next _ => true
  | _, _ => false

theorem sampleRun_reachable {fs : List ObjFunction} {ok : VM Tables → Bool} {n : Nat} {vm : VM Tables}
    (h : sampleRun fs ok n = some vm) :
    Transition.Reachable (fun i vm => (VM.turn (sampleEnv fs) i vm).settle)
      (fun i vm => i = false ∧ ok vm = true) (sampleStart fs) vm := by
  induction n generalizing vm with
  | zero =>
    cases Option.some.inj h
    exact .start
  | succ n ih =>
    obtain ⟨prev, hprev, hstep⟩ := Option.bind_eq_some_iff.mp h
    split_ifs at hstep with hok
    exact .step (ih hprev) ⟨rfl, hok⟩ hstep

/-- What a script's machine looks like after `n` steps. -/
def sampleTest (program : Stmts) (ok : List ObjFunction → VM Tables → Bool) (n : Nat)
    (test : VM Tables → Bool) : Bool :=
  match Compile.compile 0 0 program with
  | none => false
  | some fs =>
    let script := (sampleEnv fs).fns (fs.length - 1)
    decide (script.arity = 0) && !script.isVariadic &&
      match sampleRun fs (ok fs) n with
      | none => false
      | some vm => test vm

theorem sampleTest_run {program : Stmts} {ok : List ObjFunction → VM Tables → Bool} {n : Nat}
    {test : VM Tables → Bool} (h : sampleTest program ok n test = true) :
    ∃ fs vm, Compile.compile 0 0 program = some fs ∧
      ((sampleEnv fs).fns (fs.length - 1)).arity = 0 ∧
      ((sampleEnv fs).fns (fs.length - 1)).isVariadic = false ∧
      Transition.Reachable (fun i vm => (VM.turn (sampleEnv fs) i vm).settle)
        (fun i vm => i = false ∧ ok fs vm = true) (sampleStart fs) vm ∧ test vm = true := by
  unfold sampleTest at h
  split at h
  · cases h
  next fs hc =>
    simp only [Bool.and_eq_true, decide_eq_true_eq, Bool.not_eq_true'] at h
    obtain ⟨⟨ha, hv⟩, h⟩ := h
    split at h
    · cases h
    next vm hr => exact ⟨fs, vm, hc, ha, hv, sampleRun_reachable hr, h⟩

end ToiLang
