import ToiLang.Vm.Exception

namespace ToiLang

def Closure.value (c : Closure) : Value := .closure c.addr c.function c.upvalues

/-- `new_thread_with_caps` -/
def newThread (stackCapacity frameCapacity handlerCapacity : Nat) : ObjThread where
  stack := fun _ => .nil
  stackTop := 0
  stackCapacity := stackCapacity
  frames := fun _ => ⟨⟨0, 0, []⟩, ⟨0, 0⟩, 0, none⟩
  frameCount := 0
  frameCapacity := frameCapacity
  handlers := []
  handlerCapacity := handlerCapacity
  openUpvalues := []
  hasException := false
  exception := .nil
  caller := none
  isGenerator := false
  generatorMode := false
  generatorIndex := 0
  pendingSetLocals := []

/-- The stack `[callee, args..]` made into `[callable, receiver, args..]`. -/
def ObjThread.insertReceiver (t : ObjThread) (n : Nat) (callable receiver : Value) : ObjThread :=
  (t.drop (n + 1)).pushAll (callable :: receiver :: t.top n)

/-- How the code behind an opcode ends: at `break`, there with the frame of another coroutine, at
`runtime_error`, in a `return` of `vm_run`, or in undefined behaviour. -/
inductive Outcome (W : Type)
  | next (vm : VM W)
  | switch (vm : VM W)
  | error (vm : VM W)
  | leave (vm : VM W) (ok : Bool)
  | undefined

/-- What a C function leaves that answers 1 (`ok`) or 0. -/
abbrev Called (W : Type) := Except (VM W) (VM W)

namespace VM

variable {W : Type}

def pushFrame (vm : VM W) (c : Closure) (argCount : Nat) (module : Option ModuleContext) : VM W :=
  let t := vm.thread
  vm.setThread { t with
    frames := Function.update t.frames t.frameCount ⟨c, ⟨c.function, 0⟩, t.stackTop - argCount - 1, module⟩
    frameCount := t.frameCount + 1 }

/-- The first parameter whose argument does not match its type. -/
def typeMismatch (E : Env W) : List TypeHint → List Value → Nat → Option Nat
  | type :: types, v :: vs, i =>
    if type ≠ .any ∧ E.valueMatchesType v type = false then some i
    else typeMismatch E types vs (i + 1)
  | _, _, _ => none

def finishClosureCall (E : Env W) (vm : VM W) (c : Closure) (argCount : Nat) : Called W :=
  let f := E.fns c.function
  match typeMismatch E (f.paramTypes.take f.arity) (vm.thread.top argCount) 1 with
  | some i => .error (vm.runtimeError s!"Type mismatch for parameter {i}.")
  | none =>
    if vm.thread.frameCount = vm.thread.frameCapacity then
      .error (vm.runtimeError "Stack overflow.")
    else .ok (vm.pushFrame c argCount none)

def call (E : Env W) (vm : VM W) (c : Closure) (argCount : Nat) : Called W :=
  let f := E.fns c.function
  if f.isVariadic then
    let required := f.arity - 1
    if argCount < required then
      .error (vm.runtimeError s!"Expected at least {required} arguments but got {argCount}.")
    else
      let extra := argCount - required
      let varargs := E.newTable vm.toWorld (vm.thread.top extra)
      finishClosureCall E (((vm.setWorld varargs.1).drop extra).push (.table varargs.2)) c f.arity
  else if f.arity < argCount then
    .error (vm.runtimeError s!"Expected {f.arity} arguments but got {argCount}.")
  else if argCount < f.arity then
    let start := f.arity - f.defaults.length
    if f.defaults = [] then
      .error (vm.runtimeError s!"Expected {f.arity} arguments but got {argCount}.")
    else if argCount < start then
      .error (vm.runtimeError
        s!"Expected at least {start} arguments (non-default parameters) but got {argCount}.")
    else
      let rest := f.defaults.drop (argCount - start)
      finishClosureCall E (vm.setThread (vm.thread.pushAll rest)) c f.arity
  else finishClosureCall E vm c argCount

def callNamed (E : Env W) (vm : VM W) (c : Closure) (argCount : Nat) : Called W :=
  let f := E.fns c.function
  if argCount < 1 then
    .error (vm.runtimeError "Named call requires a named-arguments table.")
  else if (vm.thread.peek 0).isTable = false then
    .error (vm.runtimeError "Named call requires a table as final argument.")
  else
    let bound := E.bindNamed vm.toWorld f (vm.thread.top argCount)
    let vm := vm.setWorld bound.1
    match bound.2 with
    | .error message => .error (vm.setThread (vm.thread.runtimeError message))
    | .ok vs => finishClosureCall E (vm.setThread ((vm.thread.drop argCount).pushAll vs)) c f.arity

/-- The start of native code, with its arguments and the callee taken off the stack. -/
def callNative (vm : VM W) (native argCount : Nat) (after : AfterNative) : VM W :=
  let args := vm.thread.top argCount
  let vm := (vm.drop (argCount + 1)).saveIp
  { vm with control := .native ⟨native, 0, vm.currentThread, after⟩ (.start args) }

/-- Saves the caller's position, and goes on in the callee. -/
def callClosure (E : Env W) (named : Bool) (vm : VM W) (c : Closure) (argCount : Nat) : Outcome W :=
  match (if named then callNamed E vm.saveIp c argCount else call E vm.saveIp c argCount) with
  | .ok vm => .next vm.loadFrame
  | .error vm => .error vm

def callValue (E : Env W) (vm : VM W) (callee : Value) (argCount : Nat) (after : AfterNative) :
    Outcome W :=
  match callee with
  | .native a => .next (vm.callNative a argCount after)
  | .closure a f us =>
    match after, callClosure E false vm ⟨a, f, us⟩ argCount with
    | .push v, .next vm => .next (vm.push v)
    | _, o => o
  | _ => .error vm

/-- `create_generator_positional` and `create_generator_named`; an error is left on the new
thread. -/
def createGenerator (E : Env W) (named : Bool) (vm : VM W) (c : Closure) (argCount : Nat) :
    Outcome W :=
  let g := vm.nextThread
  let gen := { newThread 96 24 16 with isGenerator := true }
  let inner := { vm with
    threads := Function.update vm.threads g
      ((gen.push c.value).pushAll (vm.thread.top argCount))
    currentThread := g
    nextThread := g + 1 }
  match (if named then callNamed E inner c argCount else call E inner c argCount) with
  | .error inner => .error { inner with currentThread := vm.currentThread }
  | .ok inner =>
    .next (({ inner with currentThread := vm.currentThread }.drop (argCount + 1)).push (.thread g))

def dispatch (E : Env W) (named : Bool) (vm : VM W) (callee : Value) (argCount : Nat) : Outcome W :=
  match callee with
  | .closure a f us =>
    if (E.fns f).isGenerator then createGenerator E named vm ⟨a, f, us⟩ argCount
    else callClosure E named vm ⟨a, f, us⟩ argCount
  | .native a => .next (vm.callNative a argCount .continue)
  | .table t =>
    let mm := E.metamethod vm.toWorld (.table t) (ascii "__call")
    let vm' := vm.setThread (vm.thread.insertReceiver argCount mm callee)
    match mm with
    | .closure a f us => callClosure E named vm' ⟨a, f, us⟩ (argCount + 1)
    | .native a => .next (vm'.callNative a (argCount + 1) .continue)
    | _ => .error (vm.runtimeError "Can only call functions.")
  | _ => .error (vm.runtimeError "Can only call functions.")

/-- `invoke_call_with_arg_count` and `invoke_call_with_named_arg_count`. -/
def invoke (E : Env W) (named : Bool) (vm : VM W) (argCount : Nat) : Outcome W :=
  match vm.thread.peek argCount with
  | .boundMethod _ receiver method =>
    dispatch E named (vm.setThread (vm.thread.insertReceiver argCount method receiver)) method
      (argCount + 1)
  | callee => dispatch E named vm callee argCount

/-- `OP_CALL_EXPAND` -/
def callExpand (E : Env W) (vm : VM W) (fixed : Nat) : Outcome W :=
  match vm.thread.peek 0 with
  | .table a =>
    let vs := E.spread vm.toWorld a
    if 255 < fixed + vs.length then
      .error (vm.runtimeError "Can't have more than 255 arguments.")
    else
      let vm := vm.setThread ((vm.thread.drop 1).pushAll vs)
      let argCount := fixed + vs.length
      match E.spreadNamed vm.toWorld a with
      | none => invoke E false vm argCount
      | some (w, named) =>
        let vm := (vm.setWorld w).push (.table named)
        if 255 < argCount + 1 then
          .error (vm.runtimeError "Can't have more than 255 arguments.")
        else invoke E true vm (argCount + 1)
  | _ => .error (vm.runtimeError "Spread argument must be a table.")

def discardHandlersForFrameReturn (vm : VM W) : VM W :=
  let t := vm.thread
  vm.setThread { t with handlers := t.handlers.dropWhile fun h => t.frameCount ≤ h.frameCount }

def applyPendingSetLocal (vm : VM W) : VM W :=
  let t := vm.thread
  match t.pendingSetLocals with
  | [] => vm
  | (slot, frame) :: rest =>
    if frame + 1 = t.frameCount then
      vm.setThread { t.setSlot ((t.frames frame).slots + slot) (t.peek 0) with
        pendingSetLocals := rest }
    else vm

def setGlobal (vm : VM W) (name : Bytes) (v : Option Value) : VM W :=
  { vm with globals := Function.update vm.globals name v }

def restoreModuleContext (vm : VM W) (frame : CallFrame) : VM W :=
  match frame.module with
  | none => vm
  | some c =>
    ((vm.setGlobal (ascii "__name") c.prevModuleName).setGlobal
      (ascii "__file") c.prevModuleFile).setGlobal (ascii "__main") c.prevModuleMain

def cacheModuleResult (vm : VM W) (frame : CallFrame) (v : Value) : VM W :=
  match frame.module with
  | none => vm
  | some c => { vm with modules := Function.update vm.modules c.cacheName (some v) }

/-- `loadFrame` where another thread takes over; one without frames has nothing at `frames - 1`. -/
def reload (vm : VM W) : Outcome W :=
  if vm.thread.frameCount = 0 then .undefined else .switch vm.loadFrame

/-- What a thread that ended or yielded leaves on the stack of its caller. -/
def passToCaller (vm : VM W) (caller : Nat) (vs : List Value) : VM W :=
  { vm with threads := Function.update vm.threads caller ((vm.threads caller).pushAll vs) }

/-- A return takes its frame off and leaves the values in the place of the call. -/
def leaveFrame (vm : VM W) (vs : List Value) : VM W :=
  let frame := vm.frame
  let vm := (vm.cacheModuleResult frame (vs.headD .nil)).closeUpvalues frame.slots
  let vm := vm.discardHandlersForFrameReturn.restoreModuleContext frame
  let t := { vm.thread with frameCount := vm.thread.frameCount - 1, stackTop := frame.slots }
  (vm.setThread (t.pushAll vs)).applyPendingSetLocal

/-- The end of a coroutine, whose `caller` is cleared already. -/
def returnToCaller (vm : VM W) (caller : Nat) (vs : List Value) : Outcome W :=
  if (vm.threads caller).stackCapacity ≤ (vm.threads caller).stackTop + 1 + vs.length then
    .error (vm.runtimeError "Stack overflow in caller.")
  else
    let vm :=
      if vm.thread.isGenerator && vm.thread.generatorMode then
        (vm.setThread { vm.thread with generatorMode := false }).passToCaller caller [.nil, .nil]
      else vm.passToCaller caller (.bool true :: vs)
    { vm with currentThread := caller }.reload

/-- `OP_RETURN`, with one value, and `OP_RETURN_N`, once the values are off the stack. -/
def returnValues (vm : VM W) (vs : List Value) : Outcome W :=
  let vm := vm.leaveFrame vs
  if vm.run.minFrameCount < vm.thread.frameCount then .next vm.loadFrame
  else
    match vm.thread.caller with
    | none => .leave (if vm.run.minFrameCount = 0 then vm.drop vs.length else vm) true
    | some caller => (vm.setThread { vm.thread with caller := none }).returnToCaller caller vs

end VM

end ToiLang
