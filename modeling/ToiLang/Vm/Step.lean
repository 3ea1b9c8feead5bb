import ToiLang.Vm.Call

namespace ToiLang

/-- The operands that an instruction on data takes off the stack. -/
def OpCode.dataOperands : OpCode → List UInt8 → Nat
  | .opNewTable, _ => 0
  | .opAddConst, _ | .opSubConst, _ | .opMulConst, _ | .opDivConst, _ | .opModConst, _
  | .opLength, _ | .opIterPrep, _ | .opIterPrepIpairs, _ | .opImportStar, _ => 1
  | .opSetTable, _ => 3
  | .opSlice, _ => 4
  | .opBuildString, args => (args.headD 0).toNat
  | _, _ => 2

def Outcome.settle {W : Type} : Outcome W → Option (VM W)
  | .next vm => some vm
  | .switch vm => some vm
  | .error vm => some vm.handleException
  | .leave vm ok => some { vm with control := .leave ok }
  | .undefined => none

namespace VM

variable {W : Type}

def constant (E : Env W) (vm : VM W) (index : Nat) : Value :=
  (vm.function E).constants.getD index .nil

/-- `READ_STRING` is undefined on a constant that is no string. -/
def withName (E : Env W) (vm : VM W) (index : Nat) (k : Bytes → Outcome W) : Outcome W :=
  match vm.constant E index with
  | .string name => k name
  | _ => .undefined

def opTry (vm : VM W) (depth flags exceptJump finallyJump : Nat) : Outcome W :=
  let t := vm.thread
  if t.handlerCapacity ≤ t.handlers.length then
    .error (vm.runtimeError "Too many nested try blocks.")
  else
    let hasExcept := flags % 2 = 1
    let hasFinally := flags / 2 % 2 = 1
    .next (vm.setThread { t with
      handlers :=
        { frameCount := t.frameCount
          stackTop := vm.frame.slots + depth
          hasExcept := hasExcept
          hasFinally := hasFinally
          inExcept := false
          exceptIp := if hasExcept then vm.run.ip.forward exceptJump else ⟨0, 0⟩
          finallyIp := if hasFinally then vm.run.ip.forward finallyJump else ⟨0, 0⟩ } :: t.handlers })

def opEndTry (vm : VM W) : Outcome W :=
  .next (vm.setThread { vm.thread with handlers := vm.thread.handlers.tail })

def opEndFinally (vm : VM W) : Outcome W :=
  if vm.thread.hasException then .error vm else .next vm

def opThrow (vm : VM W) : Outcome W :=
  let v := vm.thread.peek 0
  .error ((vm.drop 1).setThread ((vm.drop 1).thread.runtimeError v))

def opGetGlobal (E : Env W) (vm : VM W) (index : Nat) : Outcome W :=
  vm.withName E index fun name =>
    match vm.globals name with
    | some v => .next (vm.push v)
    | none =>
      .error (vm.setThread (vm.thread.runtimeError
        (.string (ascii "Undefined variable '" ++ name ++ ascii "'."))))

def opDeleteGlobal (E : Env W) (vm : VM W) (index : Nat) : Outcome W :=
  vm.withName E index fun name =>
    match vm.globals name with
    | some _ => .next (vm.setGlobal name none)
    | none =>
      .error (vm.setThread (vm.thread.runtimeError
        (.string (ascii "Undefined variable '" ++ name ++ ascii "'."))))

/-- The value that an upvalue object points to. -/
def readUpvalue (vm : VM W) (u : Nat) : Value :=
  match vm.upvalues u with
  | .opened t slot => (vm.threads t).stack slot
  | .closed v => v

def writeUpvalue (vm : VM W) (u : Nat) (v : Value) : VM W :=
  match vm.upvalues u with
  | .opened t slot =>
    { vm with threads := Function.update vm.threads t ((vm.threads t).setSlot slot v) }
  | .closed _ => { vm with upvalues := Function.update vm.upvalues u (.closed v) }

def opForPrep (E : Env W) (vm : VM W) (var last jump : Nat) : Outcome W :=
  match vm.getLocal var, vm.getLocal last with
  | .number v, .number e =>
    .next (if E.greater v e then vm.setIp (vm.run.ip.forward jump) else vm)
  | _, _ => .error (vm.runtimeError "for range requires numeric bounds.")

def opForLoop (E : Env W) (vm : VM W) (var last jump : Nat) : Outcome W :=
  match vm.getLocal var, vm.getLocal last with
  | .number v, .number e =>
    let next := E.increment v
    let vm := vm.setLocal var (.number next)
    .next (if E.lessEqual next e then vm.setIp (vm.run.ip.back jump) else vm)
  | _, _ => .error (vm.runtimeError "for range requires numeric bounds.")

/-- The upvalues of a new closure, in the order of the instruction's pairs. -/
def captureAll (vm : VM W) : List UInt8 → VM W × List Nat
  | isLocal :: index :: rest =>
    if isLocal = 0 then
      let r := captureAll vm rest
      (r.1, vm.frame.closure.upvalues.getD index.toNat 0 :: r.2)
    else
      let c := vm.captureUpvalue (vm.frame.slots + index.toNat)
      let r := captureAll c.1 rest
      (r.1, c.2 :: r.2)
  | _ => (vm, [])

/-- `OP_CLOSURE` pushes the closure before it captures. -/
def opClosure (E : Env W) (vm : VM W) (args : List UInt8) : Outcome W :=
  match vm.constant E (args.headD 0).toNat with
  | .function f =>
    let r := captureAll (vm.push .nil) args.tail
    .next { r.1.setThread (r.1.thread.setSlot vm.thread.stackTop (.closure vm.nextObject f r.2)) with
      nextObject := vm.nextObject + 1 }
  | _ => .undefined

def opUnpack (E : Env W) (vm : VM W) (depth count : Nat) : Outcome W :=
  let t := vm.thread
  let base := vm.frame.slots + depth
  if t.stackTop < base then
    .error (vm.runtimeError "Internal error: invalid stack state in unpack.")
  else
    let available := t.stackTop - base
    let below := { t with stackTop := base }
    match t.top available with
    | [.table a] =>
      .next (vm.setThread (below.pushAll
        ((List.range count).map fun i => E.tableGetArray vm.toWorld a (i + 1))))
    | _ => .next (vm.setThread (t.pushAll (List.replicate (count - available) .nil)))

/-- What follows from the operands and the tables, not from the frames and the handlers. -/
def performData (E : Env W) (vm : VM W) (op : OpCode) (args : List UInt8) : Outcome W :=
  let n := op.dataOperands args
  let operands := vm.thread.top n ++
    match op with
    | .opAddConst | .opSubConst | .opMulConst | .opDivConst | .opModConst =>
      [vm.constant E (args.headD 0).toNat]
    | _ => []
  let vm := vm.drop n
  match E.data vm.toWorld op operands with
  | .push w vs => .next ((vm.setWorld w).setThread (vm.thread.pushAll vs))
  | .raise w e => .error ((vm.setWorld w).setThread (vm.thread.runtimeError e))
  | .fail w => .error (vm.setWorld w)
  | .call w method vs =>
    match method with
    | .closure a f us =>
      callClosure E false ((vm.setWorld w).setThread (vm.thread.pushAll (method :: vs))) ⟨a, f, us⟩
        vs.length
    | _ => .undefined
  | .callValue w callee vs =>
    callValue E ((vm.setWorld w).setThread (vm.thread.pushAll (callee :: vs))) callee vs.length
      .continue
  | .callThenPush w callee vs v =>
    callValue E ((vm.setWorld w).setThread (vm.thread.pushAll (callee :: vs))) callee vs.length
      (.push v)

/-- The fused instructions of the optimiser: the result is stored to a local as well, at once
or when the metamethod returns. -/
def performSetLocal (E : Env W) (vm : VM W) (op : OpCode) (slot : Nat) (operands : List Value) :
    Outcome W :=
  match E.data vm.toWorld op operands with
  | .push w vs =>
    .next (((vm.setWorld w).setLocal slot (vs.headD .nil)).push (vs.headD .nil))
  | .raise w e => .error ((vm.setWorld w).setThread (vm.thread.runtimeError e))
  | .fail w => .error (vm.setWorld w)
  | .call w method vs =>
    let vm := (vm.setWorld w).setThread (vm.thread.pushAll (method :: vs))
    if 8 ≤ vm.thread.pendingSetLocals.length then
      .error (vm.runtimeError "Pending set-local stack overflow.")
    else
      match method with
      | .closure a f us =>
        callClosure E false (vm.setThread { vm.thread with
          pendingSetLocals := (slot, vm.thread.frameCount - 1) :: vm.thread.pendingSetLocals })
          ⟨a, f, us⟩ vs.length
      | _ => .undefined
  | _ => .undefined

def opImport (E : Env W) (vm : VM W) (index : Nat) : Outcome W :=
  vm.withName E index fun name =>
    match vm.modules name with
    | some v => .next (vm.push v)
    | none =>
      match E.importModule vm.toWorld name with
      | .native w v => .next ((vm.setWorld w).push v)
      | .missing w => .error (vm.setWorld w)
      | .compileError w => .leave (vm.setWorld w) false
      | .file f filename =>
        let c : Closure := ⟨vm.nextObject, f, []⟩
        let context : ModuleContext :=
          ⟨name, vm.globals (ascii "__name"), vm.globals (ascii "__file"),
            vm.globals (ascii "__main")⟩
        let pushed := { vm.push c.value with nextObject := vm.nextObject + 1 }
        let entered := ((pushed.setGlobal (ascii "__name") (some (.string name))).setGlobal
          (ascii "__file") (some (.string filename))).setGlobal
          (ascii "__main") (some (.bool false))
        match call E entered.saveIp c 0 with
        | .error vm => .error (vm.restoreModuleContext ⟨c, ⟨f, 0⟩, 0, some context⟩)
        | .ok vm =>
          let t := vm.thread
          let i := t.frameCount - 1
          .next (vm.setThread { t with
            frames := Function.update t.frames i
              { t.frames i with module := some context } }).loadFrame

/-- The `switch` of `vm_run`, with the instruction's bytes read. -/
def perform (E : Env W) (vm : VM W) (op : OpCode) (args : List UInt8) : Outcome W :=
  let arg (i : Nat) : Nat := (args.getD i 0).toNat
  let short (i : Nat) : Nat := arg i * 256 + arg (i + 1)
  match op with
  | .opTry => vm.opTry (arg 0) (arg 1) (short 2) (short 4)
  | .opEndTry => vm.opEndTry
  | .opEndFinally => vm.opEndFinally
  | .opThrow => vm.opThrow
  | .opConstant => .next (vm.push (vm.constant E (arg 0)))
  | .opNil => .next (vm.push .nil)
  | .opTrue => .next (vm.push (.bool true))
  | .opFalse => .next (vm.push (.bool false))
  | .opPop => .next (vm.drop 1)
  | .opDup => .next (vm.push (vm.thread.peek 0))
  | .opGetGlobal => vm.opGetGlobal E (arg 0)
  | .opDefineGlobal =>
    vm.withName E (arg 0) fun name => .next ((vm.setGlobal name (vm.thread.peek 0)).drop 1)
  | .opSetGlobal => vm.withName E (arg 0) fun name => .next (vm.setGlobal name (vm.thread.peek 0))
  | .opDeleteGlobal => vm.opDeleteGlobal E (arg 0)
  | .opGetLocal => .next (vm.push (vm.getLocal (arg 0)))
  | .opSetLocal => .next (vm.setLocal (arg 0) (vm.thread.peek 0))
  | .opGetUpvalue =>
    .next (vm.push (vm.readUpvalue (vm.frame.closure.upvalues.getD (arg 0) 0)))
  | .opSetUpvalue =>
    .next (vm.writeUpvalue (vm.frame.closure.upvalues.getD (arg 0) 0) (vm.thread.peek 0))
  | .opCloseUpvalue => .next ((vm.closeUpvalues (vm.thread.stackTop - 1)).drop 1)
  | .opJump => .next (vm.setIp (vm.run.ip.forward (short 0)))
  | .opJumpIfFalse =>
    .next (if E.isFalsey vm.toWorld (vm.thread.peek 0) then vm.setIp (vm.run.ip.forward (short 0)) else vm)
  | .opJumpIfTrue =>
    .next (if E.isFalsey vm.toWorld (vm.thread.peek 0) then vm else vm.setIp (vm.run.ip.forward (short 0)))
  | .opLoop => .next (vm.setIp (vm.run.ip.back (short 0)))
  | .opForPrep => vm.opForPrep E (arg 0) (arg 1) (short 2)
  | .opForLoop => vm.opForLoop E (arg 0) (arg 1) (short 2)
  | .opCall => vm.invoke E false (arg 0)
  | .opCall0 => vm.invoke E false 0
  | .opCall1 => vm.invoke E false 1
  | .opCall2 => vm.invoke E false 2
  | .opCallNamed => vm.invoke E true (arg 0)
  | .opCallExpand => vm.callExpand E (arg 0)
  | .opClosure => vm.opClosure E args
  | .opReturn => (vm.drop 1).returnValues [vm.thread.peek 0]
  | .opReturnN => vm.returnValues (vm.thread.top (arg 0))
  | .opAdjustStack => .next (vm.setThread { vm.thread with stackTop := vm.frame.slots + arg 0 })
  | .opUnpack => vm.opUnpack E (arg 0) (arg 1)
  | .opPrint =>
    .next { vm.drop (arg 0) with
      control := .print (vm.thread.top (arg 0)) }
  | .opNot =>
    .next ((vm.drop 1).push (.bool (E.isFalsey vm.toWorld (vm.thread.peek 0))))
  | .opNegate => .next ((vm.drop 1).push (E.negate (vm.thread.peek 0)))
  | .opIadd | .opIsub | .opImul | .opIdiv | .opImod | .opFadd | .opFsub | .opFmul | .opFdiv
  | .opFmod =>
    .next ((vm.drop 2).push (E.typedArith op (vm.thread.peek 1) (vm.thread.peek 0)))
  | .opAddSetLocal | .opSubSetLocal | .opMulSetLocal | .opDivSetLocal | .opModSetLocal =>
    (vm.drop 2).performSetLocal E op (arg 0) (vm.thread.top 2)
  | .opIncLocal | .opSubLocalConst | .opMulLocalConst | .opDivLocalConst | .opModLocalConst =>
    vm.performSetLocal E op (arg 0) [vm.getLocal (arg 0), vm.constant E (arg 1)]
  | .opGc => .next (vm.setWorld (E.collectGarbage vm.toWorld))
  | .opImport => vm.opImport E (arg 0)
  | .opAppend | .opAdd | .opAddInplace | .opAddConst | .opSubtract | .opSubConst | .opMultiply
  | .opMulConst | .opDivide | .opDivConst | .opLength | .opGetTable | .opGetMetaTable
  | .opSetTable | .opDeleteTable | .opNewTable | .opEqual | .opGreater | .opLess | .opHas | .opIn
  | .opPower | .opIntDiv | .opModulo | .opModConst | .opSetMetatable | .opImportStar
  | .opBuildString | .opIterPrep | .opIterPrepIpairs | .opRange | .opSlice =>
    vm.performData E op args

/-- One turn of the loop of `vm_run`: the bytes are read at `ip`, the constants belong to
`frame`. Code ends where its bytes do. -/
def execute (E : Env W) (vm : VM W) : Outcome W :=
  let c : Chunk := ⟨(E.fns vm.run.ip.function).code, (vm.function E).constants⟩
  let ip := vm.run.ip.offset
  if c.code.length ≤ ip then .undefined
  else
    match OpCode.ofCode (c.byte ip) with
    | none => .next (vm.setIp (vm.run.ip.forward 1))
    | some op =>
      match readOperands E.fns c ip op with
      | none => .undefined
      | some args => (vm.setIp (vm.run.ip.forward (1 + args.length))).perform E op args

/-- What the interpreter does when native code has returned 1. -/
def afterNative (E : Env W) (vm : VM W) (after : AfterNative) : VM W :=
  match after with
  | .continue => { vm with control := .fetch }
  | .push v => { vm.push v with control := .fetch }
  | .print rest =>
    { (vm.drop 1).setWorld (E.printValue vm.toWorld (vm.thread.peek 0)) with
      control := .print rest }

/-- The end of `call_value` for a native function, which may have switched the thread. -/
def finishNative (E : Env W) (vm : VM W) (call : NativeCall) : Outcome W :=
  match (if vm.currentThread = call.thread then .next vm else vm.reload) with
  | .next vm => .next (afterNative E vm call.after)
  | .switch vm => .switch (afterNative E vm call.after)
  | o => o

/-- A nested `vm_run(vm, frame_count)` on the frame that was just pushed. -/
def startRun (vm : VM W) (minFrameCount : Nat) (starter : Starter) : VM W :=
  { vm with
    outer := (vm.run, starter) :: vm.outer
    run := { vm.run with minFrameCount := minFrameCount }
    control := .fetch }.loadFrame

/-- `coroutine_create` -/
def coroutineCreate (vm : VM W) (c : Closure) : VM W :=
  let t := (newThread 256 64 64).push c.value
  let t := { t with frames := Function.update t.frames 0 ⟨c, ⟨c.function, 0⟩, 0, none⟩, frameCount := 1 }
  { vm with
    threads := Function.update vm.threads vm.nextThread t
    nextThread := vm.nextThread + 1 }.push (.thread vm.nextThread)

/-- `coroutine_resume` with its arguments checked. -/
def coroutineResume (vm : VM W) (t : Nat) (args : List Value) : VM W :=
  if (vm.threads t).frameCount = 0 then
    (vm.push (.bool false)).push (.string (ascii "cannot resume dead coroutine"))
  else
    let r := { vm.threads t with caller := some vm.currentThread }
    let r := if r.isGenerator then { r with generatorMode := false } else r
    { vm with threads := Function.update vm.threads t (r.pushAll args), currentThread := t }

/-- `gen_next_native` with its arguments checked. -/
def genNext (vm : VM W) (t : Nat) : VM W :=
  if (vm.threads t).frameCount = 0 then (vm.push .nil).push .nil
  else
    let r := { vm.threads t with caller := some vm.currentThread, generatorMode := true }
    { vm with threads := Function.update vm.threads t r, currentThread := t }

/-- `coroutine_do_yield` -/
def coroutineYield (E : Env W) (vm : VM W) (args : List Value) : VM W :=
  match vm.thread.caller with
  | none => (vm.push (.bool false)).push (.string (ascii "attempt to yield from outside a coroutine"))
  | some caller =>
    let vm :=
      if vm.thread.isGenerator && vm.thread.generatorMode then
        let index := vm.thread.generatorIndex + 1
        (vm.setThread { vm.thread with generatorMode := false, generatorIndex := index }).passToCaller
          caller [E.generatorIndexValue index, args.headD .nil]
      else vm.passToCaller caller (.bool true :: args)
    let vm := { vm with currentThread := caller }
    vm.setThread { vm.thread with caller := none }

/-- A native function does its next thing. -/
def stepNative (E : Env W) (vm : VM W) (call : NativeCall) (input : NativeInput) : Outcome W :=
  match E.native vm.toWorld call.native call.state input with
  | .returns w vs => ((vm.setWorld w).setThread (vm.thread.pushAll vs)).finishNative E call
  | .raises w e => .error ((vm.setWorld w).setThread (vm.thread.runtimeError e))
  | .fails w => .error (vm.setWorld w)
  | .exits w => .next { vm.setWorld w with control := .halt true }
  | .callback w state callee args =>
    let call' := { call with state := state }
    let pushed := (vm.setWorld w).setThread (vm.thread.pushAll (callee :: args))
    match callee with
    | .closure a f us =>
      match VM.call E pushed ⟨a, f, us⟩ args.length with
      | .ok vm' => .next (vm'.startRun vm.thread.frameCount (.native call'))
      | .error vm' => .next { vm' with control := .native call' .callFailed }
    | _ => .undefined
  | .create c =>
    match c with
    | .closure a f us => (vm.coroutineCreate ⟨a, f, us⟩).finishNative E call
    | _ => .undefined
  | .resume t args => (vm.coroutineResume t args).finishNative E call
  | .next t => (vm.genNext t).finishNative E call
  | .yield args => (coroutineYield E vm args).finishNative E call

/-- The loop of `vm_handle_op_print` over the values that are left. -/
def stepPrint (E : Env W) (vm : VM W) (values : List Value) : Outcome W :=
  match values with
  | [] => .next { vm.setWorld (E.printNewline vm.toWorld) with control := .fetch }
  | v :: rest =>
    let method := E.metamethod vm.toWorld v (ascii "__str")
    let pushed := (vm.push method).push v
    match method with
    | .native a => .next (pushed.callNative a 1 (.print rest))
    | .closure a f us =>
      match callClosure E false pushed ⟨a, f, us⟩ 1 with
      | .next vm' => .next (vm'.startRun vm.thread.frameCount (.print rest))
      | o => o
    | _ => .next { vm.setWorld (E.printValue vm.toWorld v) with control := .print rest }

/-- `vm_run` returns to the C code that called it. -/
def stepLeave (E : Env W) (vm : VM W) (ok : Bool) : Outcome W :=
  match vm.outer with
  | [] => .next { vm with control := .halt ok }
  | (run, .native call) :: rest =>
    let vm := { vm with run := run, outer := rest }
    if ok then
      .next { vm.drop 1 with control := .native call (.value (vm.thread.peek 0)) }
    else .next { vm with control := .native call .runFailed }
  | (run, .print values) :: rest =>
    let vm := { vm with run := run, outer := rest }
    if ok then
      .next { (vm.drop 1).setWorld (E.printValue vm.toWorld (vm.thread.peek 0)) with
        control := .print values }
    else .leave vm false

/-- One step, in which a request to interrupt may be noticed between two instructions. -/
def turn (E : Env W) (interrupted : Bool) (vm : VM W) : Outcome W :=
  match vm.control with
  | .fetch => if interrupted then .error (vm.runtimeError "Interrupted.") else vm.execute E
  | .native call input => vm.stepNative E call input
  | .print values => vm.stepPrint E values
  | .leave ok => vm.stepLeave E ok
  | .halt _ => .undefined

/-- `interpret`: the machine that is about to run a script. -/
def interpret (E : Env W) (w : World W) (script : Nat) : VM W :=
  let c : Closure := ⟨0, script, []⟩
  let vm : VM W :=
    { w with
      threads := fun _ => newThread 256 64 64
      currentThread := 0
      nextThread := 1
      upvalues := fun _ => .closed .nil
      nextUpvalue := 0
      nextObject := 1
      run := ⟨0, 0, 0, ⟨script, 0⟩⟩
      outer := []
      control := .fetch }
  match call E (vm.push c.value) c 0 with
  | .ok vm => vm.loadFrame
  | .error vm => vm.loadFrame

end VM

end ToiLang
