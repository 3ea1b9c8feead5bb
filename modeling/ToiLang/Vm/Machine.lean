import Mathlib.Logic.Function.Basic
import ToiLang.Decode

namespace ToiLang

structure Closure where
  addr : Nat
  function : Nat
  upvalues : List Nat
  deriving DecidableEq, Repr

/-- The fields of a module's frame: the name its result is cached under and the globals that
`restore_module_context` puts back. -/
structure ModuleContext where
  cacheName : Bytes
  prevModuleName : Option Value
  prevModuleFile : Option Value
  prevModuleMain : Option Value
  deriving DecidableEq, Repr

/-- A pointer into the code of a function. -/
structure CodePtr where
  function : Nat
  offset : Nat
  deriving DecidableEq, Repr

def CodePtr.forward (p : CodePtr) (n : Nat) : CodePtr := { p with offset := p.offset + n }
def CodePtr.back (p : CodePtr) (n : Nat) : CodePtr := { p with offset := p.offset - n }

/-- `slots` is an offset into the thread's stack. -/
structure CallFrame where
  closure : Closure
  ip : CodePtr
  slots : Nat
  module : Option ModuleContext
  deriving DecidableEq, Repr

structure ExceptionHandler where
  frameCount : Nat
  stackTop : Nat
  hasExcept : Bool
  hasFinally : Bool
  inExcept : Bool
  exceptIp : CodePtr
  finallyIp : CodePtr
  deriving DecidableEq, Repr

/-- Where an upvalue object points: to a slot of a thread's stack or to its own `closed`. -/
inductive ObjUpvalue
  | opened (thread slot : Nat)
  | closed (v : Value)
  deriving DecidableEq, Repr

/-- The stack and the frames are arrays, the handlers a list with the top first, the open
upvalues the linked list of slots and upvalue objects. -/
structure ObjThread where
  stack : Nat → Value
  stackTop : Nat
  stackCapacity : Nat
  frames : Nat → CallFrame
  frameCount : Nat
  frameCapacity : Nat
  handlers : List ExceptionHandler
  handlerCapacity : Nat
  openUpvalues : List (Nat × Nat)
  hasException : Bool
  exception : Value
  caller : Option Nat
  isGenerator : Bool
  generatorMode : Bool
  generatorIndex : Nat
  pendingSetLocals : List (Nat × Nat)

namespace ObjThread

def push (t : ObjThread) (v : Value) : ObjThread :=
  { t with stack := Function.update t.stack t.stackTop v, stackTop := t.stackTop + 1 }

def pushAll (t : ObjThread) (vs : List Value) : ObjThread := vs.foldl push t

def peek (t : ObjThread) (distance : Nat) : Value := t.stack (t.stackTop - 1 - distance)

/-- The top `n` values, the lowest first. -/
def top (t : ObjThread) (n : Nat) : List Value :=
  (List.range n).map fun i => t.stack (t.stackTop - n + i)

def drop (t : ObjThread) (n : Nat) : ObjThread := { t with stackTop := t.stackTop - n }

def setSlot (t : ObjThread) (slot : Nat) (v : Value) : ObjThread :=
  { t with stack := Function.update t.stack slot v }

/-- `vm_runtime_error` on this thread. -/
def runtimeError (t : ObjThread) (v : Value) : ObjThread :=
  { t with hasException := true, exception := v }

def resetStack (t : ObjThread) : ObjThread :=
  { t with stackTop := 0, frameCount := 0, openUpvalues := [] }

end ObjThread

/-- The globals, the module cache and the heap of tables and userdata, which is abstract. -/
structure World (W : Type) where
  globals : Bytes → Option Value
  modules : Bytes → Option Value
  heap : W

/-- An activation of `vm_run`: its argument and its local variables `frame` and `ip`. -/
structure Run where
  minFrameCount : Nat
  frameThread : Nat
  frameIndex : Nat
  ip : CodePtr
  deriving DecidableEq, Repr

/-- What the interpreter does when the native function it called has returned. -/
inductive AfterNative
  | continue
  | push (v : Value)
  | print (rest : List Value)
  deriving DecidableEq, Repr

/-- A native function in progress: its own state and the thread it was called on. -/
structure NativeCall where
  native : Nat
  state : Nat
  thread : Nat
  after : AfterNative
  deriving DecidableEq, Repr

/-- What native code is resumed with: its arguments, the result of a callback, or the failure
of `call` or of the nested `vm_run`. -/
inductive NativeInput
  | start (args : List Value)
  | value (v : Value)
  | callFailed
  | runFailed
  deriving DecidableEq, Repr

/-- The C code that started a nested `vm_run`. -/
inductive Starter
  | native (call : NativeCall)
  | print (rest : List Value)
  deriving DecidableEq, Repr

inductive Control
  | fetch
  | native (call : NativeCall) (input : NativeInput)
  | print (values : List Value)
  | leave (ok : Bool)
  | halt (ok : Bool)
  deriving DecidableEq, Repr

/-- The machine: the interpreter's data, the innermost activation of `vm_run` and the
activations below it with the C code in between. -/
structure VM (W : Type) extends World W where
  threads : Nat → ObjThread
  currentThread : Nat
  nextThread : Nat
  upvalues : Nat → ObjUpvalue
  nextUpvalue : Nat
  nextObject : Nat
  run : Run
  outer : List (Run × Starter)
  control : Control

/-- What an instruction on data does once its operands are popped. -/
inductive DataAct (W : Type)
  | push (w : World W) (vs : List Value)
  | raise (w : World W) (exception : Value)
  | fail (w : World W)
  | call (w : World W) (method : Value) (args : List Value)
  | callValue (w : World W) (callee : Value) (args : List Value)
  | callThenPush (w : World W) (callee : Value) (args : List Value) (v : Value)

/-- What a native function does next. The coroutine functions end in one of the last five. -/
inductive NativeAct (W : Type)
  | returns (w : World W) (vs : List Value)
  | raises (w : World W) (exception : Value)
  | fails (w : World W)
  | exits (w : World W)
  | callback (w : World W) (state : Nat) (callee : Value) (args : List Value)
  | create (closure : Value)
  | resume (thread : Nat) (args : List Value)
  | next (thread : Nat)
  | yield (args : List Value)

inductive ImportAct (W : Type)
  | native (w : World W) (module : Value)
  | missing (w : World W)
  | compileError (w : World W)
  | file (function : Nat) (filename : Bytes)

/-- What the machine is run with: the function objects, and the operations on numbers, tables
and the outside world. -/
structure Env (W : Type) where
  fns : Nat → ObjFunction
  isFalsey : World W → Value → Bool
  valueMatchesType : Value → TypeHint → Bool
  greater : Double → Double → Bool
  lessEqual : Double → Double → Bool
  increment : Double → Double
  negate : Value → Value
  typedArith : OpCode → Value → Value → Value
  newTable : World W → List Value → World W × Nat
  tableGetArray : World W → Nat → Nat → Value
  spread : World W → Nat → List Value
  spreadNamed : World W → Nat → Option (World W × Nat)
  metamethod : World W → Value → Bytes → Value
  bindNamed : World W → ObjFunction → List Value → World W × Except Value (List Value)
  data : World W → OpCode → List Value → DataAct W
  importModule : World W → Bytes → ImportAct W
  printValue : World W → Value → World W
  printNewline : World W → World W
  generatorIndexValue : Nat → Value
  collectGarbage : World W → World W
  native : World W → Nat → Nat → NativeInput → NativeAct W

namespace VM

variable {W : Type}

/-- The thread that the interpreter works on. -/
def thread (vm : VM W) : ObjThread := vm.threads vm.currentThread

def setThread (vm : VM W) (t : ObjThread) : VM W :=
  { vm with threads := Function.update vm.threads vm.currentThread t }

def setWorld (vm : VM W) (w : World W) : VM W := { vm with toWorld := w }

def push (vm : VM W) (v : Value) : VM W := vm.setThread (vm.thread.push v)

def drop (vm : VM W) (n : Nat) : VM W := vm.setThread (vm.thread.drop n)

def runtimeError (vm : VM W) (message : String) : VM W :=
  vm.setThread (vm.thread.runtimeError (.string (ascii message)))

/-- What the local variable `frame` points to. -/
def frame (vm : VM W) : CallFrame := (vm.threads vm.run.frameThread).frames vm.run.frameIndex

def function (E : Env W) (vm : VM W) : ObjFunction := E.fns vm.frame.closure.function

def setIp (vm : VM W) (ip : CodePtr) : VM W := { vm with run := { vm.run with ip := ip } }

/-- `frame->slots[slot]` -/
def getLocal (vm : VM W) (slot : Nat) : Value :=
  (vm.threads vm.run.frameThread).stack (vm.frame.slots + slot)

def setLocal (vm : VM W) (slot : Nat) (v : Value) : VM W :=
  let t := vm.threads vm.run.frameThread
  { vm with
    threads := Function.update vm.threads vm.run.frameThread
      (t.setSlot (vm.frame.slots + slot) v) }

/-- `frame->ip = ip` -/
def saveIp (vm : VM W) : VM W :=
  let t := vm.threads vm.run.frameThread
  let frame := { t.frames vm.run.frameIndex with ip := vm.run.ip }
  { vm with
    threads := Function.update vm.threads vm.run.frameThread
      { t with frames := Function.update t.frames vm.run.frameIndex frame } }

/-- `frame = &frames[frame_count - 1]; ip = frame->ip` on the current thread. -/
def loadFrame (vm : VM W) : VM W :=
  let i := vm.thread.frameCount - 1
  { vm with run := { vm.run with
      frameThread := vm.currentThread, frameIndex := i, ip := (vm.thread.frames i).ip } }

end VM

end ToiLang
