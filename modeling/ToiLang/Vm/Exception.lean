import ToiLang.Vm.Machine

namespace ToiLang

namespace VM

variable {W : Type}

/-- The loop of `close_upvalues` over the open upvalues of a thread. -/
def closeFrom (stack : Nat → Value) (last : Nat) :
    List (Nat × Nat) → (Nat → ObjUpvalue) → List (Nat × Nat) × (Nat → ObjUpvalue)
  | [], us => ([], us)
  | (slot, u) :: rest, us =>
    if last ≤ slot then closeFrom stack last rest (Function.update us u (.closed (stack slot)))
    else ((slot, u) :: rest, us)

def closeUpvalues (vm : VM W) (last : Nat) : VM W :=
  let t := vm.thread
  let r := closeFrom t.stack last t.openUpvalues vm.upvalues
  { vm.setThread { t with openUpvalues := r.1 } with upvalues := r.2 }

/-- The search of `capture_upvalue`: the upvalue of the slot, or the list with the new object
linked in. -/
def insertUpvalue (slot new : Nat) : List (Nat × Nat) → List (Nat × Nat) × Option Nat
  | [] => ([(slot, new)], none)
  | (s, u) :: rest =>
    if slot < s then
      let r := insertUpvalue slot new rest
      ((s, u) :: r.1, r.2)
    else if s = slot then ((s, u) :: rest, some u)
    else ((slot, new) :: (s, u) :: rest, none)

/-- `capture_upvalue` of a slot of the current thread. -/
def captureUpvalue (vm : VM W) (slot : Nat) : VM W × Nat :=
  let r := insertUpvalue slot vm.nextUpvalue vm.thread.openUpvalues
  match r.2 with
  | some u => (vm, u)
  | none =>
    ({ vm.setThread { vm.thread with openUpvalues := r.1 } with
        upvalues := Function.update vm.upvalues vm.nextUpvalue (.opened vm.currentThread slot)
        nextUpvalue := vm.nextUpvalue + 1 }, vm.nextUpvalue)

/-- The frames that the unwinder drops before it looks at a handler. -/
def dropFrames (vm : VM W) : Nat → VM W
  | 0 => vm
  | n + 1 =>
    let vm := vm.closeUpvalues (vm.thread.frames (vm.thread.frameCount - 1)).slots
    dropFrames (vm.setThread { vm.thread with frameCount := vm.thread.frameCount - 1 }) n

/-- The end of the unwinding without a handler: the exception is reported and dropped. -/
def uncaught (vm : VM W) : VM W :=
  vm.setThread { vm.thread.resetStack with hasException := false, exception := .nil }

/-- `*frame = &frames[frame_count - 1]; stack_top = handler->stack_top; *ip = ip`. -/
def enterHandler (vm : VM W) (h : ExceptionHandler) (ip : CodePtr) : VM W :=
  { vm.setThread { vm.thread with stackTop := h.stackTop } with
      run := { vm.run with
        frameThread := vm.currentThread, frameIndex := vm.thread.frameCount - 1, ip := ip }
      control := .fetch }

def catchException (vm : VM W) (h : ExceptionHandler) (hs : List ExceptionHandler) : VM W :=
  let vm := vm.enterHandler h h.exceptIp
  let vm := vm.push vm.thread.exception
  vm.setThread { vm.thread with
    handlers := { h with inExcept := true } :: hs, hasException := false, exception := .nil }

def enterFinally (vm : VM W) (h : ExceptionHandler) (hs : List ExceptionHandler) : VM W :=
  let vm := vm.enterHandler h h.finallyIp
  vm.setThread { vm.thread with handlers := hs }


/-- The loop of `handle_exception` over the handlers, the top first. -/
def unwind (vm : VM W) : List ExceptionHandler → VM W
  | [] => { (vm.setThread { vm.thread with handlers := [] }).uncaught with control := .leave false }
  | h :: hs =>
    let vm := vm.dropFrames (vm.thread.frameCount - h.frameCount)
    if vm.thread.frameCount = 0 then
      { (vm.setThread { vm.thread with handlers := h :: hs }).uncaught with
          control := .leave false }
    else if h.hasExcept && !h.inExcept then vm.catchException h hs
    else if h.hasFinally then vm.enterFinally h hs
    else unwind (vm.setThread { vm.thread with stackTop := h.stackTop }) hs

/-- `handle_exception` and the return from `vm_run` where it fails. -/
def handleException (vm : VM W) : VM W :=
  if vm.thread.hasException then vm.unwind vm.thread.handlers
  else { vm with control := .leave false }

end VM

end ToiLang
