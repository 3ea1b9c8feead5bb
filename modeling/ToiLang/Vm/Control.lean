import ToiLang.Vm.Step

namespace ToiLang

/-- What calls, returns and exceptions depend on in a thread. -/
structure ThreadControl where
  frames : Nat → CallFrame
  frameCount : Nat
  handlers : List ExceptionHandler
  hasException : Bool
  exception : Value

def ObjThread.ctl (t : ObjThread) : ThreadControl :=
  ⟨t.frames, t.frameCount, t.handlers, t.hasException, t.exception⟩

/-- The machine without its data: the frames, handlers and pending exceptions of the threads and
the activations of `vm_run`. -/
structure Ctl where
  threads : Nat → ThreadControl
  currentThread : Nat
  nextThread : Nat
  run : Run
  outer : List (Run × Starter)
  control : Control

def VM.ctl {W : Type} (vm : VM W) : Ctl :=
  { threads := fun i => (vm.threads i).ctl
    currentThread := vm.currentThread
    nextThread := vm.nextThread
    run := vm.run
    outer := vm.outer
    control := vm.control }

namespace Ctl

def thread (c : Ctl) : ThreadControl := c.threads c.currentThread

def setThread (c : Ctl) (t : ThreadControl) : Ctl :=
  { c with threads := Function.update c.threads c.currentThread t }

def setControl (c : Ctl) (k : Control) : Ctl := { c with control := k }

def frame (c : Ctl) : CallFrame := (c.threads c.run.frameThread).frames c.run.frameIndex

def setIp (c : Ctl) (ip : CodePtr) : Ctl := { c with run := { c.run with ip := ip } }

def saveIp (c : Ctl) : Ctl :=
  let t := c.threads c.run.frameThread
  let frame := { t.frames c.run.frameIndex with ip := c.run.ip }
  { c with
    threads := Function.update c.threads c.run.frameThread
      { t with frames := Function.update t.frames c.run.frameIndex frame } }

def loadFrame (c : Ctl) : Ctl :=
  let i := c.thread.frameCount - 1
  { c with run := { c.run with
      frameThread := c.currentThread, frameIndex := i, ip := (c.thread.frames i).ip } }

def raise (c : Ctl) (e : Value) : Ctl :=
  c.setThread { c.thread with hasException := true, exception := e }

def pushFrame (c : Ctl) (f : CallFrame) : Ctl :=
  c.setThread { c.thread with
    frames := Function.update c.thread.frames c.thread.frameCount f
    frameCount := c.thread.frameCount + 1 }

/-- What a return takes off: the frame and the handlers of the frame. -/
def popFrame (c : Ctl) : Ctl :=
  c.setThread { c.thread with
    handlers := c.thread.handlers.dropWhile fun h => c.thread.frameCount ≤ h.frameCount
    frameCount := c.thread.frameCount - 1 }

def pushHandler (c : Ctl) (h : ExceptionHandler) : Ctl :=
  c.setThread { c.thread with handlers := h :: c.thread.handlers }

def popHandler (c : Ctl) : Ctl := c.setThread { c.thread with handlers := c.thread.handlers.tail }

def allocate (c : Ctl) (t : ThreadControl) : Ctl :=
  { c with
    threads := Function.update c.threads c.nextThread t
    nextThread := c.nextThread + 1 }

def switchTo (c : Ctl) (t : Nat) : Ctl := { c with currentThread := t }

def startRun (c : Ctl) (minFrameCount : Nat) (starter : Starter) : Ctl :=
  { c with
    outer := (c.run, starter) :: c.outer
    run := { c.run with minFrameCount := minFrameCount }
    control := .fetch }.loadFrame

def cutFrames (c : Ctl) (n : Nat) : Ctl :=
  c.setThread { c.thread with frameCount := c.thread.frameCount - (c.thread.frameCount - n) }

def uncaught (c : Ctl) (hs : List ExceptionHandler) : Ctl :=
  (c.setThread { c.thread with
    frameCount := 0, handlers := hs, hasException := false, exception := .nil }).setControl
      (.leave false)

def enterHandler (c : Ctl) (ip : CodePtr) : Ctl :=
  { c with
    run := { c.run with
      frameThread := c.currentThread, frameIndex := c.thread.frameCount - 1, ip := ip }
    control := .fetch }

def catchException (c : Ctl) (h : ExceptionHandler) (hs : List ExceptionHandler) : Ctl :=
  (c.enterHandler h.exceptIp).setThread { c.thread with
    handlers := { h with inExcept := true } :: hs, hasException := false, exception := .nil }

def enterFinally (c : Ctl) (h : ExceptionHandler) (hs : List ExceptionHandler) : Ctl :=
  (c.enterHandler h.finallyIp).setThread { c.thread with handlers := hs }

def unwind (c : Ctl) : List ExceptionHandler → Ctl
  | [] => c.uncaught []
  | h :: hs =>
    let c := c.cutFrames h.frameCount
    if c.thread.frameCount = 0 then c.uncaught (h :: hs)
    else if h.hasExcept && !h.inExcept then c.catchException h hs
    else if h.hasFinally then c.enterFinally h hs
    else unwind c hs

def handleException (c : Ctl) : Ctl :=
  if c.thread.hasException then c.unwind c.thread.handlers else c.setControl (.leave false)

theorem ext {c d : Ctl} (ht : ∀ i, c.threads i = d.threads i)
    (h1 : c.currentThread = d.currentThread) (h2 : c.nextThread = d.nextThread)
    (h3 : c.run = d.run) (h4 : c.outer = d.outer) (h5 : c.control = d.control) : c = d := by
  obtain ⟨_, _, _, _, _, _⟩ := c
  obtain ⟨_, _, _, _, _, _⟩ := d
  obtain rfl := funext ht
  subst h1 h2 h3 h4 h5
  rfl

@[simp] theorem setThread_thread (c : Ctl) : c.setThread c.thread = c := by
  simp [setThread, thread]

@[simp] theorem thread_setThread (c : Ctl) (t : ThreadControl) : (c.setThread t).thread = t := by
  simp [setThread, thread]

@[simp] theorem setThread_setThread (c : Ctl) (t u : ThreadControl) :
    (c.setThread t).setThread u = c.setThread u := by
  simp [setThread]

section SetThread

variable (c : Ctl) (t : ThreadControl)

@[simp] theorem setThread_currentThread : (c.setThread t).currentThread = c.currentThread := rfl
@[simp] theorem setThread_nextThread : (c.setThread t).nextThread = c.nextThread := rfl
@[simp] theorem setThread_run : (c.setThread t).run = c.run := rfl
@[simp] theorem setThread_outer : (c.setThread t).outer = c.outer := rfl
@[simp] theorem setThread_control : (c.setThread t).control = c.control := rfl

end SetThread

end Ctl

namespace ObjThread

@[simp] theorem ctl_push (t : ObjThread) (v : Value) : (t.push v).ctl = t.ctl := rfl

@[simp] theorem ctl_pushAll (t : ObjThread) (vs : List Value) : (t.pushAll vs).ctl = t.ctl := by
  induction vs generalizing t with
  | nil => rfl
  | cons v vs ih => exact (ih (t.push v)).trans (ctl_push t v)

@[simp] theorem ctl_drop (t : ObjThread) (n : Nat) : (t.drop n).ctl = t.ctl := rfl

@[simp] theorem ctl_setSlot (t : ObjThread) (n : Nat) (v : Value) : (t.setSlot n v).ctl = t.ctl := rfl

@[simp] theorem ctl_insertReceiver (t : ObjThread) (n : Nat) (f v : Value) :
    (t.insertReceiver n f v).ctl = t.ctl := by simp [insertReceiver]

end ObjThread

namespace VM

variable {W : Type} (vm : VM W)

@[simp] theorem ctl_thread : vm.ctl.thread = vm.thread.ctl := rfl

@[simp] theorem setThread_ctl_thread : vm.ctl.setThread vm.thread.ctl = vm.ctl :=
  vm.ctl.setThread_thread

@[simp] theorem ctl_setThread (t : ObjThread) : (vm.setThread t).ctl = vm.ctl.setThread t.ctl := by
  refine Ctl.ext (fun i => ?_) rfl rfl rfl rfl rfl
  by_cases h : i = vm.currentThread
  · subst h
    simp [ctl, setThread, Ctl.setThread]
  · simp [ctl, setThread, Ctl.setThread, h]

/-- A thread whose control part stays leaves the machine's control part. -/
theorem ctl_setThread_of_eq {t : ObjThread} (h : t.ctl = vm.thread.ctl) :
    (vm.setThread t).ctl = vm.ctl := by
  rw [ctl_setThread, h, ← ctl_thread, Ctl.setThread_thread]

@[simp] theorem ctl_setWorld (w : World W) : (vm.setWorld w).ctl = vm.ctl := rfl
@[simp] theorem ctl_setGlobal (n : Bytes) (v : Option Value) : (vm.setGlobal n v).ctl = vm.ctl := rfl
@[simp] theorem ctl_setIp (ip : CodePtr) : (vm.setIp ip).ctl = vm.ctl.setIp ip := rfl

@[simp] theorem ctl_push (v : Value) : (vm.push v).ctl = vm.ctl :=
  vm.ctl_setThread_of_eq rfl

@[simp] theorem ctl_drop (n : Nat) : (vm.drop n).ctl = vm.ctl :=
  vm.ctl_setThread_of_eq rfl

@[simp] theorem ctl_pushAll (vs : List Value) : (vm.setThread (vm.thread.pushAll vs)).ctl = vm.ctl :=
  vm.ctl_setThread_of_eq (by simp)

theorem ctl_updateThread {t : Nat} {u : ObjThread} (h : u.ctl = (vm.threads t).ctl) :
    VM.ctl { vm with threads := Function.update vm.threads t u } = vm.ctl := by
  refine Ctl.ext (fun i => ?_) rfl rfl rfl rfl rfl
  by_cases hi : i = t
  · subst hi
    simp [ctl, h]
  · simp [ctl, hi]

@[simp] theorem ctl_setLocal (slot : Nat) (v : Value) : (vm.setLocal slot v).ctl = vm.ctl :=
  vm.ctl_updateThread rfl

@[simp] theorem ctl_writeUpvalue (u : Nat) (v : Value) : (vm.writeUpvalue u v).ctl = vm.ctl := by
  unfold writeUpvalue
  split
  · exact vm.ctl_updateThread rfl
  · rfl

@[simp] theorem ctl_closeUpvalues (last : Nat) : (vm.closeUpvalues last).ctl = vm.ctl :=
  vm.ctl_setThread_of_eq rfl

@[simp] theorem ctl_captureUpvalue (slot : Nat) : (vm.captureUpvalue slot).1.ctl = vm.ctl := by
  simp only [captureUpvalue]
  split
  · rfl
  · exact vm.ctl_setThread_of_eq rfl

@[simp] theorem ctl_captureAll (us : List UInt8) : (vm.captureAll us).1.ctl = vm.ctl := by
  fun_induction captureAll vm us with
  | case1 vm index us r ih => exact ih
  | case2 vm isLocal index us h c r ih => exact ih.trans (vm.ctl_captureUpvalue _)
  | case3 => rfl

@[simp] theorem ctl_applyPendingSetLocal : vm.applyPendingSetLocal.ctl = vm.ctl := by
  unfold applyPendingSetLocal
  dsimp only
  split
  · rfl
  · split
    · exact vm.ctl_setThread_of_eq rfl
    · rfl

@[simp] theorem ctl_restoreModuleContext (f : CallFrame) :
    (vm.restoreModuleContext f).ctl = vm.ctl := by
  unfold restoreModuleContext
  split <;> simp

@[simp] theorem ctl_cacheModuleResult (f : CallFrame) (v : Value) :
    (vm.cacheModuleResult f v).ctl = vm.ctl := by
  unfold cacheModuleResult
  split <;> rfl

theorem ctl_passToCaller (caller : Nat) (vs : List Value) :
    (vm.passToCaller caller vs).ctl = vm.ctl :=
  vm.ctl_updateThread (by simp)

theorem ctl_runtimeError (message : String) :
    (vm.runtimeError message).ctl = vm.ctl.raise (.string (ascii message)) :=
  vm.ctl_setThread _

theorem ctl_raise (e : Value) : (vm.setThread (vm.thread.runtimeError e)).ctl = vm.ctl.raise e :=
  vm.ctl_setThread _

@[simp] theorem ctl_saveIp : vm.saveIp.ctl = vm.ctl.saveIp := by
  refine Ctl.ext (fun i => ?_) rfl rfl rfl rfl rfl
  by_cases h : i = vm.run.frameThread
  · subst h
    simp [ctl, saveIp, Ctl.saveIp, ObjThread.ctl]
  · simp [ctl, saveIp, Ctl.saveIp, h]

@[simp] theorem ctl_loadFrame : vm.loadFrame.ctl = vm.ctl.loadFrame := rfl

theorem ctl_pushFrame (c : Closure) (n : Nat) (m : Option ModuleContext) :
    (vm.pushFrame c n m).ctl =
      vm.ctl.pushFrame ⟨c, ⟨c.function, 0⟩, vm.thread.stackTop - n - 1, m⟩ :=
  vm.ctl_setThread _

@[simp] theorem ctl_startRun (n : Nat) (s : Starter) : (vm.startRun n s).ctl = vm.ctl.startRun n s :=
  rfl

theorem ctl_dropFrames (n : Nat) :
    (vm.dropFrames n).ctl =
      vm.ctl.setThread { vm.ctl.thread with frameCount := vm.ctl.thread.frameCount - n } := by
  induction n generalizing vm with
  | zero => exact (vm.ctl.setThread_thread).symm
  | succ n ih =>
    have hc := vm.ctl_closeUpvalues (vm.thread.frames (vm.thread.frameCount - 1)).slots
    simp only [dropFrames, ih, ctl_setThread, Ctl.thread_setThread, Ctl.setThread_setThread, hc]
    congr 1
    have ht : (vm.closeUpvalues (vm.thread.frames (vm.thread.frameCount - 1)).slots).thread.ctl =
        vm.thread.ctl := congrArg Ctl.thread hc
    generalize vm.closeUpvalues _ = v at ht
    simp only [ObjThread.ctl, ThreadControl.mk.injEq] at ht
    simp [ObjThread.ctl, ht, Nat.sub_sub, Nat.add_comm]

theorem ctl_cutFrames (n : Nat) :
    (vm.dropFrames (vm.thread.frameCount - n)).ctl = vm.ctl.cutFrames n :=
  vm.ctl_dropFrames _

theorem ctl_uncaught (hs : List ExceptionHandler) :
    VM.ctl { (vm.setThread { vm.thread with handlers := hs }).uncaught with
      control := .leave false } = vm.ctl.uncaught hs := by
  refine Ctl.ext (fun i => ?_) rfl rfl rfl rfl rfl
  by_cases h : i = vm.currentThread
  · subst h
    simp [ctl, uncaught, setThread, thread, ObjThread.resetStack, ObjThread.ctl, Ctl.uncaught,
      Ctl.setThread, Ctl.setControl, Ctl.thread]
  · simp [ctl, uncaught, setThread, thread, Ctl.uncaught, Ctl.setThread, Ctl.setControl, h]

theorem ctl_enterHandler (h : ExceptionHandler) (ip : CodePtr) :
    (vm.enterHandler h ip).ctl = vm.ctl.enterHandler ip := by
  have hs : (vm.setThread { vm.thread with stackTop := h.stackTop }).ctl = vm.ctl :=
    vm.ctl_setThread_of_eq rfl
  exact congrArg (fun c : Ctl => Ctl.mk c.threads c.currentThread c.nextThread _ c.outer .fetch) hs

theorem ctl_catchException (h : ExceptionHandler) (hs : List ExceptionHandler) :
    (vm.catchException h hs).ctl = vm.ctl.catchException h hs := by
  have he := vm.ctl_enterHandler h h.exceptIp
  have ht : (vm.enterHandler h h.exceptIp).thread.ctl = vm.thread.ctl := congrArg Ctl.thread he
  simp only [catchException, ctl_setThread, ctl_push, he, Ctl.catchException]
  congr 1
  generalize vm.enterHandler h h.exceptIp = v at ht
  have hp : (v.push v.thread.exception).thread.ctl = vm.thread.ctl :=
    (congrArg Ctl.thread (v.ctl_push v.thread.exception)).trans ht
  generalize v.push v.thread.exception = u at hp
  simp only [ObjThread.ctl, ThreadControl.mk.injEq] at hp
  simp [ObjThread.ctl, hp]

theorem ctl_enterFinally (h : ExceptionHandler) (hs : List ExceptionHandler) :
    (vm.enterFinally h hs).ctl = vm.ctl.enterFinally h hs := by
  have he := vm.ctl_enterHandler h h.finallyIp
  have ht : (vm.enterHandler h h.finallyIp).thread.ctl = vm.thread.ctl := congrArg Ctl.thread he
  simp only [enterFinally, ctl_setThread, he, Ctl.enterFinally]
  congr 1
  generalize vm.enterHandler h h.finallyIp = v at ht
  simp only [ObjThread.ctl, ThreadControl.mk.injEq] at ht
  simp [ObjThread.ctl, ht]

theorem ctl_unwind (hs : List ExceptionHandler) : (vm.unwind hs).ctl = vm.ctl.unwind hs := by
  induction hs generalizing vm with
  | nil => exact vm.ctl_uncaught []
  | cons h hs ih =>
    have hc := vm.ctl_cutFrames h.frameCount
    simp only [unwind, Ctl.unwind, ← hc]
    generalize vm.dropFrames (vm.thread.frameCount - h.frameCount) = v
    have hn : v.ctl.thread.frameCount = v.thread.frameCount := rfl
    rw [hn]
    split
    · exact v.ctl_uncaught _
    · split
      · exact v.ctl_catchException h hs
      · split
        · exact v.ctl_enterFinally h hs
        · exact (ih _).trans (congrArg (fun c => Ctl.unwind c hs) (v.ctl_setThread_of_eq rfl))

@[simp] theorem ctl_handleException : vm.handleException.ctl = vm.ctl.handleException := by
  unfold handleException Ctl.handleException
  have hx : vm.ctl.thread.hasException = vm.thread.hasException := rfl
  rw [hx]
  split
  · exact vm.ctl_unwind _
  · rfl

end VM

end ToiLang
