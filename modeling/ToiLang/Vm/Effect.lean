import ToiLang.Vm.Control

namespace ToiLang

inductive CtlOutcome
  | next (c : Ctl)
  | switch (c : Ctl)
  | error (c : Ctl)
  | leave (c : Ctl) (ok : Bool)
  | undefined

def Outcome.ctl {W : Type} : Outcome W → CtlOutcome
  | .next vm => .next vm.ctl
  | .switch vm => .switch vm.ctl
  | .error vm => .error vm.ctl
  | .leave vm ok => .leave vm.ctl ok
  | .undefined => .undefined

def CtlOutcome.settle : CtlOutcome → Option Ctl
  | .next c => some c
  | .switch c => some c
  | .error c => some c.handleException
  | .leave c ok => some (c.setControl (.leave ok))
  | .undefined => none

@[simp] theorem Outcome.settle_ctl {W : Type} (o : Outcome W) :
    o.settle.map VM.ctl = o.ctl.settle := by
  cases o with
  | next | switch | undefined => rfl
  | leave vm ok => rfl
  | error vm => exact congrArg some vm.ctl_handleException

/-- Where an instruction can jump to from `ip`, the position behind it. -/
def OpCode.jumpTarget (op : OpCode) (args : List UInt8) (ip : CodePtr) : Option CodePtr :=
  match op with
  | .opJump | .opJumpIfFalse | .opJumpIfTrue => some (ip.forward (operandShort args 0))
  | .opLoop => some (ip.back (operandShort args 0))
  | .opForPrep => some (ip.forward (operandShort args 2))
  | .opForLoop => some (ip.back (operandShort args 2))
  | _ => none

/-- The handler that `OP_TRY` pushes. -/
def Ctl.tryHandler (c : Ctl) (args : List UInt8) : ExceptionHandler :=
  let flags := (args.getD 1 0).toNat
  let hasExcept := flags % 2 = 1
  let hasFinally := flags / 2 % 2 = 1
  { frameCount := c.thread.frameCount
    stackTop := c.frame.slots + (args.getD 0 0).toNat
    hasExcept := hasExcept
    hasFinally := hasFinally
    inExcept := false
    exceptIp := if hasExcept then c.run.ip.forward (operandShort args 2) else ⟨0, 0⟩
    finallyIp := if hasFinally then c.run.ip.forward (operandShort args 4) else ⟨0, 0⟩ }

/-- A frame at the start of its function. -/
def CallFrame.AtStart (f : CallFrame) : Prop := f.ip = ⟨f.closure.function, 0⟩

/-- A thread that has not run yet. -/
structure ThreadControl.Fresh (t : ThreadControl) : Prop where
  handlers : t.handlers = []
  frameCount : t.frameCount ≤ 1
  start : t.frameCount = 1 → (t.frames 0).AtStart

/-- What an instruction can do to the frames and handlers, whatever the data. `ip` is already
behind the instruction. -/
inductive InstrEffect (op : OpCode) (args : List UInt8) : Ctl → CtlOutcome → Prop
  | save {c : Ctl} {o : CtlOutcome} : InstrEffect op args c.saveIp o → InstrEffect op args c o
  | stay {c : Ctl} : op.fallsThrough = true → InstrEffect op args c (.next c)
  | jump {c : Ctl} {ip : CodePtr} :
    op.jumpTarget args c.run.ip = some ip → InstrEffect op args c (.next (c.setIp ip))
  | raise {c : Ctl} (e : Value) :
    op ≠ .opEndTry → op ≠ .opEndFinally → InstrEffect op args c (.error (c.raise e))
  | fail {c : Ctl} : op.isControl = false → InstrEffect op args c (.error c)
  | call {c : Ctl} {f : CallFrame} : op.fallsThrough = true → op.isControl = false → f.AtStart →
    c.frame.ip = c.run.ip → InstrEffect op args c (.next (c.pushFrame f).loadFrame)
  | native {c : Ctl} {n : NativeCall} {vs : List Value} : op.fallsThrough = true →
    op.isControl = false → c.frame.ip = c.run.ip → n.thread = c.currentThread →
    InstrEffect op args c (.next (c.setControl (.native n (.start vs))))
  | generator {c : Ctl} {t : ThreadControl} : op.fallsThrough = true → op.isControl = false →
    t.Fresh → InstrEffect op args c (.next (c.allocate t))
  | generatorFails {c : Ctl} {t : ThreadControl} : op.fallsThrough = true →
    op.isControl = false → t.Fresh → InstrEffect op args c (.error (c.allocate t))
  | print {c : Ctl} {vs : List Value} :
    op = .opPrint → InstrEffect op args c (.next (c.setControl (.print vs)))
  | importFails {c : Ctl} : op = .opImport → InstrEffect op args c (.leave c false)
  | tryBlock {c : Ctl} :
    op = .opTry → InstrEffect op args c (.next (c.pushHandler (c.tryHandler args)))
  | endTry {c : Ctl} : op = .opEndTry → InstrEffect op args c (.next c.popHandler)
  | endFinally {c : Ctl} :
    op = .opEndFinally → c.thread.hasException = false → InstrEffect op args c (.next c)
  | rethrow {c : Ctl} :
    op = .opEndFinally → c.thread.hasException = true → InstrEffect op args c (.error c)
  | return {c : Ctl} : op = .opReturn ∨ op = .opReturnN →
    c.run.minFrameCount < c.popFrame.thread.frameCount →
    InstrEffect op args c (.next c.popFrame.loadFrame)
  | leave {c : Ctl} : op = .opReturn ∨ op = .opReturnN →
    c.popFrame.thread.frameCount ≤ c.run.minFrameCount →
    InstrEffect op args c (.leave c.popFrame true)
  | overflow {c : Ctl} {e : Value} : op = .opReturn ∨ op = .opReturnN →
    c.popFrame.thread.frameCount ≤ c.run.minFrameCount →
    InstrEffect op args c (.error (c.popFrame.raise e))
  | returnSwitch {c : Ctl} {t : Nat} : op = .opReturn ∨ op = .opReturnN →
    c.popFrame.thread.frameCount ≤ c.run.minFrameCount →
    0 < (c.popFrame.switchTo t).thread.frameCount →
    InstrEffect op args c (.switch (c.popFrame.switchTo t).loadFrame)
  | undefined {c : Ctl} : InstrEffect op args c .undefined

/-- Where the interpreter goes on once native code is done. -/
inductive Continues : Control → Prop
  | fetch : Continues .fetch
  | print (rest : List Value) : Continues (.print rest)

def Ctl.popRun (c : Ctl) (run : Run) (rest : List (Run × Starter)) : Ctl :=
  { c with run := run, outer := rest }

/-- What a step of the machine can do to the frames and handlers. -/
inductive TurnEffect (fns : Nat → ObjFunction) (c : Ctl) : CtlOutcome → Prop
  | interrupt (e : Value) : c.control = .fetch → TurnEffect fns c (.error (c.raise e))
  | skip : c.control = .fetch →
    OpCode.ofCode ((fns c.run.ip.function).chunk.byte c.run.ip.offset) = none →
    c.run.ip.offset < (fns c.run.ip.function).code.length →
    TurnEffect fns c (.next (c.setIp (c.run.ip.forward 1)))
  | instr {op : OpCode} {args : List UInt8} {o : CtlOutcome} : c.control = .fetch →
    c.run.ip.offset < (fns c.run.ip.function).code.length →
    OpCode.ofCode ((fns c.run.ip.function).chunk.byte c.run.ip.offset) = some op →
    readOperands fns ⟨(fns c.run.ip.function).code, (fns c.frame.closure.function).constants⟩
      c.run.ip.offset op = some args →
    InstrEffect op args (c.setIp (c.run.ip.forward (1 + args.length))) o → TurnEffect fns c o
  | nativeReturns {n : NativeCall} {i : NativeInput} {k : Control} : c.control = .native n i →
    Continues k → TurnEffect fns c (.next ((c.switchTo n.thread).setControl k))
  | nativeCreates {n : NativeCall} {i : NativeInput} {k : Control} {t : ThreadControl} :
    c.control = .native n i → Continues k → c.currentThread = n.thread → t.Fresh →
    TurnEffect fns c (.next ((c.allocate t).setControl k))
  | nativeSwitches {n : NativeCall} {i : NativeInput} {k : Control} {t : Nat} :
    c.control = .native n i → Continues k → t ≠ n.thread →
    0 < (c.switchTo t).thread.frameCount →
    TurnEffect fns c (.switch ((c.switchTo t).loadFrame.setControl k))
  | nativeCreatesAway {n : NativeCall} {i : NativeInput} {k : Control} {t : ThreadControl} :
    c.control = .native n i → Continues k → c.currentThread ≠ n.thread → t.Fresh →
    0 < (c.allocate t).thread.frameCount →
    TurnEffect fns c (.switch ((c.allocate t).loadFrame.setControl k))
  | nativeRaises {n : NativeCall} {i : NativeInput} (e : Value) : c.control = .native n i →
    TurnEffect fns c (.error (c.raise e))
  | nativeFails {n : NativeCall} {i : NativeInput} : c.control = .native n i →
    TurnEffect fns c (.error c)
  | exit {n : NativeCall} {i : NativeInput} : c.control = .native n i →
    TurnEffect fns c (.next (c.setControl (.halt true)))
  | callback {n : NativeCall} {i : NativeInput} {f : CallFrame} (state : Nat) :
    c.control = .native n i → f.AtStart →
    TurnEffect fns c (.next ((c.pushFrame f).startRun c.thread.frameCount
      (.native { n with state := state })))
  | callbackFails {n : NativeCall} {i : NativeInput} (state : Nat) (e : Value) :
    c.control = .native n i →
    TurnEffect fns c (.next ((c.raise e).setControl (.native { n with state := state } .callFailed)))
  | printed {vs : List Value} {k : Control} : c.control = .print vs → Continues k →
    TurnEffect fns c (.next (c.setControl k))
  | printNative {vs ws : List Value} {n : NativeCall} : c.control = .print vs →
    n.thread = c.currentThread →
    TurnEffect fns c (.next (c.saveIp.setControl (.native n (.start ws))))
  | printCalls {vs rest : List Value} {f : CallFrame} : c.control = .print vs → f.AtStart →
    TurnEffect fns c (.next ((c.saveIp.pushFrame f).loadFrame.startRun c.thread.frameCount
      (.print rest)))
  | printFails {vs : List Value} (e : Value) : c.control = .print vs →
    TurnEffect fns c (.error (c.saveIp.raise e))
  | finish {ok : Bool} : c.control = .leave ok → c.outer = [] →
    TurnEffect fns c (.next (c.setControl (.halt ok)))
  | resumeNative {ok : Bool} {run : Run} {n : NativeCall} {rest : List (Run × Starter)}
      {i : NativeInput} : c.control = .leave ok → c.outer = (run, .native n) :: rest →
    (ok = true → ∃ v, i = .value v) → (ok = false → i = .runFailed) →
    TurnEffect fns c (.next ((c.popRun run rest).setControl (.native n i)))
  | resumePrint {run : Run} {vs : List Value} {rest : List (Run × Starter)} :
    c.control = .leave true → c.outer = (run, .print vs) :: rest →
    TurnEffect fns c (.next ((c.popRun run rest).setControl (.print vs)))
  | leavePrint {run : Run} {vs : List Value} {rest : List (Run × Starter)} :
    c.control = .leave false → c.outer = (run, .print vs) :: rest →
    TurnEffect fns c (.leave (c.popRun run rest) false)
  | undefined : TurnEffect fns c .undefined

namespace VM

variable {W : Type} {E : Env W} {vm : VM W}

/-- A call pushes a frame at the start of the callee or raises. -/
def Calls (vm : VM W) (c : Closure) : Called W → Prop
  | .ok vm' => ∃ slots, vm'.ctl = vm.ctl.pushFrame ⟨c, ⟨c.function, 0⟩, slots, none⟩
  | .error vm' => ∃ e, vm'.ctl = vm.ctl.raise e

theorem Calls.of_ctl {u : VM W} {c : Closure} {r : Called W} (h : u.Calls c r)
    (hu : u.ctl = vm.ctl) : vm.Calls c r := by
  cases r with
  | ok vm' => rwa [Calls, hu] at h
  | error vm' => rwa [Calls, hu] at h

theorem finishClosureCall_calls (c : Closure) (n : Nat) :
    vm.Calls c (finishClosureCall E vm c n) := by
  unfold finishClosureCall
  dsimp only
  split
  · exact ⟨_, vm.ctl_runtimeError _⟩
  · split
    · exact ⟨_, vm.ctl_runtimeError _⟩
    · exact ⟨_, vm.ctl_pushFrame c n none⟩

theorem call_calls (c : Closure) (n : Nat) : vm.Calls c (call E vm c n) := by
  unfold call
  dsimp only
  split_ifs
  · exact ⟨_, vm.ctl_runtimeError _⟩
  · exact (finishClosureCall_calls c _).of_ctl (by simp)
  · exact ⟨_, vm.ctl_runtimeError _⟩
  · exact ⟨_, vm.ctl_runtimeError _⟩
  · exact ⟨_, vm.ctl_runtimeError _⟩
  · exact (finishClosureCall_calls c _).of_ctl (by simp)
  · exact finishClosureCall_calls c n

theorem callNamed_calls (c : Closure) (n : Nat) : vm.Calls c (callNamed E vm c n) := by
  unfold callNamed
  dsimp only
  split_ifs
  · exact ⟨_, vm.ctl_runtimeError _⟩
  · exact ⟨_, vm.ctl_runtimeError _⟩
  · split
    · exact ⟨_, ctl_raise _ _⟩
    · refine (finishClosureCall_calls c _).of_ctl ?_
      rw [ctl_setThread_of_eq]
      · rfl
      · simp

theorem call_or_named_calls (c : Closure) (named : Bool) (n : Nat) :
    vm.Calls c (if named then callNamed E vm c n else call E vm c n) := by
  split
  · exact callNamed_calls c n
  · exact call_calls c n

theorem ctl_frame_saveIp (c : Ctl) : c.saveIp.frame.ip = c.saveIp.run.ip := by
  simp [Ctl.saveIp, Ctl.frame]

variable {op : OpCode} {args : List UInt8}

theorem callClosure_effect (hf : op.fallsThrough = true) (hc : op.isControl = false) (named : Bool)
    (c : Closure) (n : Nat) : InstrEffect op args vm.ctl (callClosure E named vm c n).ctl := by
  have h := @call_or_named_calls W E vm.saveIp c named n
  refine .save ?_
  unfold callClosure
  cases hr : (if named then callNamed E vm.saveIp c n else call E vm.saveIp c n) with
  | ok vm' =>
    rw [hr] at h
    obtain ⟨slots, h⟩ := h
    rw [ctl_saveIp] at h
    simp only [Outcome.ctl, ctl_loadFrame, h]
    exact .call hf hc rfl (ctl_frame_saveIp _)
  | error vm' =>
    rw [hr] at h
    obtain ⟨e, h⟩ := h
    rw [ctl_saveIp] at h
    simp only [Outcome.ctl, h]
    exact .raise e (by rintro rfl; cases hc) (by rintro rfl; cases hc)

theorem callNative_effect (hf : op.fallsThrough = true) (hc : op.isControl = false) (a n : Nat)
    (after : AfterNative) :
    InstrEffect op args vm.ctl (Outcome.ctl (.next (vm.callNative a n after))) := by
  have h : (vm.callNative a n after).ctl = vm.ctl.saveIp.setControl
      (.native ⟨a, 0, vm.currentThread, after⟩ (.start (vm.thread.top n))) := by
    have hs : (vm.drop (n + 1)).saveIp.ctl = vm.ctl.saveIp := by simp
    exact congrArg (fun d : Ctl => d.setControl _) hs
  refine .save ?_
  rw [Outcome.ctl, h]
  exact .native hf hc (ctl_frame_saveIp _) rfl

theorem InstrEffect.of_ctl {c d : Ctl} {o : CtlOutcome} (h : InstrEffect op args c o) (hd : c = d) :
    InstrEffect op args d o := hd ▸ h

theorem callValue_effect (hf : op.fallsThrough = true) (hc : op.isControl = false) (v : Value)
    (n : Nat) (after : AfterNative) :
    InstrEffect op args vm.ctl (callValue E vm v n after).ctl := by
  cases v with
  | native a => exact callNative_effect hf hc a n after
  | closure a f us =>
    have h := @callClosure_effect W E vm _ args hf hc false ⟨a, f, us⟩ n
    simp only [callValue]
    split
    next heq =>
      rw [heq] at h
      simpa [Outcome.ctl] using h
    next => exact h
  | _ => exact .fail hc

/-- The thread that a generator call makes, with its first frame or with the call's error. -/
theorem createGenerator_effect (hf : op.fallsThrough = true) (hc : op.isControl = false)
    (named : Bool) (c : Closure) (n : Nat) :
    InstrEffect op args vm.ctl (createGenerator E named vm c n).ctl := by
  unfold createGenerator
  dsimp only
  generalize hg : ({ newThread 96 24 16 with isGenerator := true }.push c.value).pushAll
    (vm.thread.top n) = gen
  have hgen : gen.ctl = (newThread 96 24 16).ctl := by
    rw [← hg]
    simp
    rfl
  generalize hi : ({ vm with
    threads := Function.update vm.threads vm.nextThread gen
    currentThread := vm.nextThread
    nextThread := vm.nextThread + 1 } : VM W) = inner
  have hctl : ∀ t : ThreadControl,
      ({ inner.ctl.setThread t with currentThread := vm.currentThread } : Ctl) =
        vm.ctl.allocate t := by
    intro t
    subst hi
    refine Ctl.ext (fun i => ?_) rfl rfl rfl rfl rfl
    by_cases h : i = vm.nextThread
    · subst h
      simp [ctl, Ctl.allocate, Ctl.setThread]
    · simp [ctl, Ctl.allocate, Ctl.setThread, h]
  have hthread : inner.ctl.thread = (newThread 96 24 16).ctl := by
    rw [← hgen, ← hi]
    simp [ctl, Ctl.thread]
  have h := @call_or_named_calls W E inner c named n
  cases hr : (if named then callNamed E inner c n else call E inner c n) with
  | ok vm' =>
    rw [hr] at h
    obtain ⟨slots, h⟩ := h
    have hv : VM.ctl { vm' with currentThread := vm.currentThread } =
        vm.ctl.allocate { inner.ctl.thread with
          frames := Function.update inner.ctl.thread.frames inner.ctl.thread.frameCount
            ⟨c, ⟨c.function, 0⟩, slots, none⟩
          frameCount := inner.ctl.thread.frameCount + 1 } := by
      rw [← hctl]
      exact congrArg (fun d : Ctl => ({ d with currentThread := vm.currentThread } : Ctl)) h
    simp only [Outcome.ctl, ctl_push, ctl_drop, hv]
    refine .generator hf hc ⟨?_, ?_, fun _ => ?_⟩
    · rw [hthread]
      rfl
    · rw [hthread]
      exact Nat.le_refl 1
    · rw [hthread]
      rfl
  | error vm' =>
    rw [hr] at h
    obtain ⟨e, h⟩ := h
    have hv : VM.ctl { vm' with currentThread := vm.currentThread } =
        vm.ctl.allocate { inner.ctl.thread with hasException := true, exception := e } := by
      rw [← hctl]
      exact congrArg (fun d : Ctl => ({ d with currentThread := vm.currentThread } : Ctl)) h
    simp only [Outcome.ctl, hv]
    refine .generatorFails hf hc ⟨?_, ?_, fun h1 => ?_⟩
    · rw [hthread]
      rfl
    · rw [hthread]
      exact Nat.zero_le 1
    · rw [hthread] at h1
      cases h1

theorem dispatch_effect (hf : op.fallsThrough = true) (hc : op.isControl = false) (named : Bool)
    (v : Value) (n : Nat) : InstrEffect op args vm.ctl (dispatch E named vm v n).ctl := by
  have hr : ∀ message, InstrEffect op args vm.ctl
      (Outcome.error (vm.runtimeError message)).ctl := by
    intro message
    rw [Outcome.ctl, ctl_runtimeError]
    exact .raise _ (by rintro rfl; cases hc) (by rintro rfl; cases hc)
  cases v with
  | closure a f us =>
    simp only [dispatch]
    split
    · exact createGenerator_effect hf hc named _ n
    · exact callClosure_effect hf hc named _ n
  | native a => exact callNative_effect hf hc a n .continue
  | table t =>
    simp only [dispatch]
    have hv : ∀ f w, (vm.setThread (vm.thread.insertReceiver n f w)).ctl = vm.ctl :=
      fun f w => vm.ctl_setThread_of_eq (by simp)
    split
    · exact InstrEffect.of_ctl (callClosure_effect hf hc named _ _) (hv _ _)
    · exact InstrEffect.of_ctl (callNative_effect hf hc _ _ _) (hv _ _)
    · exact hr _
  | _ => exact hr _

theorem invoke_effect (hf : op.fallsThrough = true) (hc : op.isControl = false) (named : Bool)
    (n : Nat) : InstrEffect op args vm.ctl (invoke E named vm n).ctl := by
  unfold invoke
  split
  · exact InstrEffect.of_ctl (dispatch_effect hf hc named _ _) (vm.ctl_setThread_of_eq (by simp))
  · exact dispatch_effect hf hc named _ n

theorem error_effect (hc : op.isControl = false) (message : String) :
    InstrEffect op args vm.ctl (Outcome.error (vm.runtimeError message)).ctl := by
  rw [Outcome.ctl, ctl_runtimeError]
  exact .raise _ (by rintro rfl; cases hc) (by rintro rfl; cases hc)

theorem raise_effect (hc : op.isControl = false) (w : World W) (e : Value) :
    InstrEffect op args vm.ctl
      (Outcome.error ((vm.setWorld w).setThread (vm.thread.runtimeError e))).ctl := by
  have h : ((vm.setWorld w).setThread (vm.thread.runtimeError e)).ctl = vm.ctl.raise e :=
    (vm.setWorld w).ctl_raise e
  rw [Outcome.ctl, h]
  exact .raise _ (by rintro rfl; cases hc) (by rintro rfl; cases hc)

theorem callExpand_effect (hf : op.fallsThrough = true) (hc : op.isControl = false) (n : Nat) :
    InstrEffect op args vm.ctl (callExpand E vm n).ctl := by
  unfold callExpand
  split
  next a _ =>
    dsimp only
    generalize hv : vm.setThread ((vm.thread.drop 1).pushAll (E.spread vm.toWorld a)) = v
    have hctl : v.ctl = vm.ctl := by
      rw [← hv]
      exact vm.ctl_setThread_of_eq (by simp)
    split
    · exact error_effect hc _
    · split
      · exact InstrEffect.of_ctl (invoke_effect hf hc false _) hctl
      next w named _ =>
        have hp : ((v.setWorld w).push (.table named)).ctl = vm.ctl := by simpa using hctl
        split
        · exact InstrEffect.of_ctl (error_effect hc _) hp
        · exact InstrEffect.of_ctl (invoke_effect hf hc true _) hp
  next => exact error_effect hc _

theorem opUnpack_effect (hf : op.fallsThrough = true) (hc : op.isControl = false) (d n : Nat) :
    InstrEffect op args vm.ctl (vm.opUnpack E d n).ctl := by
  unfold opUnpack
  dsimp only
  split
  · exact error_effect hc _
  · split
    · rw [Outcome.ctl, vm.ctl_setThread_of_eq (by simp; rfl)]
      exact .stay hf
    · rw [Outcome.ctl, vm.ctl_setThread_of_eq (by simp)]
      exact .stay hf

theorem performData_effect (hf : op.fallsThrough = true) (hc : op.isControl = false) :
    InstrEffect op args vm.ctl (vm.performData E op args).ctl := by
  unfold performData
  dsimp only
  generalize hv : vm.drop (op.dataOperands args) = v
  have hctl : v.ctl = vm.ctl := by
    rw [← hv]
    exact vm.ctl_drop _
  have hp : ∀ w vs, ((v.setWorld w).setThread (v.thread.pushAll vs)).ctl = vm.ctl :=
    fun w vs => ((v.setWorld w).ctl_pushAll vs).trans hctl
  split
  · rw [Outcome.ctl, hp]
    exact .stay hf
  · exact InstrEffect.of_ctl (raise_effect hc _ _) hctl
  · rw [Outcome.ctl, ctl_setWorld, hctl]
    exact .fail hc
  · split
    · exact InstrEffect.of_ctl (callClosure_effect hf hc false _ _) (hp _ _)
    · exact .undefined
  · exact InstrEffect.of_ctl (callValue_effect hf hc _ _ _) (hp _ _)
  · exact InstrEffect.of_ctl (callValue_effect hf hc _ _ _) (hp _ _)

theorem performSetLocal_effect (hf : op.fallsThrough = true) (hc : op.isControl = false) (slot : Nat)
    (operands : List Value) :
    InstrEffect op args vm.ctl (vm.performSetLocal E op slot operands).ctl := by
  unfold performSetLocal
  split
  · simp only [Outcome.ctl, ctl_push, ctl_setLocal, ctl_setWorld]
    exact .stay hf
  · exact raise_effect hc _ _
  · rw [Outcome.ctl, ctl_setWorld]
    exact .fail hc
  next w method vs _ =>
    dsimp only
    generalize hv : (vm.setWorld w).setThread (vm.thread.pushAll (method :: vs)) = v
    have hctl : v.ctl = vm.ctl := by
      rw [← hv]
      exact (vm.setWorld w).ctl_pushAll _
    split
    · exact InstrEffect.of_ctl (error_effect hc _) hctl
    · split
      · refine InstrEffect.of_ctl (callClosure_effect hf hc false _ _) (.trans ?_ hctl)
        exact v.ctl_setThread_of_eq rfl
      · exact .undefined
  · exact .undefined

theorem withName_effect {k : Bytes → Outcome W} (i : Nat)
    (h : ∀ name, InstrEffect op args vm.ctl (k name).ctl) :
    InstrEffect op args vm.ctl (vm.withName E i k).ctl := by
  unfold withName
  split
  · exact h _
  · exact .undefined

/-- The frame of an imported module is the frame of its call with the context added. -/
theorem opImport_effect (h : op = .opImport) (i : Nat) :
    InstrEffect op args vm.ctl (vm.opImport E i).ctl := by
  subst h
  refine withName_effect i fun name => ?_
  split
  · rw [Outcome.ctl, ctl_push]
    exact .stay rfl
  · split
    · rw [Outcome.ctl, ctl_push]
      exact .stay rfl
    · exact .fail rfl
    · exact .importFails rfl
    next f filename _ =>
      dsimp only
      generalize hv : VM.setGlobal _ (ascii "__main") _ = entered
      have hctl : entered.ctl = vm.ctl := by
        rw [← hv]
        exact vm.ctl_push _
      have hc := @call_calls W E entered.saveIp ⟨vm.nextObject, f, []⟩ 0
      rw [Calls.eq_def, ctl_saveIp, hctl] at hc
      refine .save ?_
      split
      next heq =>
        rw [heq] at hc
        obtain ⟨e, hc⟩ := hc
        simp only [Outcome.ctl, ctl_restoreModuleContext, hc]
        exact .raise e (by simp) (by simp)
      next vm' heq =>
        rw [heq] at hc
        obtain ⟨slots, hc⟩ := hc
        have ht : vm'.thread.ctl = _ := congrArg Ctl.thread hc
        simp only [Ctl.pushFrame, Ctl.thread_setThread, ObjThread.ctl, ThreadControl.mk.injEq] at ht
        obtain ⟨h1, h2, h3, h4, h5⟩ := ht
        simp only [Outcome.ctl, ctl_loadFrame, ctl_setThread, hc]
        simp only [Ctl.pushFrame, Ctl.setThread_setThread, ObjThread.ctl, h1, h2, h3, h4, h5,
          Nat.add_sub_cancel, Function.update_self, Function.update_idem]
        exact .call (f := ⟨⟨vm.nextObject, f, []⟩, ⟨f, 0⟩, slots, _⟩) rfl rfl rfl
          (ctl_frame_saveIp _)

theorem opTry_effect (h : op = .opTry) :
    InstrEffect op args vm.ctl (vm.opTry (args.getD 0 0).toNat (args.getD 1 0).toNat
      (operandShort args 2) (operandShort args 4)).ctl := by
  simp only [opTry]
  split
  · rw [Outcome.ctl, ctl_runtimeError]
    exact .raise _ (by simp [h]) (by simp [h])
  · rw [Outcome.ctl, ctl_setThread]
    exact .tryBlock h

theorem opEndFinally_effect (h : op = .opEndFinally) :
    InstrEffect op args vm.ctl vm.opEndFinally.ctl := by
  unfold opEndFinally
  split
  next hx => exact .rethrow h hx
  next hx => exact .endFinally h (Bool.not_eq_true _ ▸ hx)

theorem opForPrep_effect (h : op = .opForPrep) (i j : Nat) :
    InstrEffect op args vm.ctl (vm.opForPrep E i j (operandShort args 2)).ctl := by
  unfold opForPrep
  split
  · rw [Outcome.ctl]
    split
    · exact .jump (by rw [h]; rfl)
    · exact .stay (by rw [h]; rfl)
  · rw [Outcome.ctl, ctl_runtimeError]
    exact .raise _ (by simp [h]) (by simp [h])

theorem opForLoop_effect (h : op = .opForLoop) (i j : Nat) :
    InstrEffect op args vm.ctl (vm.opForLoop E i j (operandShort args 2)).ctl := by
  unfold opForLoop
  split
  · rw [Outcome.ctl]
    generalize hv : vm.setLocal i _ = v
    have hctl : v.ctl = vm.ctl := by
      rw [← hv]
      exact vm.ctl_setLocal _ _
    have hrun : v.run = vm.run := congrArg Ctl.run hctl
    split
    · rw [ctl_setIp, hctl, hrun]
      exact .jump (by rw [h]; rfl)
    · rw [hctl]
      exact .stay (by rw [h]; rfl)
  · rw [Outcome.ctl, ctl_runtimeError]
    exact .raise _ (by simp [h]) (by simp [h])

theorem opClosure_effect (h : op = .opClosure) :
    InstrEffect op args vm.ctl (vm.opClosure E args).ctl := by
  unfold opClosure
  split
  · dsimp only
    generalize hv : (vm.push .nil).captureAll args.tail = r
    have hctl : r.1.ctl = vm.ctl := by
      rw [← hv]
      simp
    have hr : ∀ a, (r.1.setThread (r.1.thread.setSlot vm.thread.stackTop a)).ctl = vm.ctl :=
      fun a => (r.1.ctl_setThread_of_eq (ObjThread.ctl_setSlot _ _ _)).trans hctl
    exact InstrEffect.of_ctl (.stay (by rw [h]; rfl)) (hr _)
  · exact .undefined

@[simp] theorem ctl_leaveFrame (vs : List Value) : (vm.leaveFrame vs).ctl = vm.ctl.popFrame := by
  unfold leaveFrame
  dsimp only
  generalize hu : (vm.cacheModuleResult vm.frame (vs.headD .nil)).closeUpvalues vm.frame.slots = u
  have hc : u.ctl = vm.ctl := by
    rw [← hu]
    simp
  generalize hv : u.discardHandlersForFrameReturn.restoreModuleContext vm.frame = v
  have hctl : v.ctl = u.ctl.setThread { u.ctl.thread with
      handlers := u.ctl.thread.handlers.dropWhile
        fun h => u.ctl.thread.frameCount ≤ h.frameCount } := by
    rw [← hv, ctl_restoreModuleContext, discardHandlersForFrameReturn, ctl_setThread]
    rfl
  have ht : v.thread.ctl = _ := (congrArg Ctl.thread hctl).trans (Ctl.thread_setThread _ _)
  simp only [ObjThread.ctl, ThreadControl.mk.injEq] at ht
  obtain ⟨h1, h2, h3, h4, h5⟩ := ht
  rw [ctl_applyPendingSetLocal, ctl_setThread, ObjThread.ctl_pushAll, hctl, Ctl.setThread_setThread,
    Ctl.popFrame, ← hc]
  simp only [ObjThread.ctl, h1, h2, h3, h4, h5]

theorem returnToCaller_effect (h : op = .opReturn ∨ op = .opReturnN) {c : Ctl}
    (hc : vm.ctl = c.popFrame) (hle : c.popFrame.thread.frameCount ≤ c.run.minFrameCount)
    (caller : Nat) (vs : List Value) :
    InstrEffect op args c (vm.returnToCaller caller vs).ctl := by
  unfold returnToCaller
  split
  · rw [Outcome.ctl, ctl_runtimeError, hc]
    exact .overflow h hle
  · dsimp only
    generalize hx : (if vm.thread.isGenerator && vm.thread.generatorMode then _ else _ : VM W) = x
    have hxctl : x.ctl = c.popFrame := by
      rw [← hx, ← hc]
      split
      · exact (ctl_passToCaller _ _ _).trans (vm.ctl_setThread_of_eq rfl)
      · rw [ctl_passToCaller]
    have hs : VM.ctl { x with currentThread := caller } = c.popFrame.switchTo caller := by
      rw [← hxctl]
      rfl
    unfold reload
    split
    · exact .undefined
    next hn =>
      rw [Outcome.ctl, ctl_loadFrame, hs]
      refine .returnSwitch h hle ?_
      rw [← hs]
      exact Nat.pos_of_ne_zero hn

theorem returnValues_effect (h : op = .opReturn ∨ op = .opReturnN) (vs : List Value) :
    InstrEffect op args vm.ctl (vm.returnValues vs).ctl := by
  unfold returnValues
  have hpop := vm.ctl_leaveFrame vs
  generalize vm.leaveFrame vs = u at hpop
  have hcount : u.thread.frameCount = vm.ctl.popFrame.thread.frameCount := by
    rw [← hpop]
    rfl
  have hrun : u.run = vm.ctl.run := congrArg Ctl.run hpop
  dsimp only
  split
  next hlt =>
    rw [hcount, hrun] at hlt
    rw [Outcome.ctl, ctl_loadFrame, hpop]
    exact .return h hlt
  next hle =>
    rw [hcount, hrun] at hle
    have hle := Nat.not_lt.mp hle
    split
    · rw [Outcome.ctl]
      split
      · rw [ctl_drop, hpop]
        exact .leave h hle
      · rw [hpop]
        exact .leave h hle
    · refine returnToCaller_effect h ?_ hle _ vs
      rw [← hpop]
      exact u.ctl_setThread_of_eq rfl

theorem perform_effect (op : OpCode) (args : List UInt8) :
    InstrEffect op args vm.ctl (vm.perform E op args).ctl := by
  cases op
  case opTry => exact opTry_effect rfl
  case opEndTry =>
    have h : (vm.opEndTry).ctl = .next vm.ctl.popHandler := congrArg CtlOutcome.next (vm.ctl_setThread _)
    rw [perform, h]
    exact .endTry rfl
  case opEndFinally => exact opEndFinally_effect rfl
  case opThrow =>
    simp only [perform, opThrow, Outcome.ctl]
    rw [ctl_raise, ctl_drop]
    exact .raise _ (by simp) (by simp)
  case opReturn =>
    exact InstrEffect.of_ctl (returnValues_effect (.inl rfl) _) (vm.ctl_drop 1)
  case opReturnN => exact returnValues_effect (.inr rfl) _
  case opJump => exact .jump rfl
  case opLoop => exact .jump rfl
  case opJumpIfFalse | opJumpIfTrue =>
    simp only [perform, Outcome.ctl]
    split
    all_goals first
      | exact .jump rfl
      | exact .stay rfl
  case opForPrep => exact opForPrep_effect rfl _ _
  case opForLoop => exact opForLoop_effect rfl _ _
  case opCall | opCall0 | opCall1 | opCall2 => exact invoke_effect rfl rfl false _
  case opCallNamed => exact invoke_effect rfl rfl true _
  case opCallExpand => exact callExpand_effect rfl rfl _
  case opClosure => exact opClosure_effect rfl
  case opUnpack => exact opUnpack_effect rfl rfl _ _
  case opImport => exact opImport_effect rfl _
  case opPrint => exact InstrEffect.of_ctl (.print rfl) (vm.ctl_drop _)
  case opGetGlobal | opDeleteGlobal =>
    refine withName_effect _ fun name => ?_
    split
    · exact InstrEffect.of_ctl (.stay rfl) (by simp)
    · rw [Outcome.ctl, ctl_raise]
      exact .raise _ (by simp) (by simp)
  case opDefineGlobal | opSetGlobal =>
    refine withName_effect _ fun name => InstrEffect.of_ctl (.stay rfl) (by simp)
  case opAddSetLocal | opSubSetLocal | opMulSetLocal | opDivSetLocal | opModSetLocal =>
    exact InstrEffect.of_ctl (performSetLocal_effect rfl rfl _ _) (vm.ctl_drop 2)
  case opIncLocal | opSubLocalConst | opMulLocalConst | opDivLocalConst | opModLocalConst =>
    exact performSetLocal_effect rfl rfl _ _
  case opCloseUpvalue => exact InstrEffect.of_ctl (.stay rfl) (by simp)
  case opSetUpvalue => exact InstrEffect.of_ctl (.stay rfl) (vm.ctl_writeUpvalue _ _)
  case opSetLocal => exact InstrEffect.of_ctl (.stay rfl) (vm.ctl_setLocal _ _)
  case opAdjustStack => exact InstrEffect.of_ctl (.stay rfl) (vm.ctl_setThread_of_eq rfl)
  case opConstant | opNil | opTrue | opFalse | opPop | opDup | opGetLocal | opGetUpvalue | opNot
    | opNegate | opIadd | opIsub | opImul | opIdiv | opImod | opFadd | opFsub | opFmul | opFdiv
    | opFmod | opGc =>
    exact InstrEffect.of_ctl (.stay rfl) (by simp)
  all_goals exact performData_effect rfl rfl

@[simp] theorem ctl_afterNative (after : AfterNative) :
    ∃ k, Continues k ∧ (afterNative E vm after).ctl = vm.ctl.setControl k := by
  cases after with
  | «continue» => exact ⟨_, .fetch, rfl⟩
  | push v =>
    refine ⟨_, .fetch, ?_⟩
    exact congrArg (fun c : Ctl => c.setControl .fetch) (vm.ctl_push v)
  | print rest =>
    refine ⟨_, .print rest, ?_⟩
    exact congrArg (fun c : Ctl => c.setControl (.print rest)) (vm.ctl_drop 1)

section Native

variable {n : NativeCall} {i : NativeInput} {c : Ctl}

/-- Native code that gives control to a thread, which may be the one it was called on. -/
theorem finishNative_effect {t : Nat} (hc : c.control = .native n i) (h : vm.ctl = c.switchTo t) :
    TurnEffect E.fns c (finishNative E vm n).ctl := by
  have hcur : vm.currentThread = t := congrArg Ctl.currentThread h
  unfold finishNative
  rw [hcur]
  by_cases heq : t = n.thread
  · obtain ⟨k, hk, ha⟩ := @ctl_afterNative W E vm n.after
    simp only [heq, ↓reduceIte, Outcome.ctl, ha, h]
    exact .nativeReturns hc hk
  · rw [if_neg heq]
    by_cases hz : vm.thread.frameCount = 0
    · simp only [reload, hz, ↓reduceIte]
      exact .undefined
    · obtain ⟨k, hk, ha⟩ := @ctl_afterNative W E vm.loadFrame n.after
      simp only [reload, hz, ↓reduceIte, Outcome.ctl, ha, ctl_loadFrame, h]
      refine .nativeSwitches hc hk heq ?_
      rw [← h]
      exact Nat.pos_of_ne_zero hz

/-- The thread that native code makes does not run yet. -/
theorem finishNative_allocate {t : ThreadControl} (hc : c.control = .native n i) (ht : t.Fresh)
    (h : vm.ctl = c.allocate t) : TurnEffect E.fns c (finishNative E vm n).ctl := by
  have hcur : vm.currentThread = c.currentThread := congrArg Ctl.currentThread h
  unfold finishNative
  rw [hcur]
  by_cases heq : c.currentThread = n.thread
  · obtain ⟨k, hk, ha⟩ := @ctl_afterNative W E vm n.after
    simp only [heq, ↓reduceIte, Outcome.ctl, ha, h]
    exact .nativeCreates hc hk heq ht
  · rw [if_neg heq]
    by_cases hz : vm.thread.frameCount = 0
    · simp only [reload, hz, ↓reduceIte]
      exact .undefined
    · obtain ⟨k, hk, ha⟩ := @ctl_afterNative W E vm.loadFrame n.after
      simp only [reload, hz, ↓reduceIte, Outcome.ctl, ha, ctl_loadFrame, h]
      refine .nativeCreatesAway hc hk heq ht ?_
      rw [← h]
      exact Nat.pos_of_ne_zero hz

theorem coroutineCreate_ctl (c : Closure) :
    ∃ t : ThreadControl, t.Fresh ∧ (vm.coroutineCreate c).ctl = vm.ctl.allocate t := by
  unfold coroutineCreate
  dsimp only
  generalize hg : ({ (newThread 256 64 64).push c.value with
    frames := _, frameCount := 1 } : ObjThread) = t
  refine ⟨t.ctl, ⟨?_, ?_, fun _ => ?_⟩, ?_⟩
  · rw [← hg]
    rfl
  · rw [← hg]
    exact Nat.le_refl 1
  · rw [← hg]
    rfl
  · rw [ctl_push]
    refine Ctl.ext (fun j => ?_) rfl rfl rfl rfl rfl
    by_cases h : j = vm.nextThread
    · subst h
      simp [ctl, Ctl.allocate]
    · simp [ctl, Ctl.allocate, h]

theorem stepNative_effect (hc : vm.control = .native n i) :
    TurnEffect E.fns vm.ctl (stepNative E vm n i).ctl := by
  have hctl : vm.ctl.control = .native n i := hc
  unfold stepNative
  split
  · exact finishNative_effect (t := vm.currentThread) hctl ((vm.setWorld _).ctl_pushAll _)
  next w e _ =>
    have h : ((vm.setWorld w).setThread (vm.thread.runtimeError e)).ctl = vm.ctl.raise e :=
      (vm.setWorld w).ctl_raise e
    rw [Outcome.ctl, h]
    exact .nativeRaises e hctl
  · exact .nativeFails hctl
  · exact .exit hctl
  next w state callee vs _ =>
    dsimp only
    generalize hp : (vm.setWorld w).setThread (vm.thread.pushAll (callee :: vs)) = p
    have hpctl : p.ctl = vm.ctl := by
      rw [← hp]
      exact (vm.setWorld w).ctl_pushAll _
    split
    next a f us _ =>
      have h := @call_calls W E p ⟨a, f, us⟩ vs.length
      rw [Calls.eq_def, hpctl] at h
      split
      next vm' heq =>
        rw [heq] at h
        obtain ⟨slots, h⟩ := h
        simp only [Outcome.ctl, ctl_startRun, h]
        exact .callback (f := ⟨⟨a, f, us⟩, ⟨f, 0⟩, slots, none⟩) state hctl rfl
      next vm' heq =>
        rw [heq] at h
        obtain ⟨e, h⟩ := h
        have hv : VM.ctl { vm' with control := .native { n with state := state } .callFailed } =
            (vm.ctl.raise e).setControl (.native { n with state := state } .callFailed) :=
          congrArg (fun c : Ctl => c.setControl _) h
        rw [Outcome.ctl, hv]
        exact .callbackFails state e hctl
    · exact .undefined
  · split
    next a f us _ =>
      obtain ⟨t, hfresh, hv⟩ := @coroutineCreate_ctl W vm ⟨a, f, us⟩
      exact finishNative_allocate hctl hfresh hv
    · exact .undefined
  next t vs _ =>
    unfold coroutineResume
    split
    · exact finishNative_effect (t := vm.currentThread) hctl (by simp; rfl)
    · refine finishNative_effect (t := t) hctl ?_
      refine Ctl.ext (fun j => ?_) rfl rfl rfl rfl rfl
      by_cases h : j = t
      · subst h
        simp only [ctl, Ctl.switchTo, Function.update_self]
        split
        · exact ObjThread.ctl_pushAll _ _
        · exact ObjThread.ctl_pushAll _ _
      · simp [ctl, Ctl.switchTo, h]
  next t _ =>
    unfold genNext
    split
    · exact finishNative_effect (t := vm.currentThread) hctl (by simp; rfl)
    · refine finishNative_effect (t := t) hctl ?_
      refine Ctl.ext (fun j => ?_) rfl rfl rfl rfl rfl
      by_cases h : j = t
      · subst h
        simp [ctl, Ctl.switchTo, ObjThread.ctl]
      · simp [ctl, Ctl.switchTo, h]
  next vs _ =>
    unfold coroutineYield
    split
    · exact finishNative_effect (t := vm.currentThread) hctl (by simp; rfl)
    next caller _ =>
      dsimp only
      generalize hv : (if vm.thread.isGenerator && vm.thread.generatorMode then _ else _ : VM W) = v
      have hvctl : v.ctl = vm.ctl := by
        rw [← hv]
        split
        · exact (ctl_passToCaller _ _ _).trans (vm.ctl_setThread_of_eq rfl)
        · exact ctl_passToCaller _ _ _
      refine finishNative_effect (t := caller) hctl ?_
      rw [← hvctl]
      exact ctl_setThread_of_eq _ rfl

end Native

theorem stepPrint_effect {vs : List Value} (hc : vm.control = .print vs) :
    TurnEffect E.fns vm.ctl (stepPrint E vm vs).ctl := by
  have hctl : vm.ctl.control = .print vs := hc
  unfold stepPrint
  split
  · exact .printed hctl .fetch
  next v rest =>
    dsimp only
    generalize E.metamethod vm.toWorld v (ascii "__str") = method
    have hp : ((vm.push method).push v).ctl = vm.ctl := by simp
    generalize (vm.push method).push v = p at hp
    split
    next a =>
      have h : (p.callNative a 1 (.print rest)).ctl = vm.ctl.saveIp.setControl
          (.native ⟨a, 0, p.currentThread, .print rest⟩ (.start (p.thread.top 1))) := by
        have hs : (p.drop (1 + 1)).saveIp.ctl = vm.ctl.saveIp := by simp [hp]
        exact congrArg (fun d : Ctl => d.setControl _) hs
      rw [Outcome.ctl, h]
      exact .printNative hctl (congrArg Ctl.currentThread hp)
    next a f us =>
      have h := @call_calls W E p.saveIp ⟨a, f, us⟩ 1
      unfold callClosure
      cases hr : call E p.saveIp ⟨a, f, us⟩ 1 with
      | ok vm' =>
        rw [hr] at h
        obtain ⟨slots, h⟩ := h
        simp only [Bool.false_eq_true, ↓reduceIte, Outcome.ctl, ctl_startRun, ctl_loadFrame, h,
          ctl_saveIp, hp]
        exact .printCalls (f := ⟨⟨a, f, us⟩, ⟨f, 0⟩, slots, none⟩) hctl rfl
      | error vm' =>
        rw [hr] at h
        obtain ⟨e, h⟩ := h
        simp only [Bool.false_eq_true, ↓reduceIte, Outcome.ctl, h, ctl_saveIp, hp]
        exact .printFails e hctl
    · exact .printed hctl (.print rest)

theorem stepLeave_effect {ok : Bool} (hc : vm.control = .leave ok) :
    TurnEffect E.fns vm.ctl (stepLeave E vm ok).ctl := by
  have hctl : vm.ctl.control = .leave ok := hc
  unfold stepLeave
  split
  next ho => exact .finish hctl ho
  next run n rest ho =>
    generalize hv : ({ vm with run := run, outer := rest } : VM W) = v
    have hvctl : v.ctl = vm.ctl.popRun run rest := by
      rw [← hv]
      rfl
    cases ok with
    | true =>
      have h : VM.ctl { v.drop 1 with control := .native n (.value (v.thread.peek 0)) } =
          (vm.ctl.popRun run rest).setControl (.native n (.value (v.thread.peek 0))) :=
        congrArg (fun d : Ctl => d.setControl _) ((v.ctl_drop 1).trans hvctl)
      simp only [↓reduceIte, Outcome.ctl, h]
      exact .resumeNative hctl ho (fun _ => ⟨_, rfl⟩) (by simp)
    | false =>
      have h : VM.ctl { v with control := .native n .runFailed } =
          (vm.ctl.popRun run rest).setControl (.native n .runFailed) :=
        congrArg (fun d : Ctl => d.setControl _) hvctl
      simp only [Bool.false_eq_true, ↓reduceIte, Outcome.ctl, h]
      exact .resumeNative hctl ho (by simp) (fun _ => rfl)
  next run vs rest ho =>
    generalize hv : ({ vm with run := run, outer := rest } : VM W) = v
    have hvctl : v.ctl = vm.ctl.popRun run rest := by
      rw [← hv]
      rfl
    cases ok with
    | true =>
      have h : VM.ctl { (v.drop 1).setWorld (E.printValue v.toWorld (v.thread.peek 0)) with
          control := .print vs } = (vm.ctl.popRun run rest).setControl (.print vs) :=
        congrArg (fun d : Ctl => d.setControl _) ((v.ctl_drop 1).trans hvctl)
      simp only [↓reduceIte, Outcome.ctl, h]
      exact .resumePrint hctl ho
    | false =>
      simp only [Bool.false_eq_true, ↓reduceIte, Outcome.ctl, hvctl]
      exact .leavePrint hctl ho

theorem execute_effect (hc : vm.control = .fetch) :
    TurnEffect E.fns vm.ctl (vm.execute E).ctl := by
  have hctl : vm.ctl.control = .fetch := hc
  simp only [execute]
  split
  · exact .undefined
  next hlt =>
    have hlt := Nat.not_le.mp hlt
    split
    next hop =>
      exact .skip hctl hop hlt
    next op hop =>
      split
      · exact .undefined
      next args hargs =>
        have h := @perform_effect W E (vm.setIp (vm.run.ip.forward (1 + args.length))) op args
        exact .instr hctl hlt hop hargs h

/-- Each step of the machine is a step of its frames and handlers. -/
theorem turn_effect (interrupted : Bool) :
    TurnEffect E.fns vm.ctl (vm.turn E interrupted).ctl := by
  unfold turn
  split
  next hc =>
    split
    · rw [Outcome.ctl, ctl_runtimeError]
      exact .interrupt _ hc
    · exact execute_effect hc
  next n i hc => exact stepNative_effect hc
  next hc => exact stepPrint_effect hc
  next hc => exact stepLeave_effect hc
  next => exact .undefined

end VM

end ToiLang
