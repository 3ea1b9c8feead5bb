import ToiLang.Vm.Effect

namespace ToiLang

/-- Which thread runs, which thread each one goes back to, and which thread is the next to be
made. -/
structure Links where
  callers : Nat → Option Nat
  currentThread : Nat
  nextThread : Nat

namespace Links

def create (l : Links) : Links :=
  { l with
    callers := Function.update l.callers l.nextThread none
    nextThread := l.nextThread + 1 }

def resume (l : Links) (t : Nat) : Links :=
  { l with callers := Function.update l.callers t (some l.currentThread), currentThread := t }

/-- `coroutine_do_yield` switches first and then clears the pointer of the thread it is on. -/
def yieldTo (l : Links) (caller : Nat) : Links :=
  { l with callers := Function.update l.callers caller none, currentThread := caller }

def cut (l : Links) : Links :=
  { l with callers := Function.update l.callers l.currentThread none }

def returnTo (l : Links) (caller : Nat) : Links := { l.cut with currentThread := caller }

theorem ext {k l : Links} (ht : ∀ i, k.callers i = l.callers i)
    (h1 : k.currentThread = l.currentThread) (h2 : k.nextThread = l.nextThread) : k = l := by
  obtain ⟨_, _, _⟩ := k
  obtain ⟨_, _, _⟩ := l
  obtain rfl := funext ht
  subst h1 h2
  rfl

/-- What an instruction does that passes control to no other thread. -/
def Steady (l l' : Links) : Prop := l' = l ∨ l' = l.create

theorem Steady.refl (l : Links) : l.Steady l := .inl rfl

end Links

def VM.links {W : Type} (vm : VM W) : Links :=
  ⟨fun t => (vm.threads t).caller, vm.currentThread, vm.nextThread⟩

/-- The links of the machine that an outcome leaves. -/
def Outcome.Links {W : Type} (P : Links → Prop) : Outcome W → Prop
  | .next vm => P vm.links
  | .switch vm => P vm.links
  | .error vm => P vm.links
  | .leave vm _ => P vm.links
  | .undefined => True

theorem Outcome.Links.mono {W : Type} {P Q : ToiLang.Links → Prop} {o : Outcome W} (h : o.Links P)
    (hpq : ∀ l, P l → Q l) : o.Links Q := by
  cases o with
  | undefined => trivial
  | _ => exact hpq _ h

namespace ObjThread

@[simp] theorem push_caller (t : ObjThread) (v : Value) : (t.push v).caller = t.caller := rfl

@[simp] theorem pushAll_caller (t : ObjThread) (vs : List Value) :
    (t.pushAll vs).caller = t.caller := by
  induction vs generalizing t with
  | nil => rfl
  | cons v vs ih => exact ih (t.push v)

@[simp] theorem drop_caller (t : ObjThread) (n : Nat) : (t.drop n).caller = t.caller := rfl

@[simp] theorem runtimeError_caller (t : ObjThread) (v : Value) :
    (t.runtimeError v).caller = t.caller := rfl

@[simp] theorem insertReceiver_caller (t : ObjThread) (n : Nat) (f v : Value) :
    (t.insertReceiver n f v).caller = t.caller := by simp [insertReceiver]

end ObjThread

namespace VM

variable {W : Type} {E : Env W} (vm : VM W)

theorem links_updateThread {t : Nat} {u : ObjThread} (h : u.caller = (vm.threads t).caller) :
    VM.links { vm with threads := Function.update vm.threads t u } = vm.links := by
  refine Links.ext (fun i => ?_) rfl rfl
  by_cases hi : i = t
  · subst hi
    simp [links, h]
  · simp [links, hi]

theorem links_setThread {t : ObjThread} (h : t.caller = vm.thread.caller) :
    (vm.setThread t).links = vm.links :=
  vm.links_updateThread h

@[simp] theorem links_setWorld (w : World W) : (vm.setWorld w).links = vm.links := rfl
@[simp] theorem links_setGlobal (n : Bytes) (v : Option Value) :
    (vm.setGlobal n v).links = vm.links := rfl
@[simp] theorem links_setIp (ip : CodePtr) : (vm.setIp ip).links = vm.links := rfl
@[simp] theorem links_loadFrame : vm.loadFrame.links = vm.links := rfl
@[simp] theorem links_startRun (n : Nat) (s : Starter) : (vm.startRun n s).links = vm.links := rfl

@[simp] theorem links_push (v : Value) : (vm.push v).links = vm.links := vm.links_setThread rfl

@[simp] theorem links_drop (n : Nat) : (vm.drop n).links = vm.links := vm.links_setThread rfl

@[simp] theorem links_pushAll (vs : List Value) :
    (vm.setThread (vm.thread.pushAll vs)).links = vm.links :=
  vm.links_setThread (by simp)

@[simp] theorem links_runtimeError (message : String) :
    (vm.runtimeError message).links = vm.links :=
  vm.links_setThread rfl

@[simp] theorem links_raise (e : Value) :
    (vm.setThread (vm.thread.runtimeError e)).links = vm.links :=
  vm.links_setThread rfl

@[simp] theorem links_setLocal (slot : Nat) (v : Value) : (vm.setLocal slot v).links = vm.links :=
  vm.links_updateThread rfl

@[simp] theorem links_saveIp : vm.saveIp.links = vm.links := vm.links_updateThread rfl

@[simp] theorem links_writeUpvalue (u : Nat) (v : Value) :
    (vm.writeUpvalue u v).links = vm.links := by
  unfold writeUpvalue
  split
  · exact vm.links_updateThread rfl
  · rfl

@[simp] theorem links_closeUpvalues (last : Nat) : (vm.closeUpvalues last).links = vm.links :=
  vm.links_setThread rfl

@[simp] theorem links_captureUpvalue (slot : Nat) : (vm.captureUpvalue slot).1.links = vm.links := by
  simp only [captureUpvalue]
  split
  · rfl
  · exact vm.links_setThread rfl

@[simp] theorem links_captureAll (us : List UInt8) : (vm.captureAll us).1.links = vm.links := by
  fun_induction captureAll vm us with
  | case1 vm index us r ih => exact ih
  | case2 vm isLocal index us h c r ih => exact ih.trans (vm.links_captureUpvalue _)
  | case3 => rfl

@[simp] theorem links_applyPendingSetLocal : vm.applyPendingSetLocal.links = vm.links := by
  unfold applyPendingSetLocal
  dsimp only
  split
  · rfl
  · split
    · exact vm.links_setThread rfl
    · rfl

@[simp] theorem links_restoreModuleContext (f : CallFrame) :
    (vm.restoreModuleContext f).links = vm.links := by
  unfold restoreModuleContext
  split <;> simp

@[simp] theorem links_cacheModuleResult (f : CallFrame) (v : Value) :
    (vm.cacheModuleResult f v).links = vm.links := by
  unfold cacheModuleResult
  split <;> rfl

@[simp] theorem links_discardHandlersForFrameReturn :
    vm.discardHandlersForFrameReturn.links = vm.links :=
  vm.links_setThread rfl

@[simp] theorem links_passToCaller (caller : Nat) (vs : List Value) :
    (vm.passToCaller caller vs).links = vm.links :=
  vm.links_updateThread (by simp)

@[simp] theorem links_pushFrame (c : Closure) (n : Nat) (m : Option ModuleContext) :
    (vm.pushFrame c n m).links = vm.links :=
  vm.links_setThread rfl

@[simp] theorem links_dropFrames (n : Nat) : (vm.dropFrames n).links = vm.links := by
  induction n generalizing vm with
  | zero => rfl
  | succ n ih =>
    rw [dropFrames, ih, links_setThread]
    · exact vm.links_closeUpvalues _
    · rfl

@[simp] theorem links_enterHandler (h : ExceptionHandler) (ip : CodePtr) :
    (vm.enterHandler h ip).links = vm.links :=
  vm.links_setThread rfl

@[simp] theorem links_uncaught : vm.uncaught.links = vm.links := vm.links_setThread rfl

@[simp] theorem links_unwind (hs : List ExceptionHandler) : (vm.unwind hs).links = vm.links := by
  induction hs generalizing vm with
  | nil =>
    refine (links_uncaught _).trans (vm.links_setThread ?_)
    rfl
  | cons h hs ih =>
    have hd := vm.links_dropFrames (vm.thread.frameCount - h.frameCount)
    simp only [unwind]
    generalize vm.dropFrames (vm.thread.frameCount - h.frameCount) = v at hd
    split_ifs
    · refine ((links_uncaught _).trans (v.links_setThread ?_)).trans hd
      rfl
    · rw [catchException, links_setThread]
      · simpa using hd
      · rfl
    · rw [enterFinally, links_setThread]
      · simpa using hd
      · rfl
    · rw [ih, links_setThread]
      · exact hd
      · rfl

@[simp] theorem links_handleException : vm.handleException.links = vm.links := by
  unfold handleException
  split
  · exact vm.links_unwind _
  · rfl

end VM

/-- The step that an outcome is part of has the outcome's links. -/
theorem Outcome.Links.settle {W : Type} {P : ToiLang.Links → Prop} {o : Outcome W} {vm : VM W}
    (h : o.Links P) (hs : o.settle = some vm) : P vm.links := by
  cases o with
  | next v => exact Option.some.inj hs ▸ h
  | switch v => exact Option.some.inj hs ▸ h
  | error v =>
    rw [← Option.some.inj hs, VM.links_handleException]
    exact h
  | leave v ok => exact Option.some.inj hs ▸ h
  | undefined => cases hs

/-- The machine that a C function leaves. -/
def Called.vm {W : Type} : Called W → VM W
  | .ok vm => vm
  | .error vm => vm

namespace VM

variable {W : Type} {E : Env W} {vm : VM W}

theorem finishClosureCall_links (c : Closure) (n : Nat) :
    (finishClosureCall E vm c n).vm.links = vm.links := by
  unfold finishClosureCall
  dsimp only
  split
  · exact vm.links_runtimeError _
  · split
    · exact vm.links_runtimeError _
    · exact vm.links_pushFrame c n none

theorem call_links (c : Closure) (n : Nat) : (call E vm c n).vm.links = vm.links := by
  unfold call
  dsimp only
  split_ifs
  · exact vm.links_runtimeError _
  · rw [finishClosureCall_links]
    simp
  · exact vm.links_runtimeError _
  · exact vm.links_runtimeError _
  · exact vm.links_runtimeError _
  · rw [finishClosureCall_links, links_pushAll]
  · exact finishClosureCall_links c n

theorem callNamed_links (c : Closure) (n : Nat) : (callNamed E vm c n).vm.links = vm.links := by
  unfold callNamed
  dsimp only
  split_ifs
  · exact vm.links_runtimeError _
  · exact vm.links_runtimeError _
  · split
    · exact (vm.setWorld _).links_raise _
    · rw [finishClosureCall_links, links_setThread]
      · rfl
      · simp

theorem call_or_named_links (c : Closure) (named : Bool) (n : Nat) :
    (if named then callNamed E vm c n else call E vm c n).vm.links = vm.links := by
  split
  · exact callNamed_links c n
  · exact call_links c n

theorem callClosure_links (named : Bool) (c : Closure) (n : Nat) :
    (callClosure E named vm c n).Links (· = vm.links) := by
  have h := @call_or_named_links W E vm.saveIp c named n
  rw [links_saveIp] at h
  unfold callClosure
  cases hr : (if named then callNamed E vm.saveIp c n else call E vm.saveIp c n) with
  | ok vm' =>
    rw [hr] at h
    exact h
  | error vm' =>
    rw [hr] at h
    exact h

@[simp] theorem links_callNative (a n : Nat) (after : AfterNative) :
    (vm.callNative a n after).links = vm.links := by
  have h : (vm.drop (n + 1)).saveIp.links = vm.links := by simp
  exact h

theorem callValue_links (v : Value) (n : Nat) (after : AfterNative) :
    (callValue E vm v n after).Links (· = vm.links) := by
  cases v with
  | native a => exact links_callNative a n after
  | closure a f us =>
    have h := @callClosure_links W E vm false ⟨a, f, us⟩ n
    simp only [callValue]
    split
    next heq =>
      rw [heq] at h
      exact (links_push _ _).trans h
    next => exact h
  | _ => exact rfl

/-- A generator call makes a thread that nothing resumed yet. -/
theorem createGenerator_links (named : Bool) (c : Closure) (n : Nat) :
    (createGenerator E named vm c n).Links vm.links.Steady := by
  unfold createGenerator
  dsimp only
  generalize hg : ({ newThread 96 24 16 with isGenerator := true }.push c.value).pushAll
    (vm.thread.top n) = gen
  have hgen : gen.caller = none := by
    rw [← hg]
    simp [newThread]
  generalize hi : ({ vm with
    threads := Function.update vm.threads vm.nextThread gen
    currentThread := vm.nextThread
    nextThread := vm.nextThread + 1 } : VM W) = inner
  have hinner : { inner.links with currentThread := vm.currentThread } = vm.links.create := by
    subst hi
    refine Links.ext (fun i => ?_) rfl rfl
    by_cases h : i = vm.nextThread
    · subst h
      simp [links, Links.create, hgen]
    · simp [links, Links.create, h]
  have h := @call_or_named_links W E inner c named n
  have hback : ∀ u : VM W, u.links = inner.links →
      VM.links { u with currentThread := vm.currentThread } = vm.links.create := by
    intro u hu
    rw [← hinner, ← hu]
    rfl
  cases hr : (if named then callNamed E inner c n else call E inner c n) with
  | ok u =>
    rw [hr] at h
    refine .inr ?_
    rw [links_push, links_drop]
    exact hback u h
  | error u =>
    rw [hr] at h
    exact .inr (hback u h)

theorem dispatch_links (named : Bool) (v : Value) (n : Nat) :
    (dispatch E named vm v n).Links vm.links.Steady := by
  have hkeep : ∀ {u : VM W} {o : Outcome W}, o.Links (· = u.links) → u.links = vm.links →
      o.Links vm.links.Steady := fun h hu => h.mono fun l hl => .inl (hl.trans hu)
  cases v with
  | closure a f us =>
    simp only [dispatch]
    split
    · exact createGenerator_links named _ n
    · exact hkeep (callClosure_links named _ n) rfl
  | native a => exact .inl (links_callNative a n .continue)
  | table t =>
    simp only [dispatch]
    have hv : ∀ f w, (vm.setThread (vm.thread.insertReceiver n f w)).links = vm.links :=
      fun f w => vm.links_setThread (by simp)
    split
    · exact hkeep (callClosure_links named _ _) (hv _ _)
    · exact .inl ((links_callNative _ _ _).trans (hv _ _))
    · exact .inl (vm.links_runtimeError _)
  | _ => exact .inl (vm.links_runtimeError _)

theorem invoke_links (named : Bool) (n : Nat) : (invoke E named vm n).Links vm.links.Steady := by
  unfold invoke
  split
  next receiver method _ =>
    have h : (vm.setThread (vm.thread.insertReceiver n method receiver)).links = vm.links :=
      vm.links_setThread (by simp)
    rw [← h]
    exact dispatch_links named _ _
  · exact dispatch_links named _ n

theorem callExpand_links (n : Nat) : (callExpand E vm n).Links vm.links.Steady := by
  unfold callExpand
  split
  next a _ =>
    dsimp only
    generalize hv : vm.setThread ((vm.thread.drop 1).pushAll (E.spread vm.toWorld a)) = v
    have hl : v.links = vm.links := by
      rw [← hv, links_setThread]
      simp
    split
    · exact .inl (vm.links_runtimeError _)
    · split
      · rw [← hl]
        exact invoke_links false _
      next w named _ =>
        have hp : ((v.setWorld w).push (.table named)).links = vm.links := by simpa using hl
        split
        · exact .inl ((links_runtimeError _ _).trans hp)
        · rw [← hp]
          exact invoke_links true _
  next => exact .inl (vm.links_runtimeError _)

theorem opUnpack_links (d n : Nat) : (vm.opUnpack E d n).Links (· = vm.links) := by
  unfold opUnpack
  dsimp only
  split
  · exact vm.links_runtimeError _
  · split
    · exact vm.links_setThread (by simp)
    · exact vm.links_setThread (by simp)

theorem performData_links (op : OpCode) (args : List UInt8) :
    (vm.performData E op args).Links (· = vm.links) := by
  unfold performData
  dsimp only
  generalize hv : vm.drop (op.dataOperands args) = v
  have hl : v.links = vm.links := by
    rw [← hv]
    exact vm.links_drop _
  have hp : ∀ w vs, ((v.setWorld w).setThread (v.thread.pushAll vs)).links = vm.links :=
    fun w vs => ((v.setWorld w).links_pushAll vs).trans hl
  split
  · exact hp _ _
  · exact ((v.setWorld _).links_raise _).trans hl
  · exact hl
  · split
    · exact (callClosure_links false _ _).mono fun l h => h.trans (hp _ _)
    · trivial
  · exact (callValue_links _ _ _).mono fun l h => h.trans (hp _ _)
  · exact (callValue_links _ _ _).mono fun l h => h.trans (hp _ _)

theorem performSetLocal_links (op : OpCode) (slot : Nat) (operands : List Value) :
    (vm.performSetLocal E op slot operands).Links (· = vm.links) := by
  unfold performSetLocal
  split
  · exact (links_push _ _).trans (links_setLocal _ _ _)
  · exact (vm.setWorld _).links_raise _
  · rfl
  next w method vs _ =>
    dsimp only
    generalize hv : (vm.setWorld w).setThread (vm.thread.pushAll (method :: vs)) = v
    have hl : v.links = vm.links := by
      rw [← hv]
      exact (vm.setWorld w).links_pushAll _
    split
    · exact (links_runtimeError _ _).trans hl
    · split
      · refine (callClosure_links false _ _).mono fun l h => h.trans (.trans ?_ hl)
        exact v.links_setThread rfl
      · trivial
  · trivial

theorem withName_links {P : Links → Prop} {k : Bytes → Outcome W} (i : Nat)
    (h : ∀ name, (k name).Links P) : (vm.withName E i k).Links P := by
  unfold withName
  split
  · exact h _
  · trivial

theorem opImport_links (i : Nat) : (vm.opImport E i).Links (· = vm.links) := by
  refine withName_links i fun name => ?_
  split
  · exact vm.links_push _
  · split
    · exact links_push _ _
    · rfl
    · rfl
    next f filename _ =>
      dsimp only
      generalize hv : VM.setGlobal _ (ascii "__main") _ = entered
      have hl : entered.links = vm.links := by
        rw [← hv]
        exact vm.links_push _
      have hc := @call_links W E entered.saveIp ⟨vm.nextObject, f, []⟩ 0
      rw [links_saveIp, hl] at hc
      split
      next heq =>
        rw [heq] at hc
        exact (links_restoreModuleContext _ _).trans hc
      next u heq =>
        rw [heq] at hc
        refine .trans ?_ hc
        exact u.links_setThread rfl

theorem opClosure_links (args : List UInt8) : (vm.opClosure E args).Links (· = vm.links) := by
  unfold opClosure
  split
  · dsimp only
    generalize hv : (vm.push .nil).captureAll args.tail = r
    have hl : r.1.links = vm.links := by
      rw [← hv]
      simp
    have hr : ∀ v, (r.1.setThread (r.1.thread.setSlot vm.thread.stackTop v)).links = vm.links := by
      intro v
      rw [links_setThread]
      · exact hl
      · rfl
    exact hr _
  · trivial

/-- The instructions that may make a generator. -/
def callOps : List OpCode := [.opCall, .opCall0, .opCall1, .opCall2, .opCallNamed, .opCallExpand]

/-- Every instruction but a call or a return leaves the threads' links as they are. -/
theorem perform_links_same {op : OpCode} (args : List UInt8) (hr : op ≠ .opReturn) (hn : op ≠ .opReturnN)
    (hcall : op ∉ callOps) : (vm.perform E op args).Links (· = vm.links) := by
  cases op
  case opReturn => exact absurd rfl hr
  case opReturnN => exact absurd rfl hn
  case opCall | opCall0 | opCall1 | opCall2 | opCallNamed | opCallExpand => exact absurd (by decide) hcall
  case opTry =>
    simp only [perform, opTry]
    split
    · exact vm.links_runtimeError _
    · exact vm.links_setThread rfl
  case opEndTry => exact vm.links_setThread rfl
  case opEndFinally =>
    simp only [perform, opEndFinally]
    split
    · rfl
    · rfl
  case opThrow => exact (links_raise _ _).trans (vm.links_drop 1)
  case opForPrep =>
    simp only [perform, opForPrep]
    split
    · simp only [Outcome.Links]
      split
      · rfl
      · rfl
    · exact vm.links_runtimeError _
  case opForLoop =>
    simp only [perform, opForLoop]
    split
    · simp only [Outcome.Links]
      split
      · exact vm.links_setLocal _ _
      · exact vm.links_setLocal _ _
    · exact vm.links_runtimeError _
  case opJumpIfFalse | opJumpIfTrue =>
    simp only [perform, Outcome.Links]
    split
    · rfl
    · rfl
  case opGetGlobal | opDeleteGlobal =>
    refine withName_links _ fun name => ?_
    split
    · simp [Outcome.Links]
    · exact vm.links_raise _
  case opDefineGlobal | opSetGlobal =>
    refine withName_links _ fun name => ?_
    simp [Outcome.Links]
  case opClosure => exact opClosure_links args
  case opUnpack => exact opUnpack_links _ _
  case opImport => exact opImport_links _
  case opPrint => exact vm.links_drop _
  case opAddSetLocal | opSubSetLocal | opMulSetLocal | opDivSetLocal | opModSetLocal =>
    exact (performSetLocal_links _ _ _).mono fun l h => h.trans (vm.links_drop 2)
  case opIncLocal | opSubLocalConst | opMulLocalConst | opDivLocalConst | opModLocalConst =>
    exact performSetLocal_links _ _ _
  case opAdjustStack => exact vm.links_setThread rfl
  case opConstant | opNil | opTrue | opFalse | opPop | opDup | opGetLocal | opGetUpvalue | opNot
    | opNegate | opIadd | opIsub | opImul | opIdiv | opImod | opFadd | opFsub | opFmul | opFdiv
    | opFmod | opGc | opCloseUpvalue | opSetUpvalue | opSetLocal | opJump | opLoop =>
    simp [perform, Outcome.Links]
  all_goals exact performData_links _ _

/-- Every instruction but a return leaves the callers and stays on the thread. -/
theorem perform_links {op : OpCode} (args : List UInt8) (hr : op ≠ .opReturn)
    (hn : op ≠ .opReturnN) : (vm.perform E op args).Links vm.links.Steady := by
  by_cases hcall : op ∈ callOps
  · simp only [callOps, List.mem_cons, List.not_mem_nil, or_false] at hcall
    rcases hcall with rfl | rfl | rfl | rfl | rfl | rfl
    · exact invoke_links false _
    · exact invoke_links false _
    · exact invoke_links false _
    · exact invoke_links false _
    · exact invoke_links true _
    · exact callExpand_links _
  · exact (perform_links_same args hr hn hcall).mono fun l hl => .inl hl

/-- The machine of a script is that of a call on the main thread, which has no frame yet. -/
theorem interpret_eq (E : Env W) (w : World W) (script : Nat) :
    ∃ (v : VM W) (c : Closure), v.links = ⟨fun _ => none, 0, 1⟩ ∧
      (∀ t, (v.threads t).frameCount = 0) ∧ interpret E w script = (call E v c 0).vm.loadFrame := by
  have hcall : ∀ (v : VM W) (c : Closure),
      (match call E v c 0 with
        | .ok vm => vm.loadFrame
        | .error vm => vm.loadFrame) = (call E v c 0).vm.loadFrame := by
    intro v c
    cases call E v c 0 with
    | ok u => rfl
    | error u => rfl
  refine ⟨_, _, ?_, fun t => ?_, hcall _ _⟩
  · rw [links_push]
    rfl
  · by_cases ht : t = 0
    · subst ht
      rfl
    · simp only [push, setThread, Function.update_of_ne ht]
      rfl

theorem interpret_links (E : Env W) (w : World W) (script : Nat) :
    (interpret E w script).links = ⟨fun _ => none, 0, 1⟩ := by
  obtain ⟨v, c, hv, -, h⟩ := interpret_eq E w script
  rw [h, links_loadFrame, call_links, hv]

end VM

end ToiLang
