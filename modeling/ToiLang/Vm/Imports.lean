import ToiLang.Vm.Apart
import ToiLang.Vm.Handover

namespace ToiLang

/-- The globals that tell a module which one it is. -/
structure ModuleGlobals where
  name : Option Value
  file : Option Value
  main : Option Value
  deriving DecidableEq, Repr

def ModuleContext.saved (c : ModuleContext) : ModuleGlobals :=
  ⟨c.prevModuleName, c.prevModuleFile, c.prevModuleMain⟩

namespace World

variable {W : Type}

def moduleGlobals (w : World W) : ModuleGlobals :=
  ⟨w.globals (ascii "__name"), w.globals (ascii "__file"), w.globals (ascii "__main")⟩

/-- The modules that are cached stay cached. -/
def ModulesLe (w w' : World W) : Prop := ∀ n, (w.modules n).isSome → (w'.modules n).isSome

theorem ModulesLe.refl (w : World W) : w.ModulesLe w := fun _ h => h

theorem ModulesLe.trans {w w' w'' : World W} (h : w.ModulesLe w') (h' : w'.ModulesLe w'') :
    w.ModulesLe w'' := fun n hn => h' n (h n hn)

end World

section Acts

variable {W : Type}

def DataAct.world : DataAct W → World W
  | .push w _ | .raise w _ | .fail w | .call w _ _ | .callValue w _ _ | .callThenPush w _ _ _ => w

def ImportAct.world : ImportAct W → Option (World W)
  | .native w _ | .missing w | .compileError w => some w
  | .file _ _ => none

def NativeAct.world : NativeAct W → Option (World W)
  | .returns w _ | .raises w _ | .fails w | .exits w | .callback w _ _ _ => some w
  | .create _ | .resume _ _ | .next _ | .yield _ => none

/-- What the code behind the interpreter's loop leaves alone: nothing takes a module out of the
cache, and loading a native module does not touch the importer's globals. -/
structure Env.KeepsImports (E : Env W) : Prop where
  newTable : ∀ (w : World W) vs, w.ModulesLe (E.newTable w vs).1
  spreadNamed : ∀ (w : World W) a r, E.spreadNamed w a = some r → w.ModulesLe r.1
  bindNamed : ∀ (w : World W) f vs, w.ModulesLe (E.bindNamed w f vs).1
  data : ∀ (w : World W) op vs, w.ModulesLe (E.data w op vs).world
  importModule : ∀ (w : World W) n w', (E.importModule w n).world = some w' → w.ModulesLe w'
  importGlobals : ∀ (w : World W) n w', (E.importModule w n).world = some w' →
    w'.moduleGlobals = w.moduleGlobals
  printValue : ∀ (w : World W) v, w.ModulesLe (E.printValue w v)
  printNewline : ∀ w : World W, w.ModulesLe (E.printNewline w)
  collectGarbage : ∀ w : World W, w.ModulesLe (E.collectGarbage w)
  native : ∀ (w : World W) n s i w', (E.native w n s i).world = some w' → w.ModulesLe w'

end Acts

/-- The modules whose bodies the frames of a thread execute. -/
def ThreadControl.imports (t : ThreadControl) : List (Option ModuleContext) :=
  (List.range t.frameCount).map fun j => (t.frames j).module

theorem ThreadControl.imports_length (t : ThreadControl) : t.imports.length = t.frameCount := by
  simp [imports]

def Ctl.imports (c : Ctl) (t : Nat) : List (Option ModuleContext) := (c.threads t).imports

def VM.imports {W : Type} (vm : VM W) (t : Nat) : List (Option ModuleContext) := vm.ctl.imports t

namespace Ctl

variable (c : Ctl)

theorem imports_setThread {t : ThreadControl} (h : t.imports = c.thread.imports) :
    (c.setThread t).imports = c.imports := by
  funext i
  by_cases hi : i = c.currentThread
  · subst hi
    show ((c.setThread t).thread).imports = _
    rw [thread_setThread]
    exact h
  · simp [imports, setThread, hi]

theorem imports_setThread_eq (t : ThreadControl) :
    (c.setThread t).imports = Function.update c.imports c.currentThread t.imports := by
  funext i
  by_cases hi : i = c.currentThread
  · subst hi
    simp [imports, setThread]
  · simp [imports, setThread, hi]

@[simp] theorem imports_raise (e : Value) : (c.raise e).imports = c.imports :=
  c.imports_setThread rfl

@[simp] theorem imports_saveIp : c.saveIp.imports = c.imports := by
  funext i
  by_cases hi : i = c.run.frameThread
  · subst hi
    simp only [imports, saveIp, Function.update_self, ThreadControl.imports]
    refine List.map_congr_left fun j _ => ?_
    by_cases hj : j = c.run.frameIndex
    · subst hj
      simp
    · simp [hj]
  · simp [imports, saveIp, hi]

theorem imports_pushFrame (f : CallFrame) :
    (c.pushFrame f).imports =
      Function.update c.imports c.currentThread (c.imports c.currentThread ++ [f.module]) := by
  rw [pushFrame, imports_setThread_eq]
  congr 1
  simp only [ThreadControl.imports, List.range_succ, List.map_append, List.map_cons, List.map_nil,
    Function.update_self]
  congr 1
  refine List.map_congr_left fun j hj => ?_
  have hlt := List.mem_range.mp hj
  rw [Function.update_of_ne (by omega)]
  rfl

theorem imports_popFrame :
    c.popFrame.imports =
      Function.update c.imports c.currentThread ((c.imports c.currentThread).take
        (c.thread.frameCount - 1)) := by
  rw [popFrame, imports_setThread_eq]
  congr 1
  simp only [ThreadControl.imports, imports, thread, ← List.map_take, List.take_range]
  congr 2
  omega

/-- Unwinding keeps the frames it does not drop. -/
theorem unwind_thread (hs : List ExceptionHandler) :
    (c.unwind hs).thread.frames = c.thread.frames ∧
      (c.unwind hs).thread.frameCount ≤ c.thread.frameCount := by
  induction hs generalizing c with
  | nil => simp [unwind, uncaught, setControl, setThread, thread]
  | cons h hs ih =>
    have hframes : (c.cutFrames h.frameCount).thread.frames = c.thread.frames := by simp [cutFrames]
    have hle : (c.cutFrames h.frameCount).thread.frameCount ≤ c.thread.frameCount := by
      simp [cutFrames]
    simp only [unwind]
    split_ifs
    · simp [uncaught, setControl, setThread, thread] at hframes ⊢
      exact hframes
    · refine ⟨?_, ?_⟩
      · rw [← hframes]
        simp [catchException]
      · refine Nat.le_trans ?_ hle
        simp [catchException]
    · refine ⟨?_, ?_⟩
      · rw [← hframes]
        simp [enterFinally]
      · refine Nat.le_trans ?_ hle
        simp [enterFinally]
    · obtain ⟨hf, hn⟩ := ih (c.cutFrames h.frameCount)
      exact ⟨hf.trans hframes, Nat.le_trans hn hle⟩

/-- The frames that an exception leaves are the lowest ones of its thread. -/
theorem imports_handleException :
    c.handleException.imports = Function.update c.imports c.currentThread
      ((c.imports c.currentThread).take (c.handleException.threads c.currentThread).frameCount) := by
  funext i
  by_cases hi : i = c.currentThread
  · subst hi
    have hcur : c.handleException.currentThread = c.currentThread := by
      unfold handleException
      split
      · exact unwind_currentThread c _
      · rfl
    obtain ⟨hf, hn⟩ : (c.handleException.threads c.currentThread).frames = c.thread.frames ∧
        (c.handleException.threads c.currentThread).frameCount ≤ c.thread.frameCount := by
      unfold handleException
      split
      · have h := c.unwind_thread c.thread.handlers
        rwa [thread, unwind_currentThread] at h
      · exact ⟨rfl, Nat.le_refl _⟩
    simp only [imports, ThreadControl.imports, Function.update_self, ← List.map_take, List.take_range,
      hf]
    have hmin : min (c.handleException.threads c.currentThread).frameCount
        (c.threads c.currentThread).frameCount =
          (c.handleException.threads c.currentThread).frameCount := Nat.min_eq_left hn
    rw [hmin]
    rfl
  · simp only [imports, Function.update_of_ne hi, handleException_threads_ne hi]

end Ctl

namespace VM

variable {W : Type} {E : Env W} {vm u v : VM W}

theorem imports_of_ctl (h : v.ctl = vm.ctl) : v.imports = vm.imports := by
  funext t
  rw [imports, imports, h]

@[simp] theorem imports_saveIp (vm : VM W) : vm.saveIp.imports = vm.imports := by
  funext t
  rw [imports, imports, ctl_saveIp, Ctl.imports_saveIp]

theorem imports_length (vm : VM W) (t : Nat) : (vm.imports t).length = (vm.threads t).frameCount :=
  ThreadControl.imports_length _

/-- A step that starts no module body keeps the frames, or pushes one of a plain call. -/
def Runs (vm v : VM W) : Prop :=
  vm.toWorld.ModulesLe v.toWorld ∧
    (v.imports = vm.imports ∨
      v.imports = Function.update vm.imports vm.currentThread (vm.imports vm.currentThread ++ [none]))

theorem Runs.of_eq (hm : vm.toWorld.ModulesLe v.toWorld) (hi : v.imports = vm.imports) :
    vm.Runs v := ⟨hm, .inl hi⟩

theorem Runs.of_ctl (hm : vm.toWorld.ModulesLe v.toWorld) (hc : v.ctl = vm.ctl) : vm.Runs v :=
  ⟨hm, .inl (imports_of_ctl hc)⟩

theorem Runs.after (h : u.Runs v) (hm : vm.toWorld.ModulesLe u.toWorld)
    (hi : u.imports = vm.imports) (hc : u.currentThread = vm.currentThread) : vm.Runs v := by
  obtain ⟨hm', h⟩ := h
  refine ⟨hm.trans hm', ?_⟩
  rwa [hi, hc] at h

theorem Runs.after_ctl (h : u.Runs v) (hm : vm.toWorld.ModulesLe u.toWorld) (hu : u.ctl = vm.ctl) :
    vm.Runs v :=
  h.after hm (imports_of_ctl hu) (congrArg Ctl.currentThread hu)

theorem Runs.trans_ctl (h : vm.Runs u) (hm : u.toWorld.ModulesLe v.toWorld) (hv : v.ctl = u.ctl) :
    vm.Runs v := by
  obtain ⟨hm', h⟩ := h
  refine ⟨hm'.trans hm, ?_⟩
  rwa [imports_of_ctl hv]

theorem imports_raise (vm : VM W) (e : Value) :
    (vm.setThread (vm.thread.runtimeError e)).imports = vm.imports := by
  funext t
  rw [imports, ctl_raise, Ctl.imports_raise]
  rfl

theorem runtimeError_runs (vm : VM W) (e : Value) :
    vm.Runs (vm.setThread (vm.thread.runtimeError e)) :=
  .of_eq (.refl _) (vm.imports_raise e)

theorem finishClosureCall_runs (c : Closure) (n : Nat) :
    vm.Runs (finishClosureCall E vm c n).vm := by
  unfold finishClosureCall
  dsimp only
  split
  · exact vm.runtimeError_runs _
  · split
    · exact vm.runtimeError_runs _
    · refine ⟨.refl _, .inr ?_⟩
      funext t
      show (vm.pushFrame c n none).ctl.imports t = _
      rw [ctl_pushFrame, Ctl.imports_pushFrame]
      rfl

theorem call_runs (hE : E.KeepsImports) (c : Closure) (n : Nat) : vm.Runs (call E vm c n).vm := by
  unfold call
  dsimp only
  split_ifs
  · exact vm.runtimeError_runs _
  · refine (finishClosureCall_runs c _).after_ctl (hE.newTable vm.toWorld _) ?_
    simp
  · exact vm.runtimeError_runs _
  · exact vm.runtimeError_runs _
  · exact vm.runtimeError_runs _
  · exact (finishClosureCall_runs c _).after_ctl (.refl _) (by simp)
  · exact finishClosureCall_runs c n

theorem callNamed_runs (hE : E.KeepsImports) (c : Closure) (n : Nat) :
    vm.Runs (callNamed E vm c n).vm := by
  unfold callNamed
  dsimp only
  split_ifs
  · exact vm.runtimeError_runs _
  · exact vm.runtimeError_runs _
  · have hm := hE.bindNamed vm.toWorld (E.fns c.function) (vm.thread.top n)
    split
    · exact (runtimeError_runs (vm.setWorld _) _).after_ctl hm rfl
    · refine (finishClosureCall_runs c _).after_ctl hm ?_
      rw [ctl_setThread_of_eq]
      · rfl
      · simp

theorem call_or_named_runs (hE : E.KeepsImports) (c : Closure) (named : Bool) (n : Nat) :
    vm.Runs (if named then callNamed E vm c n else call E vm c n).vm := by
  split
  · exact callNamed_runs hE c n
  · exact call_runs hE c n

end VM

/-- What holds of the machine that an outcome leaves: `Q` where an exception is to be handled. -/
def Outcome.Cases {W : Type} (P Q : VM W → Prop) : Outcome W → Prop
  | .next vm => P vm
  | .switch vm => P vm
  | .error vm => Q vm
  | .leave vm _ => P vm
  | .undefined => True

def Outcome.All {W : Type} (P : VM W → Prop) : Outcome W → Prop := Outcome.Cases P P

theorem Outcome.Cases.mono {W : Type} {P P' Q Q' : VM W → Prop} {o : Outcome W} (h : o.Cases P Q)
    (hp : ∀ v, P v → P' v) (hq : ∀ v, Q v → Q' v) : o.Cases P' Q' := by
  cases o with
  | undefined => trivial
  | error v => exact hq v h
  | _ => exact hp _ h

theorem Outcome.All.mono {W : Type} {P Q : VM W → Prop} {o : Outcome W} (h : o.All P)
    (hpq : ∀ v, P v → Q v) : o.All Q :=
  Outcome.Cases.mono h hpq hpq

namespace VM

variable {W : Type} {E : Env W} {vm u v : VM W}

theorem callClosure_runs (hE : E.KeepsImports) (named : Bool) (c : Closure) (n : Nat) :
    (callClosure E named vm c n).All vm.Runs := by
  have hs := @call_or_named_runs W E vm.saveIp hE c named n
  have h := hs.after (.refl vm.toWorld) (imports_saveIp vm) rfl
  unfold callClosure
  cases hr : (if named then callNamed E vm.saveIp c n else call E vm.saveIp c n) with
  | ok w =>
    rw [hr] at h
    exact h
  | error w =>
    rw [hr] at h
    exact h

theorem callNative_runs (vm : VM W) (a n : Nat) (after : AfterNative) :
    vm.Runs (vm.callNative a n after) := by
  refine .of_eq (.refl _) ?_
  have h : (vm.drop (n + 1)).saveIp.imports = vm.imports := by
    rw [imports_saveIp, imports_of_ctl (vm.ctl_drop _)]
  exact h

theorem callValue_runs (hE : E.KeepsImports) (x : Value) (n : Nat) (after : AfterNative) :
    (callValue E vm x n after).All vm.Runs := by
  cases x with
  | native a => exact vm.callNative_runs a n after
  | closure a f us =>
    have h := @callClosure_runs W E vm hE false ⟨a, f, us⟩ n
    simp only [callValue]
    split
    next heq =>
      rw [heq] at h
      exact h.trans_ctl (.refl _) (ctl_push _ _)
    next => exact h
  | _ => exact Runs.of_eq (.refl _) rfl

/-- A step that runs, or one that makes a thread. -/
def Tame (vm v : VM W) : Prop :=
  vm.Runs v ∨
    vm.toWorld.ModulesLe v.toWorld ∧
      ∃ n, v.imports = Function.update vm.imports vm.nextThread (List.replicate n none) ∧
        v.nextThread = vm.nextThread + 1

theorem Tame.after_ctl (h : u.Tame v) (hm : vm.toWorld.ModulesLe u.toWorld) (hu : u.ctl = vm.ctl) :
    vm.Tame v := by
  rcases h with h | ⟨hm', n, hi, hn⟩
  · exact .inl (h.after_ctl hm hu)
  · have hnext : u.nextThread = vm.nextThread := congrArg Ctl.nextThread hu
    refine .inr ⟨hm.trans hm', n, ?_, by rw [hn, hnext]⟩
    rw [hi, imports_of_ctl hu, hnext]

theorem createGenerator_tame (hE : E.KeepsImports) (named : Bool) (c : Closure) (n : Nat) :
    (createGenerator E named vm c n).All vm.Tame := by
  unfold createGenerator
  dsimp only
  generalize hg : ({ newThread 96 24 16 with isGenerator := true }.push c.value).pushAll
    (vm.thread.top n) = gen
  have hgen : gen.ctl.imports = [] := by
    rw [← hg, ObjThread.ctl_pushAll]
    rfl
  generalize hin : ({ vm with
    threads := Function.update vm.threads vm.nextThread gen
    currentThread := vm.nextThread
    nextThread := vm.nextThread + 1 } : VM W) = inner
  have hinner : inner.imports = Function.update vm.imports vm.nextThread [] := by
    subst hin
    funext i
    by_cases h : i = vm.nextThread
    · subst h
      simpa [imports, Ctl.imports, ctl] using hgen
    · simp [imports, Ctl.imports, ctl, h]
  have hcur : inner.currentThread = vm.nextThread := by rw [← hin]
  have hmod : vm.toWorld.ModulesLe inner.toWorld := by
    rw [← hin]
    exact .refl _
  have hl := @call_or_named_links W E inner c named n
  have h := @call_or_named_runs W E inner hE c named n
  have hback : ∀ w : VM W, inner.Runs w → w.links = inner.links →
      vm.Tame { w with currentThread := vm.currentThread } := by
    intro w hruns hlw
    obtain ⟨hm, hw⟩ := hruns
    have hnext : w.nextThread = vm.nextThread + 1 := by
      have h1 : w.nextThread = inner.nextThread := congrArg Links.nextThread hlw
      rw [h1, ← hin]
    refine .inr ⟨hmod.trans hm, ?_⟩
    rcases hw with hw | hw
    · exact ⟨0, hw.trans hinner, hnext⟩
    · refine ⟨1, ?_, hnext⟩
      refine Eq.trans hw ?_
      rw [hcur, hinner]
      simp
  cases hr : (if named then callNamed E inner c n else call E inner c n) with
  | ok w =>
    rw [hr] at h hl
    have ht := hback w h hl
    have hd : VM.ctl (({ w with currentThread := vm.currentThread }.drop (n + 1)).push
        (.thread vm.nextThread)) = VM.ctl { w with currentThread := vm.currentThread } := by simp
    rcases ht with ht | ⟨hm, k, hi, hn⟩
    · exact .inl (ht.trans_ctl (.refl _) hd)
    · exact .inr ⟨hm, k, (imports_of_ctl hd).trans hi, hn⟩
  | error w =>
    rw [hr] at h hl
    exact hback w h hl

theorem Runs.tame (h : vm.Runs v) : vm.Tame v := .inl h

theorem dispatch_tame (hE : E.KeepsImports) (named : Bool) (x : Value) (n : Nat) :
    (dispatch E named vm x n).All vm.Tame := by
  cases x with
  | closure a f us =>
    simp only [dispatch]
    split
    · exact createGenerator_tame hE named _ n
    · exact (callClosure_runs hE named _ n).mono fun _ h => h.tame
  | native a => exact (vm.callNative_runs a n .continue).tame
  | table t =>
    simp only [dispatch]
    have hv : ∀ f w, (vm.setThread (vm.thread.insertReceiver n f w)).ctl = vm.ctl :=
      fun f w => vm.ctl_setThread_of_eq (by simp)
    have hrun : ∀ {f w v}, (vm.setThread (vm.thread.insertReceiver n f w)).Runs v → vm.Tame v :=
      fun h => .inl (h.after_ctl (.refl vm.toWorld) (hv _ _))
    split
    · exact (callClosure_runs hE named _ _).mono fun _ h => hrun h
    · exact hrun (callNative_runs _ _ _ _)
    · exact (vm.runtimeError_runs _).tame
  | _ => exact (vm.runtimeError_runs _).tame

theorem invoke_tame (hE : E.KeepsImports) (named : Bool) (n : Nat) :
    (invoke E named vm n).All vm.Tame := by
  unfold invoke
  split
  · refine (dispatch_tame hE named _ _).mono fun _ h => h.after_ctl (.refl _) ?_
    exact vm.ctl_setThread_of_eq (by simp)
  · exact dispatch_tame hE named _ n

theorem callExpand_tame (hE : E.KeepsImports) (n : Nat) : (callExpand E vm n).All vm.Tame := by
  unfold callExpand
  split
  next a _ =>
    dsimp only
    generalize hv : vm.setThread ((vm.thread.drop 1).pushAll (E.spread vm.toWorld a)) = u
    have hctl : u.ctl = vm.ctl := by
      rw [← hv]
      exact vm.ctl_setThread_of_eq (by simp)
    have hworld : u.toWorld = vm.toWorld := by rw [← hv]; rfl
    have hm : vm.toWorld.ModulesLe u.toWorld := by
      rw [hworld]
      exact .refl _
    split
    · exact (vm.runtimeError_runs _).tame
    · split
      · exact (invoke_tame hE false _).mono fun _ h => h.after_ctl hm hctl
      next w named heq =>
        have hp : ((u.setWorld w).push (.table named)).ctl = vm.ctl := by simpa using hctl
        have hw : vm.toWorld.ModulesLe w := hE.spreadNamed _ _ _ (hworld ▸ heq)
        split
        · exact ((runtimeError_runs _ _).after_ctl hw hp).tame
        · exact (invoke_tame hE true _).mono fun _ h => h.after_ctl hw hp
  next => exact (vm.runtimeError_runs _).tame

theorem performData_runs (hE : E.KeepsImports) (op : OpCode) (args : List UInt8) :
    (vm.performData E op args).All vm.Runs := by
  unfold performData
  dsimp only
  generalize hv : vm.drop (op.dataOperands args) = u
  have hctl : u.ctl = vm.ctl := by
    rw [← hv]
    exact vm.ctl_drop _
  have hworld : u.toWorld = vm.toWorld := by rw [← hv]; rfl
  have hdata := hE.data u.toWorld op
  rw [hworld] at hdata
  have hp : ∀ w vs, ((u.setWorld w).setThread (u.thread.pushAll vs)).ctl = vm.ctl :=
    fun w vs => ((u.setWorld w).ctl_pushAll vs).trans hctl
  rw [hworld]
  generalize (vm.thread.top (op.dataOperands args) ++ _ : List Value) = operands
  have hm := hdata operands
  cases hact : E.data vm.toWorld op operands with
  | push w vs =>
    rw [hact] at hm
    exact .of_ctl hm (hp _ _)
  | raise w e =>
    rw [hact] at hm
    exact (runtimeError_runs (u.setWorld w) e).after_ctl hm hctl
  | fail w =>
    rw [hact] at hm
    exact .of_ctl hm hctl
  | call w method vs =>
    rw [hact] at hm
    dsimp only
    split
    · exact (callClosure_runs hE false _ _).mono fun _ h => h.after_ctl hm (hp _ _)
    · trivial
  | callValue w callee vs =>
    rw [hact] at hm
    exact (callValue_runs hE _ _ _).mono fun _ h => h.after_ctl hm (hp _ _)
  | callThenPush w callee vs x =>
    rw [hact] at hm
    exact (callValue_runs hE _ _ _).mono fun _ h => h.after_ctl hm (hp _ _)

theorem performSetLocal_runs (hE : E.KeepsImports) (op : OpCode) (slot : Nat)
    (operands : List Value) : (vm.performSetLocal E op slot operands).All vm.Runs := by
  have hm := hE.data vm.toWorld op operands
  unfold performSetLocal
  cases hact : E.data vm.toWorld op operands with
  | push w vs =>
    rw [hact] at hm
    exact .of_ctl hm (by simp)
  | raise w e =>
    rw [hact] at hm
    exact (runtimeError_runs (vm.setWorld w) e).after_ctl hm rfl
  | fail w =>
    rw [hact] at hm
    exact .of_ctl hm rfl
  | call w method vs =>
    rw [hact] at hm
    dsimp only
    generalize hv : (vm.setWorld w).setThread (vm.thread.pushAll (method :: vs)) = u
    have hctl : u.ctl = vm.ctl := by
      rw [← hv]
      exact (vm.setWorld w).ctl_pushAll _
    have hw : vm.toWorld.ModulesLe u.toWorld := by
      rw [← hv]
      exact hm
    split
    · exact (runtimeError_runs u _).after_ctl hw hctl
    · split
      · refine (callClosure_runs hE false _ _).mono fun _ h => h.after_ctl hw (.trans ?_ hctl)
        exact u.ctl_setThread_of_eq rfl
      · trivial
  | callValue => trivial
  | callThenPush => trivial

theorem captureUpvalue_world (vm : VM W) (slot : Nat) :
    (vm.captureUpvalue slot).1.toWorld = vm.toWorld := by
  simp only [captureUpvalue]
  split
  · rfl
  · rfl

theorem captureAll_world (vm : VM W) (us : List UInt8) :
    (vm.captureAll us).1.toWorld = vm.toWorld := by
  fun_induction captureAll vm us with
  | case1 vm index us r ih => exact ih
  | case2 vm isLocal index us h c r ih => exact ih.trans (vm.captureUpvalue_world _)
  | case3 => rfl

theorem writeUpvalue_world (u : Nat) (x : Value) : (vm.writeUpvalue u x).toWorld = vm.toWorld := by
  unfold writeUpvalue
  split
  · rfl
  · rfl

theorem setThread_runs {t : ObjThread} (h : t.ctl.imports = vm.thread.ctl.imports) :
    vm.Runs (vm.setThread t) := by
  refine .of_eq (.refl _) ?_
  funext i
  rw [imports, ctl_setThread, Ctl.imports_setThread]
  · rfl
  · exact h

theorem withName_cases {P Q : VM W → Prop} {k : Bytes → Outcome W} (i : Nat)
    (h : ∀ name, vm.constant E i = .string name → (k name).Cases P Q) :
    (vm.withName E i k).Cases P Q := by
  unfold withName
  split
  next name hc => exact h name hc
  · trivial

/-- Every instruction but a return and an import runs or makes a thread. -/
theorem perform_tame (hE : E.KeepsImports) {op : OpCode} (args : List UInt8) (hr : op ≠ .opReturn)
    (hn : op ≠ .opReturnN) (hi : op ≠ .opImport) : (vm.perform E op args).All vm.Tame := by
  have hctl : ∀ {v : VM W}, v.ctl = vm.ctl → v.toWorld = vm.toWorld → vm.Tame v := by
    intro v hv hw
    refine .inl (.of_ctl ?_ hv)
    rw [hw]
    exact .refl _
  cases op
  case opReturn => exact absurd rfl hr
  case opReturnN => exact absurd rfl hn
  case opImport => exact absurd rfl hi
  case opCall | opCall0 | opCall1 | opCall2 => exact invoke_tame hE false _
  case opCallNamed => exact invoke_tame hE true _
  case opCallExpand => exact callExpand_tame hE _
  case opTry =>
    simp only [perform, opTry]
    split
    · exact (vm.runtimeError_runs _).tame
    · refine .inl (setThread_runs ?_)
      rfl
  case opEndTry =>
    refine .inl (setThread_runs ?_)
    rfl
  case opEndFinally =>
    simp only [perform, opEndFinally]
    split
    · exact hctl rfl rfl
    · exact hctl rfl rfl
  case opThrow => exact ((runtimeError_runs (vm.drop 1) _).after_ctl (.refl vm.toWorld) (vm.ctl_drop 1)).tame
  case opForPrep =>
    simp only [perform, opForPrep]
    split
    · dsimp only [Outcome.All, Outcome.Cases]
      split
      · exact .inl (.of_eq (.refl vm.toWorld) rfl)
      · exact .inl (.of_eq (.refl vm.toWorld) rfl)
    · exact (vm.runtimeError_runs _).tame
  case opForLoop =>
    simp only [perform, opForLoop]
    split
    · dsimp only [Outcome.All, Outcome.Cases]
      split
      · exact .inl (.of_eq (.refl vm.toWorld)
          (imports_of_ctl (v := vm.setLocal _ _) (vm.ctl_setLocal _ _)))
      · exact .inl (.of_eq (.refl vm.toWorld) (imports_of_ctl (vm.ctl_setLocal _ _)))
    · exact (vm.runtimeError_runs _).tame
  case opJumpIfFalse | opJumpIfTrue =>
    simp only [perform, Outcome.All, Outcome.Cases]
    split
    · exact .inl (.of_eq (.refl vm.toWorld) rfl)
    · exact .inl (.of_eq (.refl vm.toWorld) rfl)
  case opJump | opLoop => exact .inl (.of_eq (.refl vm.toWorld) rfl)
  case opGetGlobal | opDeleteGlobal =>
    refine withName_cases _ fun name _ => ?_
    split
    · exact .inl (.of_ctl (.refl vm.toWorld) (by simp))
    · exact (vm.runtimeError_runs _).tame
  case opDefineGlobal | opSetGlobal =>
    exact withName_cases _ fun name _ => .inl (.of_ctl (.refl vm.toWorld) (by simp))
  case opClosure =>
    simp only [perform, opClosure]
    split
    · generalize hv : (vm.push .nil).captureAll args.tail = r
      have hr1 : r.1.ctl = vm.ctl := by
        rw [← hv]
        simp
      have hw : r.1.toWorld = vm.toWorld := by
        rw [← hv, captureAll_world]
        rfl
      refine hctl (v := { r.1.setThread (r.1.thread.setSlot vm.thread.stackTop _) with
        nextObject := vm.nextObject + 1 }) ?_ hw
      exact (r.1.ctl_setThread_of_eq (ObjThread.ctl_setSlot _ _ _)).trans hr1
    · trivial
  case opUnpack =>
    simp only [perform, opUnpack]
    split
    · exact (vm.runtimeError_runs _).tame
    · split
      · exact hctl (vm.ctl_setThread_of_eq (by simp; rfl)) rfl
      · exact hctl (vm.ctl_setThread_of_eq (by simp)) rfl
  case opPrint =>
    have h : (vm.drop (args.getD 0 0).toNat).imports = vm.imports := imports_of_ctl (vm.ctl_drop _)
    exact .inl (.of_eq (.refl vm.toWorld) h)
  case opAddSetLocal | opSubSetLocal | opMulSetLocal | opDivSetLocal | opModSetLocal =>
    exact (performSetLocal_runs hE _ _ _).mono fun _ h =>
      .inl (h.after_ctl (.refl vm.toWorld) (vm.ctl_drop 2))
  case opIncLocal | opSubLocalConst | opMulLocalConst | opDivLocalConst | opModLocalConst =>
    exact (performSetLocal_runs hE _ _ _).mono fun _ h => h.tame
  case opGc => exact .inl (.of_ctl (hE.collectGarbage vm.toWorld) rfl)
  case opAdjustStack => exact hctl (vm.ctl_setThread_of_eq rfl) rfl
  case opSetUpvalue => exact hctl (vm.ctl_writeUpvalue _ _) (writeUpvalue_world _ _)
  case opConstant | opNil | opTrue | opFalse | opPop | opDup | opGetLocal | opGetUpvalue | opNot
    | opNegate | opIadd | opIsub | opImul | opIdiv | opImod | opFadd | opFsub | opFmul | opFdiv
    | opFmod | opCloseUpvalue | opSetLocal =>
    exact hctl (by simp) rfl
  all_goals exact (performData_runs hE _ _).mono fun _ h => h.tame

/-- No frame of the machine of a script is that of a module body. -/
theorem interpret_imports (hE : E.KeepsImports) (w : World W) (script t : Nat) :
    ∀ x ∈ (interpret E w script).imports t, x = none := by
  obtain ⟨v, c, -, hcount, h⟩ := interpret_eq E w script
  have hnil : v.imports t = [] := by
    rw [← List.length_eq_zero_iff, imports_length, hcount]
  intro x hx
  rw [h] at hx
  rcases (call_runs hE c 0).2 with hv | hv
  · have hx : x ∈ v.imports t := hv ▸ hx
    rw [hnil] at hx
    cases hx
  · have hx : x ∈ Function.update v.imports v.currentThread (v.imports v.currentThread ++ [none]) t :=
      hv ▸ hx
    by_cases ht : t = v.currentThread
    · subst ht
      rw [Function.update_self, hnil] at hx
      exact List.mem_singleton.mp hx
    · rw [Function.update_of_ne ht, hnil] at hx
      cases hx

end VM

end ToiLang
