import ToiLang.Vm.Imports

namespace ToiLang

namespace VM

variable {W : Type} {E : Env W} {vm u v : VM W}

theorem globals_names_ne :
    ascii "__name" ≠ ascii "__file" ∧ ascii "__name" ≠ ascii "__main" ∧
      ascii "__file" ≠ ascii "__main" := by decide

/-- What `restore_module_context` leaves: the saved globals, where the frame has saved any. -/
theorem restoreModuleContext_globals (vm : VM W) (f : CallFrame) :
    (vm.restoreModuleContext f).moduleGlobals =
      match f.module with
      | none => vm.moduleGlobals
      | some c => c.saved := by
  obtain ⟨h1, h2, h3⟩ := globals_names_ne
  unfold restoreModuleContext
  cases f.module with
  | none => rfl
  | some c => simp [World.moduleGlobals, setGlobal, ModuleContext.saved, h1, h2, h3]

theorem restoreModuleContext_modules (vm : VM W) (f : CallFrame) :
    vm.toWorld.ModulesLe (vm.restoreModuleContext f).toWorld := by
  unfold restoreModuleContext
  split
  · exact .refl vm.toWorld
  · exact .refl vm.toWorld

/-- The import starts the body of a module: its frame saves the importer's globals. -/
def StartsBody (vm v : VM W) (name : Bytes) : Prop :=
  vm.modules name = none ∧
    ∃ c : ModuleContext, c.cacheName = name ∧ c.saved = vm.moduleGlobals ∧
      v.imports = Function.update vm.imports vm.currentThread
        (vm.imports vm.currentThread ++ [some c])

/-- An import that starts no body keeps the frames and the globals. -/
structure NoBody (vm v : VM W) : Prop where
  modules : vm.toWorld.ModulesLe v.toWorld
  imports : v.imports = vm.imports
  globals : v.moduleGlobals = vm.moduleGlobals

/-- What `OP_IMPORT` does. -/
def Imported (E : Env W) (args : List UInt8) (vm v : VM W) : Prop :=
  (vm.toWorld.ModulesLe v.toWorld ∧
    ∃ name, vm.constant E (args.getD 0 0).toNat = .string name ∧ vm.StartsBody v name) ∨
      vm.NoBody v

theorem opImport_imported (hE : E.KeepsImports) (args : List UInt8) :
    (vm.opImport E (args.getD 0 0).toNat).Cases (vm.Imported E args) vm.NoBody := by
  refine withName_cases _ fun name hname => ?_
  have hkeep : ∀ {v : VM W}, vm.toWorld.ModulesLe v.toWorld → v.imports = vm.imports →
      v.moduleGlobals = vm.moduleGlobals → vm.Imported E args v :=
    fun hm hi hg => .inr ⟨hm, hi, hg⟩
  have hworld := hE.importModule vm.toWorld name
  have hglobals := hE.importGlobals vm.toWorld name
  split
  · exact hkeep (.refl vm.toWorld) (imports_of_ctl (vm.ctl_push _)) rfl
  next hnone =>
    cases himp : E.importModule vm.toWorld name with
    | native w x =>
      rw [himp] at hworld hglobals
      refine hkeep (hworld w rfl) (imports_of_ctl ?_) (hglobals w rfl)
      exact (vm.setWorld w).ctl_push _
    | missing w =>
      rw [himp] at hworld hglobals
      exact ⟨hworld w rfl, rfl, hglobals w rfl⟩
    | compileError w =>
      rw [himp] at hworld hglobals
      exact hkeep (hworld w rfl) rfl (hglobals w rfl)
    | file f filename =>
      dsimp only
      generalize hv : VM.setGlobal _ (ascii "__main") _ = entered
      have hctl : entered.ctl = vm.ctl := by
        rw [← hv]
        exact vm.ctl_push _
      have hmod : vm.toWorld.ModulesLe entered.toWorld := by
        rw [← hv]
        exact .refl vm.toWorld
      have hc := @call_calls W E entered.saveIp ⟨vm.nextObject, f, []⟩ 0
      have hr := @call_runs W E entered.saveIp hE ⟨vm.nextObject, f, []⟩ 0
      rw [Calls.eq_def, ctl_saveIp, hctl] at hc
      split
      next w heq =>
        rw [heq] at hc hr
        obtain ⟨e, hc⟩ := hc
        refine ⟨?_, ?_, ?_⟩
        · exact (hmod.trans hr.1).trans (restoreModuleContext_modules _ _)
        · have hw : w.imports = vm.imports := by
            funext t
            rw [imports, hc, Ctl.imports_raise, Ctl.imports_saveIp]
            rfl
          exact (imports_of_ctl (w.ctl_restoreModuleContext _)).trans hw
        · rw [restoreModuleContext_globals]
          rfl
      next w heq =>
        rw [heq] at hc hr
        obtain ⟨slots, hc⟩ := hc
        refine .inl ⟨hmod.trans hr.1, name, hname, ⟨hnone, ⟨name, vm.globals (ascii "__name"),
          vm.globals (ascii "__file"), vm.globals (ascii "__main")⟩, rfl, rfl, ?_⟩⟩
        have ht : w.thread.ctl = _ := congrArg Ctl.thread hc
        simp only [Ctl.pushFrame, Ctl.thread_setThread, ObjThread.ctl, ThreadControl.mk.injEq] at ht
        obtain ⟨h1, h2, h3, h4, h5⟩ := ht
        funext t
        rw [imports, ctl_loadFrame, ctl_setThread, hc]
        simp only [Ctl.pushFrame, Ctl.setThread_setThread, ObjThread.ctl, h1, h2, h3, h4, h5,
          Nat.add_sub_cancel, Function.update_self, Function.update_idem]
        have hp := vm.ctl.saveIp.imports_pushFrame ⟨⟨vm.nextObject, f, []⟩, ⟨f, 0⟩, slots,
          some ⟨name, vm.globals (ascii "__name"), vm.globals (ascii "__file"),
            vm.globals (ascii "__main")⟩⟩
        rw [Ctl.imports_saveIp] at hp
        exact congrFun hp t

/-- What a return leaves: the thread's frames but the top one, the globals that `frame` restores and
the result that it caches. -/
structure Returned (vm v : VM W) : Prop where
  modules : vm.toWorld.ModulesLe v.toWorld
  imports : v.imports = Function.update vm.imports vm.currentThread
    ((vm.imports vm.currentThread).take (vm.thread.frameCount - 1))
  globals : v.moduleGlobals = (vm.restoreModuleContext vm.frame).moduleGlobals
  cached : ∀ c, vm.frame.module = some c → (v.modules c.cacheName).isSome

theorem Returned.trans (h : vm.Returned u) (hw : v.toWorld = u.toWorld) (hi : v.imports = u.imports) :
    vm.Returned v := by
  refine ⟨?_, hi.trans h.imports, ?_, ?_⟩
  · rw [hw]
    exact h.modules
  · rw [hw]
    exact h.globals
  · rw [hw]
    exact h.cached

theorem applyPendingSetLocal_world (vm : VM W) : vm.applyPendingSetLocal.toWorld = vm.toWorld := by
  unfold applyPendingSetLocal
  dsimp only
  split
  · rfl
  · split
    · rfl
    · rfl

theorem restoreModuleContext_same (vm u : VM W) (f : CallFrame)
    (h : u.moduleGlobals = vm.moduleGlobals) :
    (u.restoreModuleContext f).moduleGlobals = (vm.restoreModuleContext f).moduleGlobals := by
  rw [restoreModuleContext_globals, restoreModuleContext_globals, h]

theorem restoreModuleContext_modules_eq (vm : VM W) (f : CallFrame) :
    (vm.restoreModuleContext f).modules = vm.modules := by
  unfold restoreModuleContext
  split
  · rfl
  · rfl

theorem leaveFrame_returned (vm : VM W) (vs : List Value) : vm.Returned (vm.leaveFrame vs) := by
  have hw : (vm.leaveFrame vs).toWorld =
      (((vm.cacheModuleResult vm.frame (vs.headD .nil)).closeUpvalues
        vm.frame.slots).discardHandlersForFrameReturn.restoreModuleContext vm.frame).toWorld := by
    unfold leaveFrame
    dsimp only
    rw [applyPendingSetLocal_world]
    rfl
  generalize hu : ((vm.cacheModuleResult vm.frame (vs.headD .nil)).closeUpvalues
    vm.frame.slots).discardHandlersForFrameReturn = u at hw
  have huw : u.toWorld = (vm.cacheModuleResult vm.frame (vs.headD .nil)).toWorld := by
    rw [← hu]
    rfl
  refine ⟨?_, ?_, ?_, fun c hc => ?_⟩
  · rw [hw]
    intro n hn
    rw [restoreModuleContext_modules_eq, huw]
    unfold cacheModuleResult
    split
    · exact hn
    next c _ =>
      show (Function.update vm.modules c.cacheName (some (vs.headD .nil)) n).isSome
      by_cases h : n = c.cacheName
      · subst h
        simp
      · rwa [Function.update_of_ne h]
  · funext t
    rw [VM.imports, ctl_leaveFrame, Ctl.imports_popFrame]
    rfl
  · rw [hw, restoreModuleContext_same]
    rw [huw]
    unfold cacheModuleResult
    split
    · rfl
    · rfl
  · rw [hw, restoreModuleContext_modules_eq, huw, cacheModuleResult, hc]
    simp

theorem returnValues_returned (vm : VM W) (vs : List Value) : (vm.returnValues vs).All vm.Returned := by
  have h := vm.leaveFrame_returned vs
  unfold returnValues
  generalize vm.leaveFrame vs = u at h
  have hctl : ∀ {v : VM W}, v.ctl = u.ctl → v.toWorld = u.toWorld → vm.Returned v :=
    fun hv hw => h.trans hw (imports_of_ctl hv)
  dsimp only
  split
  · exact h.trans rfl rfl
  · split
    · dsimp only [Outcome.All, Outcome.Cases]
      split
      · exact hctl (u.ctl_drop _) rfl
      · exact h
    next caller _ =>
      have hv : (u.setThread { u.thread with caller := none }).ctl = u.ctl := u.ctl_setThread_of_eq rfl
      have hvw : (u.setThread { u.thread with caller := none }).toWorld = u.toWorld := rfl
      generalize u.setThread { u.thread with caller := none } = v at hv hvw
      unfold returnToCaller
      split
      · exact h.trans hvw ((v.imports_raise _).trans (imports_of_ctl hv))
      · dsimp only
        generalize hx : (if v.thread.isGenerator && v.thread.generatorMode then _ else _ : VM W) = x
        have hxctl : x.ctl = v.ctl := by
          rw [← hx]
          split
          · exact (ctl_passToCaller _ _ _).trans (v.ctl_setThread_of_eq rfl)
          · exact v.ctl_passToCaller _ _
        have hxw : x.toWorld = v.toWorld := by
          rw [← hx]
          split
          · rfl
          · rfl
        have hxi : x.imports = u.imports := imports_of_ctl (hxctl.trans hv)
        unfold reload
        split
        · trivial
        · exact h.trans (hxw.trans hvw) hxi

theorem frame_drop (vm : VM W) (n : Nat) : (vm.drop n).frame = vm.frame := by
  show ((vm.drop n).threads vm.run.frameThread).frames vm.run.frameIndex = _
  by_cases h : vm.run.frameThread = vm.currentThread
  · rw [frame, h]
    simp [drop, setThread, thread, ObjThread.drop]
  · rw [frame]
    simp [drop, setThread, h]

/-- The instruction that a step of the machine executes. -/
def executed (E : Env W) (i : Bool) (vm : VM W) : Option (OpCode × List UInt8) :=
  match vm.control with
  | .fetch => if i then none else vm.fetched E
  | _ => none

/-- What a step of the machine does to the module frames before an exception is handled, with what
an import does given. -/
def Booked (E : Env W) (i : Bool) (vm : VM W) (imported : List UInt8 → VM W → Prop) (v : VM W) :
    Prop :=
  match vm.executed E i with
  | some (.opReturn, _) | some (.opReturnN, _) => vm.Returned v
  | some (.opImport, args) => imported args v
  | _ => vm.Tame v

section Booked

variable {i : Bool} {imported : List UInt8 → VM W → Prop}

theorem booked_of_tame (h : vm.Tame v) (hr : ∀ args, vm.executed E i ≠ some (.opReturn, args))
    (hn : ∀ args, vm.executed E i ≠ some (.opReturnN, args))
    (hi : ∀ args, vm.executed E i ≠ some (.opImport, args)) : vm.Booked E i imported v := by
  unfold Booked
  split
  next args hx => exact absurd hx (hr args)
  next args hx => exact absurd hx (hn args)
  next args hx => exact absurd hx (hi args)
  next => exact h

theorem Booked.cases (h : vm.Booked E i imported v) :
    (∃ op args, vm.executed E i = some (op, args) ∧ (op = .opReturn ∨ op = .opReturnN) ∧
      vm.Returned v) ∨
    (∃ args, vm.executed E i = some (.opImport, args) ∧ imported args v) ∨
    (∀ op args, vm.executed E i = some (op, args) →
      op ≠ .opReturn ∧ op ≠ .opReturnN ∧ op ≠ .opImport) ∧ vm.Tame v := by
  unfold Booked at h
  split at h
  next args hx => exact .inl ⟨_, args, hx, .inl rfl, h⟩
  next args hx => exact .inl ⟨_, args, hx, .inr rfl, h⟩
  next args hx => exact .inr (.inl ⟨args, hx, h⟩)
  next h1 h2 h3 =>
    refine .inr (.inr ⟨fun op args hx => ⟨?_, ?_, ?_⟩, h⟩)
    · rintro rfl
      exact h1 args hx
    · rintro rfl
      exact h2 args hx
    · rintro rfl
      exact h3 args hx

theorem booked_of_none (h : vm.Tame v) (hx : vm.executed E i = none) :
    vm.Booked E i imported v := by
  refine booked_of_tame h ?_ ?_ ?_
  · simp [hx]
  · simp [hx]
  · simp [hx]

/-- An outcome whose steps all are tame ones, at an instruction that neither imports nor returns. -/
theorem all_booked {o : Outcome W} {imported' : List UInt8 → VM W → Prop}
    (h : o.All vm.Tame) (hx : vm.executed E i = none) :
    o.Cases (vm.Booked E i imported) (vm.Booked E i imported') :=
  Outcome.Cases.mono h (fun _ hv => booked_of_none hv hx) fun _ hv => booked_of_none hv hx

end Booked

/-- The operand of a return is off the stack when the frame is taken off. -/
theorem Returned.of_drop {ip : CodePtr} {n : Nat} (h : ((vm.setIp ip).drop n).Returned v) :
    vm.Returned v := by
  obtain ⟨hm, hi, hg, hc⟩ := h
  have hframe : ((vm.setIp ip).drop n).frame = vm.frame := (vm.setIp ip).frame_drop n
  have himports : ((vm.setIp ip).drop n).imports = vm.imports := by
    have h := imports_of_ctl ((vm.setIp ip).ctl_drop n)
    exact h
  have hcount : ((vm.setIp ip).drop n).thread.frameCount = vm.thread.frameCount :=
    congrArg (fun c : Ctl => c.thread.frameCount) ((vm.setIp ip).ctl_drop n)
  rw [himports, hcount] at hi
  rw [hframe] at hc hg
  refine ⟨hm, hi, hg.trans ?_, hc⟩
  exact restoreModuleContext_same vm _ _ rfl

theorem execute_booked (hE : E.KeepsImports) (hc : vm.control = .fetch) :
    (vm.execute E).Cases (vm.Booked E false (vm.Imported E))
      (vm.Booked E false fun _ => vm.NoBody) := by
  have hx : vm.executed E false = vm.fetched E := by
    rw [executed, hc]
    rfl
  rcases vm.execute_cases (E := E) with ⟨op, args, hf, he⟩ | ⟨hf, he | he⟩
  · rw [hf] at hx
    rw [he]
    generalize vm.run.ip.forward (1 + args.length) = ip
    by_cases hr : op = .opReturn
    · subst hr
      have h := ((vm.setIp ip).drop 1).returnValues_returned [(vm.setIp ip).thread.peek 0]
      refine Outcome.Cases.mono h (fun v hv => ?_) fun v hv => ?_
      · rw [Booked, hx]
        exact hv.of_drop
      · rw [Booked, hx]
        exact hv.of_drop
    · by_cases hn : op = .opReturnN
      · subst hn
        have h := (vm.setIp ip).returnValues_returned ((vm.setIp ip).thread.top (args.getD 0 0).toNat)
        have hback : ∀ v, (vm.setIp ip).Returned v → vm.Returned v := fun v ⟨hm, hi, hg, hcache⟩ =>
          ⟨hm, hi, hg.trans (restoreModuleContext_same vm _ _ rfl), hcache⟩
        refine Outcome.Cases.mono h (fun v hv => ?_) fun v hv => ?_
        · rw [Booked, hx]
          exact hback v hv
        · rw [Booked, hx]
          exact hback v hv
      · by_cases hi : op = .opImport
        · subst hi
          have h := @opImport_imported W E (vm.setIp ip) hE args
          refine h.mono (fun v hv => ?_) fun v ⟨hm, hv, hg⟩ => ?_
          · rw [Booked, hx]
            rcases hv with hv | ⟨hm, hv, hg⟩
            · exact .inl hv
            · exact .inr ⟨hm, hv, hg⟩
          · rw [Booked, hx]
            exact ⟨hm, hv, hg⟩
        · have hop : ∀ {S : List UInt8 → VM W → Prop} v, (vm.setIp ip).Tame v →
              vm.Booked E false S v := by
            intro S v hv
            refine booked_of_tame hv ?_ ?_ ?_
            · rw [hx]
              exact fun a ha => hr (congrArg Prod.fst (Option.some.inj ha))
            · rw [hx]
              exact fun a ha => hn (congrArg Prod.fst (Option.some.inj ha))
            · rw [hx]
              exact fun a ha => hi (congrArg Prod.fst (Option.some.inj ha))
          exact Outcome.Cases.mono (perform_tame hE args hr hn hi) hop hop
  · rw [he]
    trivial
  · rw [he]
    refine booked_of_none (.inl (.of_eq (.refl vm.toWorld) rfl)) ?_
    rw [hx, hf]

theorem Tame.next (h : vm.Tame u) (hm : u.toWorld.ModulesLe v.toWorld) (hi : v.imports = u.imports)
    (hn : v.nextThread = u.nextThread) : vm.Tame v := by
  rcases h with ⟨hm', h⟩ | ⟨hm', n, h, hnext⟩
  · refine .inl ⟨hm'.trans hm, ?_⟩
    rwa [hi]
  · exact .inr ⟨hm'.trans hm, n, hi.trans h, hn.trans hnext⟩

theorem afterNative_tame (hE : E.KeepsImports) (after : AfterNative) (h : vm.Tame u) :
    vm.Tame (afterNative E u after) := by
  cases after with
  | «continue» => exact h.next (.refl _) rfl rfl
  | push x =>
    have hi : (u.push x).imports = u.imports := imports_of_ctl (u.ctl_push x)
    exact h.next (.refl u.toWorld) hi rfl
  | print rest =>
    have hi : (u.drop 1).imports = u.imports := imports_of_ctl (u.ctl_drop 1)
    exact h.next (hE.printValue u.toWorld _) hi rfl

theorem finishNative_tame (hE : E.KeepsImports) (call : NativeCall) (h : vm.Tame u) :
    (finishNative E u call).All vm.Tame := by
  unfold finishNative reload
  by_cases hc : u.currentThread = call.thread
  · rw [if_pos hc]
    exact afterNative_tame hE _ h
  · rw [if_neg hc]
    by_cases hz : u.thread.frameCount = 0
    · rw [if_pos hz]
      trivial
    · rw [if_neg hz]
      exact afterNative_tame hE _ (h.next (.refl u.toWorld) rfl rfl)

theorem imports_updateThread (t : Nat) {x : ObjThread} (h : x.ctl = (vm.threads t).ctl) :
    VM.imports { vm with threads := Function.update vm.threads t x } = vm.imports :=
  imports_of_ctl (vm.ctl_updateThread h)

theorem coroutineCreate_tame (vm : VM W) (c : Closure) : vm.Tame (vm.coroutineCreate c) := by
  refine .inr ⟨.refl vm.toWorld, 1, ?_, rfl⟩
  unfold coroutineCreate
  dsimp only
  rw [imports_of_ctl (ctl_push _ _)]
  funext t
  by_cases h : t = vm.nextThread
  · subst h
    simp [imports, Ctl.imports, ctl, ObjThread.ctl, ThreadControl.imports]
  · simp [imports, Ctl.imports, ctl, h]

theorem coroutineResume_tame (vm : VM W) (t : Nat) (args : List Value) :
    vm.Tame (vm.coroutineResume t args) := by
  unfold coroutineResume
  split
  · exact .inl (.of_ctl (.refl vm.toWorld) (by simp))
  · refine .inl (.of_eq (.refl vm.toWorld) ?_)
    refine Eq.trans rfl (vm.imports_updateThread t (x := _) ?_)
    split
    · exact ObjThread.ctl_pushAll _ _
    · exact ObjThread.ctl_pushAll _ _

theorem genNext_tame (vm : VM W) (t : Nat) : vm.Tame (vm.genNext t) := by
  unfold genNext
  split
  · exact .inl (.of_ctl (.refl vm.toWorld) (by simp))
  · refine .inl (.of_eq (.refl vm.toWorld) ?_)
    exact Eq.trans rfl (vm.imports_updateThread t (x := { vm.threads t with
      caller := some vm.currentThread, generatorMode := true }) rfl)

theorem coroutineYield_tame (vm : VM W) (args : List Value) :
    vm.Tame (coroutineYield E vm args) := by
  unfold coroutineYield
  split
  · exact .inl (.of_ctl (.refl vm.toWorld) (by simp))
  next caller _ =>
    dsimp only
    generalize hv : (if vm.thread.isGenerator && vm.thread.generatorMode then _ else _ : VM W) = v
    have hctl : v.ctl = vm.ctl := by
      rw [← hv]
      split
      · exact (ctl_passToCaller _ _ _).trans (vm.ctl_setThread_of_eq rfl)
      · exact ctl_passToCaller _ _ _
    have hw : v.toWorld = vm.toWorld := by
      rw [← hv]
      split
      · rfl
      · rfl
    refine .inl (.of_eq ?_ ?_)
    · show vm.toWorld.ModulesLe v.toWorld
      rw [hw]
      exact .refl _
    · refine Eq.trans ?_ (imports_of_ctl hctl)
      exact v.imports_updateThread caller rfl

theorem stepNative_tame (hE : E.KeepsImports) (call : NativeCall) (input : NativeInput) :
    (stepNative E vm call input).All vm.Tame := by
  have hworld := hE.native vm.toWorld call.native call.state input
  unfold stepNative
  cases hact : E.native vm.toWorld call.native call.state input with
  | returns w vs =>
    rw [hact] at hworld
    refine finishNative_tame hE call (.inl (.of_ctl (hworld w rfl) ?_))
    exact (vm.setWorld w).ctl_pushAll vs
  | raises w e =>
    rw [hact] at hworld
    exact ((runtimeError_runs (vm.setWorld w) e).after_ctl (hworld w rfl) rfl).tame
  | fails w =>
    rw [hact] at hworld
    exact .inl (.of_ctl (hworld w rfl) rfl)
  | exits w =>
    rw [hact] at hworld
    exact .inl (.of_eq (hworld w rfl) rfl)
  | callback w state callee args =>
    rw [hact] at hworld
    have hw := hworld w rfl
    dsimp only
    generalize hp : (vm.setWorld w).setThread (vm.thread.pushAll (callee :: args)) = p
    have hctl : p.ctl = vm.ctl := by
      rw [← hp]
      exact (vm.setWorld w).ctl_pushAll _
    have hpw : vm.toWorld.ModulesLe p.toWorld := by
      rw [← hp]
      exact hw
    split
    next a f us =>
      have h := (@call_runs W E p hE ⟨a, f, us⟩ args.length).after_ctl hpw hctl
      split
      next x heq =>
        rw [heq] at h
        exact Runs.tame h
      next x heq =>
        rw [heq] at h
        exact Runs.tame h
    · trivial
  | create x =>
    cases x with
    | closure a f us => exact finishNative_tame hE call (vm.coroutineCreate_tame _)
    | _ => trivial
  | resume t args => exact finishNative_tame hE call (vm.coroutineResume_tame t args)
  | next t => exact finishNative_tame hE call (vm.genNext_tame t)
  | yield args => exact finishNative_tame hE call (vm.coroutineYield_tame args)

theorem stepPrint_tame (hE : E.KeepsImports) (vs : List Value) :
    (stepPrint E vm vs).All vm.Tame := by
  unfold stepPrint
  split
  · exact .inl (.of_eq (hE.printNewline vm.toWorld) rfl)
  next x rest =>
    dsimp only
    generalize E.metamethod vm.toWorld x (ascii "__str") = method
    have hp : ((vm.push method).push x).ctl = vm.ctl := by simp
    have hw : ((vm.push method).push x).toWorld = vm.toWorld := rfl
    generalize (vm.push method).push x = p at hp hw
    have hpw : vm.toWorld.ModulesLe p.toWorld := by
      rw [hw]
      exact .refl _
    split
    · exact ((p.callNative_runs _ _ _).after_ctl hpw hp).tame
    next a f us =>
      have h := (@callClosure_runs W E p hE false ⟨a, f, us⟩ 1).mono
        fun _ h => h.after_ctl hpw hp
      split
      next y heq =>
        rw [heq] at h
        exact Runs.tame h
      next => exact h.mono fun _ h => h.tame
    · exact .inl (.of_eq (hE.printValue vm.toWorld x) rfl)

theorem stepLeave_tame (hE : E.KeepsImports) (ok : Bool) : (stepLeave E vm ok).All vm.Tame := by
  have hdrop : (vm.drop 1).imports = vm.imports := imports_of_ctl (vm.ctl_drop 1)
  unfold stepLeave
  split
  · exact .inl (.of_eq (.refl vm.toWorld) rfl)
  · dsimp only
    split
    · exact .inl (.of_eq (.refl vm.toWorld) hdrop)
    · exact .inl (.of_eq (.refl vm.toWorld) rfl)
  · dsimp only
    split
    · exact .inl (.of_eq (hE.printValue vm.toWorld _) hdrop)
    · exact .inl (.of_eq (.refl vm.toWorld) rfl)

/-- Each step starts a module's body, ends one, or leaves the module frames as they are. -/
theorem turn_booked (hE : E.KeepsImports) (i : Bool) :
    (vm.turn E i).Cases (vm.Booked E i (vm.Imported E)) (vm.Booked E i fun _ => vm.NoBody) := by
  unfold turn
  cases hc : vm.control with
  | fetch =>
    cases i with
    | true => exact booked_of_none (vm.runtimeError_runs _).tame (by simp [executed, hc])
    | false => exact execute_booked hE hc
  | native call input =>
    exact all_booked (stepNative_tame hE call input) (by simp [executed, hc])
  | print vs => exact all_booked (stepPrint_tame hE vs) (by simp [executed, hc])
  | leave ok => exact all_booked (stepLeave_tame hE ok) (by simp [executed, hc])
  | halt ok => trivial

end VM

end ToiLang
