import ToiLang.Vm.Links

namespace ToiLang

/-- How a step of the machine passes control between threads. -/
inductive Handover
  | stay
  | resume (t : Nat)
  | yieldTo (caller : Nat)
  | returnTo (caller : Nat)
  | overflow
  deriving DecidableEq, Repr

def Links.after (l : Links) : Handover → Links
  | .stay => l
  | .resume t => l.resume t
  | .yieldTo caller => l.yieldTo caller
  | .returnTo caller => l.returnTo caller
  | .overflow => l.cut

/-- The links are those after a handover, or those of a step that makes a thread. -/
def Links.Follows (l l' : Links) (m : Handover) : Prop :=
  l' = l.after m ∨ m = .stay ∧ l' = l.create

namespace VM

variable {W : Type}

/-- The instruction that the interpreter executes next. -/
def fetched (E : Env W) (vm : VM W) : Option (OpCode × List UInt8) :=
  let c : Chunk := ⟨(E.fns vm.run.ip.function).code, (vm.function E).constants⟩
  if c.code.length ≤ vm.run.ip.offset then none
  else
    match OpCode.ofCode (c.byte vm.run.ip.offset) with
    | none => none
    | some op => (readOperands E.fns c vm.run.ip.offset op).map fun args => (op, args)

/-- What the return of some values does: at the run's first frame the thread's caller goes on,
if its stack has room. -/
def returning (vm : VM W) (count : Nat) : Handover :=
  if vm.run.minFrameCount < vm.thread.frameCount - 1 then .stay
  else
    match vm.thread.caller with
    | none => .stay
    | some caller =>
      if (vm.threads caller).stackCapacity ≤ (vm.threads caller).stackTop + 1 + count then .overflow
      else .returnTo caller

def handoverOf (vm : VM W) : Option (OpCode × List UInt8) → Handover
  | some (.opReturn, _) => vm.returning 1
  | some (.opReturnN, args) => vm.returning (args.getD 0 0).toNat
  | _ => .stay

def handover (E : Env W) (interrupted : Bool) (vm : VM W) : Handover :=
  match vm.control with
  | .fetch => if interrupted then .stay else vm.handoverOf (vm.fetched E)
  | .native call input =>
    match E.native vm.toWorld call.native call.state input with
    | .resume t _ | .next t => if (vm.threads t).frameCount = 0 then .stay else .resume t
    | .yield _ =>
      match vm.thread.caller with
      | none => .stay
      | some caller => .yieldTo caller
    | _ => .stay
  | _ => .stay

/-- All threads but the current one are as they were. -/
def Elsewhere (vm u : VM W) : Prop :=
  u.currentThread = vm.currentThread ∧ ∀ c, c ≠ vm.currentThread → u.threads c = vm.threads c

theorem Elsewhere.trans {v u w : VM W} (h : v.Elsewhere u) (h' : u.Elsewhere w) :
    v.Elsewhere w := by
  obtain ⟨hc, ht⟩ := h
  obtain ⟨hc', ht'⟩ := h'
  refine ⟨hc'.trans hc, fun c hne => ?_⟩
  rw [ht' c (by rwa [hc]), ht c hne]

variable {E : Env W} (vm : VM W)

theorem elsewhere_setThread (t : ObjThread) : vm.Elsewhere (vm.setThread t) :=
  ⟨rfl, fun _ hne => Function.update_of_ne hne _ _⟩

theorem elsewhere_restoreModuleContext (f : CallFrame) :
    vm.Elsewhere (vm.restoreModuleContext f) := by
  unfold restoreModuleContext
  split
  · exact ⟨rfl, fun _ _ => rfl⟩
  · exact ⟨rfl, fun _ _ => rfl⟩

theorem elsewhere_cacheModuleResult (f : CallFrame) (v : Value) :
    vm.Elsewhere (vm.cacheModuleResult f v) := by
  unfold cacheModuleResult
  split
  · exact ⟨rfl, fun _ _ => rfl⟩
  · exact ⟨rfl, fun _ _ => rfl⟩

theorem elsewhere_applyPendingSetLocal : vm.Elsewhere vm.applyPendingSetLocal := by
  unfold applyPendingSetLocal
  dsimp only
  split
  · exact ⟨rfl, fun _ _ => rfl⟩
  · split
    · exact vm.elsewhere_setThread _
    · exact ⟨rfl, fun _ _ => rfl⟩

theorem elsewhere_closeUpvalues (last : Nat) : vm.Elsewhere (vm.closeUpvalues last) :=
  vm.elsewhere_setThread _

theorem elsewhere_leaveFrame (vs : List Value) : vm.Elsewhere (vm.leaveFrame vs) := by
  unfold leaveFrame
  dsimp only
  have h1 := vm.elsewhere_cacheModuleResult vm.frame (vs.headD .nil)
  have h2 := h1.trans (elsewhere_closeUpvalues _ vm.frame.slots)
  have h3 := h2.trans (elsewhere_setThread _ _ : Elsewhere _ (discardHandlersForFrameReturn _))
  have h4 := h3.trans (elsewhere_restoreModuleContext _ vm.frame)
  exact (h4.trans (elsewhere_setThread _ _)).trans (elsewhere_applyPendingSetLocal _)

@[simp] theorem links_leaveFrame (vs : List Value) : (vm.leaveFrame vs).links = vm.links := by
  unfold leaveFrame
  dsimp only
  rw [links_applyPendingSetLocal, links_setThread]
  · simp
  · simp

theorem leaveFrame_frameCount (vs : List Value) :
    (vm.leaveFrame vs).thread.frameCount = vm.thread.frameCount - 1 := by
  have h : (vm.leaveFrame vs).ctl = vm.ctl.popFrame := ctl_leaveFrame vs
  have hcount := congrArg (fun c : Ctl => c.thread.frameCount) h
  refine hcount.trans ?_
  simp only [Ctl.popFrame, Ctl.thread_setThread]
  rfl

theorem leaveFrame_run (vs : List Value) : (vm.leaveFrame vs).run = vm.run := by
  have h : (vm.leaveFrame vs).ctl = vm.ctl.popFrame := ctl_leaveFrame vs
  exact congrArg Ctl.run h

/-- The thread's own pointer is cleared before the room on the caller's stack is checked. -/
theorem links_cut : (vm.setThread { vm.thread with caller := none }).links = vm.links.cut := by
  refine Links.ext (fun i => ?_) rfl rfl
  by_cases h : i = vm.currentThread
  · subst h
    simp [links, setThread, Links.cut]
  · simp [links, setThread, Links.cut, h]

theorem reload_links {P : Links → Prop} (h : P vm.links) : vm.reload.Links P := by
  unfold reload
  split
  · trivial
  · exact h

theorem returnToCaller_links (caller : Nat) (vs : List Value) :
    (vm.returnToCaller caller vs).Links (· =
      if (vm.threads caller).stackCapacity ≤ (vm.threads caller).stackTop + 1 + vs.length then
        vm.links
      else { vm.links with currentThread := caller }) := by
  unfold returnToCaller
  by_cases hfull : (vm.threads caller).stackCapacity ≤ (vm.threads caller).stackTop + 1 + vs.length
  · simp only [hfull, ↓reduceIte]
    exact vm.links_runtimeError _
  · simp only [hfull, ↓reduceIte]
    refine reload_links _ ?_
    have hlinks : ∀ u : VM W, u.links = vm.links →
        VM.links { u with currentThread := caller } = { vm.links with currentThread := caller } := by
      intro u hu
      rw [← hu]
      rfl
    apply hlinks
    split
    · rw [links_passToCaller, links_setThread]
      rfl
    · exact vm.links_passToCaller _ _

theorem returnValues_links (vs : List Value)
    (hne : ∀ c, vm.thread.caller = some c → c ≠ vm.currentThread) :
    (vm.returnValues vs).Links (· = vm.links.after (vm.returning vs.length)) := by
  have hcount := vm.leaveFrame_frameCount vs
  have hrun := vm.leaveFrame_run vs
  have hlinks := vm.links_leaveFrame vs
  obtain ⟨hcur, hother⟩ := vm.elsewhere_leaveFrame vs
  unfold returnValues returning
  generalize vm.leaveFrame vs = u at hcount hrun hlinks hcur hother
  have hcaller : u.thread.caller = vm.thread.caller := by
    have h := congrArg (fun l => l.callers l.currentThread) hlinks
    exact h
  dsimp only
  by_cases hlt : vm.run.minFrameCount < vm.thread.frameCount - 1
  · have hlt' : u.run.minFrameCount < u.thread.frameCount := by rwa [hrun, hcount]
    rw [if_pos hlt, if_pos hlt']
    exact hlinks
  · have hlt' : ¬u.run.minFrameCount < u.thread.frameCount := by rwa [hrun, hcount]
    rw [if_neg hlt, if_neg hlt', hcaller]
    cases hc : vm.thread.caller with
    | none =>
      dsimp only [Outcome.Links, Links.after]
      split
      · exact (u.links_drop _).trans hlinks
      · exact hlinks
    | some caller =>
      have hd := hne caller hc
      obtain ⟨-, hcut⟩ := u.elsewhere_setThread { u.thread with caller := none }
      have h := (u.setThread { u.thread with caller := none }).returnToCaller_links caller vs
      rw [hcut caller (hcur ▸ hd), hother caller hd, links_cut, hlinks] at h
      refine h.mono fun l hl => hl.trans ?_
      dsimp only
      split
      · rfl
      · rfl

/-- Only a thread with frames is resumed, and control goes back to the caller only. -/
def Possible (vm : VM W) : Handover → Prop
  | .stay => True
  | .resume t => (vm.threads t).frameCount ≠ 0
  | .yieldTo caller | .returnTo caller => vm.thread.caller = some caller
  | .overflow => ∃ caller, vm.thread.caller = some caller

theorem returning_possible (count : Nat) : vm.Possible (vm.returning count) := by
  unfold returning
  split
  · trivial
  · cases hc : vm.thread.caller with
    | none => trivial
    | some caller =>
      dsimp only
      split
      · exact ⟨caller, hc⟩
      · exact hc

/-- Where a thread may be its own caller, a return still goes to the caller or nowhere. -/
theorem returnValues_possible (vs : List Value) :
    (vm.returnValues vs).Links fun l => ∃ m, vm.Possible m ∧ l = vm.links.after m := by
  have hlinks := vm.links_leaveFrame vs
  unfold returnValues
  generalize vm.leaveFrame vs = u at hlinks
  have hcaller : u.thread.caller = vm.thread.caller := congrArg (fun l => l.callers l.currentThread) hlinks
  dsimp only
  split
  · exact ⟨.stay, trivial, hlinks⟩
  · cases hc : u.thread.caller with
    | none =>
      refine ⟨.stay, trivial, ?_⟩
      split
      · exact (u.links_drop _).trans hlinks
      · exact hlinks
    | some caller =>
      have hvm : vm.thread.caller = some caller := hcaller ▸ hc
      have h := (u.setThread { u.thread with caller := none }).returnToCaller_links caller vs
      rw [links_cut, hlinks] at h
      refine h.mono fun l hl => ?_
      split at hl
      · exact ⟨.overflow, ⟨caller, hvm⟩, hl⟩
      · exact ⟨.returnTo caller, hvm, hl⟩

@[simp] theorem returning_setIp (ip : CodePtr) (count : Nat) :
    (vm.setIp ip).returning count = vm.returning count := rfl

/-- The operand of a return is off the stack before the caller's stack is looked at. -/
theorem returning_drop (n count : Nat) (hne : ∀ c, vm.thread.caller = some c → c ≠ vm.currentThread) :
    (vm.drop n).returning count = vm.returning count := by
  obtain ⟨-, hother⟩ := vm.elsewhere_setThread (vm.thread.drop n)
  have hthread : (vm.drop n).thread = vm.thread.drop n := by simp [drop, setThread, thread]
  unfold returning
  rw [hthread]
  show (if vm.run.minFrameCount < vm.thread.frameCount - 1 then _ else _) = _
  split
  · rfl
  · show (match vm.thread.caller with | none => _ | some _ => _) = _
    cases hc : vm.thread.caller with
    | none => rfl
    | some caller =>
      have h : (vm.drop n).threads caller = vm.threads caller := hother caller (hne caller hc)
      simp only [h]

theorem handoverOf_stay {op : OpCode} (args : List UInt8) (hr : op ≠ .opReturn)
    (hn : op ≠ .opReturnN) : vm.handoverOf (some (op, args)) = .stay := by
  unfold handoverOf
  split
  next h => exact absurd (congrArg Prod.fst (Option.some.inj h)) hr
  next h => exact absurd (congrArg Prod.fst (Option.some.inj h)) hn
  next => rfl

/-- A turn of the interpreter's loop performs what was fetched, or skips a byte. -/
theorem execute_cases :
    (∃ op args, vm.fetched E = some (op, args) ∧
      vm.execute E = (vm.setIp (vm.run.ip.forward (1 + args.length))).perform E op args) ∨
    vm.fetched E = none ∧
      (vm.execute E = .undefined ∨ vm.execute E = .next (vm.setIp (vm.run.ip.forward 1))) := by
  by_cases hlt : (E.fns vm.run.ip.function).code.length ≤ vm.run.ip.offset
  · exact .inr ⟨by simp [fetched, hlt], .inl (by simp [execute, hlt])⟩
  · cases hop : OpCode.ofCode (Chunk.byte ⟨(E.fns vm.run.ip.function).code,
        (vm.function E).constants⟩ vm.run.ip.offset) with
    | none => exact .inr ⟨by simp [fetched, hlt, hop], .inr (by simp [execute, hlt, hop])⟩
    | some op =>
      cases hargs : readOperands E.fns ⟨(E.fns vm.run.ip.function).code,
          (vm.function E).constants⟩ vm.run.ip.offset op with
      | none =>
        exact .inr ⟨by simp [fetched, hlt, hop, hargs], .inl (by simp [execute, hlt, hop, hargs])⟩
      | some args =>
        exact .inl ⟨op, args, by simp [fetched, hlt, hop, hargs], by simp [execute, hlt, hop, hargs]⟩

theorem execute_links (hne : ∀ c, vm.thread.caller = some c → c ≠ vm.currentThread) :
    (vm.execute E).Links fun l => vm.links.Follows l (vm.handoverOf (vm.fetched E)) := by
  rcases vm.execute_cases (E := E) with ⟨op, args, hf, he⟩ | ⟨hf, he | he⟩
  · rw [hf, he]
    generalize vm.run.ip.forward (1 + args.length) = ip
    have hv : (vm.setIp ip).links = vm.links := rfl
    by_cases hr : op = .opReturn
    · subst hr
      have hthread : ((vm.setIp ip).drop 1).thread.caller = vm.thread.caller := by
        simp [thread, drop, setThread, setIp]
      have h := ((vm.setIp ip).drop 1).returnValues_links [(vm.setIp ip).thread.peek 0]
        (by rw [hthread]; exact hne)
      rw [(vm.setIp ip).returning_drop 1 _ hne, links_drop, hv] at h
      exact h.mono fun l hl => .inl hl
    · by_cases hn : op = .opReturnN
      · subst hn
        have h := (vm.setIp ip).returnValues_links ((vm.setIp ip).thread.top (args.getD 0 0).toNat) hne
        have hlen : ((vm.setIp ip).thread.top (args.getD 0 0).toNat).length =
            (args.getD 0 0).toNat := by simp [ObjThread.top]
        rw [hv, hlen] at h
        exact h.mono fun l hl => .inl hl
      · have h := @perform_links W E (vm.setIp ip) op args hr hn
        rw [vm.handoverOf_stay args hr hn]
        rw [hv] at h
        refine h.mono fun l hl => ?_
        rcases hl with hl | hl
        · exact .inl hl
        · exact .inr ⟨rfl, hl⟩
  · rw [he]
    trivial
  · rw [hf, he]
    exact .inl rfl

theorem execute_possible :
    (vm.execute E).Links fun l => ∃ m, vm.Possible m ∧ vm.links.Follows l m := by
  rcases vm.execute_cases (E := E) with ⟨op, args, -, he⟩ | ⟨-, he | he⟩
  · rw [he]
    generalize vm.run.ip.forward (1 + args.length) = ip
    by_cases hr : op = .opReturn
    · subst hr
      have hd : ((vm.setIp ip).drop 1).links = vm.links := links_drop _ 1
      have hp : ∀ m, ((vm.setIp ip).drop 1).Possible m → vm.Possible m := by
        intro m hm
        have hcaller : ((vm.setIp ip).drop 1).thread.caller = vm.thread.caller :=
          congrArg (fun l => l.callers l.currentThread) hd
        cases m with
        | stay => trivial
        | resume t =>
          by_cases ht : t = vm.currentThread
          · subst ht
            simpa [Possible, drop, setThread, setIp, thread, ObjThread.drop] using hm
          · simpa [Possible, drop, setThread, setIp, ht] using hm
        | yieldTo c => exact hcaller.symm.trans hm
        | returnTo c => exact hcaller.symm.trans hm
        | overflow =>
          obtain ⟨c, hc⟩ := hm
          exact ⟨c, hcaller.symm.trans hc⟩
      refine (((vm.setIp ip).drop 1).returnValues_possible _).mono fun l hl => ?_
      obtain ⟨m, hm, hl⟩ := hl
      exact ⟨m, hp m hm, .inl (by rw [hl, hd])⟩
    · by_cases hn : op = .opReturnN
      · subst hn
        refine ((vm.setIp ip).returnValues_possible _).mono fun l hl => ?_
        obtain ⟨m, hm, hl⟩ := hl
        exact ⟨m, by cases m <;> exact hm, .inl hl⟩
      · refine (@perform_links W E (vm.setIp ip) op args hr hn).mono fun l hl => ?_
        rcases hl with hl | hl
        · exact ⟨.stay, trivial, .inl hl⟩
        · exact ⟨.stay, trivial, .inr ⟨rfl, hl⟩⟩
  · rw [he]
    trivial
  · rw [he]
    exact ⟨.stay, trivial, .inl rfl⟩

@[simp] theorem links_afterNative (after : AfterNative) : (afterNative E vm after).links = vm.links := by
  cases after with
  | «continue» => rfl
  | push v => exact vm.links_push v
  | print rest => exact vm.links_drop 1

theorem finishNative_links (call : NativeCall) :
    (finishNative E vm call).Links (· = vm.links) := by
  unfold finishNative reload
  by_cases hc : vm.currentThread = call.thread
  · rw [if_pos hc]
    exact vm.links_afterNative _
  · rw [if_neg hc]
    by_cases hz : vm.thread.frameCount = 0
    · rw [if_pos hz]
      trivial
    · rw [if_neg hz]
      exact (links_afterNative _ _).trans vm.links_loadFrame

theorem coroutineCreate_links (c : Closure) : (vm.coroutineCreate c).links = vm.links.create := by
  unfold coroutineCreate
  rw [links_push]
  refine Links.ext (fun i => ?_) rfl rfl
  by_cases h : i = vm.nextThread
  · subst h
    simp [links, Links.create, newThread]
  · simp [links, Links.create, h]

theorem coroutineResume_links {t : Nat} (ht : (vm.threads t).frameCount ≠ 0) (args : List Value) :
    (vm.coroutineResume t args).links = vm.links.resume t := by
  unfold coroutineResume
  rw [if_neg ht]
  refine Links.ext (fun i => ?_) rfl rfl
  by_cases h : i = t
  · subst h
    simp only [links, Links.resume, Function.update_self, ObjThread.pushAll_caller]
    split
    · rfl
    · rfl
  · simp [links, Links.resume, h]

theorem genNext_links {t : Nat} (ht : (vm.threads t).frameCount ≠ 0) :
    (vm.genNext t).links = vm.links.resume t := by
  unfold genNext
  rw [if_neg ht]
  refine Links.ext (fun i => ?_) rfl rfl
  by_cases h : i = t
  · subst h
    simp [links, Links.resume]
  · simp [links, Links.resume, h]

theorem coroutineYield_links {caller : Nat} (hc : vm.thread.caller = some caller)
    (args : List Value) : (coroutineYield E vm args).links = vm.links.yieldTo caller := by
  unfold coroutineYield
  rw [hc]
  dsimp only
  generalize hv : (if vm.thread.isGenerator && vm.thread.generatorMode then _ else _ : VM W) = v
  have hl : v.links = vm.links := by
    rw [← hv]
    split
    · rw [links_passToCaller, links_setThread]
      rfl
    · exact vm.links_passToCaller _ _
  have hcut := links_cut { v with currentThread := caller }
  refine hcut.trans ?_
  show ({ v.links with currentThread := caller } : Links).cut = _
  rw [hl]
  rfl

theorem stepNative_links (call : NativeCall) (input : NativeInput)
    (hc : vm.control = .native call input) (i : Bool) :
    (stepNative E vm call input).Links fun l => vm.links.Follows l (vm.handover E i) := by
  have hfinish : ∀ {u : VM W} {m : Handover}, vm.handover E i = m → u.links = vm.links.after m →
      (finishNative E u call).Links fun l => vm.links.Follows l (vm.handover E i) := by
    intro u m hm hu
    exact (u.finishNative_links call).mono fun l hl => .inl (by rw [hl, hu, hm])
  have hand : vm.handover E i = match E.native vm.toWorld call.native call.state input with
      | .resume t _ | .next t => if (vm.threads t).frameCount = 0 then .stay else .resume t
      | .yield _ => match vm.thread.caller with
        | none => .stay
        | some caller => .yieldTo caller
      | _ => .stay := by rw [handover, hc]
  unfold stepNative
  cases hn : E.native vm.toWorld call.native call.state input with
  | returns w vs =>
    rw [hn] at hand
    exact hfinish hand ((vm.setWorld w).links_pushAll vs)
  | raises w e =>
    rw [hn] at hand
    exact .inl (by rw [hand]; exact (vm.setWorld w).links_raise e)
  | fails w =>
    rw [hn] at hand
    exact .inl (by rw [hand]; rfl)
  | exits w =>
    rw [hn] at hand
    exact .inl (by rw [hand]; rfl)
  | callback w state callee args =>
    rw [hn] at hand
    dsimp only
    generalize hp : (vm.setWorld w).setThread (vm.thread.pushAll (callee :: args)) = p
    have hpl : p.links = vm.links := by
      rw [← hp]
      exact (vm.setWorld w).links_pushAll _
    split
    next a f us =>
      have h := @call_links W E p ⟨a, f, us⟩ args.length
      split
      next u heq =>
        rw [heq] at h
        exact .inl (by rw [hand]; exact h.trans hpl)
      next u heq =>
        rw [heq] at h
        exact .inl (by rw [hand]; exact h.trans hpl)
    · trivial
  | create v =>
    rw [hn] at hand
    cases v with
    | closure a f us =>
      refine (finishNative_links _ call).mono fun l hl => .inr ⟨hand, ?_⟩
      rw [hl, coroutineCreate_links]
    | _ => trivial
  | resume t args =>
    rw [hn] at hand
    by_cases ht : (vm.threads t).frameCount = 0
    · refine hfinish (hand.trans (if_pos ht)) ?_
      simp only [coroutineResume, ht, ↓reduceIte, links_push]
      rfl
    · exact hfinish (hand.trans (if_neg ht)) (vm.coroutineResume_links ht args)
  | next t =>
    rw [hn] at hand
    by_cases ht : (vm.threads t).frameCount = 0
    · refine hfinish (hand.trans (if_pos ht)) ?_
      simp only [genNext, ht, ↓reduceIte, links_push]
      rfl
    · exact hfinish (hand.trans (if_neg ht)) (vm.genNext_links ht)
  | yield args =>
    rw [hn] at hand
    cases hk : vm.thread.caller with
    | none =>
      rw [hk] at hand
      refine hfinish hand ?_
      simp only [coroutineYield, hk, links_push]
      rfl
    | some caller =>
      rw [hk] at hand
      exact hfinish hand (vm.coroutineYield_links hk args)

theorem stepPrint_links (vs : List Value) : (stepPrint E vm vs).Links (· = vm.links) := by
  unfold stepPrint
  split
  · rfl
  next v rest =>
    dsimp only
    generalize E.metamethod vm.toWorld v (ascii "__str") = method
    have hp : ((vm.push method).push v).links = vm.links := by simp
    generalize (vm.push method).push v = p at hp
    split
    · exact (links_callNative _ _ _).trans hp
    next a f us =>
      have h := @callClosure_links W E p false ⟨a, f, us⟩ 1
      split
      next u heq =>
        rw [heq] at h
        exact (links_startRun _ _ _).trans (h.trans hp)
      next => exact h.mono fun l hl => hl.trans hp
    · rfl

theorem stepLeave_links (ok : Bool) : (stepLeave E vm ok).Links (· = vm.links) := by
  unfold stepLeave
  split
  · rfl
  · dsimp only
    split
    · exact links_drop _ 1
    · rfl
  · dsimp only
    split
    · exact links_drop _ 1
    · rfl

/-- Each step of the machine passes control as its handover says, where no thread is its own
caller. -/
theorem turn_links {vm' : VM W} {i : Bool} (h : (vm.turn E i).settle = some vm')
    (hne : ∀ c, vm.thread.caller = some c → c ≠ vm.currentThread) :
    vm.links.Follows vm'.links (vm.handover E i) := by
  suffices hs : (vm.turn E i).Links fun l => vm.links.Follows l (vm.handover E i) from hs.settle h
  unfold turn
  cases hc : vm.control with
  | fetch =>
    dsimp only
    rw [handover, hc]
    cases i with
    | true => exact .inl (vm.links_runtimeError _)
    | false => exact vm.execute_links hne
  | native call input => exact vm.stepNative_links call input hc i
  | print vs =>
    rw [handover, hc]
    exact (vm.stepPrint_links vs).mono fun l hl => .inl hl
  | leave ok =>
    rw [handover, hc]
    exact (vm.stepLeave_links ok).mono fun l hl => .inl hl
  | halt ok => trivial

variable {i : Bool}

theorem handover_possible : vm.Possible (vm.handover E i) := by
  unfold handover
  split
  · split
    · trivial
    · unfold handoverOf
      split
      · exact vm.returning_possible 1
      · exact vm.returning_possible _
      · trivial
  · split
    · split
      · trivial
      next h => exact h
    · split
      · trivial
      next h => exact h
    · cases hc : vm.thread.caller with
      | none => trivial
      | some caller => exact hc
    · trivial
  · trivial


/-- The same of any step, without the handover it takes. -/
theorem turn_possible {vm' : VM W} (h : (vm.turn E i).settle = some vm') :
    ∃ m, vm.Possible m ∧ vm.links.Follows vm'.links m := by
  suffices hs : (vm.turn E i).Links fun l => ∃ m, vm.Possible m ∧ vm.links.Follows l m from
    hs.settle h
  have hp := vm.handover_possible (E := E) (i := i)
  unfold turn
  cases hc : vm.control with
  | fetch =>
    cases i with
    | true => exact ⟨.stay, trivial, .inl (vm.links_runtimeError _)⟩
    | false => exact vm.execute_possible
  | native call input => exact (vm.stepNative_links call input hc i).mono fun l hl => ⟨_, hp, hl⟩
  | print vs => exact (vm.stepPrint_links vs).mono fun l hl => ⟨.stay, trivial, .inl hl⟩
  | leave ok => exact (vm.stepLeave_links ok).mono fun l hl => ⟨.stay, trivial, .inl hl⟩
  | halt ok => trivial

end VM

end ToiLang
