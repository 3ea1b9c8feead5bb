import ToiLang.CoroutineChain

namespace ToiLang

namespace VM

variable {W : Type} {E : Env W} {vm : VM W} {i : Bool}

/-- The step executes `OP_RETURN` or `OP_RETURN_N`. -/
def Returns (E : Env W) (interrupted : Bool) (vm : VM W) : Prop :=
  vm.control = .fetch ∧ interrupted = false ∧
    ∃ op args, vm.fetched E = some (op, args) ∧ (op = .opReturn ∨ op = .opReturnN)

/-- The frames that a return leaves on its thread. -/
def framesLeft (vm : VM W) : Nat := vm.thread.frameCount - 1

/-- The interpreter goes on in the frame below the one that returns. -/
structure CallingFrame (vm v : VM W) : Prop where
  thread : v.currentThread = vm.currentThread
  frameCount : v.thread.frameCount = vm.framesLeft
  frameThread : v.run.frameThread = vm.currentThread
  frameIndex : v.run.frameIndex = vm.framesLeft - 1

theorem leaveFrame_caller (vm : VM W) (vs : List Value) : (vm.leaveFrame vs).thread.caller = vm.thread.caller :=
  congrArg (fun l : Links => l.callers l.currentThread) (vm.links_leaveFrame vs)

theorem returnValues_next (vs : List Value) (h : vm.run.minFrameCount < vm.framesLeft) :
    ∃ v, vm.returnValues vs = .next v ∧ vm.CallingFrame v := by
  have hcount := vm.leaveFrame_frameCount vs
  have hrun := vm.leaveFrame_run vs
  obtain ⟨hcur, -⟩ := vm.elsewhere_leaveFrame vs
  have hlt : (vm.leaveFrame vs).run.minFrameCount < (vm.leaveFrame vs).thread.frameCount := by
    rw [hrun, hcount]
    exact h
  refine ⟨(vm.leaveFrame vs).loadFrame, ?_, hcur, hcount, hcur, ?_⟩
  · simp only [returnValues, if_pos hlt]
  · show (vm.leaveFrame vs).thread.frameCount - 1 = vm.framesLeft - 1
    rw [hcount]
    rfl

/-- The run's end leaves the thread, and the runs, to the C code. -/
structure Left (vm v : VM W) : Prop where
  thread : v.currentThread = vm.currentThread
  frameCount : v.thread.frameCount = vm.framesLeft
  run : v.run = vm.run
  outer : v.outer = vm.outer

theorem leaveFrame_left (vs : List Value) : vm.Left (vm.leaveFrame vs) := by
  obtain ⟨hcur, -⟩ := vm.elsewhere_leaveFrame vs
  have hctl : (vm.leaveFrame vs).ctl = vm.ctl.popFrame := ctl_leaveFrame vs
  exact ⟨hcur, vm.leaveFrame_frameCount vs, vm.leaveFrame_run vs, congrArg Ctl.outer hctl⟩

theorem Left.drop {v : VM W} (h : vm.Left v) (n : Nat) : vm.Left (v.drop n) := by
  have hcount : (v.drop n).thread.frameCount = v.thread.frameCount := by
    simp [VM.drop, VM.thread, VM.setThread, ObjThread.drop]
  exact ⟨h.thread, hcount.trans h.frameCount, h.run, h.outer⟩

theorem returnValues_leave (vs : List Value) (h : ¬vm.run.minFrameCount < vm.framesLeft)
    (hc : vm.thread.caller = none) : ∃ v, vm.returnValues vs = .leave v true ∧ vm.Left v := by
  have hlt : ¬(vm.leaveFrame vs).run.minFrameCount < (vm.leaveFrame vs).thread.frameCount := by
    rw [vm.leaveFrame_run vs, vm.leaveFrame_frameCount vs]
    exact h
  have hnone : (vm.leaveFrame vs).thread.caller = none := (vm.leaveFrame_caller vs).trans hc
  unfold returnValues
  dsimp only
  rw [if_neg hlt, hnone]
  refine ⟨_, rfl, ?_⟩
  split
  · exact (leaveFrame_left vs).drop _
  · exact leaveFrame_left vs

theorem reload_switches {caller : Nat} (h : vm.currentThread = caller) :
    (∃ v, vm.reload = .switch v ∧ v.currentThread = caller) ∨ vm.reload = .undefined := by
  unfold reload
  split
  · exact .inr rfl
  · exact .inl ⟨_, rfl, h⟩

theorem returnValues_caller (vs : List Value) (h : ¬vm.run.minFrameCount < vm.framesLeft) {caller : Nat}
    (hc : vm.thread.caller = some caller) :
    (∃ v, vm.returnValues vs = .switch v ∧ v.currentThread = caller) ∨
      (∃ v, vm.returnValues vs = .error v) ∨ vm.returnValues vs = .undefined := by
  have hlt : ¬(vm.leaveFrame vs).run.minFrameCount < (vm.leaveFrame vs).thread.frameCount := by
    rw [vm.leaveFrame_run vs, vm.leaveFrame_frameCount vs]
    exact h
  have hsome : (vm.leaveFrame vs).thread.caller = some caller := (vm.leaveFrame_caller vs).trans hc
  unfold returnValues
  dsimp only
  rw [if_neg hlt, hsome]
  dsimp only
  generalize (vm.leaveFrame vs).setThread _ = u
  unfold returnToCaller
  by_cases hfull : (u.threads caller).stackCapacity ≤ (u.threads caller).stackTop + 1 + vs.length
  · rw [if_pos hfull]
    exact .inr (.inl ⟨_, rfl⟩)
  · rw [if_neg hfull]
    rcases reload_switches rfl with hs | hs
    · exact .inl hs
    · exact .inr (.inr hs)

/-- A return in terms of the machine before the operand is taken off the stack. -/
theorem Returns.turn_eq (h : vm.Returns E i) : ∃ (v : VM W) (vs : List Value), vm.turn E i = v.returnValues vs ∧
    v.currentThread = vm.currentThread ∧ v.framesLeft = vm.framesLeft ∧
      v.run.minFrameCount = vm.run.minFrameCount ∧ v.thread.caller = vm.thread.caller ∧ v.outer = vm.outer := by
  obtain ⟨hc, rfl, op, args, hf, hop⟩ := h
  have hturn : vm.turn E false = vm.execute E := by simp [turn, hc]
  rcases vm.execute_cases (E := E) with ⟨op', args', hf', he⟩ | ⟨hf', -⟩
  · cases hf.symm.trans hf'
    rw [hturn, he]
    generalize vm.run.ip.forward (1 + args.length) = ip
    rcases hop with rfl | rfl
    · refine ⟨(vm.setIp ip).drop 1, _, rfl, rfl, ?_, rfl, ?_, rfl⟩
      · simp [framesLeft, thread, drop, setThread, setIp, ObjThread.drop]
      · simp [thread, drop, setThread, setIp, ObjThread.drop]
    · exact ⟨vm.setIp ip, _, rfl, rfl, rfl, rfl, rfl, rfl⟩
  · rw [hf] at hf'
    cases hf'

theorem Returns.next (h : vm.Returns E i) (hlt : vm.run.minFrameCount < vm.framesLeft) :
    ∃ v, vm.turn E i = .next v ∧ vm.CallingFrame v := by
  obtain ⟨u, vs, ht, hcur, hleft, hmin, -, -⟩ := h.turn_eq
  rw [← hmin, ← hleft] at hlt
  obtain ⟨v, hv, hframe⟩ := returnValues_next vs hlt
  refine ⟨v, ht.trans hv, hframe.thread.trans hcur, hframe.frameCount.trans hleft, hframe.frameThread.trans hcur, ?_⟩
  rw [hframe.frameIndex, hleft]

theorem Returns.leave (h : vm.Returns E i) (hlt : ¬vm.run.minFrameCount < vm.framesLeft)
    (hc : vm.thread.caller = none) :
    ∃ v, vm.turn E i = .leave v true ∧ v.currentThread = vm.currentThread ∧ v.thread.frameCount = vm.framesLeft ∧
      v.run.minFrameCount = vm.run.minFrameCount ∧ v.outer = vm.outer := by
  obtain ⟨u, vs, ht, hcur, hleft, hmin, hcaller, houter⟩ := h.turn_eq
  rw [← hmin, ← hleft] at hlt
  obtain ⟨v, hv, hend⟩ := returnValues_leave vs hlt (hcaller.trans hc)
  refine ⟨v, ht.trans hv, hend.thread.trans hcur, hend.frameCount.trans hleft, ?_, hend.outer.trans houter⟩
  rw [hend.run, hmin]

theorem Returns.toCaller (h : vm.Returns E i) (hlt : ¬vm.run.minFrameCount < vm.framesLeft) {caller : Nat}
    (hc : vm.thread.caller = some caller) :
    (∃ v, vm.turn E i = .switch v ∧ v.currentThread = caller) ∨ (∃ v, vm.turn E i = .error v) ∨
      vm.turn E i = .undefined := by
  obtain ⟨u, vs, ht, -, hleft, hmin, hcaller, -⟩ := h.turn_eq
  rw [← hmin, ← hleft] at hlt
  rw [ht]
  exact returnValues_caller vs hlt (hcaller.trans hc)

/-- A turn of the interpreter that leaves the run with success, or goes on in another thread. -/
def Ends : CtlOutcome → Prop
  | .leave _ ok => ok = true
  | .switch _ => True
  | _ => False

theorem instr_ends {op : OpCode} {args : List UInt8} {c : Ctl} {o : CtlOutcome} (h : InstrEffect op args c o)
    (ho : Ends o) : op = .opReturn ∨ op = .opReturnN := by
  induction h with
  | save _ ih => exact ih ho
  | leave hop => exact hop
  | returnSwitch hop => exact hop
  | importFails => cases ho
  | _ => exact ho.elim

/-- Of the instructions only the returns do so. -/
theorem fetch_ends (hc : vm.control = .fetch) (ho : Ends (vm.turn E i).ctl) : vm.Returns E i := by
  cases i with
  | true =>
    simp only [turn, hc] at ho
    exact ho.elim
  | false =>
    have hturn : vm.turn E false = vm.execute E := by simp [turn, hc]
    rw [hturn] at ho
    rcases vm.execute_cases (E := E) with ⟨op, args, hf, he⟩ | ⟨-, he | he⟩
    · rw [he] at ho
      exact ⟨hc, rfl, op, args, hf, instr_ends (perform_effect op args) ho⟩
    · rw [he] at ho
      exact ho.elim
    · rw [he] at ho
      exact ho.elim

/-- A turn does not go on in a machine that leaves a run. -/
def GoesOn : CtlOutcome → Prop
  | .next d | .switch d => ∀ ok, d.control ≠ .leave ok
  | _ => True

theorem instr_goesOn {op : OpCode} {args : List UInt8} {c : Ctl} {o : CtlOutcome} (h : InstrEffect op args c o)
    (hc : c.control = .fetch) : GoesOn o := by
  have hfetch : ∀ {d : Ctl}, d.control = .fetch → ∀ ok, d.control ≠ .leave ok := by
    intro d hd ok hl
    rw [hd] at hl
    cases hl
  induction h with
  | save _ ih => exact ih hc
  | native | print => exact fun ok hl => nomatch hl
  | raise | fail | generatorFails | importFails | rethrow | leave | overflow | undefined => trivial
  | stay | jump | call | generator | tryBlock | endTry | endFinally | «return» | returnSwitch => exact hfetch hc

theorem turn_goesOn {fns : Nat → ObjFunction} {c : Ctl} {o : CtlOutcome} (h : TurnEffect fns c o) : GoesOn o := by
  have hcontinues : ∀ {k : Control}, Continues k → ∀ ok, k ≠ .leave ok := by
    intro k hk ok hl
    cases hk with
    | fetch => cases hl
    | print => cases hl
  cases h with
  | skip hc =>
    intro ok hl
    cases hc.symm.trans hl
  | instr hc _ _ _ h => exact instr_goesOn h hc
  | nativeReturns _ hk | nativeCreates _ hk | nativeSwitches _ hk | nativeCreatesAway _ hk | printed _ hk =>
    exact hcontinues hk
  | exit | callback | callbackFails | printNative | printCalls | finish | resumeNative | resumePrint =>
    exact fun ok hl => nomatch hl
  | interrupt | nativeRaises | nativeFails | printFails | leavePrint | undefined => trivial

theorem turn_leave {fns : Nat → ObjFunction} {c : Ctl} {o : CtlOutcome} (h : TurnEffect fns c o) {d : Ctl}
    (ho : o = .leave d true) : c.control = .fetch := by
  cases h with
  | instr hc => exact hc
  | _ => cases ho

theorem handleException_leave {c : Ctl} : c.handleException.control ≠ .leave true := by
  have hunwind : ∀ (hs : List ExceptionHandler) (c : Ctl), (c.unwind hs).control ≠ .leave true := by
    intro hs
    induction hs with
    | nil =>
      intro c hl
      cases hl
    | cons h hs ih =>
      intro c
      simp only [Ctl.unwind]
      split_ifs
      · intro hl
        cases hl
      · intro hl
        cases hl
      · intro hl
        cases hl
      · exact ih _
  unfold Ctl.handleException
  split
  · exact hunwind _ _
  · intro hl
    cases hl

/-- A machine that leaves a run with success got there by a return. -/
theorem settle_leave {v : VM W} (h : (vm.turn E i).settle = some v) (hl : v.control = .leave true) :
    ∃ u, vm.turn E i = .leave u true ∧ v = { u with control := .leave true } := by
  have hgoes := turn_goesOn (@turn_effect W E vm i)
  cases ho : vm.turn E i with
  | next u =>
    rw [ho] at h hgoes
    cases Option.some.inj h
    exact absurd hl (hgoes true)
  | switch u =>
    rw [ho] at h hgoes
    cases Option.some.inj h
    exact absurd hl (hgoes true)
  | error u =>
    rw [ho] at h
    cases Option.some.inj h
    have hctl : u.handleException.ctl.control ≠ .leave true := by
      rw [u.ctl_handleException]
      exact handleException_leave
    exact absurd hl hctl
  | leave u ok =>
    rw [ho] at h
    cases Option.some.inj h
    cases hl
    exact ⟨u, rfl, rfl⟩
  | undefined =>
    rw [ho] at h
    cases h

theorem interpret_control (E : Env W) (w : World W) (script : Nat) : (interpret E w script).control = .fetch := by
  unfold interpret
  extract_lets c vm
  have hv : vm.control = .fetch := rfl
  have h := @call_calls W E (vm.push c.value) c 0
  split
  next u hr =>
    rw [hr] at h
    obtain ⟨slots, h⟩ := h
    exact (congrArg Ctl.control h).trans hv
  next u hr =>
    rw [hr] at h
    obtain ⟨e, h⟩ := h
    exact (congrArg Ctl.control h).trans hv

end VM

/-- The machine with the thread that each activation of `vm_run` was started on, the innermost first. -/
structure Owned (W : Type) where
  vm : VM W
  owners : List Nat

namespace Owned

variable {W : Type} {E : Env W} {i : Bool} {o : Owned W}

def start (vm : VM W) : Owned W := ⟨vm, [vm.currentThread]⟩

/-- An activation that begins is started on the thread that is current, on which its first frame lies. -/
def after (o : Owned W) (vm : VM W) : List Nat :=
  if o.vm.outer.length < vm.outer.length then vm.currentThread :: o.owners
  else if vm.outer.length < o.vm.outer.length then o.owners.tail
  else o.owners

def turn (E : Env W) (i : Bool) (o : Owned W) : Option (Owned W) :=
  (o.vm.turn E i).settle.map fun vm => ⟨vm, o.after vm⟩

def owner (o : Owned W) : Nat := o.owners.headD 0

/-- The frame on top is the one that the innermost run was started for. -/
def Own (o : Owned W) : Prop :=
  o.vm.currentThread = o.owner ∧ o.vm.framesLeft = o.vm.run.minFrameCount

instance (o : Owned W) : Decidable o.Own :=
  inferInstanceAs (Decidable (o.vm.currentThread = o.owner ∧ o.vm.framesLeft = o.vm.run.minFrameCount))

/-- A return continues in the calling frame of its thread; only that of a first frame hands control to
the thread's resumer; and it ends the innermost run exactly if it is that of the run's own frame. -/
structure Right (E : Env W) (i : Bool) (o : Owned W) : Prop where
  continues : o.vm.Returns E i → o.vm.framesLeft ≠ 0 → ¬o.Own →
    ∃ v, o.vm.turn E i = .next v ∧ o.vm.CallingFrame v
  hands : ∀ v, o.vm.control = .fetch → o.vm.turn E i = .switch v →
    o.vm.Returns E i ∧ o.vm.framesLeft = 0 ∧ ¬o.Own ∧ o.vm.thread.caller = some v.currentThread
  ends : (∃ v, o.vm.turn E i = .leave v true) ↔ o.vm.Returns E i ∧ o.Own

/-- A return of the run's own frame is on a thread without a resumer, one of another first frame on a
thread with a resumer, and any other leaves more frames than the run's argument. -/
structure Meets (E : Env W) (i : Bool) (o : Owned W) : Prop where
  own : o.vm.Returns E i → o.Own → o.vm.thread.caller = none
  first : o.vm.Returns E i → ¬o.Own → o.vm.framesLeft = 0 → o.vm.thread.caller ≠ none
  inner : o.vm.Returns E i → ¬o.Own → o.vm.framesLeft ≠ 0 → o.vm.run.minFrameCount < o.vm.framesLeft

theorem own_not_lt (h : o.Own) : ¬o.vm.run.minFrameCount < o.vm.framesLeft := by
  obtain ⟨-, hcount⟩ := h
  omega

theorem meets_of_right (h : o.Right E i) : o.Meets E i := by
  refine ⟨fun hr hown => ?_, fun hr hown hzero hnone => ?_, fun hr hown hleft => ?_⟩
  · obtain ⟨v, hv⟩ := h.ends.mpr ⟨hr, hown⟩
    cases hc : o.vm.thread.caller with
    | none => rfl
    | some caller =>
      rcases hr.toCaller (own_not_lt hown) hc with ⟨u, hu, -⟩ | ⟨u, hu⟩ | hu
      · cases hv.symm.trans hu
      · cases hv.symm.trans hu
      · cases hv.symm.trans hu
  · have hlt : ¬o.vm.run.minFrameCount < o.vm.framesLeft := by omega
    obtain ⟨v, hv, -⟩ := hr.leave hlt hnone
    exact hown (h.ends.mp ⟨v, hv⟩).2
  · obtain ⟨v, hv, -⟩ := h.continues hr hleft hown
    by_contra hlt
    cases hc : o.vm.thread.caller with
    | none =>
      obtain ⟨u, hu, -⟩ := hr.leave hlt hc
      cases hv.symm.trans hu
    | some caller =>
      rcases hr.toCaller hlt hc with ⟨u, hu, -⟩ | ⟨u, hu⟩ | hu
      · cases hv.symm.trans hu
      · cases hv.symm.trans hu
      · cases hv.symm.trans hu

/-- A return that meets the condition and leaves as many frames as the run's argument or fewer. -/
theorem Meets.last (h : o.Meets E i) (hr : o.vm.Returns E i) (hlt : ¬o.vm.run.minFrameCount < o.vm.framesLeft) :
    (o.Own ∧ o.vm.thread.caller = none) ∨ (¬o.Own ∧ o.vm.framesLeft = 0 ∧ o.vm.thread.caller ≠ none) := by
  by_cases hown : o.Own
  · exact .inl ⟨hown, h.own hr hown⟩
  · by_cases hzero : o.vm.framesLeft = 0
    · exact .inr ⟨hown, hzero, h.first hr hown hzero⟩
    · exact absurd (h.inner hr hown hzero) hlt

theorem right_of_meets (h : o.Meets E i) : o.Right E i := by
  refine ⟨fun hr hleft hown => hr.next (h.inner hr hown hleft), fun v hc hv => ?_, ⟨fun hv => ?_, fun hr => ?_⟩⟩
  · have hr : o.vm.Returns E i := by
      apply VM.fetch_ends hc
      rw [hv]
      trivial
    have hlt : ¬o.vm.run.minFrameCount < o.vm.framesLeft := by
      intro hlt
      obtain ⟨u, hu, -⟩ := hr.next hlt
      cases hv.symm.trans hu
    rcases h.last hr hlt with ⟨-, hnone⟩ | ⟨hown, hzero, hsome⟩
    · obtain ⟨u, hu, -⟩ := hr.leave hlt hnone
      cases hv.symm.trans hu
    · refine ⟨hr, hzero, hown, ?_⟩
      obtain ⟨caller, hc⟩ := Option.ne_none_iff_exists'.mp hsome
      rcases hr.toCaller hlt hc with ⟨u, hu, hcur⟩ | ⟨u, hu⟩ | hu
      · cases hv.symm.trans hu
        rw [hc, hcur]
      · cases hv.symm.trans hu
      · cases hv.symm.trans hu
  · obtain ⟨v, hv⟩ := hv
    have hr : o.vm.Returns E i := by
      have hctl : (o.vm.turn E i).ctl = .leave v.ctl true := by rw [hv]; rfl
      apply VM.fetch_ends (VM.turn_leave (VM.turn_effect i) hctl)
      rw [hctl]
      rfl
    refine ⟨hr, ?_⟩
    by_cases hlt : o.vm.run.minFrameCount < o.vm.framesLeft
    · obtain ⟨u, hu, -⟩ := hr.next hlt
      cases hv.symm.trans hu
    · rcases h.last hr hlt with ⟨hown, -⟩ | ⟨-, -, hsome⟩
      · exact hown
      · obtain ⟨caller, hc⟩ := Option.ne_none_iff_exists'.mp hsome
        rcases hr.toCaller hlt hc with ⟨u, hu, -⟩ | ⟨u, hu⟩ | hu
        · cases hv.symm.trans hu
        · cases hv.symm.trans hu
        · cases hv.symm.trans hu
  · obtain ⟨hr, hown⟩ := hr
    obtain ⟨v, hv, -⟩ := hr.leave (own_not_lt hown) (h.own hr hown)
    exact ⟨v, hv⟩

/-- The C code that started a run gets control back on its own thread, with the frames it had. -/
def Back (o : Owned W) : Prop :=
  o.vm.control = .leave true →
    o.vm.currentThread = o.owner ∧ o.vm.thread.frameCount = o.vm.run.minFrameCount

theorem back_turn {o' : Owned W} (hm : o.Meets E i) (h : o.turn E i = some o') : o'.Back := by
  intro hl
  obtain ⟨v, hv, rfl⟩ := Option.map_eq_some_iff.mp h
  obtain ⟨u, hu, rfl⟩ := VM.settle_leave hv hl
  obtain ⟨hr, hown⟩ := (right_of_meets hm).ends.mp ⟨u, hu⟩
  obtain ⟨u', hu', hcur, hcount, hmin, houter⟩ := hr.leave (own_not_lt hown) (hm.own hr hown)
  cases hu.symm.trans hu'
  obtain ⟨howner, hleft⟩ := hown
  have hsame : o.after { u with control := .leave true } = o.owners := by
    unfold after
    rw [if_neg (by rw [houter]; exact Nat.lt_irrefl _), if_neg (by rw [houter]; exact Nat.lt_irrefl _)]
  constructor
  · show u.currentThread = (o.after _).headD 0
    rw [hsame, hcur]
    exact howner
  · show u.thread.frameCount = u.run.minFrameCount
    rw [hcount, hmin, hleft]

/-- In a run whose returns meet the condition each run of a callback ends on the thread it was started
on, and a further return does what it should exactly where it meets the condition. -/
theorem returns_right {w : World W} {script : Nat}
    (h : Transition.Reachable (turn E) (Meets E) (start (VM.interpret E w script)) o) :
    o.Back ∧ ∀ i, o.Right E i ↔ o.Meets E i := by
  refine ⟨?_, fun i => ⟨meets_of_right, right_of_meets⟩⟩
  cases h with
  | start =>
    intro hl
    cases (VM.interpret_control E w script).symm.trans hl
  | step _ hm hstep => exact back_turn hm hstep

end Owned

/-- `setmetatable` and the functions of the coroutine module. -/
def nestedEnv (fs : List ObjFunction) : Env Tables :=
  { sampleEnv fs with native := fun w n _ input => if n = 0 then sampleNative w input else coroutineNative w n input }

def nestedWorld : World Tables :=
  { coroutineWorld with
    globals := fun n => if n = ascii "setmetatable" then some (.native 0) else coroutineWorld.globals n }

/-- `fn body(): <body>`, `co = coroutine.create(body)`, an object whose `__str` resumes `co` and returns
`true`, and `print(obj)`. -/
def printResumes (body : Stmts) : Stmts :=
  let var (s : String) : Expr := .variable (ascii s)
  let coroutine (name : String) (args : Exprs) : Expr :=
    .parseCall (.dot (var "coroutine") (ascii name)) args .nil .none
  let method : Expr :=
    .anonymousFunction (.mk [] [⟨ascii "self", false, none, none⟩]
      (.cons (.expression (coroutine "resume" (.cons (var "co") .nil))) (.cons (.returnStmt (.cons .literalTrue .nil)) .nil)))
  .cons (.functionDeclaration (.mk (ascii "body") [] body)) <|
  .cons (.expression (.assign (ascii "co") .equals (.one (coroutine "create" (.cons (var "body") .nil))))) <|
  .cons (.expression (.assign (ascii "obj") .equals (.one (.table .nil)))) <|
  .cons (.expression (.parseCall (var "setmetatable")
    (.cons (var "obj") (.cons (.table (.field (ascii "__str") method .nil)) .nil)) .nil .none)) <|
  .cons (.print (.cons (var "obj") .nil)) .nil

/-- The start of a script with these functions. -/
def nestedStart (fs : List ObjFunction) : Owned Tables :=
  .start (VM.interpret (nestedEnv fs) nestedWorld (fs.length - 1))

/-- A return would meet the condition in the frame on top. -/
def sampleMeets (o : Owned Tables) : Bool :=
  if o.Own then o.vm.thread.caller = none
  else if o.vm.framesLeft = 0 then o.vm.thread.caller ≠ none
  else o.vm.run.minFrameCount < o.vm.framesLeft

theorem sampleMeets_meets {E : Env Tables} {i : Bool} {o : Owned Tables} (h : sampleMeets o = true) : o.Meets E i := by
  unfold sampleMeets at h
  refine ⟨fun _ hown => ?_, fun _ hown hzero => ?_, fun _ hown hleft => ?_⟩
  · rw [if_pos hown] at h
    exact of_decide_eq_true h
  · rw [if_neg hown, if_pos hzero] at h
    exact of_decide_eq_true h
  · rw [if_neg hown, if_neg hleft] at h
    exact of_decide_eq_true h

/-- A coroutine that returns at once, resumed by the `__str` of what is printed. -/
theorem returns_right_of_print :
    ∃ fs, ∃ o : Owned Tables,
      Compile.compile 0 0 (printResumes (.cons (.returnStmt (.cons .literalTrue .nil)) .nil)) = some fs ∧
      o.vm.control = .leave true ∧ o.vm.run.minFrameCount = 1 ∧ o.Back ∧
      ∀ i, o.Right (nestedEnv fs) i ↔ o.Meets (nestedEnv fs) i := by
  have hrun : ((Compile.compile 0 0 (printResumes (.cons (.returnStmt (.cons .literalTrue .nil)) .nil))).bind fun fs =>
      (Transition.steps (Owned.turn (nestedEnv fs)) false sampleMeets 41 (nestedStart fs)).bind fun o =>
        some (o.vm.control, o.vm.run.minFrameCount)) = some (.leave true, 1) := by
    simp only [printResumes, ascii, String.reduceToList]
    decide +kernel
  obtain ⟨fs, hc, hrun⟩ := Option.bind_eq_some_iff.mp hrun
  obtain ⟨o, hs, ht⟩ := Option.bind_eq_some_iff.mp hrun
  obtain ⟨hctl, hmin⟩ := Prod.mk.inj (Option.some.inj ht)
  have hr : Transition.Reachable (Owned.turn (nestedEnv fs)) (Owned.Meets (nestedEnv fs)) (nestedStart fs) o :=
    Transition.steps_reachable (fun _ => sampleMeets_meets) hs
  obtain ⟨hback, hright⟩ := Owned.returns_right hr
  exact ⟨fs, o, hc, hctl, hmin, hback, hright⟩

/-- `fn helper(): return true` and `helper()`. -/
def callsHelper : Stmts :=
  .cons (.functionDeclaration (.mk (ascii "helper") [] (.cons (.returnStmt (.cons .literalTrue .nil)) .nil))) <|
  .cons (.expression (.parseCall (.variable (ascii "helper")) .nil .nil .none)) .nil

/-- The return from a function that a coroutine calls, where the `__str` of what is printed resumed the
coroutine: it hands control to the resumer, although the coroutine's first frame has not returned. -/
theorem helper_return_leaves_coroutine :
    ¬∀ (E : Env Tables) (w : World Tables) (script : Nat) (o : Owned Tables),
      Transition.Reachable (Owned.turn E) (fun _ _ => True) (.start (VM.interpret E w script)) o →
      ∀ i, o.Right E i := by
  intro hall
  have hrun : ((Compile.compile 0 0 (printResumes callsHelper)).bind fun fs =>
      (Transition.steps (Owned.turn (nestedEnv fs)) false (fun _ => true) 39 (nestedStart fs)).bind fun o =>
        some (o.vm.control, o.vm.framesLeft, match o.vm.turn (nestedEnv fs) false with
          | .switch _ => true
          | _ => false)) = some (.fetch, 1, true) := by
    simp only [printResumes, callsHelper, ascii, String.reduceToList]
    decide +kernel
  obtain ⟨fs, hc, hrun⟩ := Option.bind_eq_some_iff.mp hrun
  obtain ⟨o, hs, ht⟩ := Option.bind_eq_some_iff.mp hrun
  obtain ⟨hctl, hrest⟩ := Prod.mk.inj (Option.some.inj ht)
  obtain ⟨hleft, hswitch⟩ := Prod.mk.inj hrest
  have hr := @Transition.steps_reachable _ _ _ (fun _ _ => True) _ _ _ _ _ (fun _ _ => trivial) hs
  have hright := hall _ _ _ o hr false
  split at hswitch
  next v hv =>
    obtain ⟨-, hzero, -⟩ := hright.hands v hctl hv
    omega
  next => cases hswitch

end ToiLang
