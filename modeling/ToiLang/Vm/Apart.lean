import ToiLang.Vm.Links

namespace ToiLang

namespace Ctl

variable {c : Ctl} {t : Nat}

theorem setThread_threads_ne (c : Ctl) (u : ThreadControl) (h : t ≠ c.currentThread) :
    (c.setThread u).threads t = c.threads t :=
  Function.update_of_ne h _ _

theorem unwind_threads_ne (hs : List ExceptionHandler) (h : t ≠ c.currentThread) :
    (c.unwind hs).threads t = c.threads t := by
  induction hs generalizing c with
  | nil => exact c.setThread_threads_ne _ h
  | cons g hs ih =>
    have hcut : (c.cutFrames g.frameCount).threads t = c.threads t := c.setThread_threads_ne _ h
    simp only [unwind]
    generalize hd : c.cutFrames g.frameCount = d at hcut
    have hne : t ≠ d.currentThread := by
      rw [← hd]
      exact h
    split_ifs
    · exact (d.setThread_threads_ne _ hne).trans hcut
    · exact ((d.enterHandler g.exceptIp).setThread_threads_ne _ hne).trans hcut
    · exact ((d.enterHandler g.finallyIp).setThread_threads_ne _ hne).trans hcut
    · exact (ih hne).trans hcut

theorem handleException_threads_ne (h : t ≠ c.currentThread) :
    c.handleException.threads t = c.threads t := by
  unfold handleException
  split
  · exact unwind_threads_ne _ h
  · rfl

theorem unwind_currentThread (c : Ctl) (hs : List ExceptionHandler) :
    (c.unwind hs).currentThread = c.currentThread := by
  induction hs generalizing c with
  | nil => rfl
  | cons g hs ih =>
    simp only [unwind]
    split_ifs
    · rfl
    · rfl
    · rfl
    · exact ih _

theorem unwind_nextThread (hs : List ExceptionHandler) : (c.unwind hs).nextThread = c.nextThread := by
  induction hs generalizing c with
  | nil => rfl
  | cons g hs ih =>
    simp only [unwind]
    split_ifs
    · rfl
    · rfl
    · rfl
    · exact ih

theorem handleException_nextThread : c.handleException.nextThread = c.nextThread := by
  unfold handleException
  split
  · exact unwind_nextThread _
  · rfl

/-- A thread that is not made before or by a step, and does not take it, keeps its frames. -/
def Apart (c d : Ctl) : Prop :=
  c.nextThread ≤ d.nextThread ∧
    ∀ t, t ≠ c.currentThread → d.nextThread ≤ t → (d.threads t).frameCount = (c.threads t).frameCount

theorem Apart.of_ne {d : Ctl} (hn : d.nextThread = c.nextThread)
    (h : ∀ t, t ≠ c.currentThread → (d.threads t).frameCount = (c.threads t).frameCount) :
    c.Apart d :=
  ⟨Nat.le_of_eq hn.symm, fun t ht _ => h t ht⟩

theorem Apart.refl (c : Ctl) : c.Apart c := .of_ne rfl fun _ _ => rfl

theorem Apart.setThread (c : Ctl) (u : ThreadControl) : c.Apart (c.setThread u) :=
  .of_ne rfl fun t ht => by rw [c.setThread_threads_ne u ht]

theorem Apart.setIp (c : Ctl) (ip : CodePtr) : c.Apart (c.setIp ip) := .of_ne rfl fun _ _ => rfl

theorem Apart.saveIp (c : Ctl) : c.Apart c.saveIp := by
  refine .of_ne rfl fun t _ => ?_
  by_cases h : t = c.run.frameThread
  · subst h
    simp [Ctl.saveIp]
  · simp [Ctl.saveIp, h]

theorem Apart.allocate (c : Ctl) (u : ThreadControl) : c.Apart (c.allocate u) := by
  refine ⟨Nat.le_succ _, fun t _ hn => ?_⟩
  have hne : t ≠ c.nextThread := by
    have : c.nextThread + 1 ≤ t := hn
    omega
  simp [Ctl.allocate, hne]

theorem Apart.trans {d e : Ctl} (h : c.Apart d) (h' : d.Apart e)
    (hc : d.currentThread = c.currentThread) : c.Apart e := by
  obtain ⟨hn, ht⟩ := h
  obtain ⟨hn', ht'⟩ := h'
  refine ⟨Nat.le_trans hn hn', fun t hne hle => ?_⟩
  rw [ht' t (by rwa [hc]) hle, ht t hne (Nat.le_trans hn' hle)]

theorem Apart.handleException {d : Ctl} (h : c.Apart d) (hc : d.currentThread = c.currentThread) :
    c.Apart d.handleException := by
  refine h.trans (.of_ne handleException_nextThread fun t ht => ?_) hc
  rw [handleException_threads_ne ht]

/-- The machine that an outcome leads to is apart from the one before. -/
def SettlesApart (c : Ctl) (o : CtlOutcome) : Prop := ∀ d, o.settle = some d → c.Apart d

theorem Apart.next {d : Ctl} (h : c.Apart d) : c.SettlesApart (.next d) :=
  fun _ hs => Option.some.inj hs ▸ h

theorem Apart.switch {d : Ctl} (h : c.Apart d) : c.SettlesApart (.switch d) :=
  fun _ hs => Option.some.inj hs ▸ h

theorem Apart.error {d : Ctl} (h : c.Apart d) (hc : d.currentThread = c.currentThread) :
    c.SettlesApart (.error d) :=
  fun _ hs => Option.some.inj hs ▸ h.handleException hc

theorem Apart.leave {d : Ctl} (h : c.Apart d) (ok : Bool) : c.SettlesApart (.leave d ok) :=
  fun _ hs => Option.some.inj hs ▸ h

theorem settlesApart_undefined : c.SettlesApart .undefined := fun _ hs => nomatch hs

theorem instr_apart {op : OpCode} {args : List UInt8} {o : CtlOutcome} (h : InstrEffect op args c o) :
    c.SettlesApart o := by
  induction h with
  | @save c o _ ih => exact fun d hd => (Apart.saveIp c).trans (ih d hd) rfl
  | stay => exact (Apart.refl _).next
  | jump => exact (Apart.refl _).next
  | raise e => exact (Apart.setThread _ _).error rfl
  | fail => exact (Apart.refl _).error rfl
  | call => exact Apart.next (Apart.setThread _ _)
  | native => exact Apart.next (Apart.refl _)
  | generator => exact (Apart.allocate _ _).next
  | generatorFails => exact (Apart.allocate _ _).error rfl
  | print => exact Apart.next (Apart.refl _)
  | importFails => exact (Apart.refl _).leave false
  | tryBlock => exact (Apart.setThread _ _).next
  | endTry => exact (Apart.setThread _ _).next
  | endFinally => exact (Apart.refl _).next
  | rethrow => exact (Apart.refl _).error rfl
  | «return» => exact Apart.next (Apart.setThread _ _)
  | leave => exact (Apart.setThread _ _).leave true
  | overflow => exact ((Apart.setThread _ _).trans (Apart.setThread _ _) rfl).error rfl
  | returnSwitch => exact Apart.switch (Apart.setThread _ _)
  | undefined => exact settlesApart_undefined

theorem turn_apart {fns : Nat → ObjFunction} {o : CtlOutcome} (h : TurnEffect fns c o) :
    c.SettlesApart o := by
  cases h with
  | interrupt e => exact (Apart.setThread _ _).error rfl
  | skip => exact Apart.next (Apart.refl _)
  | instr _ _ _ _ h =>
    exact fun d hd => (Apart.setIp c _).trans (instr_apart h d hd) rfl
  | nativeReturns => exact Apart.next (Apart.refl _)
  | nativeCreates => exact Apart.next (Apart.allocate _ _)
  | nativeSwitches => exact Apart.switch (Apart.refl _)
  | nativeCreatesAway => exact Apart.switch (Apart.allocate _ _)
  | nativeRaises e => exact (Apart.setThread _ _).error rfl
  | nativeFails => exact (Apart.refl _).error rfl
  | exit => exact Apart.next (Apart.refl _)
  | callback state => exact Apart.next (Apart.setThread _ _)
  | callbackFails state e => exact Apart.next (Apart.setThread _ _)
  | printed => exact Apart.next (Apart.refl _)
  | printNative => exact Apart.next (Apart.saveIp _)
  | printCalls => exact Apart.next ((Apart.saveIp _).trans (Apart.setThread _ _) rfl)
  | printFails e => exact ((Apart.saveIp _).trans (Apart.setThread _ _) rfl).error rfl
  | finish => exact Apart.next (Apart.refl _)
  | resumeNative => exact Apart.next (Apart.refl _)
  | resumePrint => exact Apart.next (Apart.refl _)
  | leavePrint => exact Apart.leave (Apart.refl _) false
  | undefined => exact settlesApart_undefined

/-- An exception is handled on the thread that was current. -/
def ErrorsHere (c : Ctl) : CtlOutcome → Prop
  | .error d => d.currentThread = c.currentThread
  | _ => True

theorem instr_errorsHere {op : OpCode} {args : List UInt8} {o : CtlOutcome}
    (h : InstrEffect op args c o) : c.ErrorsHere o := by
  induction h with
  | @save c o _ ih => cases o <;> exact ih
  | _ => first | exact rfl | trivial

theorem turn_errorsHere {fns : Nat → ObjFunction} {o : CtlOutcome} (h : TurnEffect fns c o) :
    c.ErrorsHere o := by
  cases h with
  | instr _ _ _ _ h =>
    have hi := instr_errorsHere h
    cases o <;> exact hi
  | _ => first | exact rfl | trivial

end Ctl

namespace VM

variable {W : Type} {E : Env W} {vm vm' : VM W} {i : Bool}

/-- Threads that are not made have no frames. -/
def Unused (vm : VM W) : Prop := ∀ t, vm.nextThread ≤ t → (vm.threads t).frameCount = 0

theorem turn_unused (hcur : vm.currentThread < vm.nextThread) (hu : vm.Unused) (h : (vm.turn E i).settle = some vm') :
    vm'.Unused := by
  have hs := Outcome.settle_ctl (vm.turn E i)
  rw [h] at hs
  obtain ⟨hn, hsame⟩ := Ctl.turn_apart (@turn_effect W E vm i) _ hs.symm
  intro t hle
  have hnext : vm.nextThread ≤ vm'.nextThread := hn
  have hne : t ≠ vm.currentThread := by omega
  have hcount : (vm'.threads t).frameCount = (vm.threads t).frameCount := hsame t hne hle
  rw [hcount]
  exact hu t (by omega)

theorem error_currentThread {v : VM W} (h : vm.turn E i = .error v) :
    v.currentThread = vm.currentThread := by
  have he := Ctl.turn_errorsHere (@turn_effect W E vm i)
  rw [h] at he
  exact he

theorem call_frameCount (c : Closure) (n : Nat) {t : Nat} (ht : t ≠ vm.currentThread) :
    ((call E vm c n).vm.threads t).frameCount = (vm.threads t).frameCount := by
  have hset : ∀ {u : VM W} {x : ThreadControl}, u.ctl = vm.ctl.setThread x →
      (u.threads t).frameCount = (vm.threads t).frameCount := by
    intro u x hu
    have h1 := congrArg (fun c : Ctl => (c.threads t).frameCount) hu
    have h2 := Ctl.setThread_threads_ne vm.ctl x ht
    exact h1.trans (congrArg ThreadControl.frameCount h2)
  have hc := @call_calls W E vm c n
  cases h : call E vm c n with
  | ok u =>
    rw [h] at hc
    obtain ⟨slots, hc⟩ := hc
    exact hset hc
  | error u =>
    rw [h] at hc
    obtain ⟨e, hc⟩ := hc
    exact hset hc

theorem interpret_unused (E : Env W) (w : World W) (script : Nat) :
    (interpret E w script).Unused := by
  intro t ht
  have hn : (interpret E w script).nextThread = 1 :=
    congrArg Links.nextThread (interpret_links E w script)
  obtain ⟨v, c, hv, hcount, h⟩ := interpret_eq E w script
  have hcur : v.currentThread = 0 := congrArg Links.currentThread hv
  rw [h]
  exact (call_frameCount c 0 (by omega)).trans (hcount t)

end VM

end ToiLang
