import ToiLang.Vm.Sample
import ToiLang.Vm.Unwind

namespace ToiLang

namespace Ctl

/-- Every thread's handlers are sorted, and a thread that is not made yet has no frames. -/
structure Sorted (c : Ctl) : Prop where
  sorted : ∀ i, (c.threads i).Sorted
  unused : ∀ i, c.nextThread ≤ i → (c.threads i).frameCount = 0

/-- The innermost run executes a frame of its own. -/
structure Active (c : Ctl) : Prop where
  thread : c.run.frameThread = c.currentThread
  count : c.run.minFrameCount < c.thread.frameCount
  low : c.run.minFrameCount ≤ c.run.frameIndex
  high : c.run.frameIndex ≤ c.thread.frameCount

/-- The runs below one with the argument `m`: each starts the next above its own frames, and all
but the first stay on one thread. -/
def Chain (current : Nat) : Nat → List (Run × Starter) → Prop
  | m, [] => m = 0
  | m, (run, starter) :: rest =>
    run.frameThread = current ∧ run.minFrameCount < m ∧ run.minFrameCount ≤ run.frameIndex ∧
      run.frameIndex ≤ m ∧ (∀ n, starter = .native n → n.thread = current) ∧
      Chain current run.minFrameCount rest

/-- What the C code that has control may rely on. -/
def Ready (c : Ctl) : Prop :=
  match c.control with
  | .fetch | .print _ => c.Active
  | .native n i => n.thread = c.currentThread ∧ (i ≠ .runFailed → c.Active)
  | .leave ok => ok = true → c.thread.frameCount = c.run.minFrameCount
  | .halt _ => True

structure RunsOk (c : Ctl) : Prop where
  sorted : c.Sorted
  chain : Chain c.currentThread c.run.minFrameCount c.outer
  ready : c.Ready

theorem Sorted.setThread {c : Ctl} {t : ThreadControl} (h : c.Sorted) (ht : t.Sorted)
    (hc : t.frameCount = 0 ∨ c.thread.frameCount ≠ 0) : (c.setThread t).Sorted := by
  refine ⟨fun i => ?_, fun i hi => ?_⟩
  · by_cases hic : i = c.currentThread
    · subst hic
      simpa [Ctl.setThread] using ht
    · simpa [Ctl.setThread, hic] using h.sorted i
  · by_cases hic : i = c.currentThread
    · subst hic
      have hz := h.unused c.currentThread hi
      rcases hc with hc | hc
      · simpa [Ctl.setThread] using hc
      · exact absurd hz hc
    · simpa [Ctl.setThread, hic] using h.unused i hi

theorem saveIp_threads (c : Ctl) (i : Nat) :
    (c.saveIp.threads i).frameCount = (c.threads i).frameCount ∧
      (c.saveIp.threads i).handlers = (c.threads i).handlers := by
  by_cases h : i = c.run.frameThread
  · subst h
    simp [saveIp]
  · simp [saveIp, h]

theorem Sorted.saveIp {c : Ctl} (h : c.Sorted) : c.saveIp.Sorted := by
  refine ⟨fun i => ?_, fun i hi => ?_⟩
  · obtain ⟨hf, hh⟩ := c.saveIp_threads i
    obtain ⟨hp, hb⟩ := h.sorted i
    exact ⟨by rwa [hh], by rwa [hh, hf]⟩
  · rw [(c.saveIp_threads i).1]
    exact h.unused i hi

theorem Active.saveIp {c : Ctl} (h : c.Active) : c.saveIp.Active := by
  have hf : c.saveIp.thread.frameCount = c.thread.frameCount := (c.saveIp_threads _).1
  exact ⟨h.thread, by rw [hf]; exact h.count, h.low, by rw [hf]; exact h.high⟩

theorem Sorted.raise {c : Ctl} (h : c.Sorted) (e : Value) : (c.raise e).Sorted := by
  have ht := h.sorted c.currentThread
  have hu := h.unused c.currentThread
  refine ⟨fun i => ?_, fun i hi => ?_⟩
  · by_cases hic : i = c.currentThread
    · subst hic
      simpa [Ctl.raise, Ctl.setThread] using (⟨ht.pairwise, ht.bound⟩ : ThreadControl.Sorted
        { c.thread with hasException := true, exception := e })
    · simpa [Ctl.raise, Ctl.setThread, hic] using h.sorted i
  · by_cases hic : i = c.currentThread
    · subst hic
      simpa [Ctl.raise, Ctl.setThread, Ctl.thread] using hu hi
    · simpa [Ctl.raise, Ctl.setThread, hic] using h.unused i hi

theorem Active.raise {c : Ctl} (h : c.Active) (e : Value) : (c.raise e).Active := by
  have ht : (c.raise e).thread.frameCount = c.thread.frameCount := by simp [Ctl.raise]
  exact ⟨h.thread, by rw [ht]; exact h.count, h.low, by rw [ht]; exact h.high⟩

theorem Active.frameCount_ne {c : Ctl} (h : c.Active) : c.thread.frameCount ≠ 0 := by
  have := h.count
  omega

theorem Sorted.pushFrame {c : Ctl} (h : c.Sorted) (hc : c.thread.frameCount ≠ 0) (f : CallFrame) :
    (c.pushFrame f).Sorted := by
  have ht := h.sorted c.currentThread
  refine h.setThread ⟨ht.pairwise, fun g hg => ?_⟩ (.inr hc)
  have hb : 0 < g.frameCount ∧ g.frameCount ≤ c.thread.frameCount := ht.bound g hg
  exact ⟨hb.1, Nat.le_succ_of_le hb.2⟩

theorem dropWhile_suffix_bound {n : Nat} {hs : List ExceptionHandler}
    (hp : hs.Pairwise fun a b => b.frameCount ≤ a.frameCount) :
    ∀ h ∈ hs.dropWhile fun h => n ≤ h.frameCount, h.frameCount < n := by
  induction hs with
  | nil => simp
  | cons g hs ih =>
    obtain ⟨hmax, hp'⟩ := List.pairwise_cons.mp hp
    by_cases hg : n ≤ g.frameCount
    · simpa [List.dropWhile, hg] using ih hp'
    · simp only [List.dropWhile, hg, decide_false]
      intro h hm
      rcases List.mem_cons.mp hm with rfl | hm
      · omega
      · have := hmax h hm
        omega

theorem Sorted.popFrame {c : Ctl} (h : c.Sorted) (hc : c.thread.frameCount ≠ 0) :
    c.popFrame.Sorted := by
  have ht := h.sorted c.currentThread
  have hlt := dropWhile_suffix_bound (n := c.thread.frameCount) ht.pairwise
  refine h.setThread ⟨?_, fun g hg => ?_⟩ (.inr hc)
  · exact ht.pairwise.sublist (List.dropWhile_sublist _)
  · have hb := ht.bound g (List.dropWhile_sublist _ |>.subset hg)
    have hl := hlt g hg
    exact ⟨hb.1, by dsimp only; omega⟩

theorem Sorted.pushHandler {c : Ctl} (h : c.Sorted) (hc : c.thread.frameCount ≠ 0)
    (args : List UInt8) : (c.pushHandler (c.tryHandler args)).Sorted := by
  have ht : c.thread.Sorted := h.sorted c.currentThread
  refine h.setThread ⟨List.pairwise_cons.mpr ⟨fun g hg => (ht.bound g hg).2, ht.pairwise⟩,
    fun g hg => ?_⟩ (.inr hc)
  rcases List.mem_cons.mp hg with rfl | hg
  · exact ⟨Nat.pos_of_ne_zero hc, Nat.le_refl _⟩
  · exact ht.bound g hg

theorem Sorted.popHandler {c : Ctl} (h : c.Sorted) (hc : c.thread.frameCount ≠ 0) :
    c.popHandler.Sorted := by
  have ht : c.thread.Sorted := h.sorted c.currentThread
  exact h.setThread ⟨ht.pairwise.sublist (List.tail_sublist _),
    fun g hg => ht.bound g (List.mem_of_mem_tail hg)⟩ (.inr hc)

theorem Sorted.allocate {c : Ctl} {t : ThreadControl} (h : c.Sorted) (ht : t.Fresh) :
    (c.allocate t).Sorted := by
  have hs : t.Sorted := ⟨by simp [ht.handlers], by simp [ht.handlers]⟩
  refine ⟨fun i => ?_, fun i hi => ?_⟩
  · by_cases hic : i = c.nextThread
    · subst hic
      simpa [Ctl.allocate] using hs
    · simpa [Ctl.allocate, hic] using h.sorted i
  · have hi : c.nextThread + 1 ≤ i := hi
    have hic : i ≠ c.nextThread := by omega
    simpa [Ctl.allocate, hic] using h.unused i (by omega)

theorem Active.allocate_thread {c : Ctl} (h : c.Active) (hs : c.Sorted) (t : ThreadControl) :
    (c.allocate t).thread = c.thread := by
  have hne : c.currentThread ≠ c.nextThread := by
    intro heq
    have hz : c.thread.frameCount = 0 := hs.unused c.currentThread (by omega)
    exact h.frameCount_ne hz
  simp [Ctl.allocate, Ctl.thread, hne]

theorem Active.allocate {c : Ctl} (h : c.Active) (hs : c.Sorted) (t : ThreadControl) :
    (c.allocate t).Active := by
  have ht := h.allocate_thread hs t
  exact ⟨h.thread, by rw [ht]; exact h.count, h.low, by rw [ht]; exact h.high⟩

/-- The frame that `loadFrame` finds is the run's when the run has one. -/
theorem active_loadFrame {c : Ctl} (h : c.run.minFrameCount < c.thread.frameCount) :
    c.loadFrame.Active := by
  refine ⟨rfl, h, ?_, ?_⟩
  · show c.run.minFrameCount ≤ c.thread.frameCount - 1
    omega
  · show c.thread.frameCount - 1 ≤ c.thread.frameCount
    omega

theorem pushFrame_frameCount (c : Ctl) (f : CallFrame) :
    (c.pushFrame f).thread.frameCount = c.thread.frameCount + 1 := by
  simp [pushFrame]

theorem popFrame_frameCount (c : Ctl) :
    c.popFrame.thread.frameCount = c.thread.frameCount - 1 := by
  simp [popFrame]

end Ctl

namespace CtlOutcome

/-- An exception in a nested run finds its handler, if it finds one, among the run's frames; native
code whose callback's run failed fails too; no coroutine is resumed, suspended or ended in a
nested run. -/
structure Contained (c : Ctl) (o : CtlOutcome) : Prop where
  raise : ∀ d, o = .error d → d.thread.hasException = true → d.outer ≠ [] →
    ∀ h, d.thread.handlers.find? ExceptionHandler.able = some h →
      d.run.minFrameCount < h.frameCount
  fail : ∀ n, c.control = .native n .runFailed →
    (∃ d, o = .error d) ∨ ∃ d, o = .next d ∧ d.control = .halt true
  stay : c.outer ≠ [] → ∀ d, o ≠ .switch d

/-- What a step leaves to its end in the loop of `vm_run`. -/
def RunsOk : CtlOutcome → Prop
  | next c | switch c => c.RunsOk
  | error c => c.Sorted ∧ Ctl.Chain c.currentThread c.run.minFrameCount c.outer
  | leave c ok => c.Sorted ∧ Ctl.Chain c.currentThread c.run.minFrameCount c.outer ∧
      (ok = true → c.thread.frameCount = c.run.minFrameCount)
  | undefined => True

end CtlOutcome

namespace Ctl

/-- Without a run below, the thread may change. -/
theorem Chain.switch {t m : Nat} (u : Nat) (h : Chain t m []) : Chain u m [] := h

theorem runsOk_of_active {c : Ctl} (hs : c.Sorted)
    (hc : Chain c.currentThread c.run.minFrameCount c.outer) (ha : c.Active) {k : Control}
    (hk : Continues k) (hctl : c.control = k) : c.RunsOk := by
  refine ⟨hs, hc, ?_⟩
  unfold Ready
  rw [hctl]
  cases hk <;> exact ha

theorem instr_runsOk {op : OpCode} {args : List UInt8} {c : Ctl} {o : CtlOutcome} (hs : c.Sorted)
    (hc : Chain c.currentThread c.run.minFrameCount c.outer) (ha : c.Active)
    (hctl : c.control = .fetch) (hsw : c.outer ≠ [] → ∀ d, o ≠ .switch d)
    (h : InstrEffect op args c o) : o.RunsOk := by
  have hfetch : ∀ d : Ctl, d.Sorted → Chain d.currentThread d.run.minFrameCount d.outer →
      d.Active → d.control = .fetch → d.RunsOk :=
    fun d h1 h2 h3 h4 => runsOk_of_active h1 h2 h3 .fetch h4
  induction h with
  | save _ ih => exact ih hs.saveIp hc ha.saveIp hctl hsw
  | stay => exact hfetch _ hs hc ha hctl
  | jump => exact hfetch _ ⟨hs.sorted, hs.unused⟩ hc ⟨ha.thread, ha.count, ha.low, ha.high⟩ hctl
  | raise e => exact ⟨hs.raise e, hc⟩
  | fail | rethrow => exact ⟨hs, hc⟩
  | @call d f =>
    have hs' := hs.pushFrame ha.frameCount_ne f
    refine hfetch _ ⟨hs'.sorted, hs'.unused⟩ hc (active_loadFrame ?_) hctl
    rw [pushFrame_frameCount]
    exact Nat.lt_succ_of_lt ha.count
  | native _ _ _ ht =>
    exact ⟨⟨hs.sorted, hs.unused⟩, hc, ht, fun _ => ⟨ha.thread, ha.count, ha.low, ha.high⟩⟩
  | generator _ _ hf => exact hfetch _ (hs.allocate hf) hc (ha.allocate hs _) hctl
  | generatorFails _ _ hf => exact ⟨hs.allocate hf, hc⟩
  | print =>
    exact ⟨⟨hs.sorted, hs.unused⟩, hc, ⟨ha.thread, ha.count, ha.low, ha.high⟩⟩
  | importFails => exact ⟨hs, hc, by simp⟩
  | tryBlock =>
    have ht : ∀ h, (pushHandler _ h).Active := fun h =>
      ⟨ha.thread, by simpa [pushHandler] using ha.count, ha.low, by simpa [pushHandler] using ha.high⟩
    exact hfetch _ (hs.pushHandler ha.frameCount_ne args) hc (ht _) hctl
  | endTry =>
    have ht : (popHandler _).Active :=
      ⟨ha.thread, by simpa [popHandler] using ha.count, ha.low, by simpa [popHandler] using ha.high⟩
    exact hfetch _ (hs.popHandler ha.frameCount_ne) hc ht hctl
  | endFinally => exact hfetch _ hs hc ha hctl
  | «return» _ hlt =>
    have hs' := hs.popFrame ha.frameCount_ne
    exact hfetch _ ⟨hs'.sorted, hs'.unused⟩ hc (active_loadFrame hlt) hctl
  | @leave d _ hle =>
    refine ⟨hs.popFrame ha.frameCount_ne, hc, fun _ => ?_⟩
    have hcount := ha.count
    rw [popFrame_frameCount] at hle ⊢
    show d.thread.frameCount - 1 = d.run.minFrameCount
    omega
  | overflow => exact ⟨(hs.popFrame ha.frameCount_ne).raise _, hc⟩
  | @returnSwitch d t _ hle hpos =>
    have ho : d.outer = [] := by
      by_contra hne
      exact hsw hne _ rfl
    have hs' := hs.popFrame ha.frameCount_ne
    have hc' : Chain t d.run.minFrameCount d.outer := by
      rw [ho] at hc ⊢
      exact hc
    refine hfetch _ ⟨hs'.sorted, hs'.unused⟩ hc' (active_loadFrame ?_) hctl
    rw [ho] at hc
    have hz : d.run.minFrameCount = 0 := hc
    show d.run.minFrameCount < _
    omega
  | undefined => trivial

/-- After `handle_exception` the run has a frame of its own again or fails. -/
theorem handleException_runsOk {c : Ctl} (hs : c.Sorted)
    (hc : Chain c.currentThread c.run.minFrameCount c.outer)
    (hraise : c.thread.hasException = true → c.outer ≠ [] →
      ∀ h, c.thread.handlers.find? ExceptionHandler.able = some h →
        c.run.minFrameCount < h.frameCount) : c.handleException.RunsOk := by
  have ht : c.thread.Sorted := hs.sorted c.currentThread
  unfold handleException
  split
  next hx =>
    rcases c.unwind_eq ht.pairwise ht.bound with ⟨_, hu⟩ | ⟨pre, h, rest, heq, hfind, hu⟩
    · rw [hu]
      refine ⟨?_, hc, fun h => by cases h⟩
      have h0 : ({ c.thread with
          frameCount := 0, handlers := [], hasException := false, exception := .nil } :
            ThreadControl).Sorted := ⟨List.Pairwise.nil, fun g hg => by cases hg⟩
      have hu := hs.setThread h0 (.inl rfl)
      exact ⟨hu.sorted, hu.unused⟩
    · have hmem : h ∈ c.thread.handlers := by simp [heq]
      obtain ⟨hpos, hle⟩ := ht.bound h hmem
      have hmin : c.run.minFrameCount < h.frameCount := by
        by_cases ho : c.outer = []
        · rw [ho] at hc
          have hz : c.run.minFrameCount = 0 := hc
          omega
        · exact hraise hx ho h hfind
      have hp := ht.pairwise
      rw [heq] at hp
      obtain ⟨hmax, hp'⟩ := List.pairwise_cons.mp (List.pairwise_append.mp hp).2.1
      have hrest : ∀ g ∈ rest, 0 < g.frameCount ∧ g.frameCount ≤ h.frameCount := fun g hg =>
        ⟨(ht.bound g (by simp [heq, hg])).1, hmax g hg⟩
      have hne : c.thread.frameCount ≠ 0 := by omega
      have hready : ∀ (ip : CodePtr) (t : ThreadControl), t.frameCount = h.frameCount → t.Sorted →
          ((c.enterAt h.frameCount ip).setThread t).RunsOk := by
        intro ip t hn ht'
        have hs' : (c.enterAt h.frameCount ip).Sorted := ⟨hs.sorted, hs.unused⟩
        refine runsOk_of_active (hs'.setThread ht' (.inr hne)) hc ⟨rfl, ?_, ?_, ?_⟩ .fetch rfl
        · rw [thread_setThread, hn]
          exact hmin
        · show c.run.minFrameCount ≤ h.frameCount - 1
          omega
        · rw [thread_setThread, hn]
          exact Nat.sub_le _ _
      rw [hu]
      by_cases hcatch : (h.hasExcept && !h.inExcept) = true
      · rw [c.take_except rest hcatch hle]
        refine hready _ _ rfl ⟨List.pairwise_cons.mpr ⟨hmax, hp'⟩, fun g hg => ?_⟩
        rcases List.mem_cons.mp hg with rfl | hg
        · exact ⟨hpos, Nat.le_refl _⟩
        · exact hrest g hg
      · rw [c.take_finally rest hcatch hle]
        exact hready _ _ rfl ⟨hp', hrest⟩
  · exact ⟨⟨hs.sorted, hs.unused⟩, hc, fun h => by cases h⟩

theorem Continues.ne_halt {k : Control} (h : Continues k) (ok : Bool) : k ≠ .halt ok := by
  cases h <;> simp

theorem setControl_runsOk {c : Ctl} (hs : c.Sorted)
    (hc : Chain c.currentThread c.run.minFrameCount c.outer) (ha : c.Active) {k : Control}
    (hk : Continues k) : (c.setControl k).RunsOk :=
  runsOk_of_active ⟨hs.sorted, hs.unused⟩ hc ⟨ha.thread, ha.count, ha.low, ha.high⟩ hk rfl

/-- A nested run on a frame just pushed, above the frames of the run that starts it. -/
theorem startRun_runsOk {c : Ctl} (hs : c.Sorted)
    (hc : Chain c.currentThread c.run.minFrameCount c.outer) {m : Nat} {starter : Starter}
    (hthread : c.run.frameThread = c.currentThread) (hmin : c.run.minFrameCount < m)
    (hlow : c.run.minFrameCount ≤ c.run.frameIndex) (hhigh : c.run.frameIndex ≤ m)
    (hn : ∀ n, starter = .native n → n.thread = c.currentThread)
    (hm : m < c.thread.frameCount) : (c.startRun m starter).RunsOk :=
  runsOk_of_active ⟨hs.sorted, hs.unused⟩ ⟨hthread, hmin, hlow, hhigh, hn, hc⟩
    (active_loadFrame hm) .fetch rfl

theorem turn_runsOk {fns : Nat → ObjFunction} {c : Ctl} {o : CtlOutcome} (h : c.RunsOk)
    (hok : CtlOutcome.Contained c o) (ht : TurnEffect fns c o) : o.RunsOk := by
  obtain ⟨hs, hc, hr⟩ := h
  have hfetch : c.control = .fetch → c.Active := fun h => by
    unfold Ready at hr
    rwa [h] at hr
  have hprint : ∀ {vs}, c.control = .print vs → c.Active := fun h => by
    unfold Ready at hr
    rwa [h] at hr
  have hnative : ∀ {n i}, c.control = .native n i →
      n.thread = c.currentThread ∧ (i ≠ .runFailed → c.Active) := fun h => by
    unfold Ready at hr
    rwa [h] at hr
  -- native code that goes on after its callback's run failed breaks the condition
  have hactive : ∀ {n i}, c.control = .native n i → (∀ d, o ≠ .error d) →
      (∀ d, o = .next d → d.control ≠ .halt true) → c.Active := by
    intro n i h herr hhalt
    refine (hnative h).2 fun hi => ?_
    subst hi
    rcases hok.fail n h with ⟨d, hd⟩ | ⟨d, hd, hx⟩
    · exact herr d hd
    · exact hhalt d hd hx
  have hleave : ∀ {ok}, c.control = .leave ok →
      (ok = true → c.thread.frameCount = c.run.minFrameCount) := fun h => by
    unfold Ready at hr
    rwa [h] at hr
  cases ht with
  | interrupt e h => exact ⟨hs.raise e, hc⟩
  | skip h =>
    have ha := hfetch h
    exact runsOk_of_active ⟨hs.sorted, hs.unused⟩ hc ⟨ha.thread, ha.count, ha.low, ha.high⟩
      .fetch h
  | @instr op args _ h _ _ _ hi =>
    have ha := hfetch h
    exact instr_runsOk (c := c.setIp (c.run.ip.forward (1 + args.length)))
      ⟨hs.sorted, hs.unused⟩ hc ⟨ha.thread, ha.count, ha.low, ha.high⟩ h hok.stay hi
  | nativeReturns h hk =>
    have ha := hactive h (by simp) (by rintro d ⟨⟩; exact Continues.ne_halt hk true)
    rw [(hnative h).1]
    exact setControl_runsOk (c := c.switchTo c.currentThread) hs hc ha hk
  | nativeCreates h hk _ hf =>
    have ha := hactive h (by simp) (by rintro d ⟨⟩; exact Continues.ne_halt hk true)
    exact setControl_runsOk (hs.allocate hf) hc (ha.allocate hs _) hk
  | @nativeSwitches n i k t h hk _ hpos =>
    have ho : c.outer = [] := by
      by_contra hne
      exact hok.stay hne _ rfl
    rw [ho] at hc
    have hz : c.run.minFrameCount = 0 := hc
    have hl : ((c.switchTo t).loadFrame).Active := by
      refine active_loadFrame ?_
      show c.run.minFrameCount < _
      omega
    refine setControl_runsOk (c := (c.switchTo t).loadFrame) ⟨hs.sorted, hs.unused⟩ ?_ hl hk
    show Chain t c.run.minFrameCount c.outer
    rw [ho]
    exact hc
  | nativeCreatesAway h _ hne => exact absurd (hnative h).1.symm hne
  | nativeRaises e h => exact ⟨hs.raise e, hc⟩
  | nativeFails h => exact ⟨hs, hc⟩
  | exit h => exact ⟨⟨hs.sorted, hs.unused⟩, hc, trivial⟩
  | @callback n i f state h hf =>
    have ha := hactive h (by simp) (by rintro d ⟨⟩; simp [startRun, loadFrame])
    refine startRun_runsOk (hs.pushFrame ha.frameCount_ne f) hc ha.thread ha.count ha.low ha.high ?_ ?_
    · rintro _ ⟨⟩
      exact (hnative h).1
    · rw [pushFrame_frameCount]
      exact Nat.lt_succ_self _
  | callbackFails state e h =>
    have ha := hactive h (by simp) (by rintro d ⟨⟩; simp [setControl])
    have hs' := hs.raise e
    have ha' := ha.raise e
    exact ⟨⟨hs'.sorted, hs'.unused⟩, hc, (hnative h).1,
      fun _ => ⟨ha'.thread, ha'.count, ha'.low, ha'.high⟩⟩
  | printed h hk => exact setControl_runsOk hs hc (hprint h) hk
  | printNative h hn =>
    have ha := (hprint h).saveIp
    have hs' := hs.saveIp
    exact ⟨⟨hs'.sorted, hs'.unused⟩, hc, hn, fun _ => ⟨ha.thread, ha.count, ha.low, ha.high⟩⟩
  | @printCalls vs rest f h hf =>
    have ha := hprint h
    have hcount : (c.saveIp.pushFrame f).thread.frameCount = c.thread.frameCount + 1 := by
      rw [pushFrame_frameCount]
      exact congrArg (· + 1) (c.saveIp_threads c.currentThread).1
    have hs' := hs.saveIp.pushFrame ha.saveIp.frameCount_ne f
    refine startRun_runsOk (c := (c.saveIp.pushFrame f).loadFrame) ⟨hs'.sorted, hs'.unused⟩ hc rfl
      ha.count ?_ ?_ ?_ ?_
    · show c.run.minFrameCount ≤ (c.saveIp.pushFrame f).thread.frameCount - 1
      have := ha.count
      omega
    · show (c.saveIp.pushFrame f).thread.frameCount - 1 ≤ c.thread.frameCount
      omega
    · simp
    · show c.thread.frameCount < (c.saveIp.pushFrame f).thread.frameCount
      omega
  | printFails e h => exact ⟨hs.saveIp.raise e, hc⟩
  | finish h ho => exact ⟨⟨hs.sorted, hs.unused⟩, hc, trivial⟩
  | @resumeNative ok run n rest i h ho hok' hfail =>
    rw [ho] at hc
    obtain ⟨h1, h2, h3, h4, h5, h6⟩ := hc
    refine ⟨⟨hs.sorted, hs.unused⟩, h6, h5 n rfl, fun hi => ?_⟩
    cases ok with
    | false => exact absurd (hfail rfl) hi
    | true =>
      have hn := hleave h rfl
      exact ⟨h1, lt_of_lt_of_eq h2 hn.symm, h3, le_of_le_of_eq h4 hn.symm⟩
  | resumePrint h ho =>
    rw [ho] at hc
    obtain ⟨h1, h2, h3, h4, _, h6⟩ := hc
    have hn := hleave h rfl
    exact ⟨⟨hs.sorted, hs.unused⟩, h6, h1, lt_of_lt_of_eq h2 hn.symm, h3, le_of_le_of_eq h4 hn.symm⟩
  | leavePrint h ho =>
    rw [ho] at hc
    exact ⟨⟨hs.sorted, hs.unused⟩, hc.2.2.2.2.2, by simp⟩
  | undefined => trivial

theorem settle_runsOk {c d : Ctl} {o : CtlOutcome} (hok : CtlOutcome.Contained c o) (h : o.RunsOk)
    (hd : o.settle = some d) : d.RunsOk := by
  cases o with
  | next | switch =>
    cases Option.some.inj hd
    exact h
  | error e =>
    cases Option.some.inj hd
    exact handleException_runsOk h.1 h.2 (hok.raise e rfl)
  | leave e ok =>
    cases Option.some.inj hd
    exact ⟨⟨h.1.sorted, h.1.unused⟩, h.2.1, h.2.2⟩
  | undefined => cases hd

end Ctl

namespace VM

variable {W : Type} {E : Env W}

/-- The states that a script gets to in steps that meet `ok`. -/
abbrev Reaches (E : Env W) (ok : Bool → VM W → Prop) (vm₀ vm : VM W) : Prop :=
  Transition.Reachable (fun i vm => (turn E i vm).settle) ok vm₀ vm

/-- The step keeps exceptions and coroutines inside the nested runs they come up in. -/
def Contained (E : Env W) (interrupted : Bool) (vm : VM W) : Prop :=
  CtlOutcome.Contained vm.ctl (vm.turn E interrupted).ctl

/-- The control parts of the states before and after a step. -/
theorem turn_settle {vm vm' : VM W} {i : Bool} (h : (vm.turn E i).settle = some vm') :
    (vm.turn E i).ctl.settle = some vm'.ctl := by
  rw [← Outcome.settle_ctl, h]
  rfl

theorem step_runsOk {vm vm' : VM W} {i : Bool} (h : vm.ctl.RunsOk) (hok : Contained E i vm)
    (hs : (vm.turn E i).settle = some vm') : vm'.ctl.RunsOk :=
  Ctl.settle_runsOk hok (Ctl.turn_runsOk h hok (turn_effect i))
    (turn_settle hs)

theorem newThread_sorted (s f h : Nat) : (newThread s f h).ctl.Sorted :=
  ⟨List.Pairwise.nil, fun _ hg => by cases hg⟩

/-- A script's function takes no arguments, so that `interpret` gives it a frame. -/
theorem interpret_ctl (w : World W) {script : Nat} (ha : (E.fns script).arity = 0)
    (hv : (E.fns script).isVariadic = false) :
    ∃ c : Ctl, (∀ i, c.threads i = (newThread 256 64 64).ctl) ∧ c.currentThread = 0 ∧
      c.nextThread = 1 ∧ c.run.minFrameCount = 0 ∧ c.outer = [] ∧ c.control = .fetch ∧
      ∃ slots, (interpret E w script).ctl =
        (c.pushFrame ⟨⟨0, script, []⟩, ⟨script, 0⟩, slots, none⟩).loadFrame := by
  unfold interpret
  dsimp only
  generalize hvm : ({ w with
    threads := fun _ => newThread 256 64 64, currentThread := 0, nextThread := 1
    upvalues := fun _ => .closed .nil, nextUpvalue := 0, nextObject := 1
    run := ⟨0, 0, 0, ⟨script, 0⟩⟩, outer := [], control := .fetch } : VM W) = vm
  have hctl : (vm.push (Closure.value ⟨0, script, []⟩)).ctl = vm.ctl := vm.ctl_push _
  have hcall : ∃ vm', call E (vm.push (Closure.value ⟨0, script, []⟩)) ⟨0, script, []⟩ 0 =
      .ok vm' := by
    have hcap : (vm.push (Closure.value ⟨0, script, []⟩)).thread.frameCount ≠
        (vm.push (Closure.value ⟨0, script, []⟩)).thread.frameCapacity := by
      rw [← hvm]
      simp [push, setThread, thread, ObjThread.push, newThread]
    simp [call, finishClosureCall, ha, hv, typeMismatch, hcap]
  obtain ⟨vm', hvm'⟩ := hcall
  have h := @call_calls W E (vm.push (Closure.value ⟨0, script, []⟩)) ⟨0, script, []⟩ 0
  rw [hvm', Calls.eq_def, hctl] at h
  obtain ⟨slots, h⟩ := h
  refine ⟨vm.ctl, ?_, ?_, ?_, ?_, ?_, ?_, slots, ?_⟩
  · intro i
    rw [← hvm]
    rfl
  · rw [← hvm]
    rfl
  · rw [← hvm]
    rfl
  · rw [← hvm]
    rfl
  · rw [← hvm]
    rfl
  · rw [← hvm]
    rfl
  · rw [hvm']
    simp only [ctl_loadFrame, h]

theorem interpret_runsOk (w : World W) {script : Nat} (ha : (E.fns script).arity = 0)
    (hv : (E.fns script).isVariadic = false) : (interpret E w script).ctl.RunsOk := by
  obtain ⟨c, hthreads, hcur, hnext, hmin, hout, hctl, slots, h⟩ := interpret_ctl (E := E) w ha hv
  rw [h]
  generalize (⟨⟨0, script, []⟩, ⟨script, 0⟩, slots, none⟩ : CallFrame) = f
  have hfresh : c.thread = (newThread 256 64 64).ctl := hthreads _
  have hcount : (c.pushFrame f).thread.frameCount = 1 := by
    rw [Ctl.pushFrame_frameCount, hfresh]
    rfl
  refine Ctl.runsOk_of_active ⟨fun i => ?_, fun i hi => ?_⟩ ?_ (Ctl.active_loadFrame ?_) .fetch hctl
  · show ((c.pushFrame f).threads i).Sorted
    by_cases hic : i = c.currentThread
    · subst hic
      have hs := newThread_sorted 256 64 64
      rw [← hfresh] at hs
      refine ⟨?_, fun g hg => ?_⟩
      · simpa [Ctl.pushFrame, Ctl.setThread] using hs.pairwise
      · simp [Ctl.pushFrame, Ctl.setThread, hfresh, newThread, ObjThread.ctl] at hg
    · have heq : (c.pushFrame f).threads i = c.threads i := by
        simp [Ctl.pushFrame, Ctl.setThread, hic]
      rw [heq, hthreads]
      exact newThread_sorted 256 64 64
  · have hi : 1 ≤ i := hnext ▸ hi
    have hic : i ≠ c.currentThread := by omega
    have heq : (c.pushFrame f).threads i = c.threads i := by
      simp [Ctl.pushFrame, Ctl.setThread, hic]
    show ((c.pushFrame f).threads i).frameCount = 0
    rw [heq, hthreads]
    rfl
  · show Ctl.Chain c.currentThread c.run.minFrameCount c.outer
    rw [hout, hmin]
    rfl
  · show c.run.minFrameCount < _
    rw [hmin, hcount]
    exact Nat.one_pos

theorem reaches_runsOk {w : World W} {script : Nat} (ha : (E.fns script).arity = 0)
    (hv : (E.fns script).isVariadic = false) {vm : VM W}
    (h : Reaches E (Contained E) (interpret E w script) vm) : vm.ctl.RunsOk :=
  h.invariant (interpret_runsOk w ha hv) fun _ _ _ hi hok hs => step_runsOk hi hok hs

/-- The runs of the C stack, the innermost first. -/
def runs (vm : VM W) : List Run := vm.run :: vm.outer.map (·.1)

theorem Chain.own {t : Nat} {m : Nat} {rest : List (Run × Starter)} (h : Ctl.Chain t m rest) :
    ∀ r ∈ rest, r.1.minFrameCount ≤ r.1.frameIndex := by
  induction rest generalizing m with
  | nil => simp
  | cons r rest ih =>
    obtain ⟨_, _, hlow, _, _, hrest⟩ := h
    intro r' hr'
    rcases List.mem_cons.mp hr' with rfl | hr'
    · exact hlow
    · exact ih hrest r' hr'

/-- In a run of steps that keep exceptions and coroutines inside their nested runs, each activation
`vm_run(vm, m)` executes frames of index `m` and above, and an exception that no handler of such a
frame takes ends the activation with an error. -/
theorem nested_runs_own_frames {w : World W} {script : Nat} (ha : (E.fns script).arity = 0)
    (hv : (E.fns script).isVariadic = false) {vm : VM W}
    (h : Reaches E (Contained E) (interpret E w script) vm) :
    (vm.control = .fetch → ∀ r ∈ vm.runs, r.minFrameCount ≤ r.frameIndex) ∧
      ∀ i v, Contained E i vm → vm.turn E i = .error v → v.outer ≠ [] →
        (∀ g ∈ v.thread.handlers, g.able = true → g.frameCount ≤ v.run.minFrameCount) →
          v.handleException.control = .leave false := by
  have hruns := reaches_runsOk ha hv h
  refine ⟨fun hc r hr => ?_, fun i v hok hturn ho hnone => ?_⟩
  · have ha : vm.ctl.Active := by
      have hr := hruns.ready
      have hctl : vm.ctl.control = .fetch := hc
      unfold Ctl.Ready at hr
      rwa [hctl] at hr
    rcases List.mem_cons.mp hr with rfl | hr
    · exact ha.low
    · obtain ⟨p, hp, rfl⟩ := List.mem_map.mp hr
      exact Chain.own hruns.chain p hp
  · have hout := Ctl.turn_runsOk hruns hok (turn_effect i)
    rw [hturn] at hout
    have hctl : v.handleException.control = v.ctl.handleException.control :=
      congrArg Ctl.control v.ctl_handleException
    rw [hctl]
    unfold Ctl.handleException
    split
    next hx =>
      have hs := hout.1.sorted v.ctl.currentThread
      rcases v.ctl.unwind_eq hs.pairwise hs.bound with ⟨_, hu⟩ | ⟨pre, g, rest, heq, hfind, hu⟩
      · exact congrArg Ctl.control hu
      · have hlt := hok.raise v.ctl (by rw [hturn]; rfl) hx ho g hfind
        have hmem : g ∈ v.thread.handlers := List.mem_of_find?_eq_some hfind
        have hle := hnone g hmem (List.find?_some hfind)
        have hlt : v.run.minFrameCount < g.frameCount := hlt
        omega
    · rfl

theorem Contained.of_next {vm vm' : VM W} {i : Bool} (h : vm.turn E i = .next vm')
    (hn : ∀ n, vm.control ≠ .native n .runFailed) : Contained E i vm := by
  refine ⟨fun d hd => ?_, fun n hc => absurd hc (hn n), fun _ d hd => ?_⟩
  · rw [h] at hd
    cases hd
  · rw [h] at hd
    cases hd

theorem sampleNext_contained {fs : List ObjFunction} {vm : VM Tables} (h : sampleNext fs vm = true) :
    Contained (sampleEnv fs) false vm := by
  unfold sampleNext at h
  split at h
  · cases h
  next hnext hne => exact .of_next hnext hne
  · cases h

end VM

/-- `obj = {}; setmetatable(obj, {__str = fn(self) <body>})` and then `print(obj)` in a `try` with
an empty handler. -/
def printInTry (body : Stmt) : Stmts :=
  let var (s : String) : Expr := .variable (ascii s)
  let method : Expr :=
    .anonymousFunction (.mk [] [⟨ascii "self", false, none, none⟩] (.cons body .nil))
  .cons (.expression (.assign (ascii "obj") .equals (.one (.table .nil)))) <|
  .cons (.expression (.parseCall (var "setmetatable")
    (.cons (var "obj") (.cons (.table (.field (ascii "__str") method .nil)) .nil)) .nil .none)) <|
  .cons (.tryStmt (.cons (.print (.cons (var "obj") .nil)) .nil)
    (.some none .none (.cons (.expression .literalNil) .nil)) .none) .nil

theorem nested_runs_own_frames_of_print :
    ∃ fs, ∃ vm : VM Tables, Compile.compile 0 0 (printInTry (.returnStmt (.cons .literalTrue .nil))) = some fs ∧
      vm.control = .fetch ∧ vm.run.minFrameCount = 1 ∧
      ∀ r ∈ vm.runs, r.minFrameCount ≤ r.frameIndex := by
  have h : sampleTest (printInTry (.returnStmt (.cons .literalTrue .nil))) sampleNext 21
      (fun vm : VM Tables => vm.control = .fetch ∧ vm.run.minFrameCount = 1) = true := by decide +kernel
  obtain ⟨fs, vm, hc, ha, hv, hr, ht⟩ := sampleTest_run h
  obtain ⟨hf, hm⟩ := of_decide_eq_true ht
  refine ⟨fs, vm, hc, hf, hm, ?_⟩
  refine (VM.nested_runs_own_frames (E := sampleEnv fs) (w := sampleWorld) ha hv ?_).1 hf
  refine hr.mono fun i vm hok => ?_
  obtain ⟨rfl, hok⟩ := hok
  exact VM.sampleNext_contained hok

/-- A `__str` that throws, printed in a `try`: the nested run goes on in the script's handler. -/
theorem nested_run_runs_outer_handler :
    ¬ ∀ (E : Env Tables) (w : World Tables) (script : Nat) (vm : VM Tables),
      (E.fns script).arity = 0 → (E.fns script).isVariadic = false →
      VM.Reaches E (fun _ _ => True) (VM.interpret E w script) vm → vm.control = .fetch →
        ∀ r ∈ vm.runs, r.minFrameCount ≤ r.frameIndex := by
  intro hall
  have h : sampleTest (printInTry (.throwStmt .literalNil)) (fun _ _ => true) 22
      (fun vm : VM Tables => vm.control = .fetch ∧ vm.run.frameIndex < vm.run.minFrameCount) = true := by
    decide +kernel
  obtain ⟨fs, vm, hc, ha, hv, hr, ht⟩ := sampleTest_run h
  obtain ⟨hf, hm⟩ := of_decide_eq_true ht
  have hle := hall (sampleEnv fs) sampleWorld (fs.length - 1) vm ha hv
    (hr.mono fun _ _ _ => trivial) hf vm.run List.mem_cons_self
  omega

end ToiLang
