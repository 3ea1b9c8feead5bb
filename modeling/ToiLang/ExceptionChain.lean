import ToiLang.CoroutineChain
import ToiLang.Vm.Unwind

namespace ToiLang

open PointerChain

namespace Ctl

/-- Handlers that can take nothing leave the exception uncaught. -/
theorem unwind_unable {c : Ctl} {hs : List ExceptionHandler} (h : ∀ g ∈ hs, g.able = false) :
    (c.unwind hs).control = .leave false ∧ (c.unwind hs).currentThread = c.currentThread ∧
      (c.unwind hs).thread.frameCount = 0 := by
  have huncaught : ∀ (d : Ctl) (gs : List ExceptionHandler), d.currentThread = c.currentThread →
      (d.uncaught gs).control = .leave false ∧ (d.uncaught gs).currentThread = c.currentThread ∧
        (d.uncaught gs).thread.frameCount = 0 := by
    intro d gs hd
    refine ⟨rfl, hd, ?_⟩
    show (d.setThread _).thread.frameCount = 0
    rw [thread_setThread]
  induction hs generalizing c with
  | nil => exact huncaught c [] rfl
  | cons g gs ih =>
    have hg := h g List.mem_cons_self
    have hexcept : ¬(g.hasExcept && !g.inExcept) = true := fun hx => by
      rw [ExceptionHandler.able, hx] at hg
      cases hg
    have hfinally : ¬g.hasFinally = true := fun hf => by
      rw [ExceptionHandler.able, hf, Bool.or_true] at hg
      cases hg
    simp only [unwind]
    by_cases hzero : (c.cutFrames g.frameCount).thread.frameCount = 0
    · rw [if_pos hzero]
      exact huncaught _ _ rfl
    · rw [if_neg hzero, if_neg hexcept, if_neg hfinally]
      exact ih (fun g' hg' => h g' (List.mem_cons_of_mem _ hg')) fun d gs hd => huncaught d gs hd

/-- A return makes no thread. -/
theorem return_error {op : OpCode} {args : List UInt8} {c d : Ctl} {o : CtlOutcome} (h : InstrEffect op args c o)
    (hop : op = .opReturn ∨ op = .opReturnN) (ho : o = .error d) : d.nextThread = c.nextThread := by
  induction h with
  | save _ ih => exact ih ho
  | generatorFails hfalls =>
    rcases hop with rfl | rfl
    · cases hfalls
    · cases hfalls
  | raise | fail | rethrow | overflow =>
    cases ho
    rfl
  | _ => cases ho

theorem turn_error_next {fns : Nat → ObjFunction} {c d : Ctl} {o : CtlOutcome} (h : TurnEffect fns c o)
    (hc : c.control ≠ .fetch) (ho : o = .error d) : d.nextThread = c.nextThread := by
  cases h with
  | instr hfetch => exact absurd hfetch hc
  | interrupt _ hfetch => exact absurd hfetch hc
  | nativeRaises | nativeFails | printFails =>
    cases ho
    rfl
  | _ => cases ho

end Ctl

namespace VM

variable {W : Type} {E : Env W} {vm v : VM W} {i : Bool}

theorem handleException_unable (h : ∀ g ∈ vm.thread.handlers, g.able = false) (hx : vm.thread.hasException = true) :
    vm.handleException.control = .leave false ∧
      (vm.handleException.threads vm.currentThread).frameCount = 0 := by
  have hctl := vm.ctl_handleException
  have hunwind : vm.ctl.handleException = vm.ctl.unwind vm.ctl.thread.handlers := if_pos hx
  obtain ⟨hcontrol, hcur, hcount⟩ := Ctl.unwind_unable (c := vm.ctl) h
  rw [hunwind] at hctl
  refine ⟨(congrArg Ctl.control hctl).trans hcontrol, ?_⟩
  have hthread : (vm.handleException.ctl.threads vm.currentThread).frameCount = 0 := by
    rw [hctl]
    rw [Ctl.thread, hcur] at hcount
    exact hcount
  exact hthread

/-- A thread that a failing step made has no frames. -/
def NewIdle (vm : VM W) (o : Outcome W) : Prop :=
  ∀ v, o = .error v → v.nextThread ≠ vm.nextThread → (v.threads vm.nextThread).frameCount = 0

theorem NewIdle.of_links {o : Outcome W} (h : o.Links (· = vm.links)) : vm.NewIdle o := by
  intro v hv hne
  rw [hv] at h
  exact absurd (congrArg Links.nextThread h) hne

theorem NewIdle.of_next {u : VM W} : vm.NewIdle (.next u) := fun _ hv => nomatch hv

theorem createGenerator_newIdle (named : Bool) (c : Closure) (n : Nat) :
    vm.NewIdle (createGenerator E named vm c n) := by
  unfold createGenerator
  dsimp only
  generalize hg : ({ newThread 96 24 16 with isGenerator := true }.push c.value).pushAll
    (vm.thread.top n) = gen
  have hgen : gen.ctl.frameCount = 0 := by
    rw [← hg, ObjThread.ctl_pushAll]
    rfl
  generalize hi : ({ vm with
    threads := Function.update vm.threads vm.nextThread gen
    currentThread := vm.nextThread
    nextThread := vm.nextThread + 1 } : VM W) = inner
  have hcall := @call_or_named_calls W E inner c named n
  intro v hv hne
  cases hr : (if named then callNamed E inner c n else call E inner c n) with
  | ok u =>
    rw [hr] at hv
    cases hv
  | error u =>
    rw [hr] at hv hcall
    cases hv
    obtain ⟨e, hctl⟩ := hcall
    have hthread := congrArg (fun d : Ctl => (d.threads vm.nextThread).frameCount) hctl
    refine hthread.trans ?_
    have hraise : (inner.ctl.raise e).thread.frameCount = inner.ctl.thread.frameCount := by
      rw [Ctl.raise, Ctl.thread_setThread]
    subst hi
    refine hraise.trans ?_
    show (Function.update vm.threads vm.nextThread gen vm.nextThread).ctl.frameCount = 0
    rw [Function.update_self]
    exact hgen

theorem dispatch_newIdle (named : Bool) (callee : Value) (n : Nat) : vm.NewIdle (dispatch E named vm callee n) := by
  cases callee with
  | closure a f us =>
    simp only [dispatch]
    split
    · exact createGenerator_newIdle named _ n
    · exact .of_links (callClosure_links named _ n)
  | native a => exact .of_next
  | table t =>
    simp only [dispatch]
    have hv : ∀ f w, (vm.setThread (vm.thread.insertReceiver n f w)).links = vm.links :=
      fun f w => vm.links_setThread (by simp)
    split
    · exact .of_links ((callClosure_links named _ _).mono fun l hl => hl.trans (hv _ _))
    · exact .of_next
    · exact .of_links (vm.links_runtimeError _)
  | _ => exact .of_links (vm.links_runtimeError _)

theorem NewIdle.of_nextThread {u : VM W} {o : Outcome W} (h : u.NewIdle o) (hu : u.nextThread = vm.nextThread) :
    vm.NewIdle o := by
  intro v hv hne
  rw [← hu] at hne ⊢
  exact h v hv hne

theorem invoke_newIdle (named : Bool) (n : Nat) : vm.NewIdle (invoke E named vm n) := by
  unfold invoke
  split
  next receiver method _ => exact (dispatch_newIdle named _ _).of_nextThread rfl
  · exact dispatch_newIdle named _ n

theorem callExpand_newIdle (n : Nat) : vm.NewIdle (callExpand E vm n) := by
  unfold callExpand
  split
  next a _ =>
    dsimp only
    split
    · exact .of_links (vm.links_runtimeError _)
    · split
      · exact (invoke_newIdle false _).of_nextThread rfl
      next w named _ =>
        generalize hp : VM.push _ (Value.table named) = p
        have hnext : p.nextThread = vm.nextThread := by
          rw [← hp]
          rfl
        split
        · exact NewIdle.of_nextThread (.of_links (p.links_runtimeError _)) hnext
        · exact (invoke_newIdle true _).of_nextThread hnext
  next => exact .of_links (vm.links_runtimeError _)

theorem perform_newIdle (op : OpCode) (args : List UInt8) : vm.NewIdle (vm.perform E op args) := by
  by_cases hcall : op ∈ callOps
  · simp only [callOps, List.mem_cons, List.not_mem_nil, or_false] at hcall
    rcases hcall with rfl | rfl | rfl | rfl | rfl | rfl
    · exact invoke_newIdle false _
    · exact invoke_newIdle false _
    · exact invoke_newIdle false _
    · exact invoke_newIdle false _
    · exact invoke_newIdle true _
    · exact callExpand_newIdle _
  · by_cases hr : op = .opReturn ∨ op = .opReturnN
    · -- a return that fails raises on its own thread
      intro v hv hne
      have heffect := @perform_effect W E vm op args
      exact absurd (Ctl.return_error heffect hr (congrArg Outcome.ctl hv)) hne
    · rw [not_or] at hr
      exact .of_links (perform_links_same args hr.1 hr.2 hcall)

theorem turn_newIdle : vm.NewIdle (vm.turn E i) := by
  intro v hv hne
  cases hc : vm.control with
  | fetch =>
    cases i with
    | true =>
      simp only [turn, hc, if_true] at hv
      cases hv
      exact absurd rfl hne
    | false =>
      have hturn : vm.turn E false = vm.execute E := by simp [turn, hc]
      rw [hturn] at hv
      rcases vm.execute_cases (E := E) with ⟨op, args, -, he⟩ | ⟨-, he | he⟩
      · rw [he] at hv
        generalize hu : vm.setIp (vm.run.ip.forward (1 + args.length)) = u at hv
        have hnext : u.nextThread = vm.nextThread := by
          rw [← hu]
          rfl
        exact (perform_newIdle op args).of_nextThread hnext v hv hne
      · rw [he] at hv
        cases hv
      · rw [he] at hv
        cases hv
  | _ =>
    have heffect := @turn_effect W E vm i
    rw [hv] at heffect
    have hsame := Ctl.turn_error_next heffect (by rw [VM.ctl, hc]; simp) rfl
    exact absurd hsame hne

/-- The innermost active handler of some threads. -/
def innermost (v : VM W) (ts : List Nat) : Option (Nat × ExceptionHandler) :=
  ts.findSome? fun t => ((v.threads t).handlers.find? ExceptionHandler.able).map fun g => (t, g)

end VM

/-- The code that a handler takes an exception with. -/
def ExceptionHandler.entry (g : ExceptionHandler) : CodePtr :=
  if g.hasExcept && !g.inExcept then g.exceptIp else g.finallyIp

/-- The machine with the threads that wait for the current one, the one that resumed it first. -/
structure Resumption (W : Type) where
  vm : VM W
  waiting : List Nat

namespace Resumption

variable {W : Type} {E : Env W} {s : Resumption W} {v : VM W} {i : Bool}

def start (vm : VM W) : Resumption W := ⟨vm, []⟩

def after (s : Resumption W) : Handover → List Nat
  | .resume _ => s.vm.currentThread :: s.waiting
  | .yieldTo _ | .returnTo _ => s.waiting.tail
  | _ => s.waiting

def turn (E : Env W) (i : Bool) (s : Resumption W) : Option (Resumption W) :=
  (s.vm.turn E i).settle.map fun vm => ⟨vm, s.after (s.vm.handover E i)⟩

/-- A step failed with an exception on a thread that no handler of the thread takes, and the threads
that are to have it then. A generator call that fails leaves its exception on the new thread. -/
inductive Raised (s : Resumption W) (v : VM W) : (t : Nat) → (e : Value) → (chain : List Nat) → Prop
  | current : v.thread.hasException = true → (∀ g ∈ v.thread.handlers, g.able = false) →
    Raised s v v.currentThread v.thread.exception s.waiting
  | generator : v.thread.hasException = false → v.nextThread ≠ s.vm.nextThread →
    (v.threads s.vm.nextThread).hasException = true →
    Raised s v s.vm.nextThread (v.threads s.vm.nextThread).exception (v.currentThread :: s.waiting)

/-- The thread is dead; the first of the chain goes on with a false status, or the innermost active
handler takes the exception; and the run fails only where no thread of the chain has one. -/
structure Delivered (v v' : VM W) (t : Nat) (e : Value) (chain : List Nat) : Prop where
  dead : (v'.threads t).frameCount = 0
  reaches : ∀ q g, v.innermost chain = some (q, g) → v'.control = .fetch ∧
    ((chain.head? = some v'.currentThread ∧
        v'.thread = (v.threads v'.currentThread).pushAll [.bool false, e]) ∨
      (v'.currentThread = q ∧ v'.run.ip = g.entry))
  fails : v'.control = .leave false → v.innermost chain = none

/-- What becomes of the exception that a step raises. -/
def Delivers (E : Env W) (i : Bool) (s : Resumption W) : Prop :=
  ∀ v t e chain, s.vm.turn E i = .error v → s.Raised v t e chain → Delivered v v.handleException t e chain

/-- Where a step raises an exception, none of the threads that are to have it has an active handler. -/
def Unhandled (E : Env W) (i : Bool) (s : Resumption W) : Prop :=
  ∀ v t e chain, s.vm.turn E i = .error v → s.Raised v t e chain → v.innermost chain = none

/-- What is left of the run after an exception that its own thread does not take. -/
theorem Raised.ends {t : Nat} {e : Value} {chain : List Nat} (h : s.Raised v t e chain)
    (hv : s.vm.turn E i = .error v) :
    v.handleException.control = .leave false ∧ (v.handleException.threads t).frameCount = 0 := by
  cases h with
  | current hx hable => exact VM.handleException_unable hable hx
  | generator hx hne _ =>
    have hleave : v.handleException = { v with control := .leave false } := by
      rw [VM.handleException, hx]
      rfl
    rw [hleave]
    exact ⟨rfl, VM.turn_newIdle v hv hne⟩

/-- An exception that its own thread does not take gets to the threads that wait exactly where none of
them has an active handler: the run ends then. -/
theorem delivers_iff_unhandled (E : Env W) (i : Bool) (s : Resumption W) : s.Delivers E i ↔ s.Unhandled E i := by
  constructor
  · intro hd v t e chain hv hr
    obtain ⟨hfails, -⟩ := hr.ends hv
    exact (hd v t e chain hv hr).fails hfails
  · intro hu v t e chain hv hr
    obtain ⟨-, hdead⟩ := hr.ends hv
    have hnone := hu v t e chain hv hr
    refine ⟨hdead, fun q g hg => ?_, fun _ => hnone⟩
    rw [hnone] at hg
    cases hg

end Resumption

/-- `fn body(): throw nil` and, in a `try` with an empty handler,
`coroutine.resume(coroutine.create(body))`. -/
def resumeInTry : Stmts :=
  let coroutine (name : String) (arg : Expr) : Expr :=
    .parseCall (.dot (.variable (ascii "coroutine")) (ascii name)) (.cons arg .nil) .nil .none
  .cons (.functionDeclaration (.mk (ascii "body") [] (.cons (.throwStmt .literalNil) .nil))) <|
  .cons (.tryStmt
    (.cons (.expression (coroutine "resume" (coroutine "create" (.variable (ascii "body"))))) .nil)
    (.some none .none (.cons (.expression .literalNil) .nil)) .none) .nil

/-- The exception of a coroutine that was resumed in a `try`: the run ends with a report. -/
theorem resumer_handler_is_passed :
    ¬∀ (E : Env Tables) (w : World Tables) (script : Nat) (s : Resumption Tables),
      Transition.Reachable (Resumption.turn E) (fun _ _ => True) (.start (VM.interpret E w script)) s →
      ∀ i, s.Delivers E i := by
  intro hall
  have hrun : ((Compile.compile 0 0 resumeInTry).bind fun fs =>
      (Transition.steps (Resumption.turn (coroutineEnv fs)) false (fun _ => true) 14
        (.start (VM.interpret (coroutineEnv fs) coroutineWorld (fs.length - 1)))).bind fun s =>
        match s.vm.turn (coroutineEnv fs) false with
        | .error v => some (v.thread.hasException, v.thread.handlers, (v.innermost s.waiting).isSome)
        | _ => none) = some (true, [], true) := by decide +kernel
  obtain ⟨fs, hc, hrun⟩ := Option.bind_eq_some_iff.mp hrun
  obtain ⟨s, hs, ht⟩ := Option.bind_eq_some_iff.mp hrun
  have hr := @Transition.steps_reachable _ _ _ (fun _ _ => True) _ _ _ _ _ (fun _ _ => trivial) hs
  have hdelivers := hall _ _ _ s hr false
  split at ht
  next v hv =>
    obtain ⟨hx, hrest⟩ := Prod.mk.inj (Option.some.inj ht)
    obtain ⟨hempty, hsome⟩ := Prod.mk.inj hrest
    have hunable : ∀ g ∈ v.thread.handlers, g.able = false := by
      rw [hempty]
      exact fun g hg => nomatch hg
    have hraised : s.Raised v v.currentThread v.thread.exception s.waiting := .current hx hunable
    obtain ⟨hfails, -⟩ := hraised.ends hv
    have hnone := (hdelivers v _ _ _ hv hraised).fails hfails
    rw [hnone] at hsome
    cases hsome
  next => cases ht

end ToiLang
