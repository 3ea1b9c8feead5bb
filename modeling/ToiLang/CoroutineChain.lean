import ToiLang.PointerChain
import ToiLang.Transition
import ToiLang.Vm.Apart
import ToiLang.Vm.Handover
import ToiLang.Vm.Sample

namespace ToiLang

open PointerChain

namespace Links

/-- What a handover must not do to the chain of callers: take a thread that is on it, clear a
pointer in the middle of it, or end at a thread that nothing follows. -/
def Proper (l : Links) : Handover → Prop
  | .stay => True
  | .resume t => ¬Reaches l.callers l.currentThread t
  | .yieldTo caller => l.callers caller = none
  | .returnTo _ => True
  | .overflow => False

/-- The callers of the current thread end at the main thread, and are threads that exist. -/
def Chained (l : Links) : Prop :=
  ∃ path, Ends l.callers 0 l.currentThread path ∧ ∀ t ∈ path, t < l.nextThread

theorem Chained.create {l : Links} (h : l.Chained) : l.create.Chained := by
  obtain ⟨path, hp, hlt⟩ := h
  have hfresh : l.nextThread ∉ path := fun hm => Nat.lt_irrefl _ (hlt _ hm)
  exact ⟨path, hp.update hfresh none, fun t ht => Nat.lt_succ_of_lt (hlt t ht)⟩

theorem Chained.resume {l : Links} (h : l.Chained) {t : Nat} (ht : t < l.nextThread)
    (hoff : ¬Reaches l.callers l.currentThread t) : (l.resume t).Chained := by
  obtain ⟨path, hp, hlt⟩ := h
  have hnot : t ∉ path := fun hm => hoff (hp.mem_iff.mp hm)
  refine ⟨t :: path, hp.push hnot, fun u hu => ?_⟩
  rcases List.mem_cons.mp hu with rfl | hu
  · exact ht
  · exact hlt u hu

/-- The thread that a yield or a return goes back to is on the chain itself. -/
theorem Chained.caller {l : Links} (h : l.Chained) {caller : Nat}
    (hc : l.callers l.currentThread = some caller) :
    ∃ tail, Ends l.callers 0 caller tail ∧ l.currentThread ∉ tail ∧ ∀ t ∈ tail, t < l.nextThread := by
  obtain ⟨path, hp, hlt⟩ := h
  have hnd := hp.nodup
  obtain ⟨tail, rfl, ht⟩ := hp.next_ends hc
  exact ⟨tail, ht, (List.nodup_cons.mp hnd).1, fun t hm => hlt t (List.mem_cons_of_mem _ hm)⟩

theorem Chained.caller_ne {l : Links} (h : l.Chained) {caller : Nat}
    (hc : l.callers l.currentThread = some caller) : caller ≠ l.currentThread := by
  obtain ⟨tail, ht, hnot, -⟩ := h.caller hc
  intro heq
  exact hnot (heq ▸ ht.start_mem)

theorem Chained.yieldTo {l : Links} (h : l.Chained) {caller : Nat}
    (hc : l.callers l.currentThread = some caller) (hnone : l.callers caller = none) :
    (l.yieldTo caller).Chained := by
  obtain ⟨tail, ht, -, hlt⟩ := h.caller hc
  have hsame : Function.update l.callers caller none = l.callers := by
    rw [← hnone, Function.update_eq_self]
  refine ⟨tail, ?_, hlt⟩
  show Ends (Function.update l.callers caller none) 0 caller tail
  rwa [hsame]

theorem Chained.returnTo {l : Links} (h : l.Chained) {caller : Nat}
    (hc : l.callers l.currentThread = some caller) : (l.returnTo caller).Chained := by
  obtain ⟨tail, ht, hnot, hlt⟩ := h.caller hc
  exact ⟨tail, ht.update hnot none, hlt⟩

theorem Follows.yieldTo {l l' : Links} {caller : Nat} (h : l.Follows l' (.yieldTo caller)) :
    l'.currentThread = caller ∧ l'.callers caller = none := by
  rcases h with rfl | ⟨hstay, -⟩
  · exact ⟨rfl, Function.update_self ..⟩
  · cases hstay

theorem Follows.overflow {l l' : Links} (h : l.Follows l' .overflow) :
    l'.currentThread = l.currentThread ∧ l'.callers l.currentThread = none := by
  rcases h with rfl | ⟨hstay, -⟩
  · exact ⟨rfl, Function.update_self ..⟩
  · cases hstay

end Links

namespace VM

variable {W : Type} {E : Env W} {vm : VM W} {i : Bool}

/-- The main thread is found, only threads that exist have frames, and a caller is the thread that
resumed last. -/
structure ChainInv (vm : VM W) (resumer : Nat → Option Nat) : Prop where
  chained : vm.links.Chained
  unused : vm.Unused
  resumer : ∀ t b, (vm.threads t).caller = some b → resumer t = some b

end VM

/-- The machine with the thread that resumed each thread last. -/
structure History (W : Type) where
  vm : VM W
  resumer : Nat → Option Nat

namespace History

variable {W : Type} {E : Env W} {i : Bool}

def start (vm : VM W) : History W := ⟨vm, fun _ => none⟩

def resumed (h : History W) : Handover → Nat → Option Nat
  | .resume t => Function.update h.resumer t (some h.vm.currentThread)
  | _ => h.resumer

def turn (E : Env W) (i : Bool) (h : History W) : Option (History W) :=
  (h.vm.turn E i).settle.map fun vm => ⟨vm, h.resumed (h.vm.handover E i)⟩

/-- Following the callers from the current thread visits distinct threads and ends at the main
thread. -/
def EndsAtMain (h : History W) : Prop :=
  ∃ path : List Nat, path.Nodup ∧ Ends (fun t => (h.vm.threads t).caller) 0 h.vm.currentThread path

def OnChain (h : History W) (t : Nat) : Prop :=
  Reaches (fun t => (h.vm.threads t).caller) h.vm.currentThread t

/-- What a step does to the chain: it still ends at the main thread, a thread on it was not
resumed, and a yield went to the last resumer and left its caller. -/
structure Keeps (E : Env W) (i : Bool) (h h' : History W) : Prop where
  chain : h'.EndsAtMain
  resumed : ∀ t, h.vm.handover E i = .resume t → ¬h.OnChain t
  yielded : ∀ c, h.vm.handover E i = .yieldTo c →
    h.resumer h.vm.currentThread = some h'.vm.currentThread ∧
      (h'.vm.threads h'.vm.currentThread).caller = (h.vm.threads h'.vm.currentThread).caller

/-- The step resumes no thread on the chain, yields to no thread that has a caller, and does not
return to a thread whose stack is full. -/
def Proper (E : Env W) (i : Bool) (h : History W) : Prop :=
  h.vm.links.Proper (h.vm.handover E i)

theorem resumed_of_callers {h : History W} {l' : Links} {m : Handover}
    (hf : h.vm.links.Follows l' m) (hr : ∀ t b, h.vm.links.callers t = some b → h.resumer t = some b)
    {t b : Nat} (hb : l'.callers t = some b) : h.resumed m t = some b := by
  have hclear : ∀ {c : Nat}, Function.update h.vm.links.callers c none t = some b →
      h.resumer t = some b := by
    intro c hu
    by_cases htc : t = c
    · subst htc
      rw [Function.update_self] at hu
      cases hu
    · rw [Function.update_of_ne htc] at hu
      exact hr t b hu
  rcases hf with rfl | ⟨rfl, rfl⟩
  · cases m with
    | stay => exact hr t b hb
    | resume u =>
      have hu : Function.update h.vm.links.callers u (some h.vm.currentThread) t = some b := hb
      show Function.update h.resumer u (some h.vm.currentThread) t = some b
      by_cases htu : t = u
      · subst htu
        rw [Function.update_self] at hu ⊢
        exact hu
      · rw [Function.update_of_ne htu] at hu ⊢
        exact hr t b hu
    | yieldTo c => exact hclear hb
    | returnTo c => exact hclear hb
    | overflow => exact hclear hb
  · exact hclear hb

theorem turn_eq {h h' : History W} (ht : h.turn E i = some h') :
    (h.vm.turn E i).settle = some h'.vm ∧ h'.resumer = h.resumed (h.vm.handover E i) := by
  obtain ⟨vm', hs, rfl⟩ := Option.map_eq_some_iff.mp ht
  exact ⟨hs, rfl⟩

/-- A proper step keeps the chain. -/
theorem step_chained {l l' : Links} {m : Handover} (hc : l.Chained) (hf : l.Follows l' m)
    (hm : l.Proper m) (ht : ∀ t, m = .resume t → t < l.nextThread)
    (hb : ∀ b, m = .yieldTo b ∨ m = .returnTo b → l.callers l.currentThread = some b) :
    l'.Chained := by
  rcases hf with rfl | ⟨-, rfl⟩
  · cases m with
    | stay => exact hc
    | resume t => exact hc.resume (ht t rfl) hm
    | yieldTo c => exact hc.yieldTo (hb c (.inl rfl)) hm
    | returnTo c => exact hc.returnTo (hb c (.inr rfl))
    | overflow => exact hm.elim
  · exact hc.create

theorem endsAtMain {h : History W} (hc : h.vm.links.Chained) : h.EndsAtMain := by
  obtain ⟨path, hp, -⟩ := hc
  exact ⟨path, hp.nodup, hp⟩

theorem step_inv {h h' : History W} (hi : VM.ChainInv h.vm h.resumer) (ht : h.turn E i = some h')
    (hp : h.Proper E i) : VM.ChainInv h'.vm h'.resumer := by
  obtain ⟨hs, hr⟩ := turn_eq ht
  have hposs := h.vm.handover_possible (E := E) (i := i)
  have hf := h.vm.turn_links hs fun c hc => hi.chained.caller_ne hc
  refine ⟨step_chained hi.chained hf hp (fun t hm => ?_) (fun b hm => ?_), ?_, ?_⟩
  · rw [hm] at hposs
    by_contra hge
    exact hposs (hi.unused t (Nat.not_lt.mp hge))
  · rcases hm with hm | hm
    · rw [hm] at hposs
      exact hposs
    · rw [hm] at hposs
      exact hposs
  · obtain ⟨path, hpath, hlt⟩ := hi.chained
    exact VM.turn_unused (hlt _ hpath.start_mem) hi.unused hs
  · intro t b hb
    rw [hr]
    exact resumed_of_callers hf hi.resumer hb

theorem keeps_of_proper {h h' : History W} (hi : VM.ChainInv h.vm h.resumer)
    (ht : h.turn E i = some h') (hp : h.Proper E i) : h.Keeps E i h' := by
  obtain ⟨hs, -⟩ := turn_eq ht
  have hposs := h.vm.handover_possible (E := E) (i := i)
  have hf := h.vm.turn_links hs fun c hc => hi.chained.caller_ne hc
  refine ⟨endsAtMain (step_inv hi ht hp).chained, fun t hm => ?_, fun c hm => ?_⟩
  · rw [Proper, hm] at hp
    exact hp
  · rw [hm] at hposs hf
    rw [Proper, hm] at hp
    have hnone : (h.vm.threads c).caller = none := hp
    obtain ⟨hcur, hcaller⟩ := hf.yieldTo
    have hcur : h'.vm.currentThread = c := hcur
    rw [hcur]
    exact ⟨hi.resumer _ _ hposs, hcaller.trans hnone.symm⟩

/-- A step that keeps what the chain is for is a proper one. -/
theorem proper_of_keeps {h h' : History W} (hi : VM.ChainInv h.vm h.resumer)
    (ht : h.turn E i = some h') (hk : h.Keeps E i h') : h.Proper E i := by
  obtain ⟨hs, -⟩ := turn_eq ht
  obtain ⟨hchain, hresumed, hyielded⟩ := hk
  have hposs := h.vm.handover_possible (E := E) (i := i)
  have hf := h.vm.turn_links hs fun c hc => hi.chained.caller_ne hc
  unfold Proper
  cases hm : h.vm.handover E i with
  | stay => trivial
  | resume t => exact hresumed t hm
  | yieldTo c =>
    rw [hm] at hf
    obtain ⟨hcur, hcaller⟩ := hf.yieldTo
    have hcur : h'.vm.currentThread = c := hcur
    have hcaller : (h'.vm.threads c).caller = none := hcaller
    have hsame := (hyielded c hm).2
    rw [hcur, hcaller] at hsame
    exact hsame.symm
  | returnTo c => trivial
  | overflow =>
    -- the thread that overflowed has a caller, so it is not the main thread
    rw [hm] at hf hposs
    obtain ⟨caller, hcaller⟩ := hposs
    obtain ⟨hcur, hnone⟩ := hf.overflow
    have hcur : h'.vm.currentThread = h.vm.currentThread := hcur
    obtain ⟨path, -, hp⟩ := hchain
    obtain ⟨old, hold, -⟩ := hi.chained
    rw [hcur] at hp
    have hmain : h.vm.currentThread = 0 := hp.eq_last hp.start_mem hnone
    have hlast : (h.vm.threads 0).caller = none := hold.last_none
    have h0 : (h.vm.threads 0).caller = some caller := hmain ▸ hcaller
    rw [hlast] at h0
    cases h0

theorem start_inv (E : Env W) (w : World W) (script : Nat) :
    VM.ChainInv (start (VM.interpret E w script)).vm (fun _ => none) := by
  have hlinks := VM.interpret_links E w script
  refine ⟨⟨[0], ?_, ?_⟩, VM.interpret_unused E w script, fun t b hb => ?_⟩
  · show Ends (VM.interpret E w script).links.callers 0 (VM.interpret E w script).links.currentThread [0]
    rw [hlinks]
    exact .last rfl
  · show ∀ t ∈ [0], t < (VM.interpret E w script).links.nextThread
    rw [hlinks]
    simp
  · have hnone : ((VM.interpret E w script).threads t).caller = none :=
      congrArg (fun l => l.callers t) hlinks
    exact absurd (hnone.symm.trans hb) (by simp)

theorem reaches_inv {w : World W} {script : Nat} {h : History W}
    (hrun : Transition.Reachable (turn E) (Proper E) (start (VM.interpret E w script)) h) :
    VM.ChainInv h.vm h.resumer :=
  hrun.invariant (start_inv E w script) fun _ _ _ hi hp ht => step_inv hi ht hp

/-- In a run of proper steps the callers end at the main thread, and a further step keeps this and
what yields and resumes promise exactly where it is proper. -/
theorem chain_kept_iff_proper {w : World W} {script : Nat} {h : History W}
    (hrun : Transition.Reachable (turn E) (Proper E) (start (VM.interpret E w script)) h) :
    h.EndsAtMain ∧ ∀ i h', h.turn E i = some h' → (h.Keeps E i h' ↔ h.Proper E i) := by
  have hi := reaches_inv hrun
  refine ⟨endsAtMain hi.chained, fun i h' ht => ⟨fun hk => ?_, fun hp => ?_⟩⟩
  · exact proper_of_keeps hi ht hk
  · exact keeps_of_proper hi ht hp

end History

/-- The functions of the coroutine module. -/
def coroutineNative (w : World Tables) (native : Nat) (input : NativeInput) : NativeAct Tables :=
  match native, input with
  | 1, .start (.closure a f us :: _) => .create (.closure a f us)
  | 2, .start (.thread t :: args) => .resume t args
  | 3, .start args => .yield args
  | _, _ => .fails w

def coroutineEnv (fs : List ObjFunction) : Env Tables :=
  { sampleEnv fs with native := fun w n _ input => coroutineNative w n input }

def coroutineWorld : World Tables where
  globals := fun n => if n = ascii "coroutine" then some (.table 0) else none
  modules := fun _ => none
  heap := ⟨fun _ => [(ascii "create", .native 1), (ascii "resume", .native 2),
    (ascii "yield", .native 3)], fun _ => none, 1⟩

/-- `fn inner(): coroutine.yield()`, `fn outer(): coroutine.resume(coroutine.create(inner))` and
`coroutine.resume(coroutine.create(outer))`. -/
def nestedYield : Stmts :=
  let call (name : String) (args : Exprs) : Expr :=
    .parseCall (.dot (.variable (ascii "coroutine")) (ascii name)) args .nil .none
  let start (f : String) : Stmt :=
    .expression (call "resume" (.cons (call "create" (.cons (.variable (ascii f)) .nil)) .nil))
  .cons (.functionDeclaration (.mk (ascii "inner") []
    (.cons (.expression (call "yield" .nil)) .nil))) <|
  .cons (.functionDeclaration (.mk (ascii "outer") [] (.cons (start "inner") .nil))) <|
  .cons (start "outer") .nil

/-- The start of a script with the coroutine module. -/
def coroutineStart (fs : List ObjFunction) : History Tables :=
  .start (VM.interpret (coroutineEnv fs) coroutineWorld (fs.length - 1))

/-- A step that stays on its thread, or resumes another one from the main thread. -/
def sampleProper (fs : List ObjFunction) (h : History Tables) : Bool :=
  match h.vm.handover (coroutineEnv fs) false with
  | .stay => true
  | .resume t => h.vm.thread.caller = none ∧ t ≠ h.vm.currentThread
  | _ => false

theorem sampleProper_proper {fs : List ObjFunction} {h : History Tables}
    (hp : sampleProper fs h = true) : h.Proper (coroutineEnv fs) false := by
  unfold sampleProper at hp
  unfold History.Proper
  cases hm : h.vm.handover (coroutineEnv fs) false with
  | stay => trivial
  | resume t =>
    rw [hm] at hp
    obtain ⟨hnone, hne⟩ := of_decide_eq_true hp
    intro hr
    rcases Relation.ReflTransGen.cases_head hr with heq | ⟨b, hb, -⟩
    · exact hne heq.symm
    · exact absurd (hnone.symm.trans hb) (by simp)
  | _ =>
    rw [hm] at hp
    cases hp

theorem chain_kept_in_coroutine :
    ∃ fs, ∃ h : History Tables, Compile.compile 0 0 nestedYield = some fs ∧ h.vm.currentThread = 1 ∧
      h.EndsAtMain ∧ ∀ i h', h.turn (coroutineEnv fs) i = some h' →
        (h.Keeps (coroutineEnv fs) i h' ↔ h.Proper (coroutineEnv fs) i) := by
  have hrun : ((Compile.compile 0 0 nestedYield).bind fun fs =>
      (Transition.steps (History.turn (coroutineEnv fs)) false (sampleProper fs) 16
        (coroutineStart fs)).bind fun h =>
        some h.vm.currentThread) = some 1 := by decide +kernel
  obtain ⟨fs, hc, hrun⟩ := Option.bind_eq_some_iff.mp hrun
  obtain ⟨h, hs, ht⟩ := Option.bind_eq_some_iff.mp hrun
  have hr := Transition.steps_reachable (fun _ => sampleProper_proper) hs
  exact ⟨fs, h, hc, Option.some.inj ht, History.chain_kept_iff_proper hr⟩

/-- The yield of a coroutine that another coroutine resumed: the first is left without a caller, and
the main thread is lost. -/
theorem nested_yield_loses_main :
    ¬ ∀ (E : Env Tables) (w : World Tables) (script : Nat) (h : History Tables),
      Transition.Reachable (History.turn E) (fun _ _ => True)
        (.start (VM.interpret E w script)) h →
      h.EndsAtMain ∧ ∀ i h', h.turn E i = some h' → h.Keeps E i h' := by
  intro hall
  have hrun : ((Compile.compile 0 0 nestedYield).bind fun fs =>
      (Transition.steps (History.turn (coroutineEnv fs)) false (fun _ => true) 29
        (coroutineStart fs)).bind fun h =>
        some (h.vm.currentThread, (h.vm.threads 1).caller)) = some (1, none) := by decide +kernel
  obtain ⟨fs, hc, hrun⟩ := Option.bind_eq_some_iff.mp hrun
  obtain ⟨h, hs, ht⟩ := Option.bind_eq_some_iff.mp hrun
  obtain ⟨hcur, hcaller⟩ := Prod.mk.inj (Option.some.inj ht)
  have hr := @Transition.steps_reachable _ _ _ (fun _ _ => True) _ _ _ _ _ (fun _ _ => trivial) hs
  obtain ⟨⟨path, -, hp⟩, -⟩ := hall _ _ _ h hr
  rw [hcur] at hp
  exact absurd (hp.eq_last hp.start_mem hcaller) (by decide)

end ToiLang
