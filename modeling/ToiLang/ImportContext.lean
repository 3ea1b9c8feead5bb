import ToiLang.Transition
import ToiLang.Vm.ModuleFrames
import ToiLang.Vm.Sample

namespace ToiLang

namespace Links

/-- The current thread and the callers are threads that were made. -/
structure Made (l : Links) : Prop where
  current : l.currentThread < l.nextThread
  callers : ∀ t c, l.callers t = some c → c < l.nextThread

theorem Made.clear {l : Links} (h : l.Made) {t k c : Nat}
    (hk : Function.update l.callers t none k = some c) : c < l.nextThread := by
  by_cases htk : k = t
  · subst htk
    rw [Function.update_self] at hk
    cases hk
  · rw [Function.update_of_ne htk] at hk
    exact h.callers k c hk

theorem Made.follows {l l' : Links} {m : Handover} (h : l.Made) (hf : l.Follows l' m)
    (hr : ∀ t, m = .resume t → t < l.nextThread)
    (hc : ∀ c, m = .yieldTo c ∨ m = .returnTo c → l.callers l.currentThread = some c) : l'.Made := by
  rcases hf with rfl | ⟨-, rfl⟩
  · cases m with
    | stay => exact h
    | resume t =>
      refine ⟨hr t rfl, fun k c hk => ?_⟩
      have hu : Function.update l.callers t (some l.currentThread) k = some c := hk
      by_cases hkt : k = t
      · subst hkt
        rw [Function.update_self] at hu
        exact Option.some.inj hu ▸ h.current
      · rw [Function.update_of_ne hkt] at hu
        exact h.callers k c hu
    | yieldTo c => exact ⟨h.callers _ c (hc c (.inl rfl)), fun k b hk => h.clear hk⟩
    | returnTo c => exact ⟨h.callers _ c (hc c (.inr rfl)), fun k b hk => h.clear hk⟩
    | overflow => exact ⟨h.current, fun k b hk => h.clear hk⟩
  · exact ⟨Nat.lt_succ_of_lt h.current, fun k b hk => Nat.lt_succ_of_lt (h.clear hk)⟩

end Links

namespace VM

variable {W : Type} {E : Env W} {vm vm' : VM W} {i : Bool}

theorem dropFrames_world (vm : VM W) (n : Nat) : (vm.dropFrames n).toWorld = vm.toWorld := by
  induction n generalizing vm with
  | zero => rfl
  | succ n ih => exact ih _

theorem unwind_world (vm : VM W) (hs : List ExceptionHandler) : (vm.unwind hs).toWorld = vm.toWorld := by
  induction hs generalizing vm with
  | nil => rfl
  | cons h hs ih =>
    have hd := vm.dropFrames_world (vm.thread.frameCount - h.frameCount)
    simp only [unwind]
    split_ifs
    · exact hd
    · exact hd
    · exact hd
    · exact (ih _).trans hd

theorem handleException_world (vm : VM W) : vm.handleException.toWorld = vm.toWorld := by
  unfold handleException
  split
  · exact vm.unwind_world _
  · rfl

theorem handleException_imports (vm : VM W) :
    vm.handleException.imports = Function.update vm.imports vm.currentThread
      ((vm.imports vm.currentThread).take
        (vm.handleException.threads vm.currentThread).frameCount) := by
  have h := vm.ctl.imports_handleException
  rw [← ctl_handleException] at h
  exact h

theorem handleException_frameCount (vm : VM W) :
    (vm.handleException.threads vm.currentThread).frameCount ≤ vm.thread.frameCount := by
  have h := congrArg List.length (congrFun vm.handleException_imports vm.currentThread)
  rw [Function.update_self, List.length_take, imports_length, imports_length] at h
  have hle := Nat.min_le_right (vm.handleException.threads vm.currentThread).frameCount
    (vm.threads vm.currentThread).frameCount
  rw [← h] at hle
  exact hle

theorem turn_made (hm : vm.links.Made) (hu : vm.Unused) (h : (vm.turn E i).settle = some vm') :
    vm'.links.Made := by
  obtain ⟨m, hp, hf⟩ := vm.turn_possible h
  refine hm.follows hf (fun t ht => ?_) (fun c hc => ?_)
  · subst ht
    by_contra hge
    exact hp (hu t (Nat.not_lt.mp hge))
  · rcases hc with rfl | rfl
    · exact hp
    · exact hp

end VM

/-- An import in progress: its module and the importer's globals before it. -/
structure Pending where
  name : Bytes
  globals : ModuleGlobals
  deriving DecidableEq, Repr

def ModuleContext.pending (c : ModuleContext) : Pending := ⟨c.cacheName, c.saved⟩

/-- The machine with a log of its imports: those that the frames of each thread execute, and how
often the body of each module was started and came to its end. -/
structure ImportLog (W : Type) where
  vm : VM W
  pending : Nat → List (Option Pending)
  starts : Bytes → Nat
  completions : Bytes → Nat

namespace ImportLog

variable {W : Type} {E : Env W} {i : Bool}

def start (vm : VM W) : ImportLog W where
  vm := vm
  pending := fun t => List.replicate (vm.threads t).frameCount none
  starts := fun _ => 0
  completions := fun _ => 0

/-- The imports of the frames of the current thread. -/
def current (h : ImportLog W) : List (Option Pending) := h.pending h.vm.currentThread

/-- The module whose body a step starts: an import after which the thread has one more frame. -/
def started (E : Env W) (i : Bool) (h : ImportLog W) (vm' : VM W) : Option Bytes :=
  match h.vm.executed E i with
  | some (.opImport, args) =>
    if (vm'.threads h.vm.currentThread).frameCount = h.vm.thread.frameCount + 1 then
      match h.vm.constant E (args.getD 0 0).toNat with
      | .string name => some name
      | _ => none
    else none
  | _ => none

/-- The module whose body a step ends: a return in the frame of the body. -/
def completed (E : Env W) (i : Bool) (h : ImportLog W) : Option Bytes :=
  match h.vm.executed E i with
  | some (.opReturn, _) | some (.opReturnN, _) => h.current.getLast?.join.map Pending.name
  | _ => none

def count (f : Bytes → Nat) : Option Bytes → Bytes → Nat
  | none => f
  | some n => Function.update f n (f n + 1)

/-- The log after a step: the frames that are gone are dropped, and a new frame is that of the body
that the step starts, or of no body. -/
def next (E : Env W) (i : Bool) (h : ImportLog W) (vm' : VM W) : ImportLog W where
  vm := vm'
  pending := fun t =>
    let kept := (h.pending t).take (vm'.threads t).frameCount
    let body := if t = h.vm.currentThread then h.started E i vm' else none
    kept ++ List.replicate ((vm'.threads t).frameCount - kept.length)
      (body.map fun name => ⟨name, h.vm.moduleGlobals⟩)
  starts := count h.starts (h.started E i vm')
  completions := count h.completions (h.completed E i)

def turn (E : Env W) (i : Bool) (h : ImportLog W) : Option (ImportLog W) :=
  (h.vm.turn E i).settle.map (h.next E i)

/-- The frames of the current thread that a step to `vm'` takes away. -/
def gone (h : ImportLog W) (vm' : VM W) : List (Option Pending) :=
  h.current.drop (vm'.threads h.vm.currentThread).frameCount

/-- Once control is back below the frame of an import, or the import started no body, the globals
are those before the import. -/
structure Restores (E : Env W) (i : Bool) (h h' : ImportLog W) : Prop where
  unchanged : ∀ args, h.vm.executed E i = some (.opImport, args) → h.started E i h'.vm = none →
    h'.vm.moduleGlobals = h.vm.moduleGlobals
  ended : ∀ p, (h.gone h'.vm).findSome? id = some p →
    0 < (h'.vm.threads h.vm.currentThread).frameCount → h'.vm.moduleGlobals = p.globals

/-- The frames that `handle_exception` drops from a machine with an exception. -/
def dropped (v : VM W) : List (Option ModuleContext) :=
  (v.imports v.currentThread).drop (v.handleException.threads v.currentThread).frameCount

/-- An exception that is caught drops no frame of an import, or the importer's globals are those
before the import when it is raised. -/
def Undisturbed (E : Env W) (i : Bool) (h : ImportLog W) : Prop :=
  ∀ v, h.vm.turn E i = .error v → ∀ c, (dropped v).findSome? id = some c →
    0 < (v.handleException.threads v.currentThread).frameCount → v.moduleGlobals = c.saved

/-- A return takes off the frame that the interpreter is in. -/
def OnTop (E : Env W) (i : Bool) (h : ImportLog W) : Prop :=
  ∀ op args, h.vm.executed E i = some (op, args) → op = .opReturn ∨ op = .opReturnN →
    h.vm.run.frameThread = h.vm.currentThread ∧ h.vm.run.frameIndex + 1 = h.vm.thread.frameCount

/-- A body is started only where every earlier start of the same body came to its end. -/
def Sequential (E : Env W) (i : Bool) (h : ImportLog W) : Prop :=
  ∀ vm' name, (h.vm.turn E i).settle = some vm' → h.started E i vm' = some name →
    h.starts name = h.completions name

structure Proper (E : Env W) (i : Bool) (h : ImportLog W) : Prop where
  undisturbed : h.Undisturbed E i
  onTop : h.OnTop E i
  sequential : h.Sequential E i

/-- The log agrees with what the frames have saved, and the modules that came to their end are
cached. -/
structure Inv (h : ImportLog W) : Prop where
  made : h.vm.links.Made
  unused : h.vm.Unused
  pending : ∀ t, h.pending t = (h.vm.imports t).map (Option.map ModuleContext.pending)
  cached : ∀ n, 0 < h.completions n → (h.vm.modules n).isSome
  once : ∀ n, h.starts n ≤ 1

theorem turn_eq {h h' : ImportLog W} (ht : h.turn E i = some h') :
    (h.vm.turn E i).settle = some h'.vm ∧ h' = h.next E i h'.vm := by
  obtain ⟨vm', hs, rfl⟩ := Option.map_eq_some_iff.mp ht
  exact ⟨hs, rfl⟩

/-- A step without an exception, and one whose exception is handled. -/
theorem settle_booked (hE : E.KeepsImports) {vm vm' : VM W} (hs : (vm.turn E i).settle = some vm') :
    (∃ v, vm'.toWorld = v.toWorld ∧ vm'.imports = v.imports ∧ vm.Booked E i (vm.Imported E) v ∧
      ∀ w, vm.turn E i ≠ .error w) ∨
    ∃ v, vm.turn E i = .error v ∧ vm' = v.handleException ∧
      vm.Booked E i (fun _ => vm.NoBody) v := by
  have h := vm.turn_booked hE i
  cases ho : vm.turn E i with
  | next v =>
    rw [ho] at h hs
    obtain rfl := Option.some.inj hs
    exact .inl ⟨v, rfl, rfl, h, by simp⟩
  | switch v =>
    rw [ho] at h hs
    obtain rfl := Option.some.inj hs
    exact .inl ⟨v, rfl, rfl, h, by simp⟩
  | error v =>
    rw [ho] at h hs
    obtain rfl := Option.some.inj hs
    exact .inr ⟨v, rfl, rfl, h⟩
  | leave v ok =>
    rw [ho] at h hs
    obtain rfl := Option.some.inj hs
    exact .inl ⟨v, rfl, rfl, h, by simp⟩
  | undefined =>
    rw [ho] at hs
    cases hs

section NextPending

variable {h : ImportLog W} {vm' : VM W} {t : Nat}

theorem next_pending_take {k : Nat}
    (hp : h.pending t = (h.vm.imports t).map (Option.map ModuleContext.pending))
    (hi : vm'.imports t = (h.vm.imports t).take k) :
    (h.next E i vm').pending t = (vm'.imports t).map (Option.map ModuleContext.pending) := by
  have hcount : (vm'.threads t).frameCount = ((h.vm.imports t).take k).length := by
    rw [← hi, VM.imports_length]
  have hself : (h.vm.imports t).take ((h.vm.imports t).take k).length = (h.vm.imports t).take k := by
    simp [List.take_eq_take_iff]
  simp only [next, hp, hi, hcount, ← List.map_take, hself]
  simp

theorem next_pending_same
    (hp : h.pending t = (h.vm.imports t).map (Option.map ModuleContext.pending))
    (hi : vm'.imports t = h.vm.imports t) :
    (h.next E i vm').pending t = (vm'.imports t).map (Option.map ModuleContext.pending) :=
  next_pending_take (k := (h.vm.imports t).length) hp (by rw [hi, List.take_length])

theorem next_pending_grow {n : Nat} {x : Option ModuleContext}
    (hp : h.pending t = (h.vm.imports t).map (Option.map ModuleContext.pending))
    (hi : vm'.imports t = h.vm.imports t ++ List.replicate n x)
    (hx : x.map ModuleContext.pending =
      (if t = h.vm.currentThread then h.started E i vm' else none).map
        fun name => ⟨name, h.vm.moduleGlobals⟩) :
    (h.next E i vm').pending t = (vm'.imports t).map (Option.map ModuleContext.pending) := by
  have hcount : (vm'.threads t).frameCount = (h.vm.imports t).length + n := by
    rw [← VM.imports_length, hi, List.length_append, List.length_replicate]
  have hself : (h.vm.imports t).take ((h.vm.imports t).length + n) = h.vm.imports t :=
    List.take_of_length_le (by omega)
  simp only [next, hp, hi, hcount, ← List.map_take, hself, ← hx]
  simp

end NextPending

theorem started_of_ne {h : ImportLog W} {vm' : VM W}
    (hx : ∀ args, h.vm.executed E i ≠ some (.opImport, args)) : h.started E i vm' = none := by
  unfold started
  split
  next args hargs => exact absurd hargs (hx args)
  next => rfl

/-- The frames of a tame step are those of the log, and a new one is of no body. -/
theorem pending_tame {h : ImportLog W} {v vm' : VM W} (hi : h.Inv) (ht : h.vm.Tame v)
    (hstart : h.started E i vm' = none) (k : Nat)
    (hcur : vm'.imports h.vm.currentThread = (v.imports h.vm.currentThread).take k)
    (hother : ∀ t, t ≠ h.vm.currentThread → vm'.imports t = v.imports t) (t : Nat) :
    (h.next E i vm').pending t = (vm'.imports t).map (Option.map ModuleContext.pending) := by
  have hnone : ∀ t, ((if t = h.vm.currentThread then h.started E i vm' else none).map
      fun name => (⟨name, h.vm.moduleGlobals⟩ : Pending)) = none := by
    intro t
    rw [hstart]
    split
    · rfl
    · rfl
  have hsame : ∀ t, vm'.imports t = h.vm.imports t →
      (h.next E i vm').pending t = (vm'.imports t).map (Option.map ModuleContext.pending) :=
    fun t => next_pending_same (hi.pending t)
  rcases ht with ⟨-, hv | hv⟩ | ⟨-, n, hv, -⟩
  · by_cases htc : t = h.vm.currentThread
    · subst htc
      exact next_pending_take (hi.pending _) (hcur.trans (by rw [hv]))
    · exact hsame t ((hother t htc).trans (by rw [hv]))
  · by_cases htc : t = h.vm.currentThread
    · subst htc
      rw [hv, Function.update_self] at hcur
      by_cases hk : k ≤ (h.vm.imports h.vm.currentThread).length
      · rw [List.take_append_of_le_length hk] at hcur
        exact next_pending_take (hi.pending _) hcur
      · rw [List.take_of_length_le (by simp; omega)] at hcur
        exact next_pending_grow (n := 1) (x := none) (hi.pending _) hcur (hnone _).symm
    · refine hsame t ((hother t htc).trans ?_)
      rw [hv, Function.update_of_ne htc]
  · have hne : h.vm.currentThread ≠ h.vm.nextThread := Nat.ne_of_lt hi.made.current
    by_cases htc : t = h.vm.currentThread
    · subst htc
      rw [hv, Function.update_of_ne hne] at hcur
      exact next_pending_take (hi.pending _) hcur
    · have ho := hother t htc
      by_cases htn : t = h.vm.nextThread
      · subst htn
        have hempty : h.vm.imports h.vm.nextThread = [] := by
          rw [← List.length_eq_zero_iff, VM.imports_length]
          exact hi.unused _ (Nat.le_refl _)
        rw [hv, Function.update_self] at ho
        refine next_pending_grow (n := n) (x := none) (hi.pending _) ?_ (hnone _).symm
        rw [ho, hempty, List.nil_append]
      · refine hsame t (ho.trans ?_)
        rw [hv, Function.update_of_ne htn]

theorem started_of_body {h : ImportLog W} {v vm' : VM W} {args : List UInt8} {name : Bytes}
    (hx : h.vm.executed E i = some (.opImport, args))
    (hname : h.vm.constant E (args.getD 0 0).toNat = .string name)
    (hb : h.vm.StartsBody v name) (hv : vm'.imports = v.imports) :
    h.started E i vm' = some name := by
  obtain ⟨-, c, -, -, hi⟩ := hb
  have hcount : (vm'.threads h.vm.currentThread).frameCount = h.vm.thread.frameCount + 1 := by
    have h1 := vm'.imports_length h.vm.currentThread
    rw [hv, hi, Function.update_self, List.length_append, VM.imports_length] at h1
    exact h1.symm
  simp only [started, hx, hcount, ↓reduceIte, hname]

theorem step_pending (hE : E.KeepsImports) {h : ImportLog W} {vm' : VM W} (hi : h.Inv)
    (hs : (h.vm.turn E i).settle = some vm') (t : Nat) :
    (h.next E i vm').pending t = (vm'.imports t).map (Option.map ModuleContext.pending) := by
  rcases settle_booked hE hs with ⟨v, -, hv, hb, -⟩ | ⟨v, hv, rfl, hb⟩
  · have hv : ∀ t, vm'.imports t = v.imports t := congrFun hv
    rcases hb.cases with ⟨op, args, hx, -, hr⟩ | ⟨args, hx, hr⟩ | ⟨hx, ht⟩
    · by_cases htc : t = h.vm.currentThread
      · subst htc
        have htop : vm'.imports h.vm.currentThread =
            (h.vm.imports h.vm.currentThread).take (h.vm.thread.frameCount - 1) := by
          rw [hv, hr.imports, Function.update_self]
        exact next_pending_take (hi.pending _) htop
      · refine next_pending_same (hi.pending t) ((hv t).trans ?_)
        rw [hr.imports, Function.update_of_ne htc]
    · rcases hr with ⟨-, name, hname, hbody⟩ | hno
      · have hstart := started_of_body hx hname hbody (funext hv)
        obtain ⟨-, c, rfl, hsaved, himp⟩ := hbody
        by_cases htc : t = h.vm.currentThread
        · subst htc
          refine next_pending_grow (n := 1) (x := some c) (hi.pending _) ?_ ?_
          · rw [hv, himp, Function.update_self]
            rfl
          · rw [if_pos rfl, hstart, ← hsaved]
            rfl
        · refine next_pending_same (hi.pending t) ((hv t).trans ?_)
          rw [himp, Function.update_of_ne htc]
      · exact next_pending_same (hi.pending t) ((hv t).trans (congrFun hno.imports t))
    · refine pending_tame hi ht (started_of_ne fun args ha => (hx _ _ ha).2.2 rfl)
        (v.imports h.vm.currentThread).length ?_ (fun t _ => hv t) t
      rw [hv, List.take_length]
  · have hcur := VM.error_currentThread hv
    have himp := v.handleException_imports
    rw [hcur] at himp
    have hother : ∀ t, t ≠ h.vm.currentThread → v.handleException.imports t = v.imports t := by
      intro t htc
      rw [himp, Function.update_of_ne htc]
    have htop : v.handleException.imports h.vm.currentThread =
        (v.imports h.vm.currentThread).take
          (v.handleException.threads h.vm.currentThread).frameCount := by
      rw [himp, Function.update_self]
    rcases hb.cases with ⟨op, args, hx, -, hr⟩ | ⟨args, hx, hr⟩ | ⟨hx, ht⟩
    · by_cases htc : t = h.vm.currentThread
      · subst htc
        rw [hr.imports, Function.update_self, List.take_take] at htop
        exact next_pending_take (hi.pending _) htop
      · refine next_pending_same (hi.pending t) ((hother t htc).trans ?_)
        rw [hr.imports, Function.update_of_ne htc]
    · by_cases htc : t = h.vm.currentThread
      · subst htc
        rw [hr.imports] at htop
        exact next_pending_take (hi.pending _) htop
      · refine next_pending_same (hi.pending t) ((hother t htc).trans ?_)
        rw [hr.imports]
    · exact pending_tame hi ht (started_of_ne fun args ha => (hx _ _ ha).2.2 rfl) _ htop hother t

/-- The frame that a proper return is in is the last one of its thread. -/
theorem imports_getLast {vm : VM W} (ht : vm.run.frameThread = vm.currentThread)
    (hn : vm.run.frameIndex + 1 = vm.thread.frameCount) :
    vm.imports vm.currentThread =
      (vm.imports vm.currentThread).take (vm.thread.frameCount - 1) ++ [vm.frame.module] := by
  have himp : vm.imports vm.currentThread =
      (List.range (vm.run.frameIndex + 1)).map fun j => (vm.thread.frames j).module := by
    rw [hn]
    rfl
  have hframe : vm.frame.module = (vm.thread.frames vm.run.frameIndex).module := by
    rw [VM.frame, ht]
    rfl
  rw [himp, ← hn, hframe, ← List.map_take, List.take_range, List.range_succ]
  simp

theorem settle_modules (hE : E.KeepsImports) {vm vm' : VM W}
    (hs : (vm.turn E i).settle = some vm') : vm.toWorld.ModulesLe vm'.toWorld := by
  have hbook : ∀ {S : List UInt8 → VM W → Prop} {v : VM W},
      (∀ args, S args v → vm.toWorld.ModulesLe v.toWorld) → vm.Booked E i S v →
      vm.toWorld.ModulesLe v.toWorld := by
    intro S v hS hb
    rcases hb.cases with ⟨op, args, -, -, hr⟩ | ⟨args, -, hr⟩ | ⟨-, ⟨hm, -⟩ | ⟨hm, -⟩⟩
    · exact hr.modules
    · exact hS args hr
    · exact hm
    · exact hm
  rcases settle_booked hE hs with ⟨v, hw, -, hb, -⟩ | ⟨v, -, rfl, hb⟩
  · rw [hw]
    refine hbook (fun args h => ?_) hb
    rcases h with ⟨hm, -⟩ | h
    · exact hm
    · exact h.modules
  · rw [v.handleException_world]
    exact hbook (fun _ h => h.modules) hb

/-- Where a body ends its module is in the cache. -/
theorem completed_cached (hE : E.KeepsImports) {h : ImportLog W} {vm' : VM W} {name : Bytes}
    (hi : h.Inv) (hon : h.OnTop E i) (hs : (h.vm.turn E i).settle = some vm')
    (hc : h.completed E i = some name) : (vm'.modules name).isSome := by
  obtain ⟨op, args, hx, hop, hlast⟩ : ∃ op args, h.vm.executed E i = some (op, args) ∧
      (op = .opReturn ∨ op = .opReturnN) ∧ h.current.getLast?.join.map Pending.name = some name := by
    unfold completed at hc
    split at hc
    next args hx => exact ⟨_, args, hx, .inl rfl, hc⟩
    next args hx => exact ⟨_, args, hx, .inr rfl, hc⟩
    next => cases hc
  obtain ⟨ht, hn⟩ := hon op args hx hop
  have himp := imports_getLast ht hn
  rw [current, hi.pending, himp] at hlast
  simp only [List.map_append, List.map_cons, List.map_nil, List.getLast?_concat, Option.join_some,
    Option.map_map] at hlast
  obtain ⟨c, hmod, rfl⟩ := Option.map_eq_some_iff.mp hlast
  have hret : ∀ {S : List UInt8 → VM W → Prop} {v : VM W}, h.vm.Booked E i S v →
      (v.modules c.cacheName).isSome := by
    intro S v hb
    rcases hb.cases with ⟨_, _, -, -, hr⟩ | ⟨args', hx', -⟩ | ⟨hno, -⟩
    · exact hr.cached c hmod
    · rw [hx] at hx'
      rcases hop with rfl | rfl
      · cases hx'
      · cases hx'
    · obtain ⟨h1, h2, -⟩ := hno op args hx
      rcases hop with rfl | rfl
      · exact absurd rfl h1
      · exact absurd rfl h2
  rcases settle_booked hE hs with ⟨v, hw, -, hb, -⟩ | ⟨v, -, rfl, hb⟩
  · rw [hw]
    exact hret hb
  · rw [v.handleException_world]
    exact hret hb

/-- A body is started only where its module is not cached. -/
theorem started_uncached (hE : E.KeepsImports) {h : ImportLog W} {vm' : VM W} {name : Bytes}
    (hs : (h.vm.turn E i).settle = some vm') (hstart : h.started E i vm' = some name) :
    h.vm.modules name = none := by
  obtain ⟨args, hx, hcount, hname⟩ : ∃ args, h.vm.executed E i = some (.opImport, args) ∧
      (vm'.threads h.vm.currentThread).frameCount = h.vm.thread.frameCount + 1 ∧
      h.vm.constant E (args.getD 0 0).toNat = .string name := by
    unfold started at hstart
    split at hstart
    next args hx =>
      split_ifs at hstart with hcount
      refine ⟨args, hx, hcount, ?_⟩
      split at hstart
      next n hn => rw [hn, Option.some.inj hstart]
      next => cases hstart
    next => cases hstart
  have hlen : ∀ {v : VM W}, v.imports = h.vm.imports →
      (v.threads h.vm.currentThread).frameCount = h.vm.thread.frameCount := by
    intro v hv
    rw [← VM.imports_length, hv, VM.imports_length]
    rfl
  rcases settle_booked hE hs with ⟨v, -, hv, hb, -⟩ | ⟨v, hv, rfl, hb⟩
  · rcases hb.cases with ⟨op, args', hx', hop, -⟩ | ⟨args', hx', hr⟩ | ⟨hno, -⟩
    · rw [hx] at hx'
      rcases hop with rfl | rfl
      · cases hx'
      · cases hx'
    · obtain rfl := congrArg Prod.snd (Option.some.inj (hx.symm.trans hx'))
      rcases hr with ⟨-, n, hn, hnone, -⟩ | hr
      · obtain rfl : name = n := by simpa using hname.symm.trans hn
        exact hnone
      · have := hlen (hv.trans hr.imports)
        omega
    · exact absurd rfl (hno _ _ hx).2.2
  · have hcur := VM.error_currentThread hv
    have hle := v.handleException_frameCount
    rw [hcur] at hle
    rcases hb.cases with ⟨op, args', hx', hop, -⟩ | ⟨args', hx', hr⟩ | ⟨hno, -⟩
    · rw [hx] at hx'
      rcases hop with rfl | rfl
      · cases hx'
      · cases hx'
    · have h1 := hlen hr.imports
      have h2 : v.thread.frameCount = h.vm.thread.frameCount := by
        rw [VM.thread, hcur]
        exact h1
      omega
    · exact absurd rfl (hno _ _ hx).2.2

theorem step_inv (hE : E.KeepsImports) {h h' : ImportLog W} (hi : h.Inv) (hp : h.Proper E i)
    (ht : h.turn E i = some h') : h'.Inv := by
  obtain ⟨hs, hnext⟩ := turn_eq ht
  generalize h'.vm = vm' at hs hnext
  subst hnext
  have hmod := settle_modules hE hs
  refine ⟨VM.turn_made hi.made hi.unused hs, VM.turn_unused hi.made.current hi.unused hs,
    step_pending hE hi hs, fun n hn => ?_, fun n => ?_⟩
  · show (vm'.modules n).isSome
    have hn : 0 < count h.completions (h.completed E i) n := hn
    cases hc : h.completed E i with
    | none =>
      rw [hc] at hn
      exact hmod n (hi.cached n hn)
    | some name =>
      by_cases hname : n = name
      · subst hname
        exact completed_cached hE hi hp.onTop hs hc
      · rw [hc, count, Function.update_of_ne hname] at hn
        exact hmod n (hi.cached n hn)
  · show count h.starts (h.started E i vm') n ≤ 1
    cases hc : h.started E i vm' with
    | none => exact hi.once n
    | some name =>
      by_cases hname : n = name
      · subst hname
        have hnone := started_uncached hE hs hc
        have hseq := hp.sequential vm' n hs hc
        have hzero : ¬0 < h.completions n := fun hpos => by simpa [hnone] using hi.cached n hpos
        rw [count, Function.update_self]
        omega
      · rw [count, Function.update_of_ne hname]
        exact hi.once n

theorem findSome_map {α β : Type} (f : α → β) (l : List (Option α)) :
    (l.map (Option.map f)).findSome? id = (l.findSome? id).map f := by
  induction l with
  | nil => rfl
  | cons x l ih =>
    cases x with
    | none => exact ih
    | some a => rfl

theorem findSome_drop_append_none {α : Type} (l : List (Option α)) (k : Nat) :
    ((l ++ [none]).drop k).findSome? id = (l.drop k).findSome? id := by
  have hnone : ([none].drop (k - l.length) : List (Option α)).findSome? id = none := by
    cases k - l.length with
    | zero => rfl
    | succ n => simp
  rw [List.drop_append, List.findSome?_append, hnone, Option.or_none]

/-- The first import whose frame is among those that are gone. -/
theorem gone_find {h : ImportLog W} (hi : h.Inv) (vm' : VM W) :
    (h.gone vm').findSome? id =
      (((h.vm.imports h.vm.currentThread).drop
        (vm'.threads h.vm.currentThread).frameCount).findSome? id).map ModuleContext.pending := by
  rw [gone, current, hi.pending, ← List.map_drop, findSome_map]

theorem restores_of {h h' : ImportLog W} (hi : h.Inv)
    (hu : ∀ args, h.vm.executed E i = some (.opImport, args) → h.started E i h'.vm = none →
      h'.vm.moduleGlobals = h.vm.moduleGlobals)
    (he : ∀ c, ((h.vm.imports h.vm.currentThread).drop
        (h'.vm.threads h.vm.currentThread).frameCount).findSome? id = some c →
      0 < (h'.vm.threads h.vm.currentThread).frameCount → h'.vm.moduleGlobals = c.saved) :
    h.Restores E i h' := by
  refine ⟨hu, fun p hp hpos => ?_⟩
  rw [gone_find hi] at hp
  obtain ⟨c, hc, rfl⟩ := Option.map_eq_some_iff.mp hp
  exact he c hc hpos

theorem Restores.saved {h h' : ImportLog W} (hi : h.Inv) (hr : h.Restores E i h') {c : ModuleContext}
    (hc : ((h.vm.imports h.vm.currentThread).drop
      (h'.vm.threads h.vm.currentThread).frameCount).findSome? id = some c)
    (hpos : 0 < (h'.vm.threads h.vm.currentThread).frameCount) :
    h'.vm.moduleGlobals = c.saved :=
  hr.ended c.pending (by rw [gone_find hi, hc]; rfl) hpos

/-- The frames of a tame step that go back to the current thread hold the imports of before. -/
theorem find_tame {h : ImportLog W} {v : VM W} (hi : h.Inv) (ht : h.vm.Tame v) (k : Nat) :
    ((v.imports h.vm.currentThread).drop k).findSome? id =
      ((h.vm.imports h.vm.currentThread).drop k).findSome? id := by
  rcases ht with ⟨-, hv | hv⟩ | ⟨-, n, hv, -⟩
  · rw [hv]
  · rw [hv, Function.update_self, findSome_drop_append_none]
  · have hne : h.vm.currentThread ≠ h.vm.nextThread := Nat.ne_of_lt hi.made.current
    rw [hv, Function.update_of_ne hne]

/-- A step without an exception restores the globals of the import that it ends. -/
theorem restores_of_quiet {h h' : ImportLog W} (hi : h.Inv)
    (hon : h.OnTop E i) {v : VM W} (hw : h'.vm.toWorld = v.toWorld)
    (hv : h'.vm.imports = v.imports) (hb : h.vm.Booked E i (h.vm.Imported E) v) :
    h.Restores E i h' := by
  have hlen : (h'.vm.threads h.vm.currentThread).frameCount =
      (v.imports h.vm.currentThread).length := by
    rw [← hv, VM.imports_length]
  have hglobals : h'.vm.moduleGlobals = v.moduleGlobals := by rw [hw]
  rcases hb.cases with ⟨op, args, hx, hop, hr⟩ | ⟨args, hx, hr⟩ | ⟨hx, ht⟩
  · obtain ⟨hf, hn⟩ := hon op args hx hop
    refine restores_of hi (fun args' hx' _ => ?_) fun c hc _ => ?_
    · rw [hx] at hx'
      rcases hop with rfl | rfl
      · cases hx'
      · cases hx'
    · have hgone : ((h.vm.imports h.vm.currentThread).drop
          ((h.vm.imports h.vm.currentThread).take (h.vm.thread.frameCount - 1)).length) =
          [h.vm.frame.module] := by
        conv_lhs =>
          arg 2
          rw [imports_getLast hf hn]
        exact List.drop_left
      rw [hlen, hr.imports, Function.update_self, hgone] at hc
      have hmod : h.vm.frame.module = some c := by
        cases hm : h.vm.frame.module with
        | none => simp [hm] at hc
        | some b => simpa [hm] using hc
      rw [hglobals, hr.globals, VM.restoreModuleContext_globals, hmod]
  · rcases hr with ⟨-, name, hname, hbody⟩ | hno
    · have hstart := started_of_body hx hname hbody hv
      obtain ⟨-, c, -, -, himp⟩ := hbody
      refine restores_of hi (fun _ _ hnone => ?_) fun c' hc _ => ?_
      · rw [hstart] at hnone
        cases hnone
      · rw [hlen, himp, Function.update_self, List.drop_of_length_le (by simp)] at hc
        cases hc
    · refine restores_of hi (fun _ _ _ => hglobals.trans hno.globals) fun c hc _ => ?_
      rw [hlen, hno.imports, List.drop_length] at hc
      cases hc
  · refine restores_of hi (fun args hx' _ => absurd rfl (hx _ _ hx').2.2) fun c hc _ => ?_
    rw [hlen, ← find_tame hi ht, List.drop_length] at hc
    cases hc

/-- A step with an exception restores the globals where it is undisturbed, if the frames that it
takes away and those that `handle_exception` drops ask the same of the globals. -/
theorem restores_iff_of_dropped {h h' : ImportLog W} (hi : h.Inv) {v : VM W}
    (hv : h.vm.turn E i = .error v) (hv' : h'.vm = v.handleException)
    (hu : ∀ args, h.vm.executed E i = some (.opImport, args) →
      v.moduleGlobals = h.vm.moduleGlobals)
    (hd : ∀ c k, k ≤ (v.imports h.vm.currentThread).length →
      (((v.imports h.vm.currentThread).drop k).findSome? id = some c →
        v.moduleGlobals = c.saved) →
      ((h.vm.imports h.vm.currentThread).drop k).findSome? id = some c →
        v.moduleGlobals = c.saved)
    (hd' : ∀ c k, ((v.imports h.vm.currentThread).drop k).findSome? id = some c →
      ((h.vm.imports h.vm.currentThread).drop k).findSome? id = some c) :
    h.Restores E i h' ↔ h.Undisturbed E i := by
  have hcur := VM.error_currentThread hv
  have hglobals : h'.vm.moduleGlobals = v.moduleGlobals := by rw [hv', v.handleException_world]
  have hle : (h'.vm.threads h.vm.currentThread).frameCount ≤
      (v.imports h.vm.currentThread).length := by
    rw [hv', VM.imports_length, ← hcur]
    exact v.handleException_frameCount
  constructor
  · intro hr u hu' c hc hpos
    obtain rfl := Outcome.error.inj (hv.symm.trans hu')
    rw [dropped, hcur, ← hv'] at hc
    rw [hcur, ← hv'] at hpos
    exact hglobals.symm.trans (hr.saved hi (hd' c _ hc) hpos)
  · intro hr
    refine restores_of hi (fun args hx _ => hglobals.trans (hu args hx)) fun c hc hpos => ?_
    refine hglobals.trans (hd c _ hle (fun hc' => ?_) hc)
    refine hr v hv c ?_ ?_
    · rw [dropped, hcur, ← hv']
      exact hc'
    · rw [hcur, ← hv']
      exact hpos

theorem restores_iff_of_error {h h' : ImportLog W} (hi : h.Inv) (hon : h.OnTop E i) {v : VM W}
    (hv : h.vm.turn E i = .error v) (hv' : h'.vm = v.handleException)
    (hb : h.vm.Booked E i (fun _ => h.vm.NoBody) v) :
    h.Restores E i h' ↔ h.Undisturbed E i := by
  rcases hb.cases with ⟨op, args, hx, hop, hr⟩ | ⟨args, hx, hno⟩ | ⟨hx, ht⟩
  · obtain ⟨hf, hn⟩ := hon op args hx hop
    have himp : h.vm.imports h.vm.currentThread =
        v.imports h.vm.currentThread ++ [h.vm.frame.module] := by
      rw [hr.imports, Function.update_self]
      exact imports_getLast hf hn
    refine restores_iff_of_dropped hi hv hv' (fun args' hx' => ?_) (fun c k hk hc => ?_)
      fun c k hc => ?_
    · rw [hx] at hx'
      rcases hop with rfl | rfl
      · cases hx'
      · cases hx'
    · -- the frame of the return is gone as well, and its globals are those that it restores
      rw [himp, List.drop_append_of_le_length hk, List.findSome?_append]
      cases hfirst : ((v.imports h.vm.currentThread).drop k).findSome? id with
      | some b =>
        rw [hfirst] at hc
        exact hc
      | none =>
        intro hlast
        have hmod : h.vm.frame.module = some c := by
          cases hm : h.vm.frame.module with
          | none => simp [hm] at hlast
          | some b => simpa [hm] using hlast
        rw [hr.globals, VM.restoreModuleContext_globals, hmod]
    · rw [himp, List.drop_append, List.findSome?_append, hc]
      rfl
  · refine restores_iff_of_dropped hi hv hv' (fun _ _ => hno.globals) (fun c k _ hc => ?_)
      fun c k hc => ?_
    · rw [hno.imports] at hc
      exact hc
    · rw [hno.imports] at hc
      exact hc
  · refine restores_iff_of_dropped hi hv hv' (fun args hx' => absurd rfl (hx _ _ hx').2.2)
      (fun c k _ hc => ?_) fun c k hc => ?_
    · rw [find_tame hi ht] at hc
      exact hc
    · rw [find_tame hi ht] at hc
      exact hc

/-- A step restores the globals of the imports that it ends exactly where it is undisturbed. -/
theorem restores_iff_undisturbed (hE : E.KeepsImports) {h h' : ImportLog W} (hi : h.Inv)
    (ht : h.turn E i = some h') (hon : h.OnTop E i) :
    h.Restores E i h' ↔ h.Undisturbed E i := by
  obtain ⟨hs, -⟩ := turn_eq ht
  rcases settle_booked hE hs with ⟨v, hw, hv, hb, hno⟩ | ⟨v, hv, hv', hb⟩
  · exact ⟨fun _ u hu => absurd hu (hno u), fun _ => restores_of_quiet hi hon hw hv hb⟩
  · exact restores_iff_of_error hi hon hv hv' hb

theorem start_inv (hE : E.KeepsImports) (w : World W) (script : Nat) :
    (start (VM.interpret E w script)).Inv := by
  have hlinks := VM.interpret_links E w script
  refine ⟨⟨?_, fun t c hc => ?_⟩, VM.interpret_unused E w script, fun t => ?_, fun n hn => ?_,
    fun n => Nat.zero_le 1⟩
  · show (VM.interpret E w script).links.currentThread < (VM.interpret E w script).links.nextThread
    rw [hlinks]
    exact Nat.one_pos
  · have hc : (VM.interpret E w script).links.callers t = some c := hc
    rw [hlinks] at hc
    cases hc
  · have hnone := VM.interpret_imports hE w script t
    refine (List.eq_replicate_iff.mpr ⟨?_, fun x hx => ?_⟩).symm
    · rw [List.length_map, VM.imports_length]
      rfl
    · obtain ⟨y, hy, rfl⟩ := List.mem_map.mp hx
      rw [hnone y hy]
      rfl
  · exact absurd hn (Nat.lt_irrefl 0)

theorem reaches_inv (hE : E.KeepsImports) {w : World W} {script : Nat} {h : ImportLog W}
    (hrun : Transition.Reachable (turn E) (Proper E) (start (VM.interpret E w script)) h) : h.Inv :=
  hrun.invariant (start_inv hE w script) fun _ _ _ hi hp ht => step_inv hE hi hp ht

/-- A module whose body came to its end is not started again. -/
theorem starts_of_completed (hE : E.KeepsImports) {h h' : ImportLog W} (hi : h.Inv)
    (ht : h.turn E i = some h') {n : Bytes} (hn : 0 < h.completions n) : h'.starts n = h.starts n := by
  obtain ⟨hs, hnext⟩ := turn_eq ht
  rw [hnext]
  show count h.starts (h.started E i h'.vm) n = h.starts n
  cases hc : h.started E i h'.vm with
  | none => rfl
  | some name =>
    have hne : n ≠ name := by
      rintro rfl
      have hcached := hi.cached n hn
      rw [started_uncached hE hs hc] at hcached
      cases hcached
    rw [count, Function.update_of_ne hne]

end ImportLog

/-- Every import finds the file of the first of `fs`. -/
def importEnv (fs : List ObjFunction) : Env Tables :=
  { sampleEnv fs with importModule := fun _ _ => .file 0 (ascii "m.toi") }

theorem sampleData_world (w : World Tables) (op : OpCode) (vs : List Value) :
    w.ModulesLe (sampleData w op vs).world := by
  unfold sampleData
  split
  · exact .refl w
  · exact .refl w
  · exact .refl w
  · exact .refl w
  · exact .refl w

theorem importEnv_keeps (fs : List ObjFunction) : (importEnv fs).KeepsImports where
  newTable := fun w _ => .refl w
  spreadNamed := fun w a r hr => by cases hr
  bindNamed := fun w _ _ => .refl w
  data := sampleData_world
  importModule := fun w n w' h => by cases h
  importGlobals := fun w n w' h => by cases h
  printValue := fun w _ => .refl w
  printNewline := .refl
  collectGarbage := .refl
  native := fun w n s input w' h => by
    have hn : (sampleNative w input).world = some w' := h
    unfold sampleNative at hn
    split at hn
    · cases Option.some.inj hn
      exact .refl w
    · cases Option.some.inj hn
      exact .refl w

/-- A module and a script that imports it in a `try` with an empty handler. -/
def importInTry (body : Stmts) : Option (List ObjFunction) :=
  let script : Stmts :=
    .cons (.tryStmt (.cons (.importStmt [(ascii "m", ascii "m")]) .nil)
      (.some none .none (.cons (.expression .literalNil) .nil)) .none) .nil
  (Compile.compile 0 0 body).bind fun ms => (Compile.compile ms.length 0 script).map (ms ++ ·)

def importStart (fs : List ObjFunction) : ImportLog Tables :=
  .start (VM.interpret (importEnv fs) sampleWorld (fs.length - 1))

/-- A step without an exception that is in the current thread's top frame and starts no body that
has not come to its end before. -/
def importQuiet (fs : List ObjFunction) (h : ImportLog Tables) : Bool :=
  match h.vm.turn (importEnv fs) false with
  | .next vm' =>
    h.vm.run.frameThread = h.vm.currentThread && h.vm.run.frameIndex + 1 = h.vm.thread.frameCount &&
      match h.started (importEnv fs) false vm' with
      | some name => h.starts name = h.completions name
      | none => true
  | _ => false

theorem importQuiet_proper {fs : List ObjFunction} {h : ImportLog Tables}
    (hq : importQuiet fs h = true) : h.Proper (importEnv fs) false := by
  unfold importQuiet at hq
  split at hq
  next vm' hv =>
    simp only [Bool.and_eq_true, decide_eq_true_eq] at hq
    obtain ⟨htop, hseq⟩ := hq
    refine ⟨fun v he => ?_, fun _ _ _ _ => htop, fun vm'' name hs hn => ?_⟩
    · rw [hv] at he
      cases he
    · rw [hv] at hs
      obtain rfl := Option.some.inj hs
      rw [hn] at hseq
      exact of_decide_eq_true hseq
  next => cases hq

end ToiLang
