import Mathlib.Data.List.Nodup
import Mathlib.Order.Nat
import Mathlib.Logic.Function.Basic
import ToiLang.Transition

namespace ToiLang.Scheduler

/-! `lib/scheduler.toi` with tasks that do what they like, and a clock that does not go back. -/

/-- Where the code is: outside of `Scheduler.run`, in front of its loop condition, or in a round, with
the clock as it was read for the round, the place in the list of tasks and the list that replaces it. -/
inductive Phase (Task Time : Type)
  | outside
  | between
  | round (now : Time) (pos : Nat) (nextTasks : List Task) (running : Option Task)

/-- The two lists of the scheduler. The other fields only record the run: the last reading of the clock,
the tasks that were added, those that ended, those resumed in this round, and since when and for how
long a task wants to sleep. -/
structure State (Task Time : Type) where
  tasks : List Task
  waiting : List (Task × Time)
  phase : Phase Task Time
  clock : Time
  added : List Task
  dead : List Task
  resumed : List Task
  asked : Task → Option (Time × Time)

/-- What happens next. A task that runs may add tasks; then it sleeps, yields or ends. -/
inductive Event (Task Time : Type)
  | add (co : Task)
  | enter
  | start (t : Time)
  | visit (t : Time)
  | sleep (t s : Time)
  | yield
  | finish
  | endRound
  | leave

variable {Task Time : Type}

def State.initial (t : Time) : State Task Time where
  tasks := []
  waiting := []
  phase := .outside
  clock := t
  added := []
  dead := []
  resumed := []
  asked := fun _ => none

/-- The tasks that are still to be resumed: those that the loop has not come to, the one that runs, those
of the next round, and those that wait. -/
def State.queued (s : State Task Time) : List Task :=
  match s.phase with
  | .round _ pos nextTasks running =>
    s.tasks.drop pos ++ (running.toList ++ (nextTasks ++ s.waiting.map (·.1)))
  | _ => s.tasks ++ s.waiting.map (·.1)

/-- A task asks to sleep while the clock still shows what it showed at the start of the round. -/
def Punctual : Event Task Time → State Task Time → Prop
  | .sleep t _, s => ∀ now pos nextTasks running, s.phase = .round now pos nextTasks running → t = now
  | _, _ => True

variable [Preorder Time]

/-- No task is lost or queued twice, none is resumed twice in a round or left out of it, and none whose
time has come goes on waiting. In a round, the list of tasks still holds those that it resumed. -/
structure Orderly (s : State Task Time) : Prop where
  kept : ∀ co ∈ s.added, co ∉ s.dead → co ∈ s.queued
  apart : s.queued.Nodup
  separate : ∀ item ∈ s.waiting, item.1 ∈ s.tasks →
    (∃ now pos nextTasks running, s.phase = .round now pos nextTasks running) ∧ item.1 ∈ s.resumed
  once : s.resumed.Nodup
  all : ∀ now nextTasks running, s.phase = .round now s.tasks.length nextTasks running → s.resumed = s.tasks
  woken : ∀ now pos nextTasks running, s.phase = .round now pos nextTasks running →
    ∀ item ∈ s.waiting, item.2 ≤ now → item.1 ∈ s.resumed

variable [Add Time]

/-- `run` returns only when all tasks have ended, and no task is resumed before its time. -/
def Fair (s : State Task Time) : Event Task Time → Prop
  | .leave => ∀ co ∈ s.added, co ∈ s.dead
  | .visit t => ∀ now pos nextTasks running, s.phase = .round now pos nextTasks running →
      ∀ co, s.tasks[pos]? = some co → ∀ since arg, s.asked co = some (since, arg) → since + arg ≤ t
  | _ => True

/-- Who asked to sleep waits until then, or the round has come to it. -/
def Asleep (s : State Task Time) : Prop :=
  ∀ co since arg, s.asked co = some (since, arg) → (co, since + arg) ∈ s.waiting ∨
    ∃ now pos nextTasks running, s.phase = .round now pos nextTasks running ∧ co ∈ s.tasks.drop pos ∧
      since + arg ≤ now

variable [DecidableEq Task] [DecidableLE Time]

/-- The items whose time has come. -/
def State.due (s : State Task Time) (now : Time) : List Task :=
  (s.waiting.filter fun item => item.2 ≤ now).map (·.1)

/-- `Scheduler.add`, with a new coroutine: outside of `Scheduler.run`, or called by the task that runs. -/
def State.add (s : State Task Time) (co : Task) : Option (State Task Time) :=
  let out := if co ∈ s.added then none else some { s with tasks := s.tasks ++ [co], added := s.added ++ [co] }
  match s.phase with
  | .outside => out
  | .round _ _ _ (some _) => out
  | _ => none

def State.enter (s : State Task Time) : Option (State Task Time) :=
  match s.phase with
  | .outside => some { s with phase := .between }
  | _ => none

/-- The loop goes on: the clock is read and the waiting tasks are gone through, before any task runs. -/
def State.start (s : State Task Time) (t : Time) : Option (State Task Time) :=
  match s.phase with
  | .between =>
    if (s.tasks ≠ [] ∨ s.waiting ≠ []) ∧ s.clock ≤ t then
      some { s with
        tasks := s.tasks ++ s.due t
        waiting := s.waiting.filter fun item => ¬item.2 ≤ t
        phase := .round t 0 [] none
        clock := t
        resumed := [] }
    else none
  | _ => none

/-- The next task of the list is resumed, unless it is dead. -/
def State.visit (s : State Task Time) (t : Time) : Option (State Task Time) :=
  match s.phase with
  | .round now pos nextTasks none =>
    match s.tasks[pos]? with
    | none => none
    | some co =>
      if co ∈ s.dead then some { s with phase := .round now (pos + 1) nextTasks none }
      else if s.clock ≤ t then
        some { s with
          phase := .round now (pos + 1) nextTasks (some co)
          clock := t
          resumed := s.resumed ++ [co]
          asked := Function.update s.asked co none }
      else none
  | _ => none

/-- The task that runs calls `coroutine.sleep`; it waits from the start of the round on. -/
def State.sleep (s : State Task Time) (t arg : Time) : Option (State Task Time) :=
  match s.phase with
  | .round now pos nextTasks (some co) =>
    if s.clock ≤ t then
      some { s with
        waiting := s.waiting ++ [(co, now + arg)]
        phase := .round now pos nextTasks none
        clock := t
        asked := Function.update s.asked co (some (t, arg)) }
    else none
  | _ => none

def State.yield (s : State Task Time) : Option (State Task Time) :=
  match s.phase with
  | .round now pos nextTasks (some co) => some { s with phase := .round now pos (nextTasks ++ [co]) none }
  | _ => none

def State.finish (s : State Task Time) : Option (State Task Time) :=
  match s.phase with
  | .round now pos nextTasks (some co) =>
    some { s with phase := .round now pos nextTasks none, dead := s.dead ++ [co] }
  | _ => none

def State.endRound (s : State Task Time) : Option (State Task Time) :=
  match s.phase with
  | .round _ pos nextTasks none =>
    if pos = s.tasks.length then some { s with tasks := nextTasks, phase := .between } else none
  | _ => none

def State.leave (s : State Task Time) : Option (State Task Time) :=
  match s.phase with
  | .between => if s.tasks = [] ∧ s.waiting = [] then some { s with phase := .outside } else none
  | _ => none

def step (e : Event Task Time) (s : State Task Time) : Option (State Task Time) :=
  match e with
  | .add co => s.add co
  | .enter => s.enter
  | .start t => s.start t
  | .visit t => s.visit t
  | .sleep t arg => s.sleep t arg
  | .yield => s.yield
  | .finish => s.finish
  | .endRound => s.endRound
  | .leave => s.leave

omit [Preorder Time] [Add Time] [DecidableLE Time] [DecidableEq Task]

/-- The list holds every task that was added and has not ended, once. -/
structure Accounted (q added dead : List Task) : Prop where
  nodup : q.Nodup
  mem : ∀ co, co ∈ q ↔ co ∈ added ∧ co ∉ dead
  deadAdded : ∀ co ∈ dead, co ∈ added

namespace Accounted

variable {q q' added dead : List Task} {co : Task}

theorem perm (h : Accounted q added dead) (hp : q.Perm q') : Accounted q' added dead :=
  ⟨hp.nodup_iff.mp h.nodup, fun co => hp.mem_iff.symm.trans (h.mem co), h.deadAdded⟩

theorem add (h : Accounted q added dead) (hnew : co ∉ added) : Accounted (co :: q) (added ++ [co]) dead := by
  have hq : co ∉ q := fun hmem => hnew ((h.mem co).mp hmem).1
  have hdead : co ∉ dead := fun hmem => hnew (h.deadAdded co hmem)
  refine ⟨List.nodup_cons.mpr ⟨hq, h.nodup⟩, fun c => ?_, fun c hc => ?_⟩
  · rw [List.mem_cons, h.mem, List.mem_append, List.mem_singleton]
    constructor
    · rintro (rfl | ⟨hc, hc'⟩)
      · exact ⟨.inr rfl, hdead⟩
      · exact ⟨.inl hc, hc'⟩
    · rintro ⟨hc | rfl, hc'⟩
      · exact .inr ⟨hc, hc'⟩
      · exact .inl rfl
  · exact List.mem_append_left _ (h.deadAdded c hc)

theorem finish (h : Accounted (co :: q) added dead) : Accounted q added (dead ++ [co]) := by
  obtain ⟨hco, hq⟩ := List.nodup_cons.mp h.nodup
  have hadded := ((h.mem co).mp List.mem_cons_self).1
  refine ⟨hq, fun c => ?_, fun c hc => ?_⟩
  · rw [List.mem_append, List.mem_singleton]
    constructor
    · intro hc
      obtain ⟨ha, hd⟩ := (h.mem c).mp (List.mem_cons_of_mem _ hc)
      exact ⟨ha, fun hor => hor.elim hd fun he => hco (he ▸ hc)⟩
    · rintro ⟨ha, hd⟩
      have hc := (h.mem c).mpr ⟨ha, fun hdead => hd (.inl hdead)⟩
      exact (List.mem_cons.mp hc).resolve_left fun he => hd (.inr he)
  · rcases List.mem_append.mp hc with hc | hc
    · exact h.deadAdded c hc
    · rwa [List.mem_singleton.mp hc]

end Accounted

/-- The invariant of the rounds. -/
structure Inv [Preorder Time] (s : State Task Time) : Prop where
  accounted : Accounted s.queued s.added s.dead
  tasksNodup : s.tasks.Nodup
  tasksAdded : ∀ co ∈ s.tasks, co ∈ s.added
  once : s.resumed.Nodup
  round : ∀ now pos nextTasks running, s.phase = .round now pos nextTasks running →
    pos ≤ s.tasks.length ∧ s.resumed = s.tasks.take pos ∧ now ≤ s.clock ∧
      (∀ co, running = some co → co ∈ s.resumed) ∧ ∀ item ∈ s.waiting, item.2 ≤ now → item.1 ∈ s.resumed

theorem queued_round {s : State Task Time} {now : Time} {pos : Nat} {nextTasks : List Task} {running : Option Task}
    (h : s.phase = .round now pos nextTasks running) :
    s.queued = s.tasks.drop pos ++ (running.toList ++ (nextTasks ++ s.waiting.map (·.1))) := by
  rw [State.queued, h]

theorem queued_flat {s : State Task Time} (h : ∀ now pos nextTasks running, s.phase ≠ .round now pos nextTasks running) :
    s.queued = s.tasks ++ s.waiting.map (·.1) := by
  unfold State.queued
  split
  next hp => exact absurd hp (h _ _ _ _)
  next => rfl

/-- A waiting task is in the list of tasks only where the round has passed it. -/
theorem Inv.separate [Preorder Time] {s : State Task Time} (h : Inv s) {item : Task × Time} (hitem : item ∈ s.waiting)
    (hmem : item.1 ∈ s.tasks) :
    (∃ now pos nextTasks running, s.phase = .round now pos nextTasks running) ∧ item.1 ∈ s.resumed := by
  have hwaits : item.1 ∈ s.waiting.map (·.1) := List.mem_map_of_mem hitem
  have hnodup := h.accounted.nodup
  by_cases hr : ∃ now pos nextTasks running, s.phase = .round now pos nextTasks running
  · refine ⟨hr, ?_⟩
    obtain ⟨now, pos, nextTasks, running, hp⟩ := hr
    obtain ⟨-, hresumed, -⟩ := h.round now pos nextTasks running hp
    rw [queued_round hp] at hnodup
    have hdrop : item.1 ∉ s.tasks.drop pos := by
      intro hdrop
      have hrest := List.mem_append_right running.toList (List.mem_append_right nextTasks hwaits)
      exact (List.nodup_append.mp hnodup).2.2 _ hdrop _ hrest rfl
    rw [← List.take_append_drop pos s.tasks, List.mem_append] at hmem
    rw [hresumed]
    exact hmem.resolve_right hdrop
  · have hflat := queued_flat fun now pos nextTasks running hp => hr ⟨now, pos, nextTasks, running, hp⟩
    rw [hflat] at hnodup
    exact absurd rfl ((List.nodup_append.mp hnodup).2.2 _ hmem _ hwaits)

theorem Inv.orderly [Preorder Time] {s : State Task Time} (h : Inv s) : Orderly s := by
  refine ⟨fun co ha hd => (h.accounted.mem co).mpr ⟨ha, hd⟩, h.accounted.nodup,
    fun item hitem hmem => h.separate hitem hmem, h.once, ?_, ?_⟩
  · intro now nextTasks running hp
    obtain ⟨-, hresumed, -⟩ := h.round now _ nextTasks running hp
    rw [hresumed, List.take_length]
  · intro now pos nextTasks running hp
    exact (h.round now pos nextTasks running hp).2.2.2.2

/-- The task that the loop comes to is alive. -/
theorem Inv.visited [Preorder Time] {s : State Task Time} (hi : Inv s) {now : Time} {pos : Nat} {nextTasks : List Task} {running : Option Task} {co : Task}
    (hp : s.phase = .round now pos nextTasks running) (hco : s.tasks[pos]? = some co) :
    co ∉ s.dead ∧ s.tasks.drop pos = co :: s.tasks.drop (pos + 1) := by
  have hdrop : s.tasks.drop pos = co :: s.tasks.drop (pos + 1) := by
    obtain ⟨hlt, hget⟩ := List.getElem?_eq_some_iff.mp hco
    rw [List.drop_eq_getElem_cons hlt, hget]
  have hmem : co ∈ s.queued := by
    rw [queued_round hp, hdrop]
    exact List.mem_append_left _ List.mem_cons_self
  exact ⟨((hi.accounted.mem co).mp hmem).2, hdrop⟩

section Steps

variable [Preorder Time] [DecidableEq Task] {s s' : State Task Time}

omit [Preorder Time] in
theorem add_some {co : Task} (h : s.add co = some s') :
    co ∉ s.added ∧ s' = { s with tasks := s.tasks ++ [co], added := s.added ++ [co] } := by
  have hout : (if co ∈ s.added then none
      else some { s with tasks := s.tasks ++ [co], added := s.added ++ [co] }) = some s' := by
    unfold State.add at h
    cases hp : s.phase with
    | outside => simpa only [hp] using h
    | between =>
      rw [hp] at h
      cases h
    | round now pos nextTasks running =>
      cases running with
      | none =>
        rw [hp] at h
        cases h
      | some c => simpa only [hp] using h
  split_ifs at hout with hnew
  exact ⟨hnew, (Option.some.inj hout).symm⟩

theorem Inv.add (hi : Inv s) {co : Task} (h : s.add co = some s') : Inv s' := by
  obtain ⟨hnew, rfl⟩ := add_some h
  have hqueued : (co :: s.queued).Perm
      (State.queued { s with tasks := s.tasks ++ [co], added := s.added ++ [co] }) := by
    cases hp : s.phase with
    | round now pos nextTasks running =>
      obtain ⟨hpos, -⟩ := hi.round now pos nextTasks running hp
      simp only [State.queued, hp, List.drop_append_of_le_length hpos, List.append_assoc]
      exact List.perm_middle.symm
    | outside =>
      simp only [State.queued, hp, List.append_assoc]
      exact List.perm_middle.symm
    | between =>
      simp only [State.queued, hp, List.append_assoc]
      exact List.perm_middle.symm
  refine ⟨(hi.accounted.add hnew).perm hqueued, ?_, ?_, hi.once, ?_⟩
  · refine List.nodup_append.mpr ⟨hi.tasksNodup, List.nodup_singleton co, ?_⟩
    rintro c hc c' hc' rfl
    rw [List.mem_singleton.mp hc'] at hc
    exact hnew (hi.tasksAdded co hc)
  · intro c hc
    rcases List.mem_append.mp hc with hc | hc
    · exact List.mem_append_left _ (hi.tasksAdded c hc)
    · exact List.mem_append_right _ hc
  · intro now pos nextTasks running hp
    obtain ⟨hpos, hresumed, hrest⟩ := hi.round now pos nextTasks running hp
    refine ⟨?_, ?_, hrest⟩
    · rw [List.length_append]
      omega
    · rw [List.take_append_of_le_length hpos]
      exact hresumed

variable [DecidableLE Time]

omit [DecidableEq Task] in
/-- What a round starts with. -/
theorem start_some {t : Time} (h : s.start t = some s') :
    s.phase = .between ∧ s.clock ≤ t ∧ s' = { s with
      tasks := s.tasks ++ s.due t, waiting := s.waiting.filter fun item => ¬item.2 ≤ t,
      phase := .round t 0 [] none, clock := t, resumed := [] } := by
  unfold State.start at h
  cases hp : s.phase with
  | between =>
    rw [hp] at h
    dsimp only at h
    split_ifs at h with hmore
    exact ⟨rfl, hmore.2, (Option.some.inj h).symm⟩
  | outside =>
    rw [hp] at h
    cases h
  | round now pos nextTasks running =>
    rw [hp] at h
    cases h

omit [DecidableEq Task] in
theorem Inv.start (hi : Inv s) {t : Time} (h : s.start t = some s') : Inv s' := by
  obtain ⟨hp, -, rfl⟩ := start_some h
  have hold : s.queued = s.tasks ++ s.waiting.map (·.1) := by rw [State.queued, hp]
  have hsplit : (s.due t ++ (s.waiting.filter fun item => ¬item.2 ≤ t).map (·.1)).Perm
      (s.waiting.map (·.1)) := by
    have hfilter := List.filter_append_perm (fun item : Task × Time => decide (item.2 ≤ t)) s.waiting
    simp only [← decide_not] at hfilter
    rw [State.due, ← List.map_append]
    exact hfilter.map _
  have hnew : (s.tasks ++ s.due t ++ (s.waiting.filter fun item => ¬item.2 ≤ t).map (·.1)).Perm s.queued := by
    rw [hold, List.append_assoc]
    exact hsplit.append_left s.tasks
  have hnodup := (hi.accounted.perm hnew.symm).nodup
  refine ⟨hi.accounted.perm hnew.symm, (List.nodup_append.mp hnodup).1, ?_, List.nodup_nil, ?_⟩
  · intro c hc
    exact ((hi.accounted.mem c).mp (hnew.mem_iff.mp (List.mem_append_left _ hc))).1
  · intro now pos nextTasks running hround
    cases hround
    refine ⟨Nat.zero_le _, rfl, le_refl t, fun co hco => (nomatch hco), fun item hitem hle => ?_⟩
    have hnot := (List.mem_filter.mp hitem).2
    exact absurd hle (by simpa using hnot)

theorem visit_some {t : Time} (h : s.visit t = some s') :
    ∃ now pos nextTasks co, s.phase = .round now pos nextTasks none ∧ s.tasks[pos]? = some co ∧
      ((co ∈ s.dead ∧ s' = { s with phase := .round now (pos + 1) nextTasks none }) ∨
        (s.clock ≤ t ∧ s' = { s with
          phase := .round now (pos + 1) nextTasks (some co), clock := t
          resumed := s.resumed ++ [co], asked := Function.update s.asked co none })) := by
  unfold State.visit at h
  cases hp : s.phase with
  | round now pos nextTasks running =>
    cases running with
    | some c =>
      rw [hp] at h
      cases h
    | none =>
      rw [hp] at h
      dsimp only at h
      cases hco : s.tasks[pos]? with
      | none =>
        rw [hco] at h
        cases h
      | some co =>
        rw [hco] at h
        dsimp only at h
        refine ⟨now, pos, nextTasks, co, rfl, hco, ?_⟩
        split_ifs at h with hdead hle
        · exact .inl ⟨hdead, (Option.some.inj h).symm⟩
        · exact .inr ⟨hle, (Option.some.inj h).symm⟩
  | outside =>
    rw [hp] at h
    cases h
  | between =>
    rw [hp] at h
    cases h

theorem Inv.visit (hi : Inv s) {t : Time} (h : s.visit t = some s') : Inv s' := by
  obtain ⟨now, pos, nextTasks, co, hp, hco, ⟨hdead, -⟩ | ⟨hle, rfl⟩⟩ := visit_some h
  · exact absurd hdead (hi.visited hp hco).1
  · obtain ⟨-, hdrop⟩ := hi.visited hp hco
    obtain ⟨hpos, hresumed, hnow, -, hwoken⟩ := hi.round now pos nextTasks none hp
    obtain ⟨hlt, hget⟩ := List.getElem?_eq_some_iff.mp hco
    have htake : s.tasks.take (pos + 1) = s.resumed ++ [co] := by
      rw [List.take_succ_eq_append_getElem hlt, hget, hresumed]
    have hqueued : s.queued.Perm
        (s.tasks.drop (pos + 1) ++ ([co] ++ (nextTasks ++ s.waiting.map (·.1)))) := by
      rw [queued_round hp, hdrop]
      exact List.perm_middle.symm
    refine ⟨hi.accounted.perm hqueued, hi.tasksNodup, hi.tasksAdded, ?_, ?_⟩
    · rw [← htake]
      exact hi.tasksNodup.sublist (List.take_sublist _ _)
    · intro now' pos' nextTasks' running hround
      cases hround
      refine ⟨hlt, htake.symm, le_trans hnow hle, fun c hc => ?_, fun item hitem hdue => ?_⟩
      · cases Option.some.inj hc
        exact List.mem_append_right _ List.mem_cons_self
      · exact List.mem_append_left _ (hwoken item hitem hdue)

omit [DecidableEq Task] [DecidableLE Time] [Preorder Time] in
theorem running_cases {s : State Task Time} {f : Time → Nat → List Task → Task → Option (State Task Time)}
    (h : (match s.phase with
      | .round now pos nextTasks (some co) => f now pos nextTasks co
      | _ => none) = some s') :
    ∃ now pos nextTasks co, s.phase = .round now pos nextTasks (some co) ∧ f now pos nextTasks co = some s' := by
  cases hp : s.phase with
  | round now pos nextTasks running =>
    cases running with
    | none =>
      rw [hp] at h
      cases h
    | some co =>
      rw [hp] at h
      exact ⟨now, pos, nextTasks, co, rfl, h⟩
  | outside =>
    rw [hp] at h
    cases h
  | between =>
    rw [hp] at h
    cases h

theorem sleep_some [Add Time] {t arg : Time} (h : s.sleep t arg = some s') :
    ∃ now pos nextTasks co, s.phase = .round now pos nextTasks (some co) ∧ s.clock ≤ t ∧ s' = { s with
      waiting := s.waiting ++ [(co, now + arg)], phase := .round now pos nextTasks none, clock := t
      asked := Function.update s.asked co (some (t, arg)) } := by
  obtain ⟨now, pos, nextTasks, co, hp, h⟩ := running_cases h
  split_ifs at h with hle
  exact ⟨now, pos, nextTasks, co, hp, hle, (Option.some.inj h).symm⟩

theorem Inv.sleep [Add Time] (hi : Inv s) {t arg : Time} (h : s.sleep t arg = some s') : Inv s' := by
  obtain ⟨now, pos, nextTasks, co, hp, hle, rfl⟩ := sleep_some h
  obtain ⟨hpos, hresumed, hnow, hrunning, hwoken⟩ := hi.round now pos nextTasks (some co) hp
  have hqueued : s.queued.Perm
      (s.tasks.drop pos ++ ([] ++ (nextTasks ++ (s.waiting ++ [(co, now + arg)]).map (·.1)))) := by
    rw [queued_round hp, List.map_append, ← List.append_assoc nextTasks, List.nil_append]
    exact List.perm_append_comm.append_left _
  refine ⟨hi.accounted.perm hqueued, hi.tasksNodup, hi.tasksAdded, hi.once, ?_⟩
  intro now' pos' nextTasks' running hround
  cases hround
  refine ⟨hpos, hresumed, le_trans hnow hle, fun c hc => (nomatch hc), fun item hitem hdue => ?_⟩
  rcases List.mem_append.mp hitem with hitem | hitem
  · exact hwoken item hitem hdue
  · rw [List.mem_singleton.mp hitem]
    exact hrunning co rfl

omit [DecidableLE Time] [DecidableEq Task]

theorem Inv.yield (hi : Inv s) (h : s.yield = some s') : Inv s' := by
  obtain ⟨now, pos, nextTasks, co, hp, h⟩ := running_cases h
  cases Option.some.inj h
  obtain ⟨hpos, hresumed, hnow, -, hwoken⟩ := hi.round now pos nextTasks (some co) hp
  have hqueued : s.queued.Perm
      (s.tasks.drop pos ++ ([] ++ (nextTasks ++ [co] ++ s.waiting.map (·.1)))) := by
    have hmove : (co :: (nextTasks ++ s.waiting.map (·.1))).Perm (nextTasks ++ co :: s.waiting.map (·.1)) :=
      List.perm_middle.symm
    rw [queued_round hp, List.append_assoc nextTasks, List.nil_append]
    exact hmove.append_left _
  refine ⟨hi.accounted.perm hqueued, hi.tasksNodup, hi.tasksAdded, hi.once, ?_⟩
  intro now' pos' nextTasks' running hround
  cases hround
  exact ⟨hpos, hresumed, hnow, fun c hc => (nomatch hc), hwoken⟩

theorem Inv.finish (hi : Inv s) (h : s.finish = some s') : Inv s' := by
  obtain ⟨now, pos, nextTasks, co, hp, h⟩ := running_cases h
  cases Option.some.inj h
  obtain ⟨hpos, hresumed, hnow, -, hwoken⟩ := hi.round now pos nextTasks (some co) hp
  have hqueued : s.queued.Perm
      (co :: (s.tasks.drop pos ++ ([] ++ (nextTasks ++ s.waiting.map (·.1))))) := by
    rw [queued_round hp]
    exact List.perm_middle
  refine ⟨(hi.accounted.perm hqueued).finish, hi.tasksNodup, hi.tasksAdded, hi.once, ?_⟩
  intro now' pos' nextTasks' running hround
  cases hround
  exact ⟨hpos, hresumed, hnow, fun c hc => (nomatch hc), hwoken⟩

omit [Preorder Time] in
theorem endRound_some (h : s.endRound = some s') :
    ∃ now nextTasks, s.phase = .round now s.tasks.length nextTasks none ∧
      s' = { s with tasks := nextTasks, phase := .between } := by
  unfold State.endRound at h
  cases hp : s.phase with
  | round now pos nextTasks running =>
    cases running with
    | some co =>
      rw [hp] at h
      cases h
    | none =>
      rw [hp] at h
      dsimp only at h
      split_ifs at h with hpos
      subst hpos
      exact ⟨now, nextTasks, rfl, (Option.some.inj h).symm⟩
  | outside =>
    rw [hp] at h
    cases h
  | between =>
    rw [hp] at h
    cases h

theorem Inv.endRound (hi : Inv s) (h : s.endRound = some s') : Inv s' := by
  obtain ⟨now, nextTasks, hp, rfl⟩ := endRound_some h
  have hqueued : s.queued = nextTasks ++ s.waiting.map (·.1) := by
    rw [queued_round hp, List.drop_length]
    rfl
  have haccounted := hi.accounted
  rw [hqueued] at haccounted
  refine ⟨haccounted, (List.nodup_append.mp haccounted.nodup).1, ?_, hi.once, ?_⟩
  · intro co hco
    exact ((haccounted.mem co).mp (List.mem_append_left _ hco)).1
  · intro now' pos' nextTasks' running hround
    cases hround

omit [Preorder Time] in
theorem enter_some (h : s.enter = some s') : s.phase = .outside ∧ s' = { s with phase := .between } := by
  unfold State.enter at h
  cases hp : s.phase with
  | outside =>
    rw [hp] at h
    exact ⟨rfl, (Option.some.inj h).symm⟩
  | between =>
    rw [hp] at h
    cases h
  | round now pos nextTasks running =>
    rw [hp] at h
    cases h

omit [Preorder Time] in
theorem leave_some (h : s.leave = some s') :
    s.phase = .between ∧ s.tasks = [] ∧ s.waiting = [] ∧ s' = { s with phase := .outside } := by
  unfold State.leave at h
  cases hp : s.phase with
  | between =>
    rw [hp] at h
    dsimp only at h
    split_ifs at h with hempty
    exact ⟨rfl, hempty.1, hempty.2, (Option.some.inj h).symm⟩
  | outside =>
    rw [hp] at h
    cases h
  | round now pos nextTasks running =>
    rw [hp] at h
    cases h

/-- Outside of the rounds only the phase changes. -/
theorem Inv.rephase (hi : Inv s) {phase : Phase Task Time}
    (h : ∀ now pos nextTasks running, s.phase ≠ .round now pos nextTasks running)
    (h' : ∀ now pos nextTasks running, phase ≠ .round now pos nextTasks running) :
    Inv { s with phase := phase } := by
  have hqueued : State.queued { s with phase := phase } = s.queued := by
    rw [queued_flat h, queued_flat (s := { s with phase := phase }) h']
  refine ⟨?_, hi.tasksNodup, hi.tasksAdded, hi.once, fun now pos nextTasks running hp => absurd hp (h' _ _ _ _)⟩
  rw [hqueued]
  exact hi.accounted

end Steps

section Runs

open Transition

variable [DecidableEq Task] [Preorder Time] [DecidableLE Time] [Add Time] {s s' : State Task Time}

/-- Every step keeps the invariant. -/
theorem Inv.step (hi : Inv s) {e : Event Task Time} (h : step e s = some s') : Inv s' := by
  cases e with
  | add co => exact hi.add h
  | enter =>
    obtain ⟨hp, rfl⟩ := enter_some h
    exact hi.rephase (by simp [hp]) (by simp)
  | start t => exact hi.start h
  | visit t => exact hi.visit h
  | sleep t arg => exact hi.sleep h
  | yield => exact hi.yield h
  | finish => exact hi.finish h
  | endRound => exact hi.endRound h
  | leave =>
    obtain ⟨hp, -, -, rfl⟩ := leave_some h
    exact hi.rephase (by simp [hp]) (by simp)

omit [DecidableEq Task] [DecidableLE Time] [Add Time] in
theorem inv_initial (t : Time) : Inv (State.initial t : State Task Time) where
  accounted := ⟨List.nodup_nil, fun co => by simp [State.queued, State.initial], fun co hco => nomatch hco⟩
  tasksNodup := List.nodup_nil
  tasksAdded := fun co hco => nomatch hco
  once := List.nodup_nil
  round := fun now pos nextTasks running hp => nomatch hp

theorem inv_reachable {ok : Event Task Time → State Task Time → Prop} {t : Time}
    (h : Reachable step ok (State.initial t) s) : Inv s :=
  h.invariant (inv_initial t) fun _ _ _ hi _ hstep => hi.step hstep

omit [DecidableEq Task] [DecidableLE Time] in
/-- Where no round goes on, all of them wait. -/
theorem Asleep.waiting (ha : Asleep s) (h : ∀ now pos nextTasks running, s.phase ≠ .round now pos nextTasks running)
    {co : Task} {since arg : Time} (hco : s.asked co = some (since, arg)) : (co, since + arg) ∈ s.waiting := by
  rcases ha co since arg hco with hw | ⟨now, pos, nextTasks, running, hp, -⟩
  · exact hw
  · exact absurd hp (h _ _ _ _)

omit [DecidableEq Task] [DecidableLE Time] in
theorem Asleep.same_round (ha : Asleep s) {now : Time} {pos : Nat} {nextTasks : List Task} {running : Option Task}
    (hp : s.phase = .round now pos nextTasks running) {co : Task} {since arg : Time}
    (hco : s.asked co = some (since, arg)) :
    (co, since + arg) ∈ s.waiting ∨ (co ∈ s.tasks.drop pos ∧ since + arg ≤ now) := by
  rcases ha co since arg hco with hw | ⟨_, _, _, _, hp', hrest⟩
  · exact .inl hw
  · cases hp.symm.trans hp'
    exact .inr hrest

theorem Asleep.step (ha : Asleep s) (hi : Inv s) {e : Event Task Time} (hok : Punctual e s)
    (h : step e s = some s') : Asleep s' := by
  intro c since arg hc
  cases e with
  | add co =>
    obtain ⟨-, rfl⟩ := add_some h
    rcases ha c since arg hc with hw | ⟨now, pos, nextTasks, running, hp, hmem, hle⟩
    · exact .inl hw
    · obtain ⟨hpos, -⟩ := hi.round now pos nextTasks running hp
      refine .inr ⟨now, pos, nextTasks, running, hp, ?_, hle⟩
      rw [List.drop_append_of_le_length hpos]
      exact List.mem_append_left _ hmem
  | enter =>
    obtain ⟨hp, rfl⟩ := enter_some h
    exact .inl (ha.waiting (by simp [hp]) hc)
  | start t =>
    obtain ⟨hp, -, rfl⟩ := start_some h
    have hw := ha.waiting (by simp [hp]) hc
    by_cases hdue : since + arg ≤ t
    · refine .inr ⟨t, 0, [], none, rfl, ?_, hdue⟩
      refine List.mem_append_right _ (List.mem_map.mpr ⟨_, List.mem_filter.mpr ⟨hw, ?_⟩, rfl⟩)
      exact decide_eq_true hdue
    · exact .inl (List.mem_filter.mpr ⟨hw, decide_eq_true hdue⟩)
  | visit t =>
    obtain ⟨now, pos, nextTasks, co, hp, hco, ⟨hdead, -⟩ | ⟨-, rfl⟩⟩ := visit_some h
    · exact absurd hdead (hi.visited hp hco).1
    · change Function.update s.asked co none c = some (since, arg) at hc
      have hne : c ≠ co := by
        rintro rfl
        rw [Function.update_self] at hc
        cases hc
      rw [Function.update_of_ne hne] at hc
      rcases ha.same_round hp hc with hw | ⟨hmem, hle⟩
      · exact .inl hw
      · rw [(hi.visited hp hco).2] at hmem
        exact .inr ⟨now, pos + 1, nextTasks, some co, rfl, (List.mem_cons.mp hmem).resolve_left hne, hle⟩
  | sleep t d =>
    obtain ⟨now, pos, nextTasks, co, hp, -, rfl⟩ := sleep_some h
    obtain rfl := hok now pos nextTasks (some co) hp
    change Function.update s.asked co (some (t, d)) c = some (since, arg) at hc
    by_cases hne : c = co
    · subst hne
      rw [Function.update_self] at hc
      cases Option.some.inj hc
      exact .inl (List.mem_append_right _ List.mem_cons_self)
    · rw [Function.update_of_ne hne] at hc
      rcases ha.same_round hp hc with hw | hrest
      · exact .inl (List.mem_append_left _ hw)
      · exact .inr ⟨t, pos, nextTasks, none, rfl, hrest⟩
  | yield =>
    obtain ⟨now, pos, nextTasks, co, hp, h⟩ := running_cases h
    cases Option.some.inj h
    rcases ha.same_round hp hc with hw | hrest
    · exact .inl hw
    · exact .inr ⟨now, pos, nextTasks ++ [co], none, rfl, hrest⟩
  | finish =>
    obtain ⟨now, pos, nextTasks, co, hp, h⟩ := running_cases h
    cases Option.some.inj h
    rcases ha.same_round hp hc with hw | hrest
    · exact .inl hw
    · exact .inr ⟨now, pos, nextTasks, none, rfl, hrest⟩
  | endRound =>
    obtain ⟨now, nextTasks, hp, rfl⟩ := endRound_some h
    rcases ha.same_round hp hc with hw | ⟨hmem, -⟩
    · exact .inl hw
    · rw [List.drop_length] at hmem
      cases hmem
  | leave =>
    obtain ⟨hp, -, -, rfl⟩ := leave_some h
    exact .inl (ha.waiting (by simp [hp]) hc)

omit [DecidableLE Time] in
/-- The scheduler leaves its loop when no task is alive. -/
theorem Inv.leave_fair (hi : Inv s) (h : s.leave = some s') : Fair s .leave := by
  obtain ⟨hp, htasks, hwaiting, -⟩ := leave_some h
  intro co hco
  by_contra hdead
  have hmem := (hi.accounted.mem co).mpr ⟨hco, hdead⟩
  rw [State.queued, hp, htasks, hwaiting] at hmem
  cases hmem

/-- A task that the loop comes to has slept long enough. -/
theorem Asleep.visit_fair (ha : Asleep s) (hi : Inv s) {t : Time} (h : s.visit t = some s') :
    Fair s (.visit t) := by
  obtain ⟨now, pos, nextTasks, co, hp, hco, ⟨hdead, -⟩ | ⟨hle, -⟩⟩ := visit_some h
  · exact absurd hdead (hi.visited hp hco).1
  · intro now' pos' nextTasks' running' hp' co' hco' since arg hasked
    cases hp.symm.trans hp'
    cases hco.symm.trans hco'
    obtain ⟨-, hdrop⟩ := hi.visited hp hco
    obtain ⟨-, -, hnow, -⟩ := hi.round now pos nextTasks none hp
    rcases ha.same_round hp hasked with hw | ⟨-, hdue⟩
    · -- it would be in both lists
      have hnodup := hi.accounted.nodup
      rw [queued_round hp, hdrop] at hnodup
      obtain ⟨hnot, -⟩ := List.nodup_cons.mp hnodup
      refine absurd ?_ hnot
      have hmem : co ∈ s.waiting.map (·.1) := List.mem_map.mpr ⟨_, hw, rfl⟩
      exact List.mem_append_right _ (List.mem_append_right _ (List.mem_append_right _ hmem))
    · exact le_trans hdue (le_trans hnow hle)

end Runs

end ToiLang.Scheduler
