import Mathlib.Tactic.TypeStar

namespace Transition

variable {ι σ : Type*} {step : ι → σ → Option σ} {ok ok' : ι → σ → Prop} {s₀ s t : σ}

/-- The states that a run from `s₀` gets to when each of its steps meets `ok`. -/
inductive Reachable (step : ι → σ → Option σ) (ok : ι → σ → Prop) (s₀ : σ) : σ → Prop
  | start : Reachable step ok s₀ s₀
  | step {i : ι} {s t : σ} :
    Reachable step ok s₀ s → ok i s → step i s = some t → Reachable step ok s₀ t

/-- What holds at the start and across a step holds in every state of a run. -/
theorem Reachable.invariant {Inv : σ → Prop} (h : Reachable step ok s₀ s) (h₀ : Inv s₀)
    (hs : ∀ i s t, Inv s → ok i s → step i s = some t → Inv t) : Inv s := by
  induction h with
  | start => exact h₀
  | step _ hok hstep ih => exact hs _ _ _ ih hok hstep

theorem Reachable.mono (h : Reachable step ok s₀ s) (hok : ∀ i s, ok i s → ok' i s) :
    Reachable step ok' s₀ s := by
  induction h with
  | start => exact .start
  | step _ ho hstep ih => exact .step ih (hok _ _ ho) hstep

theorem Reachable.trans (h : Reachable step ok s₀ s) (h' : Reachable step ok s t) :
    Reachable step ok s₀ t := by
  induction h' with
  | start => exact h
  | step _ ho hstep ih => exact .step ih ho hstep

/-- The state after `n` steps on one input whose states pass a test. -/
def steps (step : ι → σ → Option σ) (i : ι) (test : σ → Bool) : Nat → σ → Option σ
  | 0, s => some s
  | n + 1, s => if test s then (step i s).bind (steps step i test n) else none

theorem steps_reachable {i : ι} {test : σ → Bool} {n : Nat} (hok : ∀ s, test s = true → ok i s)
    (h : steps step i test n s = some t) : Reachable step ok s t := by
  induction n generalizing s with
  | zero =>
    cases Option.some.inj h
    exact .start
  | succ n ih =>
    simp only [steps] at h
    split at h
    next htest =>
      obtain ⟨s', hs, h⟩ := Option.bind_eq_some_iff.mp h
      exact Reachable.trans (.step .start (hok s htest) hs) (ih h)
    next => cases h

/-- The state after some inputs. -/
def run (step : ι → σ → Option σ) (is : List ι) (s : σ) : Option σ := is.foldlM (fun s i => step i s) s

theorem run_reachable {is : List ι} (hok : ∀ i ∈ is, ∀ s, ok i s) (h : run step is s = some t) :
    Reachable step ok s t := by
  induction is generalizing s with
  | nil =>
    cases Option.some.inj h
    exact .start
  | cons i is ih =>
    obtain ⟨s', hs, h⟩ := Option.bind_eq_some_iff.mp h
    have hfirst : Reachable step ok s s' := .step .start (hok i List.mem_cons_self s) hs
    exact hfirst.trans (ih (fun i hi => hok i (List.mem_cons_of_mem _ hi)) h)

theorem run_getD {is : List ι} (h : (run step is s).isSome = true) :
    run step is s = some ((run step is s).getD s) := by
  cases hr : run step is s with
  | none =>
    rw [hr] at h
    cases h
  | some t => rfl

end Transition
