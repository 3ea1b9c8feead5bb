import Mathlib.Logic.Function.Basic
import Mathlib.Logic.Relation
import Mathlib.Data.List.Nodup

namespace PointerChain

variable {α : Type*} {next : α → Option α} {a b c stop : α} {path tail : List α}

/-- Following the pointers from a node visits the nodes of the path and ends at `stop`. -/
inductive Ends (next : α → Option α) (stop : α) : α → List α → Prop
  | last : next stop = none → Ends next stop stop [stop]
  | link {a b : α} {path : List α} :
    next a = some b → Ends next stop b path → Ends next stop a (a :: path)

/-- Following the pointers from a node comes to the other node. -/
def Reaches (next : α → Option α) : α → α → Prop := Relation.ReflTransGen fun a b => next a = some b

theorem Ends.start_mem (h : Ends next stop a path) : a ∈ path := by
  cases h with
  | last => exact List.mem_cons_self
  | link => exact List.mem_cons_self

theorem Ends.unique (h : Ends next stop a path) (h' : Ends next stop a tail) : path = tail := by
  induction h generalizing tail with
  | last hn =>
    cases h' with
    | last => rfl
    | link hl => exact absurd (hn.symm.trans hl) (by simp)
  | link hl _ ih =>
    cases h' with
    | last hn => exact absurd (hn.symm.trans hl) (by simp)
    | link hl' h' =>
      obtain rfl := Option.some.inj (hl.symm.trans hl')
      rw [ih h']

/-- From each node of the path the rest of the path is left to follow. -/
theorem Ends.suffix (h : Ends next stop a path) (hb : b ∈ path) :
    ∃ front tail, path = front ++ tail ∧ Ends next stop b tail := by
  induction h with
  | last hn =>
    obtain rfl := List.mem_singleton.mp hb
    exact ⟨[], [b], rfl, .last hn⟩
  | @link a c path hl hp ih =>
    rcases List.mem_cons.mp hb with rfl | hb
    · exact ⟨[], b :: path, rfl, .link hl hp⟩
    · obtain ⟨front, tail, rfl, ht⟩ := ih hb
      exact ⟨a :: front, tail, rfl, ht⟩

/-- A path that ends does not come back to where it was: it would be its own proper tail. -/
theorem Ends.nodup (h : Ends next stop a path) : path.Nodup := by
  induction h with
  | last => exact List.nodup_singleton stop
  | @link a b path hl hp ih =>
    refine List.nodup_cons.mpr ⟨fun hmem => ?_, ih⟩
    obtain ⟨front, tail, hpath, ht⟩ := hp.suffix hmem
    have heq := ht.unique (.link hl hp)
    have hlen := congrArg List.length hpath
    rw [heq, List.length_append, List.length_cons] at hlen
    omega

theorem Ends.mem_iff (h : Ends next stop a path) : b ∈ path ↔ Reaches next a b := by
  refine ⟨fun hb => ?_, fun hb => ?_⟩
  · induction h with
    | last =>
      obtain rfl := List.mem_singleton.mp hb
      exact .refl
    | link hl _ ih =>
      rcases List.mem_cons.mp hb with rfl | hb
      · exact .refl
      · exact .head hl (ih hb)
  · induction hb with
    | refl => exact h.start_mem
    | tail _ hbc ih =>
      obtain ⟨front, tail, rfl, ht⟩ := h.suffix ih
      cases ht with
      | last hn => exact absurd (hn.symm.trans hbc) (by simp)
      | link hl ht =>
        obtain rfl := Option.some.inj (hl.symm.trans hbc)
        exact List.mem_append_right _ (List.mem_cons_of_mem _ ht.start_mem)

theorem Ends.last_none (h : Ends next stop a path) : next stop = none := by
  induction h with
  | last hn => exact hn
  | link _ _ ih => exact ih

/-- Only the last node of a path has no pointer. -/
theorem Ends.eq_last (h : Ends next stop a path) (hb : b ∈ path) (hn : next b = none) :
    b = stop := by
  obtain ⟨front, tail, -, ht⟩ := h.suffix hb
  cases ht with
  | last => rfl
  | link hl => exact absurd (hn.symm.trans hl) (by simp)

theorem Ends.next_ends (h : Ends next stop a path) (hb : next a = some b) :
    ∃ tail, path = a :: tail ∧ Ends next stop b tail := by
  cases h with
  | last hn => exact absurd (hn.symm.trans hb) (by simp)
  | @link _ c tail hl ht =>
    obtain rfl := Option.some.inj (hl.symm.trans hb)
    exact ⟨tail, rfl, ht⟩

section Update

variable [DecidableEq α]

theorem Ends.update (h : Ends next stop a path) (hc : c ∉ path) (v : Option α) :
    Ends (Function.update next c v) stop a path := by
  induction h with
  | last hn =>
    have hne : stop ≠ c := fun e => hc (e ▸ List.mem_singleton_self stop)
    exact .last (by rw [Function.update_of_ne hne, hn])
  | @link a b path hl _ ih =>
    have hne : a ≠ c := fun e => hc (e ▸ List.mem_cons_self)
    have htail : c ∉ path := fun hm => hc (List.mem_cons_of_mem _ hm)
    exact .link (by rw [Function.update_of_ne hne, hl]) (ih htail)

/-- A node off the path is put before it. -/
theorem Ends.push (h : Ends next stop a path) (hc : c ∉ path) :
    Ends (Function.update next c (some a)) stop c (c :: path) :=
  .link (Function.update_self ..) (h.update hc _)

end Update

end PointerChain
