import Mathlib.Data.List.Nodup
import Mathlib.Logic.Function.Basic

namespace LinkedList

variable {ι α : Type*} {p : Option ι} {a : ι} {v : α}

/-- A node of a list: its value and the node behind it. -/
structure Node (ι α : Type*) where
  value : α
  next : Option ι

/-- From a pointer the nodes of the list follow one another, the last one without a successor. -/
def Linked (nodes : ι → Option (Node ι α)) : Option ι → List (ι × α) → Prop
  | p, [] => p = none
  | p, (a, v) :: rest => p = some a ∧ ∃ next, nodes a = some ⟨v, next⟩ ∧ Linked nodes next rest

/-- A list with pointers to its first and to its last node, whose nodes are different. -/
structure Queue (nodes : ι → Option (Node ι α)) (head tail : Option ι) (xs : List (ι × α)) : Prop where
  linked : Linked nodes head xs
  last : tail = (xs.getLast?).map Prod.fst
  nodup : (xs.map Prod.fst).Nodup

variable {nodes : ι → Option (Node ι α)} {head tail next : Option ι}
  {xs rest : List (ι × α)} {n : Node ι α}

theorem Linked.mem (h : Linked nodes p xs) (hx : (a, v) ∈ xs) :
    ∃ next, nodes a = some ⟨v, next⟩ := by
  induction xs generalizing p with
  | nil => cases hx
  | cons x xs ih =>
    obtain ⟨-, next, hn, hl⟩ := h
    rcases List.mem_cons.mp hx with rfl | hx
    · exact ⟨next, hn⟩
    · exact ih hl hx

theorem Queue.tail_none (h : Queue nodes head none xs) : xs = [] := by
  have hl := h.last
  cases hx : xs.getLast? with
  | none => exact List.getLast?_eq_none_iff.mp hx
  | some x =>
    rw [hx] at hl
    cases hl

/-- The last node of a queue that has one. -/
theorem Queue.tail_node (h : Queue nodes head (some a) xs) :
    ∃ front v, xs = front ++ [(a, v)] ∧ nodes a = some ⟨v, none⟩ := by
  obtain ⟨x, hx, hxa⟩ := Option.map_eq_some_iff.mp h.last.symm
  obtain ⟨front, rfl⟩ := List.getLast?_eq_some_iff.mp hx
  refine ⟨front, x.2, ?_, ?_⟩
  · rw [← hxa]
  · have hlink : ∀ {p : Option ι} {ys : List (ι × α)}, Linked nodes p (ys ++ [x]) →
        nodes x.1 = some ⟨x.2, none⟩ := by
      intro p ys hy
      induction ys generalizing p with
      | nil =>
        obtain ⟨-, next, hn, hnext⟩ := hy
        have hnext : next = none := hnext
        rw [hn, hnext]
      | cons y ys ih =>
        obtain ⟨-, next, -, hy⟩ := hy
        exact ih hy
    rw [← hxa]
    exact hlink h.linked

/-- The first node of a queue that is not empty. -/
theorem Queue.head_node (h : Queue nodes head tail ((a, v) :: rest)) :
    head = some a ∧ ∃ next, nodes a = some ⟨v, next⟩ ∧ (next = none ↔ rest = []) := by
  obtain ⟨hp, next, hn, hl⟩ := h.linked
  refine ⟨hp, next, hn, ?_⟩
  cases rest with
  | nil => exact iff_of_true hl rfl
  | cons x rest => exact iff_of_false (by simp [hl.1]) (by simp)

variable [DecidableEq ι]

/-- A list does not depend on other nodes. -/
theorem Linked.update (h : Linked nodes p xs) (ha : a ∉ xs.map Prod.fst) (n : Option (Node ι α)) :
    Linked (Function.update nodes a n) p xs := by
  induction xs generalizing p with
  | nil => exact h
  | cons x xs ih =>
    obtain ⟨hp, next, hn, hl⟩ := h
    have hne : x.1 ≠ a := fun he => ha (he ▸ List.mem_cons_self)
    refine ⟨hp, next, ?_, ih hl fun hm => ha (List.mem_cons_of_mem _ hm)⟩
    rw [Function.update_of_ne hne, hn]

/-- A new node behind the last one. -/
theorem Linked.append (h : Linked nodes p (xs ++ [(a, v)])) {b : ι} {w : α}
    (ha : a ∉ xs.map Prod.fst) (hab : a ≠ b) (hb : b ∉ xs.map Prod.fst) :
    Linked (Function.update (Function.update nodes b (some ⟨w, none⟩)) a (some ⟨v, some b⟩)) p
      (xs ++ [(a, v), (b, w)]) := by
  induction xs generalizing p with
  | nil =>
    obtain ⟨hp, -, -, -⟩ := h
    refine ⟨hp, some b, Function.update_self .., rfl, none, ?_, rfl⟩
    rw [Function.update_of_ne hab.symm, Function.update_self]
  | cons x xs ih =>
    obtain ⟨hp, next, hn, hl⟩ := h
    have hxa : x.1 ≠ a := fun he => ha (he ▸ List.mem_cons_self)
    have hxb : x.1 ≠ b := fun he => hb (he ▸ List.mem_cons_self)
    refine ⟨hp, next, ?_, ih hl (fun hm => ha (List.mem_cons_of_mem _ hm))
      fun hm => hb (List.mem_cons_of_mem _ hm)⟩
    rw [Function.update_of_ne hxa, Function.update_of_ne hxb, hn]

theorem Queue.push_empty (h : Queue nodes head none xs) (b : ι) (w : α) :
    Queue (Function.update nodes b (some ⟨w, none⟩)) (some b) (some b) (xs ++ [(b, w)]) := by
  rw [h.tail_none]
  exact ⟨⟨rfl, none, Function.update_self .., rfl⟩, rfl, List.nodup_singleton b⟩

theorem Queue.push (h : Queue nodes head (some a) xs) (hn : nodes a = some n) {b : ι}
    (hb : b ∉ xs.map Prod.fst) (w : α) :
    Queue (Function.update (Function.update nodes b (some ⟨w, none⟩)) a
      (some { n with next := some b })) head (some b) (xs ++ [(b, w)]) := by
  obtain ⟨front, v, rfl, ha⟩ := h.tail_node
  obtain rfl := Option.some.inj (hn.symm.trans ha)
  have hnodup := h.nodup
  rw [List.map_append, List.nodup_append] at hnodup
  have hfront : a ∉ front.map Prod.fst := fun hm => hnodup.2.2 _ hm a (by simp) rfl
  have hab : a ≠ b := fun he => hb (by simp [he])
  have hbf : b ∉ front.map Prod.fst := fun hm => hb (by simp [hm])
  refine ⟨?_, ?_, ?_⟩
  · rw [List.append_assoc]
    exact h.linked.append hfront hab hbf
  · simp
  · rw [List.map_append, List.nodup_append]
    refine ⟨h.nodup, by simp, fun x hx y hy => ?_⟩
    obtain rfl : y = b := by simpa using hy
    exact fun he => hb (he ▸ hx)

/-- Without its first node, which may be freed. -/
theorem Queue.pop (h : Queue nodes head tail ((a, v) :: rest)) (hn : nodes a = some n) :
    Queue (Function.update nodes a none) n.next (if n.next = none then none else tail) rest := by
  obtain ⟨-, next, hn', hempty⟩ := h.head_node
  obtain rfl := Option.some.inj (hn.symm.trans hn')
  have hlinked : Linked nodes next rest := by
    obtain ⟨-, next', hnext, hl⟩ := h.linked
    obtain rfl : next = next' := congrArg Node.next (Option.some.inj (hn.symm.trans hnext))
    exact hl
  have hnodup := List.nodup_cons.mp h.nodup
  refine ⟨hlinked.update hnodup.1 none, ?_, hnodup.2⟩
  by_cases hr : rest = []
  · rw [if_pos (hempty.mpr hr), hr]
    rfl
  · rw [if_neg fun hnone => hr (hempty.mp hnone), h.last]
    obtain ⟨x, rest, rfl⟩ := List.exists_cons_of_ne_nil hr
    rw [List.getLast?_cons_cons]

end LinkedList
