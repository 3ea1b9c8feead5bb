import Mathlib.Data.Finset.Card
import Mathlib.Logic.Relation

namespace Marking

variable {α : Type*} (children : α → List α)

def Reaches (x y : α) : Prop := Relation.ReflTransGen (fun a b => b ∈ children a) x y

/-- What can be reached from some objects. -/
def Reachable (xs : List α) (y : α) : Prop := ∃ x ∈ xs, Reaches children x y

variable {children} {xs : List α} {x y : α}

theorem Reachable.start (hx : x ∈ xs) : Reachable children xs x := ⟨x, hx, .refl⟩

theorem Reachable.next (h : Reachable children xs x) (hy : y ∈ children x) : Reachable children xs y := by
  obtain ⟨r, hr, h⟩ := h
  exact ⟨r, hr, h.tail hy⟩

/-- What holds of the first objects and of what an object it holds of points at holds of all that can
be reached. -/
theorem Reachable.closed {p : α → Prop} (h : Reachable children xs y) (hxs : ∀ x ∈ xs, p x)
    (hp : ∀ x, p x → ∀ y ∈ children x, p y) : p y := by
  obtain ⟨x, hx, h⟩ := h
  induction h with
  | refl => exact hxs x hx
  | tail _ hy ih => exact hp _ ih _ hy

/-- A marking between two states: nothing loses its mark, and what got one is reached from the objects
that were visited and points at marked objects only. -/
structure Marks (children : α → List α) (xs : List α) (before after : α → Bool) : Prop where
  grows : ∀ y, before y = true → after y = true
  visited : ∀ x ∈ xs, after x = true
  reached : ∀ y, after y = true → before y = true ∨
    Reachable children xs y ∧ ∀ z ∈ children y, after z = true

theorem Marks.append {xs ys : List α} {a b c : α → Bool} (h : Marks children xs a b)
    (h' : Marks children ys b c) : Marks children (xs ++ ys) a c where
  grows y hy := h'.grows y (h.grows y hy)
  visited x hx := by
    rcases List.mem_append.mp hx with hx | hx
    · exact h'.grows x (h.visited x hx)
    · exact h'.visited x hx
  reached y hy := by
    rcases h'.reached y hy with hy | ⟨⟨x, hx, hr⟩, hz⟩
    · rcases h.reached y hy with hy | ⟨⟨x, hx, hr⟩, hz⟩
      · exact .inl hy
      · exact .inr ⟨⟨x, List.mem_append_left ys hx, hr⟩, fun z hm => h'.grows z (hz z hm)⟩
    · exact .inr ⟨⟨x, List.mem_append_right xs hx, hr⟩, hz⟩

/-- The objects of a finite set that have no mark yet. -/
def unmarked (u : Finset α) (marks : α → Bool) : Finset α := u.filter fun x => marks x = false

theorem unmarked_mono (u : Finset α) {a b : α → Bool} (h : ∀ y, a y = true → b y = true) :
    (unmarked u b).card ≤ (unmarked u a).card := by
  apply Finset.card_le_card
  intro x hx
  obtain ⟨hu, hb⟩ := Finset.mem_filter.mp hx
  refine Finset.mem_filter.mpr ⟨hu, ?_⟩
  cases ha : a x with
  | false => rfl
  | true => exact absurd (h x ha) (by simp [hb])

variable [DecidableEq α] {n : Nat}

/-- Depth-first marking of what an object points at. -/
def visit (children : α → List α) : Nat → α → (α → Bool) → α → Bool
  | 0, _, marks => marks
  | n + 1, x, marks =>
    if marks x then marks
    else (children x).foldl (fun marks y => visit children n y marks) (Function.update marks x true)

def visitAll (children : α → List α) (n : Nat) (xs : List α) (marks : α → Bool) : α → Bool :=
  xs.foldl (fun marks y => visit children n y marks) marks

theorem unmarked_update (u : Finset α) {marks : α → Bool} (hu : x ∈ u) (hx : marks x = false) :
    (unmarked u (Function.update marks x true)).card < (unmarked u marks).card := by
  apply Finset.card_lt_card
  refine Finset.ssubset_iff_of_subset ?_ |>.mpr ⟨x, Finset.mem_filter.mpr ⟨hu, hx⟩, ?_⟩
  · intro y hy
    obtain ⟨hyu, hy⟩ := Finset.mem_filter.mp hy
    have hne : y ≠ x := by
      rintro rfl
      simp at hy
    rw [Function.update_of_ne hne] at hy
    exact Finset.mem_filter.mpr ⟨hyu, hy⟩
  · simp [unmarked]

theorem visitAll_marks {u : Finset α} (hvisit : ∀ x ∈ u, ∀ marks, (unmarked u marks).card ≤ n →
      Marks children [x] marks (visit children n x marks)) (xs : List α) (hxs : ∀ x ∈ xs, x ∈ u)
    (marks : α → Bool) (hn : (unmarked u marks).card ≤ n) :
    Marks children xs marks (visitAll children n xs marks) := by
  induction xs generalizing marks with
  | nil => exact ⟨fun _ h => h, fun _ h => absurd h List.not_mem_nil, fun _ h => .inl h⟩
  | cons x xs ih =>
    have hx := hvisit x (hxs x List.mem_cons_self) marks hn
    have hn' := Nat.le_trans (unmarked_mono u hx.grows) hn
    exact hx.append (ih (fun y hy => hxs y (List.mem_cons_of_mem x hy)) _ hn')

/-- One visit marks what it has to, when there is fuel for the objects without a mark. -/
theorem visit_marks {u : Finset α} (hu : ∀ x ∈ u, ∀ y ∈ children x, y ∈ u) (hx : x ∈ u)
    (marks : α → Bool) (hn : (unmarked u marks).card ≤ n) :
    Marks children [x] marks (visit children n x marks) := by
  induction n generalizing x marks with
  | zero =>
    have hmark : marks x = true := by
      by_contra h
      have hmem : x ∈ unmarked u marks := Finset.mem_filter.mpr ⟨hx, by simpa using h⟩
      exact absurd (Finset.card_pos.mpr ⟨x, hmem⟩) (by omega)
    refine ⟨fun _ h => h, fun y hy => ?_, fun _ h => .inl h⟩
    rw [List.mem_singleton.mp hy]
    exact hmark
  | succ n ih =>
    unfold visit
    cases hmark : marks x with
    | true =>
      refine ⟨fun _ h => h, fun y hy => ?_, fun _ h => .inl h⟩
      rw [List.mem_singleton.mp hy]
      exact hmark
    | false =>
      have hlt := unmarked_update u hx hmark
      have hall := visitAll_marks (fun y hy marks hn => ih hy marks hn) (children x) (hu x hx)
        (Function.update marks x true) (by omega)
      refine ⟨fun y hy => hall.grows y ?_, fun y hy => ?_, fun y hy => ?_⟩
      · by_cases hyx : y = x
        · simp [hyx]
        · rw [Function.update_of_ne hyx]
          exact hy
      · rw [List.mem_singleton.mp hy]
        exact hall.grows x (by simp)
      · rcases hall.reached y hy with hy | ⟨⟨z, hz, hr⟩, hc⟩
        · by_cases hyx : y = x
          · rw [hyx]
            exact .inr ⟨.start List.mem_cons_self, hall.visited⟩
          · rw [Function.update_of_ne hyx] at hy
            exact .inl hy
        · exact .inr ⟨⟨x, List.mem_cons_self, .head hz hr⟩, hc⟩

/-- Visiting some objects from scratch marks what can be reached from them. -/
theorem visitAll_iff {u : Finset α} (hu : ∀ x ∈ u, ∀ y ∈ children x, y ∈ u) (hxs : ∀ x ∈ xs, x ∈ u)
    (hn : u.card ≤ n) : visitAll children n xs (fun _ => false) y = true ↔ Reachable children xs y := by
  have hcard : (unmarked u fun _ => false).card ≤ n := Nat.le_trans (Finset.card_filter_le _ _) hn
  have h := visitAll_marks (fun x hx marks hn => visit_marks hu hx marks hn) xs hxs _ hcard
  constructor
  · intro hy
    rcases h.reached y hy with hy | ⟨hr, -⟩
    · cases hy
    · exact hr
  · intro hy
    refine hy.closed h.visited fun x hx z hz => ?_
    rcases h.reached x hx with hx | ⟨-, hc⟩
    · cases hx
    · exact hc z hz

end Marking
