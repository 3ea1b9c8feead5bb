import Mathlib.Data.List.Basic
import Mathlib.Order.Basic
import Mathlib.Order.Defs.LinearOrder
import Mathlib.Order.Lattice

/- Finite maps as lists in increasing order of their keys. -/
namespace SortedMap

variable {E κ : Type} [LinearOrder κ] {key : E → κ}

/-- The entries are in strictly increasing order of their keys. -/
def Sorted (key : E → κ) (xs : List E) : Prop := xs.Pairwise fun a b => key a < key b

/-- The entry takes the place of the one with its key or goes between the smaller and the larger. -/
def bind (key : E → κ) (e : E) (xs : List E) : List E :=
  xs.filter (fun a => key a < key e) ++ e :: xs.filter fun a => key e < key a

def unbind (key : E → κ) (k : κ) (xs : List E) : List E := xs.filter fun a => key a ≠ k

def find (key : E → κ) (k : κ) (xs : List E) : Option E := xs.find? fun a => key a = k

theorem find_key {xs : List E} {k : κ} {e : E} (h : find key k xs = some e) : key e = k := by
  simpa using List.find?_some h

theorem find_eq_some {xs : List E} (hs : Sorted key xs) {k : κ} {e : E} :
    find key k xs = some e ↔ e ∈ xs ∧ key e = k := by
  unfold find
  constructor
  · intro h
    exact ⟨List.mem_of_find?_eq_some h, find_key h⟩
  · rintro ⟨hmem, hk⟩
    induction xs with
    | nil => cases hmem
    | cons a xs ih =>
      obtain ⟨ha, hs⟩ := List.pairwise_cons.mp hs
      rcases List.mem_cons.mp hmem with rfl | hmem
      · simp [hk]
      · have hne : key a ≠ k := by
          rintro rfl
          exact absurd (ha e hmem) (by rw [hk]; exact lt_irrefl _)
        simpa [List.find?_cons, hne] using ih hs hmem

theorem find_eq_none {xs : List E} {k : κ} :
    find key k xs = none ↔ ∀ a ∈ xs, key a ≠ k := by
  simp [find]

theorem Sorted.append {xs ys : List E} (hx : Sorted key xs) (hy : Sorted key ys)
    (h : ∀ a ∈ xs, ∀ b ∈ ys, key a < key b) : Sorted key (xs ++ ys) :=
  List.pairwise_append.mpr ⟨hx, hy, h⟩

theorem Sorted.bind {xs : List E} (hs : Sorted key xs) (e : E) :
    Sorted key (SortedMap.bind key e xs) := by
  have hlt : ∀ a ∈ xs.filter (fun a => key a < key e), key a < key e := by
    intro a ha
    simpa using (List.mem_filter.mp ha).2
  have hgt : ∀ a ∈ xs.filter (fun a => key e < key a), key e < key a := by
    intro a ha
    simpa using (List.mem_filter.mp ha).2
  refine Sorted.append (List.Pairwise.filter _ hs)
    (List.pairwise_cons.mpr ⟨hgt, List.Pairwise.filter _ hs⟩) ?_
  intro a ha b hb
  rcases List.mem_cons.mp hb with rfl | hb
  · exact hlt a ha
  · exact (hlt a ha).trans (hgt b hb)

theorem Sorted.unbind {xs : List E} (hs : Sorted key xs) (k : κ) :
    Sorted key (SortedMap.unbind key k xs) := List.Pairwise.filter _ hs

theorem mem_bind {xs : List E} {e a : E} :
    a ∈ bind key e xs ↔ a = e ∨ a ∈ xs ∧ key a ≠ key e := by
  simp only [bind, List.mem_append, List.mem_cons, List.mem_filter, decide_eq_true_eq]
  constructor
  · rintro (⟨ha, hlt⟩ | rfl | ⟨ha, hlt⟩)
    · exact .inr ⟨ha, hlt.ne⟩
    · exact .inl rfl
    · exact .inr ⟨ha, hlt.ne'⟩
  · rintro (rfl | ⟨ha, hne⟩)
    · exact .inr (.inl rfl)
    · rcases lt_or_gt_of_ne hne with hlt | hlt
      · exact .inl ⟨ha, hlt⟩
      · exact .inr (.inr ⟨ha, hlt⟩)

theorem mem_unbind {xs : List E} {k : κ} {a : E} :
    a ∈ unbind key k xs ↔ a ∈ xs ∧ key a ≠ k := by
  simp [unbind]

theorem bind_append_left (xs : List E) {ys : List E} {e : E} (h : ∀ a ∈ ys, key e < key a) :
    bind key e (xs ++ ys) = bind key e xs ++ ys := by
  have hlt : ys.filter (fun a => key a < key e) = [] := by
    refine List.filter_eq_nil_iff.mpr fun a ha => ?_
    simpa using (h a ha).le
  have hgt : ys.filter (fun a => key e < key a) = ys := by
    refine List.filter_eq_self.mpr fun a ha => ?_
    simpa using h a ha
  simp [bind, List.filter_append, hlt, hgt]

theorem bind_append_right {xs ys : List E} {e : E} (h : ∀ a ∈ xs, key a < key e) :
    bind key e (xs ++ ys) = xs ++ bind key e ys := by
  have hlt : xs.filter (fun a => key a < key e) = xs := by
    refine List.filter_eq_self.mpr fun a ha => ?_
    simpa using h a ha
  have hgt : xs.filter (fun a => key e < key a) = [] := by
    refine List.filter_eq_nil_iff.mpr fun a ha => ?_
    simpa using (h a ha).le
  simp [bind, List.filter_append, hlt, hgt]

theorem unbind_append (k : κ) (xs ys : List E) :
    unbind key k (xs ++ ys) = unbind key k xs ++ unbind key k ys := by
  simp [unbind]

theorem unbind_eq_self {xs : List E} {k : κ} (h : ∀ a ∈ xs, key a ≠ k) : unbind key k xs = xs := by
  refine List.filter_eq_self.mpr fun a ha => ?_
  simpa using h a ha

theorem find_append_left {xs ys : List E} {k : κ} (h : ∀ a ∈ ys, key a ≠ k) :
    find key k (xs ++ ys) = find key k xs := by
  have hy : ys.find? (fun a => decide (key a = k)) = none := by
    simpa using h
  simp [find, List.find?_append, hy]

theorem find_append_right {xs ys : List E} {k : κ} (h : ∀ a ∈ xs, key a ≠ k) :
    find key k (xs ++ ys) = find key k ys := by
  have hx : xs.find? (fun a => decide (key a = k)) = none := by
    simpa using h
  simp [find, List.find?_append, hx]

/-- At the cut between the smaller and the larger keys. -/
theorem bind_of_cut {xs ys : List E} {e : E} (hx : ∀ a ∈ xs, key a < key e)
    (hy : ∀ a ∈ ys, key e < key a) : bind key e (xs ++ ys) = xs ++ e :: ys := by
  rw [bind_append_right hx]
  have h := bind_append_left [] hy
  rw [List.nil_append] at h
  rw [h]
  rfl

/-- At the entry with the key. -/
theorem bind_of_mem {xs ys : List E} {e a : E} (hx : ∀ b ∈ xs, key b < key e)
    (ha : key a = key e) (hy : ∀ b ∈ ys, key e < key b) :
    bind key e (xs ++ a :: ys) = xs ++ e :: ys := by
  rw [bind_append_right hx]
  have h := bind_append_left [a] hy
  have hone : bind key e [a] = [e] := by simp [bind, ha]
  rw [hone] at h
  rw [← List.singleton_append, h]
  rfl

theorem unbind_of_mem {xs ys : List E} {k : κ} {a : E} (hx : ∀ b ∈ xs, key b ≠ k)
    (ha : key a = k) (hy : ∀ b ∈ ys, key b ≠ k) : unbind key k (xs ++ a :: ys) = xs ++ ys := by
  rw [unbind_append, unbind_eq_self hx]
  have hcons : unbind key k (a :: ys) = unbind key k ys := by simp [unbind, ha]
  rw [hcons, unbind_eq_self hy]

end SortedMap
