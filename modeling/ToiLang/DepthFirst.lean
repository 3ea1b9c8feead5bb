import Mathlib.Data.Finset.Card
import Mathlib.Data.Finset.Dedup

namespace ToiLang.DepthFirst

variable {V : Type} (next : V → List V)

/-- The vertices that have been seen before and after a depth-first search from a list of vertices,
and how many of them are open at once in it. -/
inductive Visits : List V → List V → List V → Nat → Prop
  | done (seen : List V) : Visits seen [] seen 0
  | again {seen as seen' : List V} {a : V} {d : Nat} (ha : a ∈ seen) (h : Visits seen as seen' d) :
    Visits seen (a :: as) seen' d
  | first {seen as seen₁ seen₂ : List V} {a : V} {d₁ d₂ : Nat} (ha : a ∉ seen)
    (h : Visits (seen ++ [a]) (next a) seen₁ d₁) (h' : Visits seen₁ as seen₂ d₂) :
    Visits seen (a :: as) seen₂ (max (d₁ + 1) d₂)

/-- The vertices of a list one after the other. -/
def searchAll (visit : V → List V → Option (List V)) : List V → List V → Option (List V)
  | [], seen => some seen
  | a :: as, seen => (visit a seen).bind (searchAll visit as)

/-- The search from `a` with room for so many open vertices. -/
def search [DecidableEq V] : Nat → V → List V → Option (List V)
  | 0, a, seen => if a ∈ seen then some seen else none
  | room + 1, a, seen =>
    if a ∈ seen then some seen else searchAll (search room) (next a) (seen ++ [a])

variable {next} {seen seen' as : List V} {a : V} {room : Nat}

theorem searchAll_singleton (visit : V → List V → Option (List V)) :
    searchAll visit [a] seen = visit a seen := by
  unfold searchAll
  cases visit a seen <;> rfl

theorem searchAll_append (visit : V → List V → Option (List V)) (as bs : List V) :
    searchAll visit (as ++ bs) seen = (searchAll visit as seen).bind (searchAll visit bs) := by
  induction as generalizing seen with
  | nil => rfl
  | cons a as ih =>
    change (visit a seen).bind (searchAll visit (as ++ bs)) =
      ((visit a seen).bind (searchAll visit as)).bind (searchAll visit bs)
    rw [Option.bind_assoc]
    congr 1
    funext seen₁
    exact ih

/-- What a list visits, when every vertex does what the relation says. -/
theorem visits_of_searchAll {visit : V → List V → Option (List V)} {bound : Nat}
    (hvisit : ∀ a seen seen', visit a seen = some seen' → ∃ d, Visits next seen [a] seen' d ∧ d ≤ bound)
    (h : searchAll visit as seen = some seen') : ∃ d, Visits next seen as seen' d ∧ d ≤ bound := by
  induction as generalizing seen with
  | nil =>
    cases Option.some.inj h
    exact ⟨0, .done _, Nat.zero_le _⟩
  | cons a as ih =>
    obtain ⟨seen₁, ha, hrest⟩ := Option.bind_eq_some_iff.mp h
    obtain ⟨d₂, hvisits, hd₂⟩ := ih hrest
    obtain ⟨d₁, hfirst, hd₁⟩ := hvisit a seen seen₁ ha
    cases hfirst with
    | again hseen hdone =>
      cases hdone with
      | done => exact ⟨d₂, .again hseen hvisits, hd₂⟩
    | first hnew hopen hdone =>
      cases hdone with
      | done => exact ⟨_, .first hnew hopen hvisits, by omega⟩

theorem Visits.subset {d : Nat} (h : Visits next seen as seen' d) : seen ⊆ seen' := by
  induction h with
  | done seen => exact List.Subset.refl _
  | again ha h ih => exact ih
  | first ha h h' ih ih' =>
    exact List.Subset.trans (List.subset_append_left _ _) (List.Subset.trans ih ih')

section Search

variable [DecidableEq V]

theorem search_seen (ha : a ∈ seen) : search next room a seen = some seen := by
  cases room <;> exact if_pos ha

theorem search_succ (ha : a ∉ seen) :
    search next (room + 1) a seen = searchAll (search next room) (next a) (seen ++ [a]) :=
  if_neg ha

theorem visits_of_search (h : search next room a seen = some seen') :
    ∃ d, Visits next seen [a] seen' d ∧ d ≤ room := by
  induction room generalizing a seen seen' with
  | zero =>
    by_cases ha : a ∈ seen
    · rw [search_seen ha] at h
      cases Option.some.inj h
      exact ⟨0, .again ha (.done seen), Nat.le_refl _⟩
    · unfold search at h
      rw [if_neg ha] at h
      cases h
  | succ room ih =>
    by_cases ha : a ∈ seen
    · rw [search_seen ha] at h
      cases Option.some.inj h
      exact ⟨0, .again ha (.done seen), Nat.zero_le _⟩
    · rw [search_succ ha] at h
      obtain ⟨d, hvisits, hd⟩ := visits_of_searchAll (fun a seen seen' h => ih h) h
      exact ⟨_, .first ha hvisits (.done seen'), by omega⟩

theorem searchAll_of_visits {d : Nat} (h : Visits next seen as seen' d) (hd : d ≤ room) :
    searchAll (search next room) as seen = some seen' := by
  induction h generalizing room with
  | done seen => rfl
  | again ha h ih =>
    unfold searchAll
    rw [search_seen ha]
    exact ih hd
  | @first seen as seen₁ seen₂ a d₁ d₂ ha h h' ih ih' =>
    obtain ⟨room, rfl⟩ : ∃ r, room = r + 1 := ⟨room - 1, by omega⟩
    unfold searchAll
    rw [search_succ ha, ih (by omega)]
    exact ih' (by omega)

/-- The search comes to its end with the room that the depth asks for. -/
theorem search_iff :
    search next room a seen = some seen' ↔ ∃ d, Visits next seen [a] seen' d ∧ d ≤ room := by
  constructor
  · exact visits_of_search
  · rintro ⟨d, h, hd⟩
    rw [← searchAll_singleton (search next room)]
    exact searchAll_of_visits h hd

/-- The vertices of `s` that have not been seen. -/
def unseen (s : Finset V) (seen : List V) : Finset V := s.filter (· ∉ seen)

theorem unseen_mono {s : Finset V} (h : seen ⊆ seen') : (unseen s seen').card ≤ (unseen s seen).card := by
  apply Finset.card_le_card
  intro a ha
  obtain ⟨hs, hnot⟩ := Finset.mem_filter.mp ha
  exact Finset.mem_filter.mpr ⟨hs, fun hseen => hnot (h hseen)⟩

theorem unseen_append {s : Finset V} (hs : a ∈ s) (ha : a ∉ seen) :
    (unseen s (seen ++ [a])).card < (unseen s seen).card := by
  apply Finset.card_lt_card
  refine Finset.ssubset_iff_of_subset (fun b hb => ?_) |>.mpr ⟨a, Finset.mem_filter.mpr ⟨hs, ha⟩, ?_⟩
  · obtain ⟨hbs, hnot⟩ := Finset.mem_filter.mp hb
    exact Finset.mem_filter.mpr ⟨hbs, fun hseen => hnot (List.mem_append_left _ hseen)⟩
  · intro hmem
    exact (Finset.mem_filter.mp hmem).2 (List.mem_append_right _ List.mem_cons_self)

/-- In a finite graph the search ends, with no more vertices open than there are unseen ones. -/
theorem visits_exists {s : Finset V} (hclosed : ∀ a ∈ s, ∀ b ∈ next a, b ∈ s) (has : ∀ a ∈ as, a ∈ s)
    (seen : List V) : ∃ seen' d, Visits next seen as seen' d ∧ d ≤ (unseen s seen).card := by
  induction hn : (unseen s seen).card using Nat.strong_induction_on generalizing seen as with
  | h n ih =>
    induction as generalizing seen with
    | nil => exact ⟨seen, 0, .done seen, Nat.zero_le _⟩
    | cons a as ih' =>
      have hrest := fun b hb => has b (List.mem_cons_of_mem a hb)
      by_cases ha : a ∈ seen
      · obtain ⟨seen', d, hvisits, hd⟩ := ih' hrest seen hn
        exact ⟨seen', d, .again ha hvisits, hd⟩
      · have hs := has a List.mem_cons_self
        have hlt := unseen_append hs ha
        obtain ⟨seen₁, d₁, hopen, hd₁⟩ := ih _ (by omega) (hclosed a hs) (seen ++ [a]) rfl
        have hle := unseen_mono (s := s) hopen.subset
        obtain ⟨seen₂, d₂, hvisits, hd₂⟩ := ih _ (by omega) hrest seen₁ rfl
        exact ⟨seen₂, _, .first ha hopen hvisits, by omega⟩

end Search

end ToiLang.DepthFirst
