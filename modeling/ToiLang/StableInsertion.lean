import Mathlib.Data.List.Induction
import Mathlib.Data.List.TakeWhile

namespace ToiLang

namespace StableInsertion

variable {α : Type} {lt : α → α → Bool}

/-- A strict weak order on the elements of a list: whatever is less than another is less than any
third or the third is less than the other. -/
structure StrictWeakOn (lt : α → α → Bool) (l : List α) : Prop where
  asymm : ∀ x ∈ l, ∀ y ∈ l, lt x y = true → lt y x = false
  split : ∀ x ∈ l, ∀ y ∈ l, ∀ z ∈ l, lt x z = true → lt x y = true ∨ lt y z = true

theorem StrictWeakOn.mono {l l' : List α} (h : StrictWeakOn lt l) (hl : ∀ x ∈ l', x ∈ l) :
    StrictWeakOn lt l' where
  asymm x hx y hy := h.asymm x (hl x hx) y (hl y hy)
  split x hx y hy z hz := h.split x (hl x hx) y (hl y hy) z (hl z hz)

theorem StrictWeakOn.flip {l : List α} (h : StrictWeakOn lt l) :
    StrictWeakOn (fun x y => lt y x) l where
  asymm x hx y hy := h.asymm y hy x hx
  split x hx y hy z hz hlt := (h.split z hz y hy x hx hlt).symm

/-- No element is less than an earlier one. -/
def Ordered (lt : α → α → Bool) (l : List α) : Prop := l.Pairwise fun x y => lt y x = false

/-- Elements none of which is less than another keep their order. -/
def Stable (lt : α → α → Bool) (old new : List α) : Prop :=
  ∀ p : α → Bool, (∀ x ∈ old, ∀ y ∈ old, p x = true → p y = true → lt x y = false) →
    new.filter p = old.filter p

/-- The key goes before the elements at the front that it is less than; the list is in reverse. -/
def insertBack (lt : α → α → Bool) (key : α) : List α → List α
  | [] => [key]
  | y :: ys => if lt key y then y :: insertBack lt key ys else key :: y :: ys

def insertionFrom (lt : α → α → Bool) (r l : List α) : List α :=
  l.foldl (fun r key => insertBack lt key r) r

def insertionSort (lt : α → α → Bool) (l : List α) : List α := (insertionFrom lt [] l).reverse

theorem insertBack_perm (lt : α → α → Bool) (key : α) (r : List α) :
    (insertBack lt key r).Perm (key :: r) := by
  induction r with
  | nil => exact .refl _
  | cons y ys ih =>
    unfold insertBack
    split
    next => exact (ih.cons y).trans (.swap key y ys)
    next => exact .refl _

theorem insertBack_ordered {key : α} {r : List α} (hw : StrictWeakOn lt (key :: r))
    (hr : r.Pairwise fun x y => lt x y = false) :
    (insertBack lt key r).Pairwise fun x y => lt x y = false := by
  induction r with
  | nil => exact List.pairwise_singleton _ _
  | cons y ys ih =>
    obtain ⟨hy, hys⟩ := List.pairwise_cons.mp hr
    unfold insertBack
    split
    next hlt =>
      have hrest := ih (hw.mono fun x hx => by
        rcases List.mem_cons.mp hx with rfl | hx
        · exact List.mem_cons_self
        · exact List.mem_cons_of_mem _ (List.mem_cons_of_mem _ hx)) hys
      refine List.pairwise_cons.mpr ⟨fun z hz => ?_, hrest⟩
      rcases List.mem_cons.mp ((insertBack_perm _ key ys).mem_iff.mp hz) with rfl | hz
      · exact hw.asymm _ List.mem_cons_self _ (by simp) hlt
      · exact hy z hz
    next hnot =>
      have hnot : lt key y = false := Bool.eq_false_iff.mpr hnot
      refine List.pairwise_cons.mpr ⟨fun z hz => ?_, hr⟩
      rcases List.mem_cons.mp hz with rfl | hz
      · exact hnot
      · by_contra hlt
        have hlt : lt key z = true := eq_true_of_ne_false hlt
        rcases hw.split key List.mem_cons_self y (by simp) z (by simp [hz]) hlt with h | h
        · exact absurd (hnot.symm.trans h) (by decide)
        · exact absurd ((hy z hz).symm.trans h) (by decide)

/-- Among elements that the key is not less than it comes first in the reversed list. -/
theorem insertBack_filter {key : α} {r : List α} {p : α → Bool}
    (hp : p key = true → ∀ y ∈ r, p y = true → lt key y = false) :
    (insertBack lt key r).filter p = (key :: r).filter p := by
  induction r with
  | nil => rfl
  | cons y ys ih =>
    have ih := ih fun hk z hz => hp hk z (List.mem_cons_of_mem _ hz)
    unfold insertBack
    split
    next hlt =>
      rw [List.filter_cons, ih]
      by_cases hk : p key = true
      · have hy : p y = false := by
          by_contra hy
          have := hp hk y List.mem_cons_self (eq_true_of_ne_false hy)
          rw [this] at hlt
          cases hlt
        simp [hk, hy]
      · simp [hk, List.filter_cons]
    next => rfl

theorem insertionFrom_perm (lt : α → α → Bool) (r l : List α) :
    (insertionFrom lt r l).Perm (l ++ r) := by
  induction l generalizing r with
  | nil => exact .refl _
  | cons key l ih =>
    refine (ih _).trans ?_
    refine ((insertBack_perm _ key r).append_left l).trans ?_
    exact List.perm_middle

theorem insertionFrom_ordered {r l : List α} (hw : StrictWeakOn lt (l ++ r))
    (hr : r.Pairwise fun x y => lt x y = false) :
    (insertionFrom lt r l).Pairwise fun x y => lt x y = false := by
  induction l generalizing r with
  | nil => exact hr
  | cons key l ih =>
    refine ih (hw.mono fun x hx => ?_) (insertBack_ordered (hw.mono fun x hx => ?_) hr)
    · have hmem := ((insertBack_perm lt key r).append_left l).mem_iff.mp hx
      exact (List.perm_middle.mem_iff).mp hmem
    · rcases List.mem_cons.mp hx with rfl | hx
      · exact List.mem_cons_self
      · exact List.mem_append_right _ hx

theorem insertionFrom_filter {r l : List α} {p : α → Bool}
    (hp : ∀ x ∈ l ++ r, ∀ y ∈ l ++ r, p x = true → p y = true → lt x y = false) :
    (insertionFrom lt r l).filter p = (l.reverse ++ r).filter p := by
  induction l generalizing r with
  | nil => rfl
  | cons key l ih =>
    have hmem (x : α) : x ∈ l ++ insertBack lt key r ↔ x ∈ key :: l ++ r := by
      rw [((insertBack_perm lt key r).append_left l).mem_iff]
      exact List.perm_middle.mem_iff
    refine (ih fun x hx y hy => hp x ((hmem x).mp hx) y ((hmem y).mp hy)).trans ?_
    have hback : (insertBack lt key r).filter p = (key :: r).filter p :=
      insertBack_filter fun hk y hy =>
        hp key List.mem_cons_self y (List.mem_append_right _ hy) hk
    rw [List.filter_append, hback, ← List.filter_append, List.reverse_cons, List.append_assoc]
    rfl

theorem insertionSort_perm (l : List α) : (insertionSort lt l).Perm l := by
  have h := insertionFrom_perm lt [] l
  rw [List.append_nil] at h
  exact (List.reverse_perm _).trans h

theorem insertionSort_ordered {l : List α} (hw : StrictWeakOn lt l) :
    Ordered lt (insertionSort lt l) := by
  have hw' : StrictWeakOn lt (l ++ []) := by rwa [List.append_nil]
  exact List.pairwise_reverse.mpr (insertionFrom_ordered hw' List.Pairwise.nil)

theorem insertionSort_stable (l : List α) : Stable lt l (insertionSort lt l) := by
  intro p hp
  unfold insertionSort
  have hp' : ∀ x ∈ l ++ [], ∀ y ∈ l ++ [], p x = true → p y = true → lt x y = false := by
    rwa [List.append_nil]
  rw [List.filter_reverse, insertionFrom_filter hp', List.append_nil, ← List.filter_reverse,
    List.reverse_reverse]

section Partial

variable {num : α → Bool} {less : α → α → Bool}

/-- A comparison that knows the order of some elements only. -/
def among (num : α → Bool) (less : α → α → Bool) (x y : α) : Bool := num x && num y && less x y

/-- Two elements that are out of order are among these, and so are all between them. -/
def Runs (num : α → Bool) (less : α → α → Bool) (l : List α) : Prop :=
  ∀ a x b y c, l = a ++ x :: (b ++ y :: c) → less y x = true →
    num x = true ∧ num y = true ∧ ∀ z ∈ b, num z = true

/-- The same of a list in reverse, by what comes before each element and a barrier. -/
def RunsBack (num : α → Bool) (less : α → α → Bool) : List α → Prop
  | [] => True
  | key :: r => RunsBack num less r ∧
    ∀ y ∈ (if num key = true then r.dropWhile num else r), less key y = false

theorem runs_of_forall {l : List α} (h : ∀ x ∈ l, num x = true) : Runs num less l := by
  rintro a x b y c rfl -
  exact ⟨h x (by simp), h y (by simp), fun z hz => h z (by simp [hz])⟩

theorem mem_dropWhile {p : α → Bool} {a b : List α} {x : α} (h : ¬ (p x = true ∧ ∀ z ∈ a, p z = true)) :
    x ∈ (a ++ x :: b).dropWhile p := by
  induction a with
  | nil =>
    have hx : ¬ p x = true := fun hx => h ⟨hx, nofun⟩
    rw [List.nil_append, List.dropWhile_cons_of_neg hx]
    exact List.mem_cons_self
  | cons z a ih =>
    rw [List.cons_append]
    by_cases hz : p z = true
    · rw [List.dropWhile_cons_of_pos hz]
      refine ih fun hrest => h ⟨hrest.1, fun w hw => ?_⟩
      rcases List.mem_cons.mp hw with rfl | hw
      · exact hz
      · exact hrest.2 w hw
    · rw [List.dropWhile_cons_of_neg hz]
      simp

theorem runs_concat {l : List α} {key : α} : Runs num less (l ++ [key]) ↔
    Runs num less l ∧
      ∀ y ∈ (if num key = true then l.reverse.dropWhile num else l.reverse), less key y = false := by
  constructor
  · intro h
    refine ⟨fun a x b y c hl hlt => h a x b y (c ++ [key]) (by simp [hl]) hlt, fun y hy => ?_⟩
    refine Bool.eq_false_iff.mpr fun hlt => ?_
    by_cases hk : num key = true
    · rw [if_pos hk] at hy
      -- a barrier stands behind `y`, or is it
      cases hd : l.reverse.dropWhile num with
      | nil =>
        rw [hd] at hy
        cases hy
      | cons z t =>
        have hz : ¬ num z = true := by
          have hne : l.reverse.dropWhile num ≠ [] := by simp [hd]
          have hnot := List.head_dropWhile_not num hne
          simp only [hd, List.head_cons] at hnot
          rw [hnot]
          decide
        have hsplit : l = (z :: t).reverse ++ (l.reverse.takeWhile num).reverse := by
          rw [← hd, ← List.reverse_append, List.takeWhile_append_dropWhile, List.reverse_reverse]
        rw [hd] at hy
        rcases List.mem_cons.mp hy with rfl | hy
        · exact hz (h t.reverse y (l.reverse.takeWhile num).reverse key []
            (by conv => lhs; rw [hsplit]
                simp) hlt).1
        · obtain ⟨d, e, rfl⟩ := List.append_of_mem hy
          have hall := h e.reverse y (d.reverse ++ z :: (l.reverse.takeWhile num).reverse) key []
            (by conv => lhs; rw [hsplit]
                simp) hlt
          exact hz (hall.2.2 z (by simp))
    · rw [if_neg hk] at hy
      obtain ⟨a, b, rfl⟩ := List.append_of_mem (List.mem_reverse.mp hy)
      exact hk (h a y b key [] (by simp) hlt).2.1
  · rintro ⟨hl, hkey⟩ a x b y c heq hlt
    rcases List.eq_nil_or_concat c with rfl | ⟨c, w, rfl⟩
    · have heq' : l ++ [key] = (a ++ x :: b) ++ [y] := by simp [heq]
      obtain ⟨rfl, hy⟩ := List.append_inj' heq' rfl
      cases hy
      by_cases hk : num key = true
      · rw [if_pos hk] at hkey
        by_contra hnot
        have hback : ¬ (num x = true ∧ ∀ z ∈ b.reverse, num z = true) := fun h =>
          hnot ⟨h.1, hk, fun z hz => h.2 z (List.mem_reverse.mpr hz)⟩
        have hmem : x ∈ (a ++ x :: b).reverse.dropWhile num := by
          have h := mem_dropWhile (b := a.reverse) hback
          simpa using h
        rw [hkey x hmem] at hlt
        cases hlt
      · rw [if_neg hk] at hkey
        rw [hkey x (by simp)] at hlt
        cases hlt
    · have heq' : l ++ [key] = (a ++ x :: (b ++ y :: c)) ++ [w] := by simp [heq]
      obtain ⟨rfl, -⟩ := List.append_inj' heq' rfl
      exact hl a x b y c rfl hlt

theorem runs_iff (l : List α) : Runs num less l ↔ RunsBack num less l.reverse := by
  induction l using List.reverseRecOn with
  | nil => exact ⟨fun _ => trivial, fun _ a x b y c h => by cases a <;> cases h⟩
  | append_singleton l key ih =>
    rw [runs_concat, ih, List.reverse_append]
    rfl

/-- What the insertions have made of the elements `r₀`, both in reverse: those behind the last barrier
are in order, and all are if no others were out of order. -/
structure Inserted (num : α → Bool) (less : α → α → Bool) (r₀ r : List α) : Prop where
  front : (r.takeWhile num).Perm (r₀.takeWhile num)
  back : (r.dropWhile num).Perm (r₀.dropWhile num)
  sorted : (r.takeWhile num).Pairwise fun x y => less x y = false
  iff : (r.Pairwise fun x y => less x y = false) ↔ RunsBack num less r₀

theorem insertBack_run {key : α} {a b : List α} (hb : ∀ y ∈ b.head?, num y = false) :
    insertBack (among num less) key (a ++ b) = insertBack (among num less) key a ++ b := by
  induction a with
  | nil =>
    cases b with
    | nil => rfl
    | cons y b =>
      have hy := hb y rfl
      have hnot : among num less key y = false := by simp [among, hy]
      rw [List.nil_append]
      unfold insertBack
      rw [hnot]
      rfl
  | cons y a ih =>
    rw [List.cons_append]
    unfold insertBack
    split
    next => rw [ih, List.cons_append]
    next => rfl

theorem Inserted.perm {r₀ r : List α} (h : Inserted num less r₀ r) : r.Perm r₀ := by
  have hp := h.front.append h.back
  rwa [List.takeWhile_append_dropWhile, List.takeWhile_append_dropWhile] at hp

theorem Inserted.barrier {r₀ r : List α} (h : Inserted num less r₀ r) {key : α} (hk : num key = false) :
    Inserted num less (key :: r₀) (insertBack (among num less) key r) := by
  have hinsert : insertBack (among num less) key r = key :: r := by
    cases r with
    | nil => rfl
    | cons y r =>
      have hnot : among num less key y = false := by simp [among, hk]
      unfold insertBack
      rw [hnot]
      rfl
  have hkt : ¬ num key = true := by simp [hk]
  rw [hinsert]
  constructor
  · rw [List.takeWhile_cons_of_neg hkt, List.takeWhile_cons_of_neg hkt]
  · rw [List.dropWhile_cons_of_neg hkt, List.dropWhile_cons_of_neg hkt]
    exact h.perm.cons key
  · rw [List.takeWhile_cons_of_neg hkt]
    exact List.Pairwise.nil
  · unfold RunsBack
    rw [List.pairwise_cons, h.iff, if_neg hkt, and_comm]
    exact and_congr_right fun _ => forall_congr' fun y => imp_congr h.perm.mem_iff Iff.rfl

theorem Inserted.number {r₀ r : List α} (h : Inserted num less r₀ r) {key : α} (hk : num key = true)
    (hw : StrictWeakOn less ((key :: r₀).filter num)) :
    Inserted num less (key :: r₀) (insertBack (among num less) key r) := by
  -- the key stays in front of the barrier
  have hsplit : r = r.takeWhile num ++ r.dropWhile num := (List.takeWhile_append_dropWhile ..).symm
  have hhead : ∀ y ∈ (r.dropWhile num).head?, num y = false := by
    intro y hy
    have hnot := List.head?_dropWhile_not num r
    rw [hy] at hnot
    simpa using hnot
  generalize ha : r.takeWhile num = a at hsplit
  generalize hb : r.dropWhile num = b at hsplit hhead
  have hnum : ∀ x ∈ insertBack (among num less) key a, num x = true := by
    intro x hx
    rcases List.mem_cons.mp ((insertBack_perm _ key a).mem_iff.mp hx) with rfl | hx
    · exact hk
    · rw [← ha] at hx
      exact List.mem_takeWhile_imp hx
  have hless (x : α) (hx : x ∈ a) : num x = true := by
    rw [← ha] at hx
    exact List.mem_takeWhile_imp hx
  have hrun : insertBack (among num less) key r = insertBack (among num less) key a ++ b := by
    rw [hsplit, insertBack_run hhead]
  have hfront := h.front
  have hback := h.back
  have hsorted := h.sorted
  rw [ha] at hfront hsorted
  rw [hb] at hback
  -- among the elements of the run the comparison is the order
  have hmem : ∀ x ∈ key :: a, x ∈ (key :: r₀).filter num := by
    intro x hx
    rcases List.mem_cons.mp hx with rfl | hx
    · exact List.mem_filter.mpr ⟨List.mem_cons_self, hk⟩
    · have hx' := (List.takeWhile_prefix num).subset (hfront.mem_iff.mp hx)
      exact List.mem_filter.mpr ⟨List.mem_cons_of_mem _ hx', hless x hx⟩
  have hall : ∀ x ∈ key :: a, num x = true := fun x hx => (List.mem_filter.mp (hmem x hx)).2
  have hsame (x y : α) (hx : num x = true) (hy : num y = true) : among num less x y = less x y := by
    simp [among, hx, hy]
  have hweak : StrictWeakOn (among num less) (key :: a) := by
    have hw' := hw.mono hmem
    constructor
    · intro x hx y hy hlt
      rw [hsame _ _ (hall x hx) (hall y hy)] at hlt
      rw [hsame _ _ (hall y hy) (hall x hx)]
      exact hw'.asymm x hx y hy hlt
    · intro x hx y hy z hz hlt
      rw [hsame _ _ (hall x hx) (hall z hz)] at hlt
      rw [hsame _ _ (hall x hx) (hall y hy), hsame _ _ (hall y hy) (hall z hz)]
      exact hw'.split x hx y hy z hz hlt
  have hordered : (insertBack (among num less) key a).Pairwise fun x y => less x y = false := by
    have hins := insertBack_ordered hweak (hsorted.imp_of_mem fun {x y} hx hy hxy => by
      rwa [hsame _ _ (hless x hx) (hless y hy)])
    exact hins.imp_of_mem fun {x y} hx hy hxy => by rwa [hsame _ _ (hnum x hx) (hnum y hy)] at hxy
  have htake : (insertBack (among num less) key a ++ b).takeWhile num = insertBack (among num less) key a := by
    rw [List.takeWhile_append_of_pos hnum]
    cases b with
    | nil => rw [List.takeWhile_nil, List.append_nil]
    | cons y b => rw [List.takeWhile_cons_of_neg (by simp [hhead y rfl]), List.append_nil]
  have hdrop : (insertBack (among num less) key a ++ b).dropWhile num = b := by
    rw [List.dropWhile_append_of_pos hnum]
    cases b with
    | nil => rfl
    | cons y b => rw [List.dropWhile_cons_of_neg (by simp [hhead y rfl])]
  rw [hrun]
  constructor
  · rw [htake, List.takeWhile_cons_of_pos hk]
    exact (insertBack_perm _ key a).trans (hfront.cons key)
  · rw [hdrop, List.dropWhile_cons_of_pos hk]
    exact hback
  · rw [htake]
    exact hordered
  · have hold := h.iff
    rw [hsplit, List.pairwise_append] at hold
    unfold RunsBack
    rw [if_pos hk, List.pairwise_append, ← hold]
    constructor
    · rintro ⟨-, hb', hcross⟩
      have hcross' (x : α) (hx : x ∈ key :: a) : ∀ y ∈ b, less x y = false :=
        hcross x ((insertBack_perm _ key a).mem_iff.mpr hx)
      exact ⟨⟨hsorted, hb', fun x hx => hcross' x (List.mem_cons_of_mem _ hx)⟩,
        fun y hy => hcross' key List.mem_cons_self y (hback.mem_iff.mpr hy)⟩
    · rintro ⟨⟨-, hb', hcross⟩, hkey⟩
      refine ⟨hordered, hb', fun x hx y hy => ?_⟩
      rcases List.mem_cons.mp ((insertBack_perm _ key a).mem_iff.mp hx) with rfl | hx
      · exact hkey y (hback.mem_iff.mp hy)
      · exact hcross x hx y hy

theorem inserted_from {r₀ r l : List α} (h : Inserted num less r₀ r)
    (hw : StrictWeakOn less ((l.reverse ++ r₀).filter num)) :
    Inserted num less (l.reverse ++ r₀) (insertionFrom (among num less) r l) := by
  induction l generalizing r₀ r with
  | nil => exact h
  | cons key l ih =>
    have heq : (key :: l).reverse ++ r₀ = l.reverse ++ key :: r₀ := by simp
    rw [heq] at hw ⊢
    refine ih ?_ hw
    cases hk : num key with
    | false => exact h.barrier hk
    | true =>
      refine h.number hk (hw.mono fun x hx => ?_)
      obtain ⟨hmem, hx⟩ := List.mem_filter.mp hx
      exact List.mem_filter.mpr ⟨List.mem_append_right _ hmem, hx⟩

/-- An insertion sort that compares some elements only orders a list if and only if it had no two others
out of order, and none of these across another. -/
theorem insertionSort_ordered_iff {l : List α} (hw : StrictWeakOn less (l.filter num)) :
    Ordered less (insertionSort (among num less) l) ↔ Runs num less l := by
  have hw' : StrictWeakOn less ((l.reverse ++ []).filter num) := by
    refine hw.mono fun x hx => ?_
    rw [List.append_nil] at hx
    obtain ⟨hx, hnum⟩ := List.mem_filter.mp hx
    exact List.mem_filter.mpr ⟨List.mem_reverse.mp hx, hnum⟩
  have hstart : Inserted num less [] [] :=
    ⟨.refl _, .refl _, List.Pairwise.nil, ⟨fun _ => trivial, fun _ => List.Pairwise.nil⟩⟩
  have h := (inserted_from hstart hw').iff
  rw [List.append_nil] at h
  unfold Ordered insertionSort
  rw [List.pairwise_reverse, runs_iff]
  exact h

end Partial

end StableInsertion

end ToiLang
