import ToiLang.Sequence
import ToiLang.StableInsertion
import ToiLang.Strings.Compare

namespace ToiLang

open StableInsertion

/-- How a call ends that does not return: the callee raises, or it is an error of the function. -/
inductive SortFailure
  | raised
  | error (message : String)

/-- The tables by their addresses, and the rest of the machine. -/
structure SortStore (σ : Type) where
  tables : Nat → Table
  rest : σ

def compareValues : Value → Value → Int
  | .number da, .number db => if da.lt db = true then -1 else if db.lt da = true then 1 else 0
  | .string sa, .string sb => strcmp sa sb
  | _, _ => 0

/-- `less` in the result of a comparator. -/
def lessOf : Value → Option Bool
  | .bool b => some b
  | .number num => some (num.lt 0)
  | _ => none

/-- The loop that copies the elements back. -/
def writeArray : List Value → Nat → Table → Table
  | [], _, t => t
  | v :: arr, i, t =>
    writeArray arr (i + 1) ((tableSetArray t ((i + 1 : Nat) : Int) v).getD t)

section Code

variable {σ : Type} (call : Value → Value → Value → EStateM SortFailure (SortStore σ) Value)
  (qsort : (Value → Value → Int) → List Value → List Value)

def callBinaryLess (fn a b : Value) : EStateM SortFailure (SortStore σ) Bool :=
  if isCallableValue fn = true then do
    let result ← call fn a b
    match lessOf result with
    | some less => pure less
    | none => throw (.error "table.sort: comparator must return bool or number.")
  else throw (.error "table.sort: comparator must be a function.")

/-- The inner loop, `j + 1` the last argument, with the assignment behind it. -/
def insertKey (cmp key : Value) : List Value → Nat → EStateM SortFailure (SortStore σ) (List Value)
  | arr, 0 => pure (arr.set 0 key)
  | arr, j + 1 => do
    let less ← callBinaryLess call cmp key (arr.getD j .nil)
    if less = true then insertKey cmp key (arr.set (j + 1) (arr.getD j .nil)) j
    else pure (arr.set (j + 1) key)

/-- The outer loop from `i` on, `n` turns. -/
def sortFrom (cmp : Value) : Nat → Nat → List Value → EStateM SortFailure (SortStore σ) (List Value)
  | 0, _, arr => pure arr
  | n + 1, i, arr => do
    let arr ← insertKey call cmp (arr.getD i .nil) arr i
    sortFrom cmp n (i + 1) arr

def sortArray (cmp : Value) (arr : List Value) : EStateM SortFailure (SortStore σ) (List Value) :=
  if cmp = .nil then pure (qsort compareValues arr)
  else if isCallableValue cmp = true then sortFrom call cmp (arr.length - 1) 1 arr
  else throw (.error "table.sort: comparator must be a function.")

/-- The elements that are copied to be sorted. -/
def Table.arr (t : Table) : List Value :=
  (List.range t.sequenceLength).map fun i => (tableGetArray t ((i + 1 : Nat) : Int)).getD .nil

def SortStore.write (s : SortStore σ) (a : Nat) (arr : List Value) : SortStore σ :=
  { s with tables := Function.update s.tables a (writeArray arr 0 (s.tables a)) }

/-- `table_sort` of the table at `a`; `cmp` is nil where there is no second argument. -/
def tableSort (a : Nat) (cmp : Value) : EStateM SortFailure (SortStore σ) Value := do
  let s ← get
  if (s.tables a).sequenceLength ≤ 1 then pure (.table a)
  else do
    let arr ← sortArray call qsort cmp (s.tables a).arr
    modify fun s => s.write a arr
    pure (.table a)

end Code

section Insertion

variable {σ : Type} {call : Value → Value → Value → EStateM SortFailure (SortStore σ) Value}
  {lt : Value → Value → Bool}

/-- The comparator answers as `lt` on the elements of a list in every store of a set; all of these
have the table `t` at `a`, and the calls do not leave them. -/
structure Answers (call : Value → Value → Value → EStateM SortFailure (SortStore σ) Value) (fn : Value)
    (a : Nat) (t : Table) (l : List Value) (lt : Value → Value → Bool) (I : SortStore σ → Prop) : Prop where
  callable : isCallableValue fn = true
  kept : ∀ s, I s → s.tables a = t
  answers : ∀ s, I s → ∀ x ∈ l, ∀ y ∈ l,
    ∃ v s', call fn x y s = .ok v s' ∧ lessOf v = some (lt x y) ∧ I s'

theorem Answers.less {fn : Value} {a : Nat} {t : Table} {l : List Value} {I : SortStore σ → Prop}
    (hc : Answers call fn a t l lt I) {s : SortStore σ} (hs : I s) {x y : Value} (hx : x ∈ l) (hy : y ∈ l) :
    ∃ s', callBinaryLess call fn x y s = .ok (lt x y) s' ∧ I s' := by
  obtain ⟨v, s', hcall, hless, hs'⟩ := hc.answers s hs x hx y hy
  refine ⟨s', ?_, hs'⟩
  unfold callBinaryLess
  rw [if_pos hc.callable]
  change EStateM.bind (call fn x y) _ s = _
  unfold EStateM.bind
  rw [hcall]
  dsimp only
  rw [hless]
  rfl

/-- The sorted elements before the key, in reverse, and what is behind the free place. -/
theorem insertKey_spec {fn : Value} {a : Nat} {t : Table} {l : List Value} {I : SortStore σ → Prop}
    (hc : Answers call fn a t l lt I) {key : Value} (hkey : key ∈ l) {r : List Value}
    (hr : ∀ x ∈ r, x ∈ l) (free : Value) (tail : List Value) {s : SortStore σ} (hs : I s) :
    ∃ s', insertKey call fn key (r.reverse ++ free :: tail) r.length s =
      .ok ((insertBack lt key r).reverse ++ tail) s' ∧ I s' := by
  induction r generalizing free tail s with
  | nil => exact ⟨s, rfl, hs⟩
  | cons y ys ih =>
    have hget : ((y :: ys).reverse ++ free :: tail).getD ys.length .nil = y := by
      simp
    have hset (v : Value) : ((y :: ys).reverse ++ free :: tail).set (ys.length + 1) v =
        (y :: ys).reverse ++ v :: tail := by
      rw [List.set_append_right _ _ (by simp)]
      simp
    obtain ⟨s₁, hless, hs₁⟩ := hc.less hs hkey (hr y List.mem_cons_self)
    rw [List.length_cons, insertKey, hget, hset, hset]
    change ∃ s', EStateM.bind _ _ s = _ ∧ _
    unfold EStateM.bind
    rw [hless]
    dsimp only
    unfold insertBack
    cases hlt : lt key y with
    | false =>
      refine ⟨s₁, ?_, hs₁⟩
      simp only [Bool.false_eq_true, ↓reduceIte, List.reverse_cons, List.append_assoc,
        List.cons_append, List.nil_append]
      rfl
    | true =>
      obtain ⟨s₂, hrest, hs₂⟩ := ih (fun x hx => hr x (List.mem_cons_of_mem _ hx)) y (y :: tail) hs₁
      refine ⟨s₂, ?_, hs₂⟩
      simp only [↓reduceIte, List.reverse_cons, List.append_assoc, List.cons_append,
        List.nil_append]
      simpa using hrest

theorem sortFrom_spec {fn : Value} {a : Nat} {t : Table} {l : List Value} {I : SortStore σ → Prop}
    (hc : Answers call fn a t l lt I) {r rest : List Value} (hr : ∀ x ∈ r, x ∈ l)
    (hrest : ∀ x ∈ rest, x ∈ l) {s : SortStore σ} (hs : I s) :
    ∃ s', sortFrom call fn rest.length r.length (r.reverse ++ rest) s =
      .ok (insertionFrom lt r rest).reverse s' ∧ I s' := by
  induction rest generalizing r s with
  | nil => exact ⟨s, by rw [List.append_nil]; rfl, hs⟩
  | cons key rest ih =>
    have hkey := hrest key List.mem_cons_self
    have hget : (r.reverse ++ key :: rest).getD r.length .nil = key := by simp
    obtain ⟨s₁, hins, hs₁⟩ := insertKey_spec hc hkey hr key rest hs
    have hmem : ∀ x ∈ insertBack lt key r, x ∈ l := by
      intro x hx
      rcases List.mem_cons.mp ((insertBack_perm _ key r).mem_iff.mp hx) with rfl | hx
      · exact hkey
      · exact hr x hx
    have hlen : (insertBack lt key r).length = r.length + 1 := (insertBack_perm _ key r).length_eq
    obtain ⟨s₂, hsort, hs₂⟩ := ih hmem (fun x hx => hrest x (List.mem_cons_of_mem _ hx)) hs₁
    refine ⟨s₂, ?_, hs₂⟩
    rw [List.length_cons, sortFrom, hget]
    change EStateM.bind _ _ s = _
    unfold EStateM.bind
    rw [hins]
    dsimp only
    rwa [hlen] at hsort

/-- The sort with a comparator is the stable insertion sort. -/
theorem sortArray_comparator (qsort : (Value → Value → Int) → List Value → List Value) {fn : Value}
    {a : Nat} {t : Table} {l : List Value} {I : SortStore σ → Prop} (hc : Answers call fn a t l lt I)
    {arr : List Value} (harr : ∀ x ∈ arr, x ∈ l) {s : SortStore σ} (hs : I s) :
    ∃ s', sortArray call qsort fn arr s = .ok (insertionSort lt arr) s' ∧ I s' := by
  have hfn : fn ≠ .nil := by
    rintro rfl
    cases hc.callable
  unfold sortArray
  rw [if_neg hfn, if_pos hc.callable]
  cases arr with
  | nil => exact ⟨s, rfl, hs⟩
  | cons x rest =>
    have hx := harr x List.mem_cons_self
    have hfirst : ∀ y ∈ [x], y ∈ l := by simpa using hx
    exact sortFrom_spec hc hfirst (fun y hy => harr y (List.mem_cons_of_mem _ hy)) hs

end Insertion

section Order

/-- The order of numbers. -/
def numberLess : Value → Value → Bool
  | .number x, .number y => x.lt y
  | _, _ => false

def textLess : Value → Value → Bool
  | .string x, .string y => bytesLess x y
  | _, _ => false

end Order

section Written

variable {hash : Bytes → UInt32} {t : Table} {n : Nat}

/-- The elements that are not sorted: those of the hash part and what is behind them. -/
def Table.rest (hash : Bytes → UInt32) (t : Table) (n : Nat) : List Value :=
  (List.range (n - t.sequenceLength)).map fun j => t.element hash (t.sequenceLength + j)

theorem arr_eq (t : Table) : t.arr = (List.range t.sequenceLength).map t.slot := by
  obtain ⟨-, hvalues, -⟩ := sequenceLength_spec t
  refine List.map_congr_left fun i hi => ?_
  rw [tableGetArray_succ, if_pos (hvalues i (List.mem_range.mp hi)), Option.getD_some]

@[simp] theorem length_arr (t : Table) : t.arr.length = t.sequenceLength := by
  simp [Table.arr]

theorem mem_arr {v : Value} : v ∈ t.arr ↔ ∃ i, i < t.sequenceLength ∧ t.slot i = v := by
  rw [arr_eq]
  simp

theorem arr_ne_nil {v : Value} (hv : v ∈ t.arr) : v ≠ .nil := by
  obtain ⟨i, hi, rfl⟩ := mem_arr.mp hv
  exact (sequenceLength_spec t).2.1 i hi

theorem elements_split (hs : t.Sequence hash n) : t.elements hash n = t.arr ++ t.rest hash n := by
  have hle := hs.length_le
  obtain ⟨-, hvalues, -⟩ := sequenceLength_spec t
  have hsum : n = t.sequenceLength + (n - t.sequenceLength) := by omega
  have hfront : (List.range t.sequenceLength).map (t.element hash) = t.arr := by
    rw [arr_eq]
    refine List.map_congr_left fun i hi => ?_
    have hi := List.mem_range.mp hi
    have hfits := hs.fits
    exact element_slot (by omega) (hvalues i hi)
  unfold Table.elements Table.rest
  conv => lhs; rw [hsum]
  rw [List.range_add, List.map_append, hfront, List.map_map]
  rfl

theorem writeArray_spec {arr : List Value} {i : Nat} {t : Table}
    (hv : ∀ y, i ≤ y → y < i + arr.length → t.slot y ≠ .nil) :
    (writeArray arr i t).count = t.count ∧ (writeArray arr i t).entries = t.entries ∧
      ∀ y, (writeArray arr i t).slot y =
        if i ≤ y ∧ y < i + arr.length then arr.getD (y - i) .nil else t.slot y := by
  induction arr generalizing i t with
  | nil => exact ⟨rfl, rfl, fun y => (if_neg (by simp)).symm⟩
  | cons v arr ih =>
    rw [List.length_cons] at hv
    have hplace : (((i + 1 : Nat) : Int) - 1).toNat = i := by omega
    have htakes : t.takes ((i + 1 : Nat) : Int) = true :=
      takes_of_slot (by omega) (by rw [hplace]; exact hv i (by omega) (by omega))
    obtain ⟨u, hu, hcount, hentries, -, hslot⟩ := tableSetArray_takes v htakes
    rw [hplace] at hslot
    unfold writeArray
    rw [hu, Option.getD_some]
    obtain ⟨hcount', hentries', hslot'⟩ := ih (i := i + 1) (t := u) fun y hy hlt => by
      rw [hslot, if_neg (by omega)]
      exact hv y (by omega) (by omega)
    refine ⟨hcount'.trans hcount, hentries'.trans hentries, fun y => ?_⟩
    rw [hslot', hslot, List.length_cons]
    by_cases hy : y = i
    · subst hy
      rw [if_neg (by omega), if_pos rfl, if_pos (by omega), Nat.sub_self]
      rfl
    · by_cases hrange : i + 1 ≤ y ∧ y < i + 1 + arr.length
      · have hsub : y - i = (y - (i + 1)) + 1 := by omega
        rw [if_pos hrange, if_pos (by omega), hsub, List.getD_cons_succ]
      · rw [if_neg hrange, if_neg hy, if_neg (by omega)]

/-- What copying a permutation of the elements back leaves. -/
theorem written_spec {h : Bytes → Option Value} (hr : t.Represents hash h) (hs : t.Sequence hash n)
    {arr : List Value} (hp : arr.Perm t.arr) :
    (writeArray arr 0 t).elements hash n = arr ++ t.rest hash n ∧
      ∀ k : KeyId, (∀ i, i < n → k ≠ .number (Double.ofNat (i + 1))) →
        (writeArray arr 0 t).contents hash k = t.contents hash k := by
  have hlen : arr.length = t.sequenceLength := hp.length_eq.trans (length_arr t)
  have hle := hs.length_le
  have hfits := hs.fits
  have hold : ∀ y, 0 ≤ y → y < 0 + arr.length → t.slot y ≠ .nil :=
    fun y _ hlt => (sequenceLength_spec t).2.1 y (by omega)
  obtain ⟨hcount, hentries, hslot⟩ := writeArray_spec hold
  have hsame := hashValue_congr hr (hr.of_hash hcount hentries)
  constructor
  · apply List.ext_getElem
    · rw [length_elements, List.length_append, hlen]
      simp [Table.rest]
      omega
    · intro i hi hi'
      rw [length_elements] at hi
      have hget : ((writeArray arr 0 t).elements hash n)[i] = (writeArray arr 0 t).element hash i := by
        simp [Table.elements]
      rw [hget, element_eq (by omega), hslot, hsame]
      by_cases hlt : i < arr.length
      · have hcell : arr.getD i .nil = arr[i] := by simp [hlt]
        have hne : arr[i] ≠ .nil := arr_ne_nil (hp.mem_iff.mp (List.getElem_mem hlt))
        rw [if_pos (c := 0 ≤ i ∧ i < 0 + arr.length) (by omega), Nat.sub_zero, hcell, if_neg hne,
          List.getElem_append_left hlt]
      · rw [if_neg (c := 0 ≤ i ∧ i < 0 + arr.length) (by omega), ← element_eq (by omega),
          List.getElem_append_right (by omega)]
        simp only [Table.rest, List.getElem_map, List.getElem_range, hlen]
        congr 1
        omega
  · intro k hk
    refine contents_behind (fun y hy => ?_) hsame hk
    rw [hslot, if_neg (by omega)]

end Written

section Result

/-- A permutation in which no element is less than an earlier one. -/
structure Sorted (lt : Value → Value → Bool) (old new : List Value) : Prop where
  perm : new.Perm old
  ordered : Ordered lt new

variable {hash : Bytes → UInt32} {t : Table} {n : Nat} {lt : Value → Value → Bool}

/-- No element from the first one that is not in the array part on is less than an earlier one. -/
def Table.RestOrdered (hash : Bytes → UInt32) (t : Table) (n : Nat) (lt : Value → Value → Bool) : Prop :=
  ∀ i j, i < j → t.sequenceLength ≤ j → j < n → lt (t.element hash j) (t.element hash i) = false

theorem restOrdered_iff (hs : t.Sequence hash n) : t.RestOrdered hash n lt ↔
    Ordered lt (t.rest hash n) ∧ ∀ x ∈ t.arr, ∀ y ∈ t.rest hash n, lt y x = false := by
  have hle := hs.length_le
  have hfits := hs.fits
  have hslot {i : Nat} (hi : i < t.sequenceLength) : t.element hash i = t.slot i :=
    element_slot (by omega) ((sequenceLength_spec t).2.1 i hi)
  unfold Ordered Table.rest
  rw [List.pairwise_map, List.pairwise_iff_getElem]
  constructor
  · intro h
    constructor
    · intro i j hi hj hij
      simp only [List.length_range, List.getElem_range] at hi hj ⊢
      exact h _ _ (by omega) (by omega) (by omega)
    · intro x hx y hy
      obtain ⟨i, hi, rfl⟩ := mem_arr.mp hx
      obtain ⟨j, hj, rfl⟩ := List.mem_map.mp hy
      have hj := List.mem_range.mp hj
      have hlt := h i (t.sequenceLength + j) (by omega) (by omega) (by omega)
      rwa [hslot hi] at hlt
  · rintro ⟨hrest, hcross⟩ i j hij hj hn
    have hjr : j - t.sequenceLength < (List.range (n - t.sequenceLength)).length := by
      rw [List.length_range]
      omega
    have hjeq : t.sequenceLength + (j - t.sequenceLength) = j := by omega
    by_cases hi : i < t.sequenceLength
    · have hmem : t.element hash j ∈ (List.range (n - t.sequenceLength)).map
          fun j => t.element hash (t.sequenceLength + j) :=
        List.mem_map.mpr ⟨j - t.sequenceLength, List.mem_range.mpr (by omega), by rw [hjeq]⟩
      have h := hcross _ (mem_arr.mpr ⟨i, hi, rfl⟩) _ hmem
      rwa [hslot hi]
    · have h := hrest (i - t.sequenceLength) (j - t.sequenceLength)
        (by rw [List.length_range]; omega) hjr (by omega)
      simp only [List.getElem_range] at h
      rwa [hjeq, show t.sequenceLength + (i - t.sequenceLength) = i by omega] at h

/-- The sorted elements before the others are the sorted sequence if and only if the others follow in
order. -/
theorem sorted_append_iff (hs : t.Sequence hash n) {arr : List Value} (hp : arr.Perm t.arr) :
    Sorted lt (t.elements hash n) (arr ++ t.rest hash n) ↔
      Ordered lt arr ∧ t.RestOrdered hash n lt := by
  rw [restOrdered_iff hs, elements_split hs]
  constructor
  · intro h
    obtain ⟨harr, hrest, hcross⟩ := List.pairwise_append.mp h.ordered
    exact ⟨harr, hrest, fun x hx => hcross x (hp.mem_iff.mpr hx)⟩
  · rintro ⟨harr, hrest, hcross⟩
    exact ⟨hp.append_right _, List.pairwise_append.mpr
      ⟨harr, hrest, fun x hx => hcross x (hp.mem_iff.mp hx)⟩⟩

/-- A sorted permutation in which equal elements keep their order. -/
structure SortedStably (lt : Value → Value → Bool) (old new : List Value) : Prop
    extends Sorted lt old new where
  stable : Stable lt old new

theorem sortedStably_append_iff (hs : t.Sequence hash n) {arr : List Value} (hp : arr.Perm t.arr)
    (hstable : Stable lt t.arr arr) :
    SortedStably lt (t.elements hash n) (arr ++ t.rest hash n) ↔
      Ordered lt arr ∧ t.RestOrdered hash n lt := by
  rw [← sorted_append_iff hs hp]
  refine ⟨fun h => h.toSorted, fun h => ⟨h, fun p hp => ?_⟩⟩
  rw [elements_split hs] at hp ⊢
  have harr := hstable p fun x hx y hy =>
    hp x (List.mem_append_left _ hx) y (List.mem_append_left _ hy)
  rw [List.filter_append, List.filter_append, harr]

end Result

section Outcome

variable {σ : Type} (call : Value → Value → Value → EStateM SortFailure (SortStore σ) Value)
  (qsort : (Value → Value → Int) → List Value → List Value) (hash : Bytes → UInt32)

/-- The sort of `t` at `a` returns it; its elements are what they should be, and no other key has
changed. -/
def SortsTo (a : Nat) (cmp : Value) (s : SortStore σ) (t : Table) (n : Nat)
    (P : List Value → List Value → Prop) : Prop :=
  ∃ s', tableSort call qsort a cmp s = .ok (.table a) s' ∧
    P (t.elements hash n) ((s'.tables a).elements hash n) ∧
    ∀ k : KeyId, (∀ i, i < n → k ≠ .number (Double.ofNat (i + 1))) →
      (s'.tables a).contents hash k = t.contents hash k

variable {call qsort hash} {t : Table} {n a : Nat} {cmp : Value} {s s₁ : SortStore σ}
  {P : List Value → List Value → Prop}

theorem perm_eq_of_short {l l' : List Value} (hp : l.Perm l') (hl : l'.length ≤ 1) : l = l' := by
  match l', hl with
  | [], _ => exact List.Perm.eq_nil hp
  | [x], _ => exact List.perm_singleton.mp hp

theorem tableSort_short (hlen : (s.tables a).sequenceLength ≤ 1) :
    tableSort call qsort a cmp s = .ok (.table a) s := by
  unfold tableSort
  change EStateM.bind EStateM.get _ s = _
  unfold EStateM.bind EStateM.get
  dsimp only
  rw [if_pos hlen]
  rfl

theorem tableSort_long (hlen : ¬ (s.tables a).sequenceLength ≤ 1) :
    tableSort call qsort a cmp s = match sortArray call qsort cmp (s.tables a).arr s with
      | .ok arr s₁ => .ok (.table a) (s₁.write a arr)
      | .error e s₁ => .error e s₁ := by
  unfold tableSort
  change EStateM.bind EStateM.get _ s = _
  unfold EStateM.bind EStateM.get
  dsimp only
  rw [if_neg hlen]
  change EStateM.bind (sortArray call qsort cmp (s.tables a).arr) _ s = _
  unfold EStateM.bind
  cases sortArray call qsort cmp (s.tables a).arr s <;> rfl

/-- What the sort leaves is told by what the array that it sorts becomes. -/
theorem sortsTo_iff (ht : Formed hash t) (hs : t.Sequence hash n) (h0 : s.tables a = t)
    {arr : List Value} (hsort : sortArray call qsort cmp t.arr s = .ok arr s₁)
    (h1 : s₁.tables a = t) (hp : arr.Perm t.arr) :
    SortsTo call qsort hash a cmp s t n P ↔ P (t.elements hash n) (arr ++ t.rest hash n) := by
  obtain ⟨h, hr⟩ := ht.represents
  by_cases hlen : t.sequenceLength ≤ 1
  · have harr : arr = t.arr := perm_eq_of_short hp (by rwa [length_arr])
    have hrun : tableSort call qsort a cmp s = .ok (.table a) s := tableSort_short (by rwa [h0])
    rw [harr, ← elements_split hs]
    constructor
    · rintro ⟨s', hs', hP, -⟩
      rw [hrun] at hs'
      cases hs'
      rwa [h0] at hP
    · intro hP
      exact ⟨s, hrun, by rwa [h0], fun k _ => by rw [h0]⟩
  · obtain ⟨helements, hothers⟩ := written_spec hr hs hp
    have hrun : tableSort call qsort a cmp s = .ok (.table a) (s₁.write a arr) := by
      rw [tableSort_long (by rwa [h0]), h0, hsort]
    have htable : (s₁.write a arr).tables a = writeArray arr 0 t := by
      unfold SortStore.write
      dsimp only
      rw [Function.update_self, h1]
    constructor
    · rintro ⟨s', hs', hP, -⟩
      rw [hrun] at hs'
      cases hs'
      rwa [htable, helements] at hP
    · intro hP
      refine ⟨_, hrun, by rwa [htable, helements], fun k hk => ?_⟩
      rw [htable]
      exact hothers k hk

theorem arr_subset (hs : t.Sequence hash n) {v : Value} (hv : v ∈ t.arr) : v ∈ t.elements hash n := by
  rw [elements_split hs]
  exact List.mem_append_left _ hv

/-- With a comparator. -/
theorem comparator_iff (ht : Formed hash t) (hs : t.Sequence hash n) {lt : Value → Value → Bool}
    {I : SortStore σ → Prop} (hc : Answers call cmp a t (t.elements hash n) lt I)
    (hw : StrictWeakOn lt (t.elements hash n)) (h0 : I s) :
    SortsTo call qsort hash a cmp s t n (SortedStably lt) ↔ t.RestOrdered hash n lt := by
  obtain ⟨s₁, hsort, h1⟩ := sortArray_comparator qsort hc (fun x hx => arr_subset hs hx) h0
  rw [sortsTo_iff ht hs (hc.kept _ h0) hsort (hc.kept _ h1) (insertionSort_perm _),
    sortedStably_append_iff hs (insertionSort_perm _) (insertionSort_stable _)]
  exact and_iff_right (insertionSort_ordered (hw.mono fun x hx => arr_subset hs hx))

/-- A comparison function of `qsort` that is one order of the elements of a list. -/
structure Consistent (compar : Value → Value → Int) (l : List Value) : Prop where
  weak : StrictWeakOn (fun x y => decide (compar x y < 0)) l
  swap : ∀ x ∈ l, ∀ y ∈ l, compar x y < 0 ↔ 0 < compar y x

/-- What the C standard says of `qsort`: it sorts by a comparison that is consistent. -/
def Qsorts (qsort : (Value → Value → Int) → List Value → List Value) : Prop :=
  ∀ compar l, Consistent compar l → Sorted (fun x y => decide (compar x y < 0)) l (qsort compar l)

/-- Without one. -/
theorem default_iff (ht : Formed hash t) (hs : t.Sequence hash n) (h0 : s.tables a = t)
    (hq : Qsorts qsort) (hcons : Consistent compareValues t.arr) {lt : Value → Value → Bool} :
    SortsTo call qsort hash a .nil s t n (Sorted lt) ↔
      Ordered lt (qsort compareValues t.arr) ∧ t.RestOrdered hash n lt := by
  have hsort : sortArray call qsort .nil t.arr s = .ok (qsort compareValues t.arr) s := rfl
  have hp := (hq _ _ hcons).perm
  rw [sortsTo_iff ht hs h0 hsort h0 hp, sorted_append_iff hs hp]

end Outcome

section Default

def AllNumbers (l : List Value) : Prop := ∀ v ∈ l, ∃ x : Double, v = .number x ∧ x.isNaN = false

def AllStrings (l : List Value) : Prop := ∀ v ∈ l, ∃ x, v = .string x

theorem double_lt_iff {x y : Double} (hx : x.isNaN = false) (hy : y.isNaN = false) :
    x.lt y = true ↔ x.order < y.order := by
  unfold Double.lt
  rw [hx, hy]
  simp

theorem numberLess_weak {l : List Value} (hl : AllNumbers l) : StrictWeakOn numberLess l where
  asymm v hv w hw hlt := by
    obtain ⟨x, rfl, hx⟩ := hl v hv
    obtain ⟨y, rfl, hy⟩ := hl w hw
    have hlt := (double_lt_iff hx hy).mp hlt
    refine Bool.eq_false_iff.mpr fun hgt => ?_
    have hgt := (double_lt_iff hy hx).mp hgt
    omega
  split u hu v hv w hw hlt := by
    obtain ⟨x, rfl, hx⟩ := hl u hu
    obtain ⟨y, rfl, hy⟩ := hl v hv
    obtain ⟨z, rfl, hz⟩ := hl w hw
    have hlt := (double_lt_iff hx hz).mp hlt
    rcases Int.lt_or_le x.order y.order with hxy | hyx
    · exact .inl ((double_lt_iff hx hy).mpr hxy)
    · exact .inr ((double_lt_iff hy hz).mpr (by omega))

theorem compareValues_numbers {l : List Value} (hl : AllNumbers l) {v w : Value} (hv : v ∈ l)
    (hw : w ∈ l) : (compareValues v w < 0 ↔ numberLess v w = true) ∧
      (0 < compareValues v w ↔ numberLess w v = true) := by
  have hasymm := (numberLess_weak hl).asymm v hv w hw
  obtain ⟨x, rfl, -⟩ := hl v hv
  obtain ⟨y, rfl, -⟩ := hl w hw
  unfold compareValues
  unfold numberLess at hasymm ⊢
  dsimp only at hasymm ⊢
  cases hxy : x.lt y with
  | true =>
    rw [hasymm hxy]
    simp
  | false => cases hyx : y.lt x <;> simp

theorem numbers_consistent {l : List Value} (hl : AllNumbers l) : Consistent compareValues l where
  weak := by
    have hw := numberLess_weak hl
    constructor
    · intro v hv w hw' hlt
      have h := hw.asymm v hv w hw' ((compareValues_numbers hl hv hw').1.mp (of_decide_eq_true hlt))
      refine decide_eq_false fun hgt => ?_
      rw [(compareValues_numbers hl hw' hv).1.mp hgt] at h
      cases h
    · intro u hu v hv w hw' hlt
      have h := hw.split u hu v hv w hw' ((compareValues_numbers hl hu hw').1.mp (of_decide_eq_true hlt))
      rcases h with h | h
      · exact .inl (decide_eq_true ((compareValues_numbers hl hu hv).1.mpr h))
      · exact .inr (decide_eq_true ((compareValues_numbers hl hv hw').1.mpr h))
  swap v hv w hw := (compareValues_numbers hl hv hw).1.trans (compareValues_numbers hl hw hv).2.symm

theorem numbers_ordered {l l' : List Value} (hl : AllNumbers l) (hp : l'.Perm l)
    (ho : Ordered (fun x y => decide (compareValues x y < 0)) l') : Ordered numberLess l' := by
  refine List.Pairwise.imp_of_mem (fun {v w} hv hw h => ?_) ho
  refine Bool.eq_false_iff.mpr fun hlt => ?_
  have hneg := (compareValues_numbers hl (hp.mem_iff.mp hw) (hp.mem_iff.mp hv)).1.mpr hlt
  exact of_decide_eq_false h hneg

theorem strings_consistent {l : List Value} (hl : AllStrings l) : Consistent compareValues l where
  weak := by
    constructor
    · intro v hv w hw hlt
      obtain ⟨x, rfl⟩ := hl v hv
      obtain ⟨y, rfl⟩ := hl w hw
      have h := bytesLess_asymm ((strcmp_neg_iff x y).mp (of_decide_eq_true hlt))
      refine decide_eq_false fun hgt => ?_
      rw [(strcmp_neg_iff y x).mp hgt] at h
      cases h
    · intro u hu v hv w hw hlt
      obtain ⟨x, rfl⟩ := hl u hu
      obtain ⟨y, rfl⟩ := hl v hv
      obtain ⟨z, rfl⟩ := hl w hw
      have h := bytesLess_split (beforeZero y) ((strcmp_neg_iff x z).mp (of_decide_eq_true hlt))
      rcases h with h | h
      · exact .inl (decide_eq_true ((strcmp_neg_iff x y).mpr h))
      · exact .inr (decide_eq_true ((strcmp_neg_iff y z).mpr h))
  swap v hv w hw := by
    obtain ⟨x, rfl⟩ := hl v hv
    obtain ⟨y, rfl⟩ := hl w hw
    change strcmp x y < 0 ↔ 0 < strcmp y x
    rw [strcmp_swap x y]
    omega

/-- No two different strings of a list are equal up to the first zero byte. -/
def ZeroesApart (l : List Value) : Prop :=
  ∀ x y, Value.string x ∈ l → Value.string y ∈ l → beforeZero x = beforeZero y → x = y

theorem strings_ordered {l l' : List Value} (hl : AllStrings l) (hz : ZeroesApart l) (hp : l'.Perm l)
    (ho : Ordered (fun x y => decide (compareValues x y < 0)) l') : Ordered textLess l' := by
  refine List.Pairwise.imp_of_mem (fun {v w} hv hw h => ?_) ho
  have hv := hp.mem_iff.mp hv
  have hw := hp.mem_iff.mp hw
  obtain ⟨x, rfl⟩ := hl v hv
  obtain ⟨y, rfl⟩ := hl w hw
  have hnot : ¬ strcmp y x < 0 := of_decide_eq_false h
  refine Bool.eq_false_iff.mpr fun (hlt : bytesLess y x = true) => ?_
  have hne : y ≠ x := by
    rintro rfl
    rw [bytesLess_asymm hlt] at hlt
    cases hlt
  have hbefore : beforeZero y ≠ beforeZero x := fun heq => hne (hz y x hw hv heq)
  rcases bytesLess_total hbefore with h | h
  · exact hnot ((strcmp_neg_iff y x).mpr h)
  · have hgt := bytesLess_of_beforeZero h
    rw [bytesLess_asymm hlt] at hgt
    cases hgt

/-- A sort that has the strings in descending order before it begins; it is stable. -/
def descendingFirst (compar : Value → Value → Int) (l : List Value) : List Value :=
  insertionSort (fun x y => decide (compar x y < 0)) (insertionSort (fun x y => textLess y x) l)

theorem descendingFirst_qsorts : Qsorts descendingFirst := by
  intro compar l hc
  have hp : (insertionSort (fun x y => textLess y x) l).Perm l := insertionSort_perm l
  exact ⟨(insertionSort_perm _).trans hp,
    insertionSort_ordered (hc.weak.mono fun x hx => hp.mem_iff.mp hx)⟩

theorem textLess_weak {l : List Value} (hl : AllStrings l) : StrictWeakOn textLess l where
  asymm v hv w hw hlt := by
    obtain ⟨x, rfl⟩ := hl v hv
    obtain ⟨y, rfl⟩ := hl w hw
    exact bytesLess_asymm hlt
  split u hu v hv w hw hlt := by
    obtain ⟨x, rfl⟩ := hl u hu
    obtain ⟨y, rfl⟩ := hl v hv
    obtain ⟨z, rfl⟩ := hl w hw
    exact bytesLess_split y hlt

/-- It leaves strings that are equal up to a zero byte in descending order. -/
theorem zeroesApart_of_descendingFirst {l : List Value} (hl : AllStrings l)
    (ho : Ordered textLess (descendingFirst compareValues l)) : ZeroesApart l := by
  intro x y hx hy heq
  by_contra hne
  have hdesc := insertionSort_ordered (textLess_weak hl).flip
  have hperm : (insertionSort (fun x y => textLess y x) l).Perm l := insertionSort_perm l
  have hsame (u v : Value) (hu : u = .string x ∨ u = .string y) (hv : v = .string x ∨ v = .string y) :
      compareValues u v = 0 := by
    have hzero (a b : Bytes) (hab : beforeZero a = beforeZero b) : strcmp a b = 0 := by
      have hirrefl : bytesLess (beforeZero b) (beforeZero b) ≠ true := fun h =>
        absurd (bytesLess_asymm h) (by rw [h]; decide)
      have h₁ : ¬ strcmp a b < 0 := by rwa [strcmp_neg_iff, hab]
      have h₂ : ¬ strcmp b a < 0 := by rwa [strcmp_neg_iff, hab]
      rw [strcmp_swap a b] at h₂
      omega
    rcases hu with rfl | rfl <;> rcases hv with rfl | rfl
    · exact hzero x x rfl
    · exact hzero x y heq
    · exact hzero y x heq.symm
    · exact hzero y y rfl
  -- the two strings stay in the order that they were brought into
  let p (v : Value) : Bool := decide (v = .string x ∨ v = .string y)
  have hstable : (descendingFirst compareValues l).filter p =
      (insertionSort (fun x y => textLess y x) l).filter p := by
    refine insertionSort_stable _ p fun u _ v _ hu hv => ?_
    rw [hsame u v (of_decide_eq_true hu) (of_decide_eq_true hv)]
    rfl
  have hup := List.Pairwise.filter p ho
  have hdown := List.Pairwise.filter p hdesc
  rw [hstable] at hup
  have hboth := hup.and hdown
  have hmem (z : Bytes) (hz : Value.string z ∈ l) (hp : p (.string z) = true) :
      Value.string z ∈ (insertionSort (fun x y => textLess y x) l).filter p :=
    List.mem_filter.mpr ⟨hperm.mem_iff.mpr hz, hp⟩
  have hxm := hmem x hx (decide_eq_true (.inl rfl))
  have hym := hmem y hy (decide_eq_true (.inr rfl))
  have hsymm : Std.Symm fun u v : Value => textLess v u = false ∧ textLess u v = false :=
    ⟨fun u v h => ⟨h.2, h.1⟩⟩
  have hnone := hboth.forall hxm hym fun h => hne (Value.string.inj h)
  rcases bytesLess_total hne with h | h
  · exact absurd (hnone.2.symm.trans h) (by decide)
  · exact absurd (hnone.1.symm.trans h) (by decide)

end Default

section Failing

variable {σ α β : Type} {I : SortStore σ → Prop}

/-- A computation that does not leave a set of stores, whether it returns or fails. -/
def Keeps (I : SortStore σ → Prop) (m : EStateM SortFailure (SortStore σ) α) : Prop :=
  ∀ s, I s → (∀ v s', m s = .ok v s' → I s') ∧ ∀ e s', m s = .error e s' → I s'

theorem keeps_pure (v : α) : Keeps I (pure v) := by
  intro s hs
  refine ⟨fun v' s' h => ?_, fun e s' h => ?_⟩
  · cases h
    exact hs
  · cases h

theorem keeps_throw (e : SortFailure) : Keeps I (throw e : EStateM SortFailure (SortStore σ) α) := by
  intro s hs
  refine ⟨fun v' s' h => ?_, fun e s' h => ?_⟩
  · cases h
  · cases h
    exact hs

theorem Keeps.bind {m : EStateM SortFailure (SortStore σ) α}
    {f : α → EStateM SortFailure (SortStore σ) β} (hm : Keeps I m) (hf : ∀ v, Keeps I (f v)) :
    Keeps I (m >>= f) := by
  intro s hs
  obtain ⟨hok, herr⟩ := hm s hs
  change (∀ v s', EStateM.bind m f s = .ok v s' → I s') ∧ ∀ e s', EStateM.bind m f s = .error e s' → I s'
  unfold EStateM.bind
  cases hr : m s with
  | ok v s₁ => exact hf v s₁ (hok v s₁ hr)
  | error e s₁ =>
    refine ⟨fun v' s' h => ?_, fun e' s' h => ?_⟩
    · cases h
    · cases h
      exact herr e s₁ hr

variable {call : Value → Value → Value → EStateM SortFailure (SortStore σ) Value}
  {qsort : (Value → Value → Int) → List Value → List Value}

theorem callBinaryLess_keeps {fn : Value} (hk : ∀ x y, Keeps I (call fn x y)) (x y : Value) :
    Keeps I (callBinaryLess call fn x y) := by
  unfold callBinaryLess
  split
  next =>
    refine (hk x y).bind fun v => ?_
    split
    next => exact keeps_pure _
    next => exact keeps_throw _
  next => exact keeps_throw _

theorem insertKey_keeps {fn : Value} (hk : ∀ x y, Keeps I (call fn x y)) (key : Value)
    (arr : List Value) (j : Nat) : Keeps I (insertKey call fn key arr j) := by
  induction j generalizing arr with
  | zero => exact keeps_pure _
  | succ j ih =>
    unfold insertKey
    refine (callBinaryLess_keeps hk key _).bind fun less => ?_
    split
    next => exact ih _
    next => exact keeps_pure _

theorem sortFrom_keeps {fn : Value} (hk : ∀ x y, Keeps I (call fn x y)) (n i : Nat)
    (arr : List Value) : Keeps I (sortFrom call fn n i arr) := by
  induction n generalizing i arr with
  | zero => exact keeps_pure _
  | succ n ih => exact (insertKey_keeps hk _ arr i).bind fun arr => ih _ _

theorem sortArray_keeps {fn : Value} (hk : ∀ x y, Keeps I (call fn x y)) (arr : List Value) :
    Keeps I (sortArray call qsort fn arr) := by
  unfold sortArray
  split
  next => exact keeps_pure _
  next =>
    split
    next => exact sortFrom_keeps hk _ _ _
    next => exact keeps_throw _

/-- A sort that fails has written nothing. -/
theorem failed_keeps {fn : Value} {a : Nat} (hk : ∀ x y, Keeps I (call fn x y)) {s s' : SortStore σ}
    {e : SortFailure} (h0 : I s) (hrun : tableSort call qsort a fn s = .error e s') : I s' := by
  by_cases hlen : (s.tables a).sequenceLength ≤ 1
  · rw [tableSort_short hlen] at hrun
    cases hrun
  · rw [tableSort_long hlen] at hrun
    cases hsort : sortArray call qsort fn (s.tables a).arr s with
    | ok arr s₁ =>
      rw [hsort] at hrun
      cases hrun
    | error e₁ s₁ =>
      rw [hsort] at hrun
      cases hrun
      exact (sortArray_keeps hk _ s h0).2 _ _ hsort

end Failing

section Claim

variable {σ : Type} {hash : Bytes → UInt32} {t : Table} {n a : Nat} {s : SortStore σ}

theorem AllNumbers.arr (hs : t.Sequence hash n) (hl : AllNumbers (t.elements hash n)) :
    AllNumbers t.arr := fun v hv => hl v (arr_subset hs hv)

theorem AllStrings.arr (hs : t.Sequence hash n) (hl : AllStrings (t.elements hash n)) :
    AllStrings t.arr := fun v hv => hl v (arr_subset hs hv)

end Claim

namespace SampleTable

theorem numbers_allNumbers : AllNumbers [.number two, .number one] := by
  intro v hv
  obtain rfl | rfl := numbers_two_one hv
  · exact ⟨two, rfl, by decide⟩
  · exact ⟨one, rfl, by decide⟩

end SampleTable

end ToiLang
