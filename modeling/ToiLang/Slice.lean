import ToiLang.Conversion
import ToiLang.Progression
import ToiLang.TableAppend

namespace ToiLang

/-- A value of C's `int`. -/
def IsInt (i : Int) : Prop := -2 ^ 31 ≤ i ∧ i < 2 ^ 31

instance (i : Int) : Decidable (IsInt i) := inferInstanceAs (Decidable (_ ∧ _))

/-- The values of the variable in `for (int i = …; …; i += step)`; none where `i += step` leaves
the values of an `int`. -/
def indices (step lim i : Int) : Option (List Int) :=
  if goesOn step lim i = true then
    if IsInt (i + step) then (indices step lim (i + step)).map (i :: ·) else none
  else some []
termination_by (if 0 < step then lim + 1 - i else i + 1 - lim).toNat
decreasing_by
  rename_i hgo _
  rcases Int.lt_or_gt_of_ne (step_ne_zero_of_goesOn hgo) with hs | hs
  · have hle := (goesOn_down hs).mp hgo
    rw [if_neg (by omega), if_neg (by omega)]
    omega
  · have hle := (goesOn_up hs).mp hgo
    rw [if_pos hs, if_pos hs]
    omega

/-- Bytes in memory: `length` of them from the pointer on, and what is around them. -/
structure Text where
  length : Nat
  chars : Int → UInt8

inductive SliceValue
  | string (chars : Bytes)
  | table (t : Table)

/-- The value of a slice, and the indices of the elements that were read for it. -/
structure Sliced where
  reads : List Int
  value : SliceValue

def Sliced.empty : Sliced := ⟨[], .string []⟩

/-- The loop that copies; the one before it, which counts, takes the same turns. -/
def Text.copy (x : Text) (step lim i : Int) : Option Sliced :=
  (indices step lim i).map fun l => ⟨l, .string (l.map fun i => x.chars (i - 1))⟩

def sliceString (x : Text) (start stop step : Int) : Option Sliced :=
  let len : Int := x.length
  let s0 := if start < 1 then 1 else start
  let e0 := if stop > len then len else stop
  if step > 0 then
    if s0 > e0 then some .empty else x.copy step e0 s0
  else
    if s0 < e0 then some .empty else x.copy step e0 s0

section Slice

variable (hash : Bytes → UInt32)

/-- The element of a table that `slice` finds at `i`. -/
def sliceElement (t : Table) (i : Int) : Option Value :=
  match if i ≥ 1 then tableGetArray t i else none with
  | some val => some val
  | none =>
    match tableGet hash t (numberKeyString (Double.ofInt64 i)) with
    | some (some val) => if val = .nil then none else some val
    | _ => none

/-- A turn of the loop on the result and `out_index`. -/
def sliceTurn (t : Table) (acc : Table × Nat) (i : Int) : Table × Nat :=
  match sliceElement hash t i with
  | some val => ((tableSetArray acc.1 (acc.2 : Int) val).getD acc.1, acc.2 + 1)
  | none => (acc.1, acc.2 + 1)

def sliceTable (t : Table) (start stop step : Int) : Option Sliced :=
  (indices step stop start).map fun l =>
    ⟨l.filter fun i => (sliceElement hash t i).isSome, .table (l.foldl (sliceTurn hash t) (initTable, 1)).1⟩

end Slice

def mmapSlice (x : Text) (start stop : Option Int) (step : Int) : Except String (Option Sliced) :=
  if x.length = 0 then .ok (some .empty)
  else if step = 0 then .error "__slice step cannot be 0."
  else
    let len : Int := x.length
    let start := start.getD (if step < 0 then len else 1)
    let stop := stop.getD (if step < 0 then 1 else len)
    if step > 0 then
      let start := if start < 1 then 1 else start
      let stop := if stop > len then len else stop
      if start > len ∨ stop < 1 then .ok (some .empty)
      else if start > stop then .ok (some .empty)
      else .ok (x.copy step stop start)
    else
      let start := if start > len then len else start
      let stop := if stop < 1 then 1 else stop
      if start < 1 ∨ stop > len then .ok (some .empty)
      else if start < stop then .ok (some .empty)
      else .ok (x.copy step stop start)

/-- What can be sliced; a region is a table with `__slice`. -/
inductive Sliceable
  | string (x : Text)
  | table (t : Table)
  | region (x : Text)

def Sliceable.length : Sliceable → Nat
  | string x => x.length
  | table t => t.sequenceLength
  | region x => x.length

/-- The bounds that `OP_SLICE` gives to `slice`. -/
def sliceBounds (len : Nat) (start stop : Option Int) (step : Int) : Int × Int :=
  let start := start.getD (if step < 0 then len else 1)
  let stop := stop.getD (if step < 0 then 1 else len)
  (if start < 0 then len + start + 1 else start, if stop < 0 then len + stop else stop)

section Slice

variable (hash : Bytes → UInt32)

def sliceNative (obj : Sliceable) (start stop step : Int) : Except String (Option Sliced) :=
  if step = 0 then .error "slice() step cannot be 0"
  else
    match obj with
    | .string x => .ok (sliceString x start stop step)
    | .table t => .ok (sliceTable hash t start stop step)
    | .region _ => .error "slice() expects table or string"

/-- `obj[start..stop:step]`; what is left out is none. -/
def opSlice (obj : Sliceable) (start stop step : Option Int) : Except String (Option Sliced) :=
  let step := step.getD 1
  if step = 0 then .error "slice step cannot be 0."
  else
    match obj with
    | .region x => mmapSlice x start stop step
    | _ =>
      let bounds := sliceBounds obj.length start stop step
      sliceNative hash obj bounds.1 bounds.2 step

/-- An index of one of `n` elements. -/
def InRange (n : Nat) (p : Int) : Prop := 1 ≤ p ∧ p ≤ n

/-- The existing indices among `start`, `start + step`, … up to and including `stop`, in that order. -/
structure IsSlice (n : Nat) (start stop step : Int) (l : List Int) : Prop where
  ordered : l.Pairwise (Before step)
  mem : ∀ p, p ∈ l ↔ (OnGrid start step p ∧ goesOn step stop p = true) ∧ InRange n p

/-- A table with these values from index 1 on and nothing else. -/
structure Table.Lists (t : Table) (values : List Value) : Prop where
  count : t.count = 0
  slot : ∀ y, t.slot y = values.getD y .nil

/-- The value of a slice is made of the elements of `obj` at `reads`. -/
def SliceValue.IsFrom (value : SliceValue) (obj : Sliceable) (reads : List Int) : Prop :=
  match obj, value with
  | .string x, .string chars => chars = reads.map fun p => x.chars (p - 1)
  | .region x, .string chars => chars = reads.map fun p => x.chars (p - 1)
  | .table t, .table result => result.Lists (reads.map fun p => (sliceElement hash t p).getD .nil)
  | _, _ => False

/-- The slice ends and is made of the elements at `reads`, which are the ones it read. -/
def Yields (obj : Sliceable) (start stop step : Option Int) (reads : List Int) : Prop :=
  ∃ r, opSlice hash obj start stop step = .ok (some r) ∧ r.reads = reads ∧ r.value.IsFrom hash obj reads

/-- The slice is the one that the bounds say. -/
def SlicedAt (n : Nat) (start stop step : Option Int) (reads : List Int) : Prop :=
  IsSlice n (sliceBounds n start stop (step.getD 1)).1 (sliceBounds n start stop (step.getD 1)).2 (step.getD 1) reads

/-- The table of the characters of a string. -/
def charTable (x : Text) : Table :=
  (List.range x.length).foldl (fun t (i : Nat) => tablePush t (.string [x.chars i])) initTable

/-- A table is sliced as its length and the bounds say, and so are a string, the table of its
characters and a region with its bytes, which give the same sequence. -/
def SlicesRight (t : Table) (x : Text) (start stop step : Option Int) : Prop :=
  (∃ reads, SlicedAt t.sequenceLength start stop step reads ∧ Yields hash (.table t) start stop step reads) ∧
  ∃ reads, SlicedAt x.length start stop step reads ∧
    Yields hash (.string x) start stop step reads ∧
    Yields hash (.table (charTable x)) start stop step reads ∧
    Yields hash (.region x) start stop step reads

end Slice

/-- No index that the loop reaches is so near to the end of the `int`s that the next is none. -/
def StaysInt (step lim i : Int) : Prop :=
  ∀ p, OnGrid i step p → goesOn step lim p = true → IsInt (p + step)

/-- Upwards the walk begins at 1 only where it would come by; downwards it stays among the elements. -/
def StringFits (n : Nat) (start stop step : Int) : Prop :=
  if 0 < step then
    max start 1 ≤ min stop n → step ∣ max start 1 - start ∧ StaysInt step (min stop n) (max start 1)
  else
    min stop n ≤ max start 1 → start ≤ n ∧ stop ≤ start ∧ (∀ p, OnGrid start step p → stop ≤ p → 1 ≤ p) ∧
      StaysInt step stop start

/-- A walk that comes to elements begins with one. -/
def TableFits (n : Nat) (start stop step : Int) : Prop :=
  StaysInt step stop start ∧
    (InRange n start ∨ ∀ p, OnGrid start step p → goesOn step stop p = true → ¬InRange n p)

/-- The walk meets no element that is not one of the `n`. -/
def NothingOutside (hash : Bytes → UInt32) (t : Table) (start stop step : Int) : Prop :=
  ∀ p, OnGrid start step p → goesOn step stop p = true → ¬InRange t.sequenceLength p →
    sliceElement hash t p = none

/-- The clamped bounds lie on the walk, or there is nothing to read. -/
def RegionFits (n : Nat) (start stop : Option Int) (step : Int) : Prop :=
  let first := start.getD (if step < 0 then n else 1)
  let last := stop.getD (if step < 0 then 1 else n)
  let bounds := sliceBounds n start stop step
  if 0 < step then
    if max first 1 ≤ min last n then
      bounds.1 ≤ max first 1 ∧ step ∣ max first 1 - bounds.1 ∧ StaysInt step (min last n) (max first 1)
    else ∀ p, OnGrid bounds.1 step p → p ≤ bounds.2 → ¬InRange n p
  else
    if max last 1 ≤ min first n then
      step ∣ first - min first n ∧ (∀ p, OnGrid (min first n) step p → max last 1 ≤ p → bounds.2 ≤ p) ∧
        StaysInt step (max last 1) (min first n)
    else ∀ p, OnGrid bounds.1 step p → bounds.2 ≤ p → ¬InRange n p

section Indices

variable {step lim i : Int} {l : List Int}

theorem StaysInt.tail (h : StaysInt step lim i) : StaysInt step lim (i + step) := fun p hg hgo =>
  h p (onGrid_cons.mpr (.inr hg)) hgo

theorem indices_some (h : StaysInt step lim i) : ∃ l, indices step lim i = some l := by
  fun_induction indices step lim i with
  | case1 i hgo hint ih =>
    obtain ⟨l, hl⟩ := ih h.tail
    exact ⟨i :: l, by rw [hl]; rfl⟩
  | case2 i hgo hint => exact absurd (h i (onGrid_self _ _) hgo) hint
  | case3 i hgo => exact ⟨[], rfl⟩

theorem indices_spec (h : indices step lim i = some l) : Walk step lim i l ∧ StaysInt step lim i := by
  fun_induction indices step lim i generalizing l with
  | case1 i hgo hint ih =>
    obtain ⟨l, hl, rfl⟩ := Option.map_eq_some_iff.mp h
    obtain ⟨hw, hstays⟩ := ih hl
    refine ⟨hw.cons hgo, fun p hg hp => ?_⟩
    rcases onGrid_cons.mp hg with rfl | hg
    · exact hint
    · exact hstays p hg hp
  | case2 i hgo hint => cases h
  | case3 i hgo =>
    cases Option.some.inj h
    have hstop : goesOn step lim i = false := Bool.eq_false_iff.mpr hgo
    refine ⟨.nil hstop, fun p hg hp => ?_⟩
    rw [goesOn_of_onGrid hg hp] at hstop
    cases hstop

theorem indices_stopped (h : goesOn step lim i = false) : indices step lim i = some [] := by
  unfold indices
  rw [h]
  rfl

theorem Walk.isSlice_iff {n : Nat} {start stop : Int} (hw : Walk step lim i l) :
    IsSlice n start stop step l ↔ ∀ p, OnGrid i step p ∧ goesOn step lim p = true ↔
      (OnGrid start step p ∧ goesOn step stop p = true) ∧ InRange n p := by
  constructor
  · intro h p
    rw [← hw.mem p, h.mem p]
  · intro h
    exact ⟨hw.ordered, fun p => (hw.mem p).trans (h p)⟩

theorem IsSlice.unique {n : Nat} {start stop : Int} {l' : List Int} (h : IsSlice n start stop step l)
    (h' : IsSlice n start stop step l') : l = l' :=
  eq_of_ordered h.ordered h'.ordered fun p => (h.mem p).trans (h'.mem p).symm

end Indices

section Text

variable {n : Nat} {start stop step : Int}

theorem Text.copy_stopped {x : Text} {lim i : Int} (h : goesOn step lim i = false) :
    x.copy step lim i = some .empty := by
  unfold Text.copy
  rw [indices_stopped h]
  rfl

/-- What the copying loop reads is the slice exactly where its walk has the same places. -/
theorem Text.copy_iff {x : Text} {lim i : Int} :
    (∃ reads, IsSlice n start stop step reads ∧
      ∃ r, x.copy step lim i = some r ∧ r.reads = reads ∧
        r.value = .string (reads.map fun p => x.chars (p - 1))) ↔
      StaysInt step lim i ∧ ∀ p, OnGrid i step p ∧ goesOn step lim p = true ↔
        (OnGrid start step p ∧ goesOn step stop p = true) ∧ InRange n p := by
  constructor
  · intro ⟨reads, hslice, r, hcopy, hreads, _⟩
    obtain ⟨l, hl, rfl⟩ := Option.map_eq_some_iff.mp hcopy
    subst hreads
    obtain ⟨hw, hstays⟩ := indices_spec hl
    exact ⟨hstays, hw.isSlice_iff.mp hslice⟩
  · intro ⟨hstays, hmem⟩
    obtain ⟨l, hl⟩ := indices_some hstays
    have hw := (indices_spec hl).1
    have hcopy : x.copy step lim i = some ⟨l, .string (l.map fun p => x.chars (p - 1))⟩ := by
      unfold Text.copy
      rw [hl]
      rfl
    exact ⟨l, hw.isSlice_iff.mpr hmem, _, hcopy, rfl, rfl⟩

theorem sliceString_eq (x : Text) (hs : step ≠ 0) :
    sliceString x start stop step = x.copy step (min stop x.length) (max start 1) := by
  have hs0 : (if start < 1 then 1 else start) = max start 1 := by
    split <;> omega
  have he0 : (if stop > x.length then (x.length : Int) else stop) = min stop x.length := by
    split <;> omega
  unfold sliceString
  dsimp only
  rw [hs0, he0]
  rcases Int.lt_or_gt_of_ne hs with hneg | hpos
  · rw [if_neg (by omega)]
    by_cases hempty : max start 1 < min stop x.length
    · rw [if_pos hempty, Text.copy_stopped]
      rw [Bool.eq_false_iff, ne_eq, goesOn_down hneg]
      omega
    · rw [if_neg hempty]
  · rw [if_pos hpos]
    by_cases hempty : max start 1 > min stop x.length
    · rw [if_pos hempty, Text.copy_stopped]
      rw [Bool.eq_false_iff, ne_eq, goesOn_up hpos]
      omega
    · rw [if_neg hempty]

theorem mmapSlice_eq (x : Text) (start stop : Option Int) (hs : step ≠ 0) :
    mmapSlice x start stop step =
      .ok (if 0 < step then
        x.copy step (min (stop.getD x.length) x.length) (max (start.getD 1) 1)
      else x.copy step (max (stop.getD 1) 1) (min (start.getD x.length) x.length)) := by
  unfold mmapSlice
  dsimp only
  rcases Int.lt_or_gt_of_ne hs with hneg | hpos
  · have hup : ¬0 < step := by omega
    simp only [hneg, hup, hs, gt_iff_lt, ↓reduceIte]
    generalize start.getD (x.length : Int) = a
    generalize stop.getD 1 = b
    have ha : (if (x.length : Int) < a then (x.length : Int) else a) = min a x.length := by split <;> omega
    have hb : (if b < 1 then 1 else b) = max b 1 := by split <;> omega
    rw [ha, hb]
    by_cases hempty : min a x.length < max b 1
    · have hstop : goesOn step (max b 1) (min a x.length) = false := by
        rw [Bool.eq_false_iff, ne_eq, goesOn_down hneg]
        omega
      rw [Text.copy_stopped hstop, if_pos hempty, ite_self, ite_self]
    · rw [if_neg (by omega), if_neg (by omega), if_neg hempty]
  · have hdown : ¬step < 0 := by omega
    simp only [hdown, hpos, hs, gt_iff_lt, ↓reduceIte]
    generalize start.getD 1 = a
    generalize stop.getD (x.length : Int) = b
    have ha : (if a < 1 then 1 else a) = max a 1 := by split <;> omega
    have hb : (if (x.length : Int) < b then (x.length : Int) else b) = min b x.length := by split <;> omega
    rw [ha, hb]
    by_cases hempty : min b x.length < max a 1
    · have hstop : goesOn step (min b x.length) (max a 1) = false := by
        rw [Bool.eq_false_iff, ne_eq, goesOn_up hpos]
        omega
      rw [Text.copy_stopped hstop, if_pos hempty, ite_self, ite_self]
    · rw [if_neg (by omega), if_neg (by omega), if_neg hempty]

/-- The grids of two places on one grid are the same. -/
theorem dvd_sub_iff {s a b p : Int} (h : s ∣ a - b) : s ∣ p - a ↔ s ∣ p - b := by
  have hsplit : p - b = (p - a) + (a - b) := by omega
  rw [hsplit]
  exact (Int.dvd_add_left h).symm

theorem StaysInt.of_stopped {lim i : Int} (h : goesOn step lim i = false) : StaysInt step lim i := by
  intro p hg hp
  rw [goesOn_of_onGrid hg hp] at h
  cases h

theorem stringFits_iff (hs : step ≠ 0) :
    StringFits n start stop step ↔
      StaysInt step (min stop n) (max start 1) ∧
        ∀ p, OnGrid (max start 1) step p ∧ goesOn step (min stop n) p = true ↔
          (OnGrid start step p ∧ goesOn step stop p = true) ∧ InRange n p := by
  unfold StringFits InRange
  rcases Int.lt_or_gt_of_ne hs with hneg | hpos
  · rw [if_neg (by omega)]
    constructor
    · intro h
      by_cases hle : min stop (n : Int) ≤ max start 1
      · obtain ⟨hn, hstop, hall, hstays⟩ := h hle
        have h1 := hall start (onGrid_self _ _) hstop
        have hs0 : max start 1 = start := by omega
        have he0 : min stop (n : Int) = stop := by omega
        rw [hs0, he0]
        refine ⟨hstays, fun p => ⟨fun hp => ⟨hp, ?_⟩, fun hp => hp.1⟩⟩
        have hlow := hall p hp.1 ((goesOn_down hneg).mp hp.2)
        have hhigh := ((onGrid_down hneg).mp hp.1).2
        omega
      · have hstopped : goesOn step (min stop (n : Int)) (max start 1) = false := by
          rwa [Bool.eq_false_iff, ne_eq, goesOn_down hneg]
        refine ⟨.of_stopped hstopped, fun p => ?_⟩
        simp only [goesOn_down hneg, onGrid_down hneg]
        omega
    · intro ⟨hstays, h⟩ hle
      simp only [goesOn_down hneg] at h
      obtain ⟨⟨hg, hstop⟩, h1, hn⟩ := (h (max start 1)).mp ⟨onGrid_self _ _, hle⟩
      have hstart := ((onGrid_down hneg).mp hg).2
      have hs0 : max start 1 = start := by omega
      have he0 : min stop (n : Int) = stop := by omega
      rw [hs0, he0] at hstays h
      exact ⟨by omega, by omega, fun p hg hp => ((h p).mp ⟨hg, hp⟩).2.1, hstays⟩
  · rw [if_pos hpos]
    constructor
    · intro h
      by_cases hle : max start 1 ≤ min stop (n : Int)
      · obtain ⟨hdvd, hstays⟩ := h hle
        refine ⟨hstays, fun p => ?_⟩
        simp only [goesOn_up hpos, onGrid_up hpos, dvd_sub_iff hdvd]
        omega
      · have hstopped : goesOn step (min stop (n : Int)) (max start 1) = false := by
          rwa [Bool.eq_false_iff, ne_eq, goesOn_up hpos]
        refine ⟨.of_stopped hstopped, fun p => ?_⟩
        simp only [goesOn_up hpos, onGrid_up hpos]
        omega
    · intro ⟨hstays, h⟩ hle
      have hfirst := (h (max start 1)).mp ⟨onGrid_self _ _, (goesOn_up hpos).mpr hle⟩
      exact ⟨((onGrid_up hpos).mp hfirst.1.1).1, hstays⟩

/-- The two bounds as `OP_SLICE` gives them to `slice`. -/
structure Normalised (n : Nat) (first last start stop : Int) : Prop where
  start_eq : start = if first < 0 then n + first + 1 else first
  stop_eq : stop = if last < 0 then n + last else last

theorem regionUp_iff {first last : Int} (hpos : 0 < step) (hn : Normalised n first last start stop) :
    (if max first 1 ≤ min last n then
        start ≤ max first 1 ∧ step ∣ max first 1 - start ∧ StaysInt step (min last n) (max first 1)
      else ∀ p, OnGrid start step p → p ≤ stop → ¬InRange n p) ↔
      StaysInt step (min last n) (max first 1) ∧
        ∀ p, OnGrid (max first 1) step p ∧ goesOn step (min last n) p = true ↔
          (OnGrid start step p ∧ goesOn step stop p = true) ∧ InRange n p := by
  obtain ⟨hstart, hstop⟩ := hn
  unfold InRange
  by_cases hle : max first 1 ≤ min last (n : Int)
  · rw [if_pos hle]
    constructor
    · intro ⟨hfirst, hdvd, hstays⟩
      refine ⟨hstays, fun p => ?_⟩
      simp only [goesOn_up hpos, onGrid_up hpos, dvd_sub_iff hdvd]
      omega
    · intro ⟨hstays, h⟩
      have hfirst := (h (max first 1)).mp ⟨onGrid_self _ _, (goesOn_up hpos).mpr hle⟩
      obtain ⟨hdvd, hbehind⟩ := (onGrid_up hpos).mp hfirst.1.1
      exact ⟨hbehind, hdvd, hstays⟩
  · rw [if_neg hle]
    have hstopped : goesOn step (min last (n : Int)) (max first 1) = false := by
      rwa [Bool.eq_false_iff, ne_eq, goesOn_up hpos]
    simp only [goesOn_up hpos]
    constructor
    · intro h
      refine ⟨.of_stopped hstopped, fun p => ⟨fun ⟨hg, hp⟩ => ?_, fun ⟨⟨hg, hp⟩, hin⟩ => ?_⟩⟩
      · have hbehind := ((onGrid_up hpos).mp hg).2
        omega
      · exact absurd hin (h p hg hp)
    · intro ⟨_, h⟩ p hg hp hin
      obtain ⟨hg', hp'⟩ := (h p).mpr ⟨⟨hg, hp⟩, hin⟩
      have hbehind := ((onGrid_up hpos).mp hg').2
      omega

theorem regionDown_iff {first last : Int} (hneg : step < 0) (hn : Normalised n first last start stop) :
    (if max last 1 ≤ min first n then
        step ∣ first - min first n ∧ (∀ p, OnGrid (min first n) step p → max last 1 ≤ p → stop ≤ p) ∧
          StaysInt step (max last 1) (min first n)
      else ∀ p, OnGrid start step p → stop ≤ p → ¬InRange n p) ↔
      StaysInt step (max last 1) (min first n) ∧
        ∀ p, OnGrid (min first n) step p ∧ goesOn step (max last 1) p = true ↔
          (OnGrid start step p ∧ goesOn step stop p = true) ∧ InRange n p := by
  obtain ⟨hstart, hstop⟩ := hn
  unfold InRange
  simp only [goesOn_down hneg]
  by_cases hle : max last 1 ≤ min first (n : Int)
  · rw [if_pos hle]
    have hpositive : start = first := by omega
    subst hpositive
    constructor
    · intro ⟨hdvd, hall, hstays⟩
      refine ⟨hstays, fun p => ?_⟩
      have hgrid : OnGrid (min start n) step p ↔ OnGrid start step p ∧ p ≤ n := by
        simp only [onGrid_down hneg, ← dvd_sub_iff hdvd]
        omega
      constructor
      · intro ⟨hg, hp⟩
        obtain ⟨hg', hhigh⟩ := hgrid.mp hg
        exact ⟨⟨hg', hall p hg hp⟩, by omega, hhigh⟩
      · intro ⟨⟨hg, hp⟩, hlow, hhigh⟩
        exact ⟨hgrid.mpr ⟨hg, hhigh⟩, by omega⟩
    · intro ⟨hstays, h⟩
      have hfirst := (h (min start n)).mp ⟨onGrid_self _ _, hle⟩
      have hdvd := ((onGrid_down hneg).mp hfirst.1.1).1
      refine ⟨?_, fun p hg hp => ((h p).mp ⟨hg, hp⟩).1.2, hstays⟩
      rw [← Int.dvd_neg]
      rwa [show -(start - min start (n : Int)) = min start n - start by omega]
  · rw [if_neg hle]
    have hstopped : goesOn step (max last 1) (min first (n : Int)) = false := by
      rwa [Bool.eq_false_iff, ne_eq, goesOn_down hneg]
    constructor
    · intro h
      refine ⟨.of_stopped hstopped, fun p => ⟨fun ⟨hg, hp⟩ => ?_, fun ⟨⟨hg, hp⟩, hin⟩ => ?_⟩⟩
      · have hbehind := ((onGrid_down hneg).mp hg).2
        omega
      · exact absurd hin (h p hg hp)
    · intro ⟨_, h⟩ p hg hp hin
      obtain ⟨hg', hp'⟩ := (h p).mpr ⟨⟨hg, hp⟩, hin⟩
      have hbehind := ((onGrid_down hneg).mp hg').2
      omega

end Text

section Element

variable {hash : Bytes → UInt32} {t : Table} {p : Int}

theorem sliceElement_ne_nil {v : Value} (h : sliceElement hash t p = some v) : v ≠ .nil := by
  unfold sliceElement at h
  split at h
  next val hval =>
    rw [Option.some.inj h] at hval
    by_cases hp : p ≥ 1
    · rw [if_pos hp] at hval
      rw [tableGetArray_eq] at hval
      split at hval
      next hne =>
        rw [← Option.some.inj hval]
        exact hne.2
      next => cases hval
    · rw [if_neg hp] at hval
      cases hval
  next =>
    split at h
    next val _ =>
      split at h
      next => cases h
      next hne => rwa [← Option.some.inj h]
    next => cases h

theorem sliceElement_some (hp : InRange t.sequenceLength p) : ∃ v, sliceElement hash t p = some v := by
  obtain ⟨h1, hn⟩ := hp
  obtain ⟨i, rfl⟩ : ∃ i : Nat, p = ((i + 1 : Nat) : Int) := ⟨(p - 1).toNat, by omega⟩
  have hv := (sequenceLength_spec t).2.1 i (by omega)
  refine ⟨t.slot i, ?_⟩
  unfold sliceElement
  rw [if_pos h1, tableGetArray_succ, if_pos hv]

end Element

section Lists

variable {t r : Table} {values : List Value}

theorem getD_concat (values : List Value) (v : Value) (y : Nat) :
    (values ++ [v]).getD y .nil = if y = values.length then v else values.getD y .nil := by
  rw [List.getD_eq_getElem?_getD, List.getD_eq_getElem?_getD]
  rcases Nat.lt_trichotomy y values.length with hlt | rfl | hgt
  · rw [List.getElem?_append_left hlt, if_neg (by omega)]
  · rw [List.getElem?_concat_length, if_pos rfl]
    rfl
  · rw [List.getElem?_eq_none (by rw [List.length_append, List.length_singleton]; omega),
      List.getElem?_eq_none (by omega), if_neg (by omega)]

theorem initTable_lists : initTable.Lists [] := ⟨rfl, fun _ => rfl⟩

theorem Table.Lists.value (h : t.Lists values) {y : Nat} (hy : y < values.length)
    (hv : ∀ v ∈ values, v ≠ .nil) : t.slot y ≠ .nil := by
  rw [h.slot, List.getD_eq_getElem?_getD, List.getElem?_eq_getElem hy]
  exact hv _ (List.getElem_mem hy)

/-- A value more behind the values. -/
theorem Table.Lists.setArray {v : Value} (h : r.Lists values) (hb : r.Bounded) (hvalues : ∀ v ∈ values, v ≠ .nil)
    (hv : v ≠ .nil) :
    ∃ u, tableSetArray r ((values.length + 1 : Nat) : Int) v = some u ∧ u.Lists (values ++ [v]) ∧ u.Bounded := by
  obtain ⟨u, hu, hcount, -, hbu, hslot, -⟩ := setArray_first hb hv fun x hx => h.value hx hvalues
  refine ⟨u, hu, ⟨hcount.trans h.count, fun y => ?_⟩, hbu⟩
  rw [hslot y, getD_concat, h.slot y]

theorem Table.Lists.sequenceLength_eq (h : t.Lists values) (hv : ∀ v ∈ values, v ≠ .nil) :
    t.sequenceLength = values.length := by
  obtain ⟨-, hvalues, hend⟩ := sequenceLength_spec t
  rcases Nat.lt_trichotomy t.sequenceLength values.length with hlt | heq | hgt
  · exact absurd hend (h.value hlt hv)
  · exact heq
  · refine absurd ?_ (hvalues values.length hgt)
    rw [h.slot, List.getD_eq_getElem?_getD, List.getElem?_eq_none (Nat.le_refl _)]
    rfl

end Lists

section Turns

variable {hash : Bytes → UInt32} {t : Table}

/-- The value that `slice` copies from an index. -/
def elementAt (hash : Bytes → UInt32) (t : Table) (p : Int) : Value := (sliceElement hash t p).getD .nil

theorem turns_none {l : List Int} (h : ∀ p ∈ l, sliceElement hash t p = none) (r : Table) (k : Nat) :
    (l.foldl (sliceTurn hash t) (r, k)).1 = r := by
  induction l generalizing k with
  | nil => rfl
  | cons p l ih =>
    have hturn : sliceTurn hash t (r, k) p = (r, k + 1) := by
      unfold sliceTurn
      rw [h p List.mem_cons_self]
    rw [List.foldl_cons, hturn]
    exact ih (fun q hq => h q (List.mem_cons_of_mem _ hq)) _

/-- An empty table takes nothing but at its first index. -/
theorem turns_refused (l : List Int) {k : Nat} (hk : 2 ≤ k) :
    (l.foldl (sliceTurn hash t) (initTable, k)).1 = initTable := by
  induction l generalizing k with
  | nil => rfl
  | cons p l ih =>
    have hturn : sliceTurn hash t (initTable, k) p = (initTable, k + 1) := by
      unfold sliceTurn
      cases hp : sliceElement hash t p with
      | none => rfl
      | some v =>
        have hleaves : initTable.takes (k : Int) = false := by
          refine decide_eq_false fun h => ?_
          have hmax : initTable.arrayMax = 0 := rfl
          have hcap : initTable.arrayCapacity = 0 := rfl
          omega
        dsimp only
        rw [tableSetArray_leaves v hleaves]
        rfl
    rw [List.foldl_cons, hturn]
    exact ih (by omega)

/-- The walk is not in front of the elements. -/
def Entered (step : Int) (n : Nat) (p : Int) : Prop := if 0 < step then 1 ≤ p else p ≤ n

theorem entered_of_onGrid {step start p : Int} {n : Nat} (hs : step ≠ 0) (h : InRange n start)
    (hg : OnGrid start step p) : Entered step n p := by
  obtain ⟨h1, hn⟩ := h
  unfold Entered
  rcases Int.lt_or_gt_of_ne hs with hneg | hpos
  · have hle := ((onGrid_down hneg).mp hg).2
    rw [if_neg (by omega)]
    omega
  · have hle := ((onGrid_up hpos).mp hg).2
    rw [if_pos hpos]
    omega

/-- The elements are left once. -/
theorem Entered.left {step p q : Int} {n : Nat} (he : Entered step n p) (hp : ¬InRange n p)
    (hb : Before step p q) : ¬InRange n q := by
  unfold Entered at he
  unfold Before at hb
  unfold InRange at hp ⊢
  split at he
  next hs =>
    rw [if_pos hs] at hb
    omega
  next hs =>
    rw [if_neg hs] at hb
    omega

/-- A walk that begins at an element copies the elements that it comes to. -/
theorem turns_list {step : Int} {n : Nat} {l : List Int} {r : Table} {values : List Value}
    (hfound : ∀ p ∈ l, (sliceElement hash t p).isSome ↔ InRange n p) (hord : l.Pairwise (Before step))
    (hentered : ∀ p ∈ l, Entered step n p) (hr : r.Lists values) (hb : r.Bounded)
    (hvalues : ∀ v ∈ values, v ≠ .nil) :
    (l.foldl (sliceTurn hash t) (r, values.length + 1)).1.Lists
      (values ++ (l.filter fun p => (sliceElement hash t p).isSome).map (elementAt hash t)) := by
  induction l generalizing r values with
  | nil =>
    rw [List.filter_nil, List.map_nil, List.append_nil]
    exact hr
  | cons p l ih =>
    obtain ⟨hbefore, hord⟩ := List.pairwise_cons.mp hord
    cases hp : sliceElement hash t p with
    | some v =>
      have hv := sliceElement_ne_nil hp
      obtain ⟨u, hu, hlists, hbu⟩ := hr.setArray hb hvalues hv
      have hturn : sliceTurn hash t (r, values.length + 1) p = (u, (values ++ [v]).length + 1) := by
        unfold sliceTurn
        rw [hp, List.length_append]
        dsimp only
        rw [hu]
        rfl
      have hvalues' : ∀ w ∈ values ++ [v], w ≠ .nil := by
        intro w hw
        rcases List.mem_append.mp hw with hw | hw
        · exact hvalues w hw
        · rwa [List.mem_singleton.mp hw]
      have h := ih (fun q hq => hfound q (List.mem_cons_of_mem _ hq)) hord
        (fun q hq => hentered q (List.mem_cons_of_mem _ hq)) hlists hbu hvalues'
      have hvalue : elementAt hash t p = v := by
        unfold elementAt
        rw [hp]
        rfl
      rw [List.foldl_cons, hturn, List.filter_cons_of_pos (by rw [hp]; rfl), List.map_cons, hvalue]
      rwa [List.append_assoc] at h
    | none =>
      -- the walk has left the elements
      have hout : ¬InRange n p := by
        rw [← hfound p List.mem_cons_self, hp]
        exact Bool.false_ne_true
      have hnone : ∀ q ∈ p :: l, sliceElement hash t q = none := by
        intro q hq
        rcases List.mem_cons.mp hq with rfl | hq'
        · exact hp
        · have hleft := (hentered p List.mem_cons_self).left hout (hbefore q hq')
          rw [← hfound q hq] at hleft
          exact Option.not_isSome_iff_eq_none.mp hleft
      have hfilter : (p :: l).filter (fun q => (sliceElement hash t q).isSome) = [] := by
        refine List.filter_eq_nil_iff.mpr fun q hq => ?_
        rw [hnone q hq]
        exact Bool.false_ne_true
      rw [turns_none hnone, hfilter, List.map_nil, List.append_nil]
      exact hr

end Turns

section TableSlice

variable {hash : Bytes → UInt32} {t : Table} {start stop step : Int}

/-- What a walk over a table reads where nothing is outside. -/
theorem Walk.found_iff {l : List Int} (hw : Walk step stop start l) (hn : NothingOutside hash t start stop step)
    {p : Int} (hp : p ∈ l) : (sliceElement hash t p).isSome ↔ InRange t.sequenceLength p := by
  obtain ⟨hg, hgo⟩ := (hw.mem p).mp hp
  constructor
  · intro hsome
    by_contra hout
    rw [hn p hg hgo hout] at hsome
    cases hsome
  · intro hin
    obtain ⟨v, hv⟩ := @sliceElement_some hash t p hin
    rw [hv]
    rfl

/-- The table is the list of the elements exactly where the walk fits. -/
theorem sliceTable_iff (hs : step ≠ 0) :
    (∃ reads, IsSlice t.sequenceLength start stop step reads ∧
      ∃ r, sliceTable hash t start stop step = some r ∧ r.reads = reads ∧
        r.value.IsFrom hash (.table t) reads) ↔
      TableFits t.sequenceLength start stop step ∧ NothingOutside hash t start stop step := by
  constructor
  · intro ⟨reads, hslice, r, hr, hreads, hvalue⟩
    obtain ⟨l, hl, rfl⟩ := Option.map_eq_some_iff.mp hr
    obtain ⟨hw, hstays⟩ := indices_spec hl
    dsimp only at hreads
    have hout : NothingOutside hash t start stop step := by
      intro p hg hgo hnot
      by_contra hsome
      have hp : p ∈ reads := by
        rw [← hreads, List.mem_filter]
        exact ⟨(hw.mem p).mpr ⟨hg, hgo⟩, Option.isSome_iff_ne_none.mpr hsome⟩
      exact hnot ((hslice.mem p).mp hp).2
    refine ⟨⟨hstays, ?_⟩, hout⟩
    by_contra hneither
    obtain ⟨hstart, hreach⟩ := not_or.mp hneither
    obtain ⟨p, hp⟩ := not_forall.mp hreach
    obtain ⟨hg, hp⟩ := Classical.not_imp.mp hp
    obtain ⟨hgo, hin⟩ := Classical.not_imp.mp hp
    have hin := Classical.not_not.mp hin
    -- the first turn copies nothing, and then nothing is taken
    have hfirst : goesOn step stop start = true := goesOn_of_onGrid hg hgo
    have hnone := hout start (onGrid_self _ _) hfirst hstart
    obtain ⟨rest, rfl⟩ : ∃ rest, l = start :: rest := by
      rw [indices, if_pos hfirst] at hl
      split at hl
      next =>
        obtain ⟨rest, -, h⟩ := Option.map_eq_some_iff.mp hl
        exact ⟨rest, h.symm⟩
      next => cases hl
    have hempty : ((start :: rest).foldl (sliceTurn hash t) (initTable, 1)).1 = initTable := by
      have hturn : sliceTurn hash t (initTable, 1) start = (initTable, 2) := by
        unfold sliceTurn
        rw [hnone]
      rw [List.foldl_cons, hturn]
      exact turns_refused _ (Nat.le_refl _)
    have hlists : initTable.Lists (reads.map (elementAt hash t)) := by
      rw [← hempty]
      exact hvalue
    have hmem : p ∈ reads := (hslice.mem p).mpr ⟨⟨hg, hgo⟩, hin⟩
    cases reads with
    | nil => cases hmem
    | cons q reads =>
      have hq := (@sliceElement_some hash t q ((hslice.mem q).mp List.mem_cons_self).2)
      obtain ⟨v, hv⟩ := hq
      have hslot := hlists.slot 0
      rw [List.map_cons, List.getD_cons_zero, elementAt, hv] at hslot
      exact sliceElement_ne_nil hv hslot.symm
  · intro ⟨⟨hstays, hfits⟩, hout⟩
    obtain ⟨l, hl⟩ := indices_some hstays
    have hw := (indices_spec hl).1
    have hfound : ∀ p ∈ l, (sliceElement hash t p).isSome ↔ InRange t.sequenceLength p :=
      fun p hp => hw.found_iff hout hp
    have hslice : IsSlice t.sequenceLength start stop step (l.filter fun p => (sliceElement hash t p).isSome) := by
      refine ⟨hw.ordered.filter _, fun p => ?_⟩
      rw [List.mem_filter]
      constructor
      · intro ⟨hp, hsome⟩
        exact ⟨(hw.mem p).mp hp, (hfound p hp).mp hsome⟩
      · intro ⟨hp, hin⟩
        have hmem := (hw.mem p).mpr hp
        exact ⟨hmem, (hfound p hmem).mpr hin⟩
    have hlists : ((l.foldl (sliceTurn hash t) (initTable, 1)).1).Lists
        ((l.filter fun p => (sliceElement hash t p).isSome).map (elementAt hash t)) := by
      rcases hfits with hin | hnot
      · have hentered : ∀ p ∈ l, Entered step t.sequenceLength p := fun p hp =>
          entered_of_onGrid hs hin ((hw.mem p).mp hp).1
        exact turns_list hfound hw.ordered hentered initTable_lists (fun i hi => absurd rfl hi)
          fun v hv => by cases hv
      · have hnone : ∀ p ∈ l, sliceElement hash t p = none := by
          intro p hp
          obtain ⟨hg, hgo⟩ := (hw.mem p).mp hp
          exact hout p hg hgo (hnot p hg hgo)
        have hfilter : l.filter (fun p => (sliceElement hash t p).isSome) = [] := by
          refine List.filter_eq_nil_iff.mpr fun p hp => ?_
          rw [hnone p hp]
          exact Bool.false_ne_true
        rw [turns_none hnone, hfilter]
        exact initTable_lists
    refine ⟨_, hslice, ⟨_, .table _⟩, ?_, rfl, hlists⟩
    unfold sliceTable
    rw [hl]
    rfl

/-- A table that values are pushed to. -/
theorem pushed_lists (f : Nat → Value) (n : Nat) :
    ((List.range n).foldl (fun t i => tablePush t (f i)) initTable).Lists ((List.range n).map f) := by
  have hfold : ((List.range n).foldl (fun t i => tablePush t (f i)) initTable).Lists ((List.range n).map f) ∧
      ((List.range n).foldl (fun t i => tablePush t (f i)) initTable).arrayMax = n := by
    induction n with
    | zero => exact ⟨initTable_lists, rfl⟩
    | succ n ih =>
      rw [List.range_succ, List.foldl_append, List.map_append]
      obtain ⟨hlists, hmax⟩ := ih
      refine ⟨⟨hlists.count, fun y => ?_⟩, congrArg (· + 1) hmax⟩
      change (tablePush _ _).slot y = _
      rw [tablePush_slot, hmax, hlists.slot, List.map_singleton, getD_concat, List.length_map, List.length_range]
  exact hfold.1

theorem Table.Lists.nothingOutside {values : List Value} (h : t.Lists values) (hv : ∀ v ∈ values, v ≠ .nil) :
    NothingOutside hash t start stop step := by
  intro p _ _ hout
  rw [h.sequenceLength_eq hv] at hout
  have hhash : tableGet hash t (numberKeyString (Double.ofInt64 p)) = some none := if_pos h.count
  have harray : (if p ≥ 1 then tableGetArray t p else none) = none := by
    by_cases h1 : p ≥ 1
    · obtain ⟨i, rfl⟩ : ∃ i : Nat, p = ((i + 1 : Nat) : Int) := ⟨(p - 1).toNat, by omega⟩
      have hbehind : t.slot i = .nil := by
        rw [h.slot, List.getD_eq_getElem?_getD, List.getElem?_eq_none]
        · rfl
        · unfold InRange at hout
          omega
      rw [if_pos h1, tableGetArray_succ, if_neg (fun h => h hbehind)]
    · exact if_neg h1
  unfold sliceElement
  rw [harray, hhash]

theorem charTable_lists (x : Text) :
    (charTable x).Lists ((List.range x.length).map fun (i : Nat) => .string [x.chars i]) :=
  pushed_lists (fun i => .string [x.chars i]) x.length

theorem charTable_values (x : Text) :
    ∀ v ∈ (List.range x.length).map fun (i : Nat) => Value.string [x.chars i], v ≠ .nil := by
  intro v hv
  obtain ⟨i, -, rfl⟩ := List.mem_map.mp hv
  exact nofun

theorem charTable_length (x : Text) : (charTable x).sequenceLength = x.length := by
  rw [(charTable_lists x).sequenceLength_eq (charTable_values x), List.length_map, List.length_range]

theorem charTable_nothingOutside (x : Text) : NothingOutside hash (charTable x) start stop step :=
  (charTable_lists x).nothingOutside (charTable_values x)

end TableSlice

section Main

variable {hash : Bytes → UInt32} {start stop step : Option Int}

theorem sliceBounds_normalised (n : Nat) (start stop : Option Int) (step : Int) :
    Normalised n (start.getD (if step < 0 then n else 1)) (stop.getD (if step < 0 then 1 else n))
      (sliceBounds n start stop step).1 (sliceBounds n start stop step).2 := ⟨rfl, rfl⟩

theorem isFrom_string {value : SliceValue} {x : Text} {reads : List Int} :
    value.IsFrom hash (.string x) reads ↔ value = .string (reads.map fun p => x.chars (p - 1)) := by
  cases value with
  | string chars => exact (SliceValue.string.injEq _ _ ▸ Iff.rfl)
  | table t => exact ⟨nofun, nofun⟩

/-- A slice that is a copy out of memory. -/
theorem yields_copy_iff {obj : Sliceable} {x : Text} {lim i : Int}
    (hop : opSlice hash obj start stop step = .ok (x.copy (step.getD 1) lim i))
    (hobj : ∀ value reads, SliceValue.IsFrom hash value obj reads ↔ value.IsFrom hash (.string x) reads) :
    (∃ reads, SlicedAt x.length start stop step reads ∧ Yields hash obj start stop step reads) ↔
      StaysInt (step.getD 1) lim i ∧ ∀ p, OnGrid i (step.getD 1) p ∧ goesOn (step.getD 1) lim p = true ↔
        (OnGrid (sliceBounds x.length start stop (step.getD 1)).1 (step.getD 1) p ∧
          goesOn (step.getD 1) (sliceBounds x.length start stop (step.getD 1)).2 p = true) ∧ InRange x.length p := by
  rw [← Text.copy_iff (x := x)]
  refine exists_congr fun reads => and_congr_right fun _ => exists_congr fun r => ?_
  rw [hop, hobj, isFrom_string, Except.ok.injEq]

theorem yields_string_iff (x : Text) (hs : step.getD 1 ≠ 0) :
    (∃ reads, SlicedAt x.length start stop step reads ∧ Yields hash (.string x) start stop step reads) ↔
      StringFits x.length (sliceBounds x.length start stop (step.getD 1)).1
        (sliceBounds x.length start stop (step.getD 1)).2 (step.getD 1) := by
  rw [stringFits_iff hs]
  apply yields_copy_iff
  · rw [← sliceString_eq x hs]
    simp only [opSlice, sliceNative, if_neg hs, Sliceable.length]
  · exact fun _ _ => Iff.rfl

theorem yields_region_iff (x : Text) (hs : step.getD 1 ≠ 0) :
    (∃ reads, SlicedAt x.length start stop step reads ∧ Yields hash (.region x) start stop step reads) ↔
      RegionFits x.length start stop (step.getD 1) := by
  have hop : opSlice hash (.region x) start stop step = mmapSlice x start stop (step.getD 1) := by
    simp only [opSlice, if_neg hs]
  have hobj : ∀ value reads, SliceValue.IsFrom hash value (.region x) reads ↔
      value.IsFrom hash (.string x) reads := by
    intro value reads
    cases value with
    | string chars => exact Iff.rfl
    | table t => exact Iff.rfl
  have hn := sliceBounds_normalised x.length start stop (step.getD 1)
  rw [mmapSlice_eq x start stop hs] at hop
  unfold RegionFits
  dsimp only
  rcases Int.lt_or_gt_of_ne hs with hneg | hpos
  · have hup : ¬0 < step.getD 1 := by omega
    simp only [hup, hneg, if_true, if_false] at hop hn ⊢
    rw [regionDown_iff hneg hn]
    exact yields_copy_iff hop hobj
  · have hdown : ¬step.getD 1 < 0 := by omega
    simp only [hdown, hpos, if_true, if_false] at hop hn ⊢
    rw [regionUp_iff hpos hn]
    exact yields_copy_iff hop hobj

theorem yields_table_iff (t : Table) (hs : step.getD 1 ≠ 0) :
    (∃ reads, SlicedAt t.sequenceLength start stop step reads ∧ Yields hash (.table t) start stop step reads) ↔
      TableFits t.sequenceLength (sliceBounds t.sequenceLength start stop (step.getD 1)).1
          (sliceBounds t.sequenceLength start stop (step.getD 1)).2 (step.getD 1) ∧
        NothingOutside hash t (sliceBounds t.sequenceLength start stop (step.getD 1)).1
          (sliceBounds t.sequenceLength start stop (step.getD 1)).2 (step.getD 1) := by
  rw [← sliceTable_iff hs]
  refine exists_congr fun reads => and_congr_right fun _ => exists_congr fun r => ?_
  simp only [opSlice, sliceNative, if_neg hs, Sliceable.length, Except.ok.injEq]

/-- The slices of a table, of a string, of the table of its characters and of a region with its bytes
are the right ones exactly where each of the four loops fits the bounds. -/
theorem slicesRight_iff (hash : Bytes → UInt32) (t : Table) (x : Text) (start stop step : Option Int)
    (hs : step ≠ some 0) :
    SlicesRight hash t x start stop step ↔
      (TableFits t.sequenceLength (sliceBounds t.sequenceLength start stop (step.getD 1)).1
          (sliceBounds t.sequenceLength start stop (step.getD 1)).2 (step.getD 1) ∧
        NothingOutside hash t (sliceBounds t.sequenceLength start stop (step.getD 1)).1
          (sliceBounds t.sequenceLength start stop (step.getD 1)).2 (step.getD 1)) ∧
      StringFits x.length (sliceBounds x.length start stop (step.getD 1)).1
        (sliceBounds x.length start stop (step.getD 1)).2 (step.getD 1) ∧
      TableFits x.length (sliceBounds x.length start stop (step.getD 1)).1
        (sliceBounds x.length start stop (step.getD 1)).2 (step.getD 1) ∧
      RegionFits x.length start stop (step.getD 1) := by
  have hs1 : step.getD 1 ≠ 0 := by
    cases step with
    | none => exact Int.one_ne_zero
    | some s => exact fun h => hs (congrArg some h)
  have hchars := @yields_table_iff hash start stop step (charTable x) hs1
  rw [charTable_length, and_iff_left (charTable_nothingOutside x)] at hchars
  unfold SlicesRight
  rw [yields_table_iff t hs1, ← @yields_string_iff hash start stop step x hs1, ← hchars,
    ← @yields_region_iff hash start stop step x hs1]
  refine and_congr_right fun _ => ?_
  constructor
  · intro ⟨reads, hslice, hstring, htable, hregion⟩
    exact ⟨⟨reads, hslice, hstring⟩, ⟨reads, hslice, htable⟩, ⟨reads, hslice, hregion⟩⟩
  · intro ⟨⟨reads, hslice, hstring⟩, ⟨reads', hslice', htable⟩, ⟨reads'', hslice'', hregion⟩⟩
    obtain rfl : reads = reads' := hslice.unique hslice'
    obtain rfl : reads = reads'' := hslice.unique hslice''
    exact ⟨reads, hslice, hstring, htable, hregion⟩

/-- "hello" -/
def hello : Text := ⟨5, fun i => [104, 101, 108, 108, 111].getD i.toNat 0⟩

theorem staysInt_of_le {lim i : Int} (hi : IsInt i) (hlim : lim + 1 < 2 ^ 31) : StaysInt 1 lim i := by
  intro p hg hgo
  have hle := ((onGrid_up Int.one_pos).mp hg).2
  have hgo := (goesOn_up Int.one_pos).mp hgo
  unfold IsInt at hi ⊢
  omega

/-- `"hello"[2..4]` -/
theorem slicesRight_hello : SlicesRight SampleTable.host.hash (charTable hello) hello (some 2) (some 4) none := by
  have hstays : StaysInt 1 4 2 := staysInt_of_le (by decide) (by decide)
  have hlength : (charTable hello).sequenceLength = 5 := charTable_length hello
  have htable : TableFits 5 2 4 1 := ⟨hstays, .inl ⟨by decide, by decide⟩⟩
  apply (slicesRight_iff SampleTable.host.hash (charTable hello) hello (some 2) (some 4) none nofun).mpr
  rw [hlength]
  refine ⟨⟨htable, charTable_nothingOutside hello⟩, ?_, htable, ?_⟩
  · unfold StringFits
    rw [if_pos (by decide)]
    exact fun _ => ⟨by decide, hstays⟩
  · unfold RegionFits
    dsimp only
    rw [if_pos (by decide), if_pos (by decide)]
    exact ⟨by decide, by decide, hstays⟩

/-- A string is read from 1 where the slice begins at 0, outside where it begins behind the end and
goes down; a table sliced from 0 gives none of its elements; a region takes -4 for the first index. -/
theorem slicesRight_false :
    ¬SlicesRight SampleTable.host.hash (charTable hello) hello (some 0) none (some 2) ∧
    ¬SlicesRight SampleTable.host.hash (charTable hello) hello (some 9) (some 4) (some (-1)) ∧
    ¬SlicesRight SampleTable.host.hash (charTable hello) hello (some 0) (some 2) none ∧
    ¬SlicesRight SampleTable.host.hash (charTable hello) hello (some (-4)) none none := by
  refine ⟨fun ⟨_, reads, hslice, hstring, _, _⟩ => ?_, fun ⟨_, reads, hslice, hstring, _, _⟩ => ?_,
    fun ⟨_, reads, hslice, _, htable, _⟩ => ?_, fun ⟨_, reads, hslice, _, _, hregion⟩ => ?_⟩
  · have hfits := (yields_string_iff hello (by decide)).mp ⟨reads, hslice, hstring⟩
    unfold StringFits at hfits
    rw [if_pos (by decide)] at hfits
    have hdvd := (hfits (by decide)).1
    revert hdvd
    decide
  · have hfits := (yields_string_iff hello (by decide)).mp ⟨reads, hslice, hstring⟩
    unfold StringFits at hfits
    rw [if_neg (by decide)] at hfits
    have hle := (hfits (by decide)).1
    revert hle
    decide
  · rw [← charTable_length hello] at hslice
    have hfits := (yields_table_iff (charTable hello) (by decide)).mp ⟨reads, hslice, htable⟩
    rw [charTable_length hello] at hfits
    rcases hfits.1.2 with hin | hnot
    · revert hin
      unfold InRange
      decide
    · exact hnot 1 ⟨1, by decide⟩ (by decide) ⟨by decide, by decide⟩
  · have hfits := (yields_region_iff hello (by decide)).mp ⟨reads, hslice, hregion⟩
    unfold RegionFits at hfits
    dsimp only at hfits
    rw [if_pos (by decide), if_pos (by decide)] at hfits
    have hle := hfits.1
    revert hle
    decide

end Main

end ToiLang
