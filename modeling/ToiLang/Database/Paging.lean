import ToiLang.Database.Table
import ToiLang.Slice
import ToiLang.TableSort

namespace ToiLang.Database

open StableInsertion

/-- The options of a query. -/
structure Options where
  orderBy : Option Bytes
  offset : Option Int
  limit : Option Int
  select : Option (List Bytes)

/-- The comparator that `sort_rows` gives to `table.sort`. -/
def rowLess (desc : Bool) (field : Bytes) (a b : Row) : Bool :=
  if desc then (a field).greater (b field) else (a field).less (b field)

def isDescending (orderBy : Bytes) : Bool := decide (orderBy.head? = some 45)

def orderField (orderBy : Bytes) : Bytes := if isDescending orderBy then orderBy.drop 1 else orderBy

/-- `table.sort` is the stable insertion sort; an empty text is false. -/
def sortRows (rows : List Row) : Option Bytes → List Row
  | none => rows
  | some orderBy =>
    if orderBy = [] then rows
    else insertionSort (rowLess (isDescending orderBy) (orderField orderBy)) rows

local instance : LawfulBEq Bytes := inferInstance

def applySelect (rows : List Row) : Option (List Bytes) → List Row
  | none => rows
  | some select => rows.map fun row fieldName => if fieldName ∈ select then row fieldName else .nil

/-- The table that `out <+ row` makes of `n` rows; the address of a row is its place. -/
def rowTable (n : Nat) : Table := (List.range n).foldl (fun t i => tablePush t (.table i)) initTable

/-- The rows whose addresses are in a table. -/
def rowsAt (rows : List Row) (t : Table) : List Row :=
  (List.range t.sequenceLength).filterMap fun i =>
    match t.slot i with
    | .table a => rows[a]?
    | _ => none

/-- `rows[start..stop]`: none where it raises or does not end. -/
def sliceRows (hash : Bytes → UInt32) (rows : List Row) (start stop : Option Int) : Option (List Row) :=
  if (∀ i ∈ start, IsInt i) ∧ ∀ i ∈ stop, IsInt i then
    match opSlice hash (.table (rowTable rows.length)) start stop none with
    | .ok (some ⟨_, .table t⟩) => some (rowsAt rows t)
    | _ => none
  else none

def applyOffsetLimit (hash : Bytes → UInt32) (rows : List Row) : Option Int → Option Int → Option (List Row)
  | none, none => some rows
  | none, some limit => sliceRows hash rows none (some limit)
  | some offset, none => sliceRows hash rows (some (offset + 1)) none
  | some offset, some limit => sliceRows hash rows (some (offset + 1)) (some (offset + 1 + limit - 1))

/-- What `filter` makes of the rows that the query matches. -/
def arrangeRows (hash : Bytes → UInt32) (opts : Options) (rows : List Row) : Option (List Row) := do
  let page ← applyOffsetLimit hash (sortRows rows opts.orderBy) opts.offset opts.limit
  return applySelect page opts.select

def filterWith (hash : Bytes → UInt32) (q : Query) (opts : Options) (st : TableState) :
    Option (List Row) := filter q (arrangeRows hash opts) st

/-- The rows from `offset + 1` on, at most `limit` of them. -/
def Options.window (opts : Options) (rows : List Row) : List Row :=
  let rows := rows.drop (opts.offset.getD 0).toNat
  match opts.limit with
  | some limit => rows.take limit.toNat
  | none => rows

/-- The order of numbers, and the bytewise one of strings. -/
def FieldValue.before : FieldValue → FieldValue → Bool
  | .number x, .number y => x.lt y
  | .string s, .string t => bytesLess s t
  | _, _ => false

def rowBefore (desc : Bool) (field : Bytes) (a b : Row) : Bool :=
  if desc then (b field).before (a field) else (a field).before (b field)

/-- A number that is one. -/
def FieldValue.isNumber : FieldValue → Bool
  | .number x => !x.isNaN
  | _ => false

theorem rowLess_eq (desc : Bool) (field : Bytes) :
    rowLess desc field = among (fun row => (row field).isNumber) (rowBefore desc field) := by
  have hnumbers (v w : FieldValue) : v.less w = (v.isNumber && w.isNumber && v.before w) := by
    unfold FieldValue.less FieldValue.greater FieldValue.isNumber FieldValue.before
    cases v <;> cases w <;> simp [Double.lt]
  funext a b
  unfold rowLess among rowBefore
  cases desc with
  | false => simp [hnumbers]
  | true =>
    have h := hnumbers (b field) (a field)
    have hswap : (a field).greater (b field) = (b field).less (a field) := rfl
    simp only [if_true]
    rw [hswap, h, Bool.and_comm (b field).isNumber]

section Slices

variable {hash : Bytes → UInt32} {rows : List Row} {n : Nat}

theorem rowTable_lists (n : Nat) : (rowTable n).Lists ((List.range n).map fun i => .table i) :=
  pushed_lists (fun i => .table i) n

theorem rowTable_values (n : Nat) : ∀ v ∈ (List.range n).map fun i => Value.table i, v ≠ .nil := by
  intro v hv
  obtain ⟨i, -, rfl⟩ := List.mem_map.mp hv
  exact nofun

theorem rowTable_length (n : Nat) : (rowTable n).sequenceLength = n := by
  rw [(rowTable_lists n).sequenceLength_eq (rowTable_values n), List.length_map, List.length_range]

theorem rowTable_slot {i : Nat} (hi : i < n) : (rowTable n).slot i = .table i := by
  rw [(rowTable_lists n).slot, List.getD_eq_getElem?_getD, List.getElem?_map, List.getElem?_range hi]
  rfl

theorem rowTable_element {i : Nat} (hi : i < n) :
    sliceElement hash (rowTable n) ((i + 1 : Nat) : Int) = some (.table i) := by
  unfold sliceElement
  rw [if_pos (by omega), tableGetArray_succ, rowTable_slot hi, if_pos nofun]

theorem filterMap_range (m k : Nat) :
    (List.range k).filterMap (fun i => rows[m + i]?) = (rows.drop m).take k := by
  induction k with
  | zero => rfl
  | succ k ih =>
    rw [List.range_succ, List.filterMap_append, ih, List.take_add_one, List.getElem?_drop]
    cases h : rows[m + k]? <;> simp [h]

/-- The indices from `s` to `e` of one of `n` elements. -/
theorem isSlice_range {s e : Int} (hs : 1 ≤ s) :
    IsSlice n s e 1 ((List.range (min e n - s + 1).toNat).map fun (i : Nat) => s + i) where
  ordered := by
    rw [List.pairwise_map]
    refine List.pairwise_lt_range.imp fun {i j} hij => ?_
    unfold Before
    rw [if_pos (by omega)]
    omega
  mem p := by
    rw [List.mem_map, onGrid_up (by omega), goesOn_up (by omega)]
    unfold InRange
    constructor
    · rintro ⟨i, hi, rfl⟩
      have hi := List.mem_range.mp hi
      exact ⟨⟨⟨Int.one_dvd _, by omega⟩, by omega⟩, by omega, by omega⟩
    · rintro ⟨⟨⟨-, hle⟩, he⟩, h1, hn⟩
      exact ⟨(p - s).toNat, List.mem_range.mpr (by omega), by omega⟩

theorem rowsAt_eq {t : Table} {k m : Nat}
    (ht : t.Lists ((List.range k).map fun i => .table (m + i))) :
    rowsAt rows t = (rows.drop m).take k := by
  have hvalues : ∀ v ∈ (List.range k).map fun i => Value.table (m + i), v ≠ .nil := by
    intro v hv
    obtain ⟨i, -, rfl⟩ := List.mem_map.mp hv
    exact nofun
  unfold rowsAt
  rw [ht.sequenceLength_eq hvalues, List.length_map, List.length_range, ← filterMap_range]
  refine List.filterMap_congr fun i hi => ?_
  have hi := List.mem_range.mp hi
  rw [ht.slot, List.getD_eq_getElem?_getD, List.getElem?_map, List.getElem?_range hi]
  rfl

/-- A slice with a start of 1 or more. -/
theorem sliceRows_eq {start stop : Option Int} {s e : Int}
    (hb : sliceBounds rows.length start stop 1 = (s, e)) (hs : 1 ≤ s)
    (hint : (∀ i ∈ start, IsInt i) ∧ ∀ i ∈ stop, IsInt i) (hstays : StaysInt 1 e s) :
    sliceRows hash rows start stop = some ((rows.drop (s - 1).toNat).take (e - s + 1).toNat) := by
  have hlen := rowTable_length rows.length
  have hfits : TableFits rows.length s e 1 := by
    refine ⟨hstays, ?_⟩
    by_cases hin : InRange rows.length s
    · exact .inl hin
    · refine .inr fun p hg _ hp => hin ?_
      have hle := ((onGrid_up (by omega)).mp hg).2
      unfold InRange at hp ⊢
      omega
  have hyields : ∃ reads, SlicedAt (rowTable rows.length).sequenceLength start stop none reads ∧
      Yields hash (.table (rowTable rows.length)) start stop none reads := by
    rw [yields_table_iff (rowTable rows.length) (by decide), hlen, Option.getD_none, hb]
    exact ⟨hfits, (rowTable_lists _).nothingOutside (rowTable_values _)⟩
  obtain ⟨reads, hslice, r, hr, -, hfrom⟩ := hyields
  unfold SlicedAt at hslice
  rw [hlen, Option.getD_none, hb] at hslice
  obtain rfl := hslice.unique (isSlice_range hs)
  unfold sliceRows
  rw [if_pos hint, hr]
  obtain ⟨reads', value⟩ := r
  cases value with
  | string chars => exact absurd hfrom id
  | table t =>
    dsimp only
    have hlists : t.Lists ((List.range (min e rows.length - s + 1).toNat).map fun i =>
        Value.table ((s - 1).toNat + i)) := by
      have hmap : ((List.range (min e rows.length - s + 1).toNat).map fun (i : Nat) => s + (i : Int)).map
          (fun p => (sliceElement hash (rowTable rows.length) p).getD .nil) =
          (List.range (min e rows.length - s + 1).toNat).map fun i => Value.table ((s - 1).toNat + i) := by
        rw [List.map_map]
        refine List.map_congr_left fun i hi => ?_
        have hi := List.mem_range.mp hi
        have hp : s + (i : Int) = (((s - 1).toNat + i + 1 : Nat) : Int) := by omega
        rw [Function.comp_apply, hp, rowTable_element (by omega), Option.getD_some]
      rw [← hmap]
      exact hfrom
    rw [rowsAt_eq hlists]
    refine congrArg some (List.take_eq_take_iff.mpr ?_)
    rw [List.length_drop]
    omega

theorem sliceRows_none {start stop : Option Int} {s e : Int}
    (hb : sliceBounds rows.length start stop 1 = (s, e))
    (hnot : ¬ ((∀ i ∈ start, IsInt i) ∧ (∀ i ∈ stop, IsInt i) ∧ StaysInt 1 e s)) :
    sliceRows hash rows start stop = none := by
  unfold sliceRows
  by_cases hint : (∀ i ∈ start, IsInt i) ∧ ∀ i ∈ stop, IsInt i
  · have hstays : ¬ StaysInt 1 e s := fun h => hnot ⟨hint.1, hint.2, h⟩
    have hindices : indices 1 e s = none := by
      cases h : indices 1 e s with
      | none => rfl
      | some l => exact absurd (indices_spec h).2 hstays
    have hslice : opSlice hash (.table (rowTable rows.length)) start stop none = .ok none := by
      unfold opSlice
      dsimp only
      rw [Option.getD_none, if_neg (by decide)]
      unfold Sliceable.length
      dsimp only
      rw [rowTable_length, hb]
      unfold sliceNative sliceTable
      rw [hindices, if_neg (by decide)]
      rfl
    rw [if_pos hint, hslice]
  · rw [if_neg hint]

/-- The indices below the largest `int`. -/
def Fits (offset limit : Option Int) : Prop := offset.getD 0 + limit.getD 0 + 1 < 2 ^ 31

theorem staysInt_iff {s e : Int} (hs : 1 ≤ s) : StaysInt 1 e s ↔ (s ≤ e → e + 1 < 2 ^ 31) := by
  constructor
  · intro h hle
    have hg : OnGrid s 1 e := (onGrid_up (by omega)).mpr ⟨Int.one_dvd _, hle⟩
    exact (h e hg ((goesOn_up (by omega)).mpr (Int.le_refl e))).2
  · intro h p hg hgo
    have hle := ((onGrid_up Int.one_pos).mp hg).2
    have hgo := (goesOn_up Int.one_pos).mp hgo
    have hlt := h (by omega)
    unfold IsInt
    omega

/-- `apply_offset_limit` takes the rows that the options say, or fails where the indices do not fit. -/
theorem applyOffsetLimit_eq (hash : Bytes → UInt32) {opts : Options} (hn : rows.length + 1 < 2 ^ 31)
    (ho : ∀ o ∈ opts.offset, 0 ≤ o) (hl : ∀ l ∈ opts.limit, 0 ≤ l) :
    (Fits opts.offset opts.limit →
      applyOffsetLimit hash rows opts.offset opts.limit = some (opts.window rows)) ∧
    (¬ Fits opts.offset opts.limit → applyOffsetLimit hash rows opts.offset opts.limit = none) := by
  unfold Options.window
  cases hoff : opts.offset with
  | none =>
    cases hlim : opts.limit with
    | none =>
      refine ⟨fun _ => rfl, fun hnot => absurd ?_ hnot⟩
      unfold Fits
      decide
    | some limit =>
      have hl0 := hl limit hlim
      have hb : sliceBounds rows.length none (some limit) 1 = (1, limit) := by
        have h10 : ¬ (1 : Int) < 0 := by decide
        have hneg : ¬ limit < 0 := by omega
        simp only [sliceBounds, Option.getD_none, Option.getD_some, h10, hneg, if_false]
      dsimp only [applyOffsetLimit]
      unfold Fits
      rw [Option.getD_none, Option.getD_some]
      constructor
      · intro hfits
        have hint : (∀ i ∈ (none : Option Int), IsInt i) ∧ ∀ i ∈ some limit, IsInt i := by
          refine ⟨nofun, fun i hi => ?_⟩
          cases hi
          unfold IsInt
          omega
        rw [sliceRows_eq hb (by omega) hint ((staysInt_iff (by omega)).mpr fun _ => by omega)]
        congr 2
        omega
      · intro hnot
        refine sliceRows_none hb fun ⟨_, _, hstays⟩ => ?_
        have h := (staysInt_iff (by omega)).mp hstays
        omega
  | some offset =>
    have ho0 := ho offset hoff
    cases hlim : opts.limit with
    | none =>
      have hb : sliceBounds rows.length (some (offset + 1)) none 1 = (offset + 1, (rows.length : Int)) := by
        have h10 : ¬ (1 : Int) < 0 := by decide
        have hneg : ¬ offset + 1 < 0 := by omega
        have hlen : ¬ (rows.length : Int) < 0 := by omega
        simp only [sliceBounds, Option.getD_none, Option.getD_some, h10, hneg, hlen, if_false]
      dsimp only [applyOffsetLimit]
      unfold Fits
      rw [Option.getD_none, Option.getD_some]
      constructor
      · intro hfits
        have hint : (∀ i ∈ some (offset + 1), IsInt i) ∧ ∀ i ∈ (none : Option Int), IsInt i := by
          refine ⟨fun i hi => ?_, nofun⟩
          cases hi
          unfold IsInt
          omega
        rw [sliceRows_eq hb (by omega) hint ((staysInt_iff (by omega)).mpr fun _ => by omega)]
        have hdrop : (offset + 1 - 1).toNat = offset.toNat := by omega
        rw [hdrop, List.take_of_length_le]
        rw [List.length_drop]
        omega
      · intro hnot
        refine sliceRows_none hb fun ⟨hint, _, _⟩ => ?_
        have h := (hint (offset + 1) rfl).2
        omega
    | some limit =>
      have hl0 := hl limit hlim
      have hb : sliceBounds rows.length (some (offset + 1)) (some (offset + 1 + limit - 1)) 1 =
          (offset + 1, offset + 1 + limit - 1) := by
        have hneg : ¬ offset + 1 < 0 := by omega
        have hneg' : ¬ offset + 1 + limit - 1 < 0 := by omega
        simp only [sliceBounds, Option.getD_some, hneg, hneg', if_false]
      dsimp only [applyOffsetLimit]
      unfold Fits
      rw [Option.getD_some, Option.getD_some]
      constructor
      · intro hfits
        have hint : (∀ i ∈ some (offset + 1), IsInt i) ∧ ∀ i ∈ some (offset + 1 + limit - 1), IsInt i := by
          refine ⟨fun i hi => ?_, fun i hi => ?_⟩ <;> cases hi <;> unfold IsInt <;> omega
        rw [sliceRows_eq hb (by omega) hint ((staysInt_iff (by omega)).mpr fun _ => by omega)]
        have hdrop : (offset + 1 - 1).toNat = offset.toNat := by omega
        have htake : (offset + 1 + limit - 1 - (offset + 1) + 1).toNat = limit.toNat := by omega
        rw [hdrop, htake]
      · intro hnot
        refine sliceRows_none hb fun ⟨hint, _, hstays⟩ => ?_
        have h := (staysInt_iff (by omega)).mp hstays
        have hstart := (hint (offset + 1) rfl).2
        omega

end Slices

section Pages

variable {hash : Bytes → UInt32} {st : TableState} {q q' : Query} {opts : Options} {orderBy : Bytes}

/-- The query without the keys that are no conditions; an options table keeps these among them. -/
def Query.strip : Query → Query
  | mk conditions all any => mk (conditions.filter fun c => isConditionKey c.key) all any

theorem rowMatchesConditions_strip (row : Row) (conditions : List Condition) :
    rowMatchesConditions row (conditions.filter fun c => isConditionKey c.key) =
      rowMatchesConditions row conditions := by
  induction conditions with
  | nil => rfl
  | cons c rest ih =>
    cases hc : isConditionKey c.key with
    | true =>
      rw [List.filter_cons_of_pos (p := fun c : Condition => isConditionKey c.key) hc]
      unfold rowMatchesConditions
      rw [hc, ih]
    | false =>
      rw [List.filter_cons_of_neg (p := fun c : Condition => isConditionKey c.key) (by simp [hc]), ih]
      conv => rhs; unfold rowMatchesConditions
      rw [hc]
      rfl

theorem rowMatchesQuery_strip (row : Row) (q : Query) : rowMatchesQuery row q.strip = rowMatchesQuery row q := by
  obtain ⟨conditions, all, any⟩ := q
  unfold Query.strip rowMatchesQuery
  rw [rowMatchesConditions_strip]

theorem selectRows_strip (q : Query) (rows : List Row) : selectRows q.strip rows = selectRows q rows := by
  induction rows with
  | nil => rfl
  | cons row rest ih =>
    unfold selectRows
    rw [rowMatchesQuery_strip, ih]

theorem pickFrom_strip (st : TableState) (conditions : List Condition) (candidates : Option (List Row)) :
    pickFrom st candidates (conditions.filter fun c => isConditionKey c.key) =
      pickFrom st candidates conditions := by
  induction conditions generalizing candidates with
  | nil => rfl
  | cons c rest ih =>
    cases hc : isConditionKey c.key with
    | true =>
      rw [List.filter_cons_of_pos (p := fun c : Condition => isConditionKey c.key) hc]
      unfold pickFrom
      simp only [ih]
    | false =>
      have hindex : indexFor st c = none := by
        unfold indexFor
        rw [hc]
        rfl
      rw [List.filter_cons_of_neg (p := fun c : Condition => isConditionKey c.key) (by simp [hc]), ih]
      conv => rhs; unfold pickFrom
      rw [hindex]

theorem filter_strip (q : Query) (arrange : List Row → Option (List Row)) (st : TableState) :
    filter q.strip arrange st = filter q arrange st := by
  have hpick : pickIndexCandidates st q.strip = pickIndexCandidates st q := by
    obtain ⟨conditions, all, any⟩ := q
    unfold pickIndexCandidates Query.strip Query.grouped Query.conditions
    dsimp only
    rw [pickFrom_strip]
  unfold filter
  rw [hpick]
  simp only [selectRows_strip]

/-- The query `q'` with the options gives the rows that they say of those that `q` gives without offset
and limit, and these are in the order of the field. -/
structure PagesRight (hash : Bytes → UInt32) (st : TableState) (q q' : Query) (opts : Options)
    (orderBy : Bytes) : Prop where
  window : ∀ rows, filterWith hash q { opts with offset := none, limit := none } st = some rows →
    filterWith hash q' opts st = some (opts.window rows)
  ordered : ∀ rows, filterWith hash q ⟨some orderBy, none, none, none⟩ st = some rows →
    Ordered (rowBefore (isDescending orderBy) (orderField orderBy)) rows

theorem filterWith_eq {rows : List Row} (hmatch : filter q some st = some rows) (opts : Options) :
    filterWith hash q opts st = arrangeRows hash opts rows := by
  unfold filterWith filter at *
  obtain ⟨candidates, hc, hmatch⟩ := Option.bind_eq_some_iff.mp hmatch
  obtain ⟨out, hout, hrows⟩ := Option.bind_eq_some_iff.mp hmatch
  cases hrows
  rw [hc]
  change (selectRows q (candidates.getD (allRows st))).bind _ = _
  rw [hout]
  rfl

theorem window_select (opts : Options) (rows : List Row) :
    applySelect (opts.window rows) opts.select = opts.window (applySelect rows opts.select) := by
  unfold applySelect
  cases opts.select with
  | none => rfl
  | some select =>
    unfold Options.window
    dsimp only
    cases opts.limit with
    | none => exact List.map_drop
    | some limit =>
      dsimp only
      rw [List.map_take, List.map_drop]

theorem before_weak (desc : Bool) (field : Bytes) (rows : List Row) :
    StrictWeakOn (rowBefore desc field) (rows.filter fun row => (row field).isNumber) := by
  have hnumber {row : Row} (h : row ∈ rows.filter fun row => (row field).isNumber) :
      ∃ x : Double, row field = .number x ∧ x.isNaN = false := by
    have h := (List.mem_filter.mp h).2
    cases hv : row field with
    | number x =>
      rw [hv] at h
      exact ⟨x, rfl, by simpa [FieldValue.isNumber] using h⟩
    | nil => rw [hv] at h; cases h
    | bool b => rw [hv] at h; cases h
    | string s => rw [hv] at h; cases h
  have hweak : StrictWeakOn (fun a b : Row => (a field).before (b field))
      (rows.filter fun row => (row field).isNumber) := by
    constructor
    · intro a ha b hb hlt
      obtain ⟨x, hx, hxn⟩ := hnumber ha
      obtain ⟨y, hy, hyn⟩ := hnumber hb
      rw [hx, hy] at hlt ⊢
      have hlt := (double_lt_iff hxn hyn).mp hlt
      refine Bool.eq_false_iff.mpr fun hgt => ?_
      have hgt := (double_lt_iff hyn hxn).mp hgt
      omega
    · intro a ha b hb c hc hlt
      obtain ⟨x, hx, hxn⟩ := hnumber ha
      obtain ⟨y, hy, hyn⟩ := hnumber hb
      obtain ⟨z, hz, hzn⟩ := hnumber hc
      rw [hx, hz] at hlt
      rw [hx, hy, hz]
      have hlt := (double_lt_iff hxn hzn).mp hlt
      rcases Int.lt_or_le x.order y.order with hxy | hyx
      · exact .inl ((double_lt_iff hxn hyn).mpr hxy)
      · exact .inr ((double_lt_iff hyn hzn).mpr (by omega))
  cases desc with
  | false => exact hweak
  | true => exact hweak.flip

/-- With the conditions listed in the same order, the pages are right exactly when the indices fit an
`int` and the rows that the query matches are out of order within runs of numbers only. -/
theorem pages_iff {rows : List Row} (hash : Bytes → UInt32) (hsame : q'.strip = q.strip)
    (horder : opts.orderBy = some orderBy) (hne : orderBy ≠ [])
    (ho : ∀ o ∈ opts.offset, 0 ≤ o) (hl : ∀ l ∈ opts.limit, 0 ≤ l)
    (hmatch : filter q some st = some rows) (hn : rows.length + 1 < 2 ^ 31) :
    PagesRight hash st q q' opts orderBy ↔
      Fits opts.offset opts.limit ∧
        Runs (fun row => (row (orderField orderBy)).isNumber)
          (rowBefore (isDescending orderBy) (orderField orderBy)) rows := by
  have hsort : sortRows rows (some orderBy) =
      insertionSort (rowLess (isDescending orderBy) (orderField orderBy)) rows := if_neg hne
  have hmatch' : filter q' some st = some rows := by
    rw [← filter_strip, hsame, filter_strip, hmatch]
  have hlen : (sortRows rows (some orderBy)).length = rows.length := by
    rw [hsort]
    exact (insertionSort_perm _).length_eq
  have hfull (select : Option (List Bytes)) : filterWith hash q ⟨some orderBy, none, none, select⟩ st =
      some (applySelect (sortRows rows (some orderBy)) select) := filterWith_eq hmatch _
  have hopts : { opts with offset := none, limit := none } = (⟨some orderBy, none, none, opts.select⟩ : Options) := by
    rw [← horder]
  have hfew : (sortRows rows (some orderBy)).length + 1 < 2 ^ 31 := by rwa [hlen]
  obtain ⟨hfits, hnot⟩ := applyOffsetLimit_eq hash hfew ho hl
  have hordered := insertionSort_ordered_iff (before_weak (isDescending orderBy) (orderField orderBy) rows)
  rw [← rowLess_eq, ← hsort] at hordered
  rw [← hordered]
  constructor
  · rintro ⟨hwindow, hord⟩
    refine ⟨?_, hord _ (hfull none)⟩
    rw [hopts] at hwindow
    have hpage := hwindow _ (hfull opts.select)
    by_contra hno
    rw [filterWith_eq hmatch', arrangeRows, horder, hnot hno] at hpage
    cases hpage
  · rintro ⟨hfit, hord⟩
    constructor
    · intro full hrows
      rw [hopts, hfull] at hrows
      cases hrows
      rw [filterWith_eq hmatch', arrangeRows, horder, hfits hfit]
      exact congrArg some (window_select opts _)
    · intro full hrows
      rw [hfull] at hrows
      cases hrows
      exact hord

end Pages

/-- A row with one more field. -/
def rowWith (id field : Bytes) (value : FieldValue) : Row := fun k =>
  if k = primaryKey then .string id else if k = field then value else .nil

/-- Rows of a table without indexes, in the order of their ids `1` and `2`. -/
def twoRows (field : Bytes) (v w : FieldValue) : TableState :=
  ⟨[⟨.string [49], rowWith [49] field v⟩, ⟨.string [50], rowWith [50] field w⟩], []⟩

/-- The query without conditions. -/
def everyRow : Query := .mk [] none none

/-- Rows named `b` and `a` are not put into the order of their names. -/
theorem pages_false :
    ¬ PagesRight SampleTable.host.hash (twoRows (ascii "name") (.string [98]) (.string [97])) everyRow
      everyRow ⟨some (ascii "name"), some 0, some 2, none⟩ (ascii "name") := by
  rintro ⟨-, hord⟩
  have h := hord [rowWith [49] (ascii "name") (.string [98]), rowWith [50] (ascii "name") (.string [97])] rfl
  have hless := (List.pairwise_cons.mp h).1 _ List.mem_cons_self
  revert hless
  decide

/-- The second of two rows by their ages 2 and 1. -/
theorem pages_right_ages :
    PagesRight SampleTable.host.hash (twoRows (ascii "age") (.number SampleTable.two) (.number SampleTable.one))
      everyRow everyRow ⟨some (ascii "age"), some 1, some 1, none⟩ (ascii "age") := by
  have hrows : filter everyRow some (twoRows (ascii "age") (.number SampleTable.two) (.number SampleTable.one)) =
      some [rowWith [49] (ascii "age") (.number SampleTable.two),
        rowWith [50] (ascii "age") (.number SampleTable.one)] := rfl
  refine (pages_iff SampleTable.host.hash rfl rfl (by decide) ?_ ?_ hrows (by decide)).mpr
    ⟨by unfold Fits; decide, runs_of_forall fun row hrow => ?_⟩
  · intro o ho
    cases ho
    decide
  · intro l hl
    cases hl
    decide
  · rcases List.mem_cons.mp hrow with rfl | hrow
    · decide
    · cases List.mem_singleton.mp hrow
      decide

end ToiLang.Database
