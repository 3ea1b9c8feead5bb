import ToiLang.Compiler.Expr
import ToiLang.Operators
import ToiLang.TableLength

namespace ToiLang

open Compile (binaryOps)

/-! The order operators of two values, as the compiler emits them and the machine runs them. -/

/-- `vm_handle_op_equal`; `method` is `get_metamethod` of `__eq`. Only objects are asked for it. -/
def vmHandleOpEqual (method : Value → Value) (a b : Value) : Answer :=
  if valuesEqualSimple a b then .value true
  else if a.isObject ∧ b.isObject then
    match a, b with
    | .string _, .string _ => .value false
    | _, _ =>
      if methodOf method a b ≠ .nil then .call (methodOf method a b) [a, b] else .value false
  else .value false

/-- `vm_handle_op_less`, with `get_metamethod` of `__lt`. -/
def vmHandleOpLess (method : Value → Value) (a b : Value) : Answer :=
  match a, b with
  | .number x, .number y => .value (Double.lt x y)
  | _, _ =>
    if methodOf method a b ≠ .nil then .call (methodOf method a b) [a, b] else .value false

/-- `vm_handle_op_greater`: the method is called with the operands the other way round. -/
def vmHandleOpGreater (method : Value → Value) (a b : Value) : Answer :=
  match a, b with
  | .number x, .number y => .value (Double.lt y x)
  | _, _ =>
    if methodOf method a b ≠ .nil then .call (methodOf method a b) [b, a] else .value false

/-- What the operators rest on: the methods of values, what a call of one returns (none when it raises),
and the tables. -/
structure Metamethods where
  eqMethod : Value → Value
  ltMethod : Value → Value
  call : Value → List Value → Option Value
  tables : Nat → Table

namespace Metamethods

variable (M : Metamethods)

def answer : Answer → Option Value
  | .value b => some (.bool b)
  | .call method args => M.call method args
  | .error _ => none

/-- An opcode of a comparison on the stack, whose top is the first value. -/
def step : OpCode → List Value → Option (List Value)
  | .opEqual, b :: a :: stack => (M.answer (vmHandleOpEqual M.eqMethod a b)).map (· :: stack)
  | .opLess, b :: a :: stack => (M.answer (vmHandleOpLess M.ltMethod a b)).map (· :: stack)
  | .opGreater, b :: a :: stack => (M.answer (vmHandleOpGreater M.ltMethod a b)).map (· :: stack)
  | .opNot, v :: stack => some (.bool (isFalseyLocal M.tables v) :: stack)
  | _, _ => none

def truth (v : Value) : Bool := !isFalseyLocal M.tables v

/-- The truth of a comparison: the code that the compiler emits for it, run on the operands. -/
def compare (o : BinaryOp) (a b : Value) : Option Bool :=
  ((binaryOps o .any .any).1.foldlM (fun stack op => M.step op stack) [b, a]).bind fun stack =>
    stack.head?.map M.truth

/-- The method for the order of two values. -/
def ltOf (a b : Value) : Value := methodOf M.ltMethod a b

/-- The values that have an order: two numbers, and those with a method. -/
def HasOrder (a b : Value) : Prop := a.isNumber ∧ b.isNumber ∨ M.ltOf a b ≠ .nil

/-- The methods are a strict order with the equality as its ties. -/
structure OrderedBy (r : Value → Value → Prop) : Prop where
  asymm : ∀ a b, r a b → ¬r b a
  trans : ∀ a b c, r a b → r b c → r a c
  less : ∀ a b v, M.ltOf a b ≠ .nil → M.call (M.ltOf a b) [a, b] = some v → (M.truth v = true ↔ r a b)
  greater : ∀ a b v, M.ltOf a b ≠ .nil → M.call (M.ltOf a b) [b, a] = some v → (M.truth v = true ↔ r b a)
  equal : ∀ a b v w e, M.ltOf a b ≠ .nil → M.call (M.ltOf a b) [a, b] = some v → M.call (M.ltOf a b) [b, a] = some w →
    M.compare .equalEqual a b = some e → (e = true ↔ ¬r a b ∧ ¬r b a)

/-- The laws of the order on two values: of smaller, equal and greater one is true, the other two
operators follow from them, and values without an order raise. -/
structure Lawful (a b : Value) : Prop where
  one : ∀ l e g, M.compare .less a b = some l → M.compare .equalEqual a b = some e →
    M.compare .greater a b = some g → [l, e, g].count true = 1
  lessEqual : ∀ l e le, M.compare .less a b = some l → M.compare .equalEqual a b = some e →
    M.compare .lessEqual a b = some le → le = (l || e)
  greaterEqual : ∀ g e ge, M.compare .greater a b = some g → M.compare .equalEqual a b = some e →
    M.compare .greaterEqual a b = some ge → ge = (g || e)
  unordered : ¬M.HasOrder a b → ∀ o ∈ [BinaryOp.less, .lessEqual, .greater, .greaterEqual], M.compare o a b = none

end Metamethods

theorem Double.lt_iff {x y : Double} (hx : x.isNaN = false) (hy : y.isNaN = false) :
    Double.lt x y = true ↔ x.order < y.order := by
  simp [Double.lt, hx, hy]

theorem Double.eq_iff {x y : Double} (hx : x.isNaN = false) (hy : y.isNaN = false) :
    Double.eq x y = true ↔ x.order = y.order := by
  simp [Double.eq, hx, hy]

/-- One of three truths is the only one, and it settles the negations. -/
theorem one_of_three {l e g : Bool} {p q : Prop} (hl : l = true ↔ p) (hg : g = true ↔ q)
    (he : e = true ↔ ¬p ∧ ¬q) (hpq : p → ¬q) :
    [l, e, g].count true = 1 ∧ (!g) = (l || e) ∧ (!l) = (g || e) := by
  cases l <;> cases e <;> cases g <;> simp_all

namespace Metamethods

variable {M : Metamethods} {a b : Value}

theorem truth_bool (x : Bool) : M.truth (.bool x) = x := by
  cases x <;> rfl

theorem truth_not (v : Value) : M.truth (.bool (isFalseyLocal M.tables v)) = !M.truth v := by
  rw [truth_bool, truth, Bool.not_not]

theorem compare_less : M.compare .less a b = (M.answer (vmHandleOpLess M.ltMethod a b)).map M.truth := by
  unfold compare
  simp only [binaryOps, List.foldlM_cons, List.foldlM_nil, step]
  cases M.answer (vmHandleOpLess M.ltMethod a b) <;> rfl

theorem compare_greater : M.compare .greater a b = (M.answer (vmHandleOpGreater M.ltMethod a b)).map M.truth := by
  unfold compare
  simp only [binaryOps, List.foldlM_cons, List.foldlM_nil, step]
  cases M.answer (vmHandleOpGreater M.ltMethod a b) <;> rfl

theorem compare_equal : M.compare .equalEqual a b = (M.answer (vmHandleOpEqual M.eqMethod a b)).map M.truth := by
  unfold compare
  simp only [binaryOps, List.foldlM_cons, List.foldlM_nil, step]
  cases M.answer (vmHandleOpEqual M.eqMethod a b) <;> rfl

/-- The other two operators are the negations. -/
theorem compare_lessEqual : M.compare .lessEqual a b = (M.compare .greater a b).map (! ·) := by
  rw [compare_greater]
  unfold compare
  simp only [binaryOps, List.foldlM_cons, List.foldlM_nil, step]
  cases M.answer (vmHandleOpGreater M.ltMethod a b) with
  | none => rfl
  | some v => exact congrArg some (truth_not v)

theorem compare_greaterEqual : M.compare .greaterEqual a b = (M.compare .less a b).map (! ·) := by
  rw [compare_less]
  unfold compare
  simp only [binaryOps, List.foldlM_cons, List.foldlM_nil, step]
  cases M.answer (vmHandleOpLess M.ltMethod a b) with
  | none => rfl
  | some v => exact congrArg some (truth_not v)

/-- The laws from three answers. -/
theorem lawful_of {p q : Prop} (horder : M.HasOrder a b) (hpq : p → ¬q)
    (hl : ∀ l, M.compare .less a b = some l → (l = true ↔ p))
    (hg : ∀ g, M.compare .greater a b = some g → (g = true ↔ q))
    (he : ∀ l g e, M.compare .less a b = some l → M.compare .greater a b = some g →
      M.compare .equalEqual a b = some e → (e = true ↔ ¬p ∧ ¬q)) : M.Lawful a b where
  one l e g h₁ h₂ h₃ := (one_of_three (hl l h₁) (hg g h₃) (he l g e h₁ h₃ h₂) hpq).1
  lessEqual l e le h₁ h₂ h₃ := by
    rw [compare_lessEqual] at h₃
    obtain ⟨g, h₄, rfl⟩ := Option.map_eq_some_iff.mp h₃
    exact (one_of_three (hl l h₁) (hg g h₄) (he l g e h₁ h₄ h₂) hpq).2.1
  greaterEqual g e ge h₁ h₂ h₃ := by
    rw [compare_greaterEqual] at h₃
    obtain ⟨l, h₄, rfl⟩ := Option.map_eq_some_iff.mp h₃
    exact (one_of_three (hl l h₄) (hg g h₁) (he l g e h₄ h₁ h₂) hpq).2.2
  unordered hnot := absurd horder hnot

/-- Two numbers have the order of the numbers. -/
theorem lawful_numbers {x y : Double} (hx : x.isNaN = false) (hy : y.isNaN = false) :
    M.Lawful (.number x) (.number y) := by
  have horder : M.HasOrder (.number x) (.number y) := .inl ⟨rfl, rfl⟩
  refine lawful_of (p := x.order < y.order) (q := y.order < x.order) horder (fun hp hq => by omega) ?_ ?_ ?_
  · intro l hl
    rw [compare_less] at hl
    obtain rfl : Double.lt x y = l := by simpa [vmHandleOpLess, answer, truth_bool] using hl
    exact Double.lt_iff hx hy
  · intro g hg
    rw [compare_greater] at hg
    obtain rfl : Double.lt y x = g := by simpa [vmHandleOpGreater, answer, truth_bool] using hg
    exact Double.lt_iff hy hx
  · intro l g e _ _ he
    rw [compare_equal] at he
    have heq : Double.eq x y = e := by
      have hsimple : valuesEqualSimple (.number x) (.number y) = Double.eq x y := rfl
      unfold vmHandleOpEqual at he
      rw [hsimple] at he
      cases hxy : Double.eq x y with
      | true =>
        rw [hxy, if_pos rfl] at he
        exact Option.some.inj he
      | false =>
        rw [hxy, if_neg (by decide), if_neg fun h => Bool.false_ne_true h.1] at he
        exact Option.some.inj he
    subst heq
    rw [Double.eq_iff hx hy]
    omega

theorem vmHandleOpLess_method (method : Value → Value) (h : ¬(a.isNumber ∧ b.isNumber)) :
    vmHandleOpLess method a b =
      if methodOf method a b ≠ .nil then .call (methodOf method a b) [a, b] else .value false := by
  unfold vmHandleOpLess
  split
  next => exact absurd ⟨rfl, rfl⟩ h
  next => rfl

theorem vmHandleOpGreater_method (method : Value → Value) (h : ¬(a.isNumber ∧ b.isNumber)) :
    vmHandleOpGreater method a b =
      if methodOf method a b ≠ .nil then .call (methodOf method a b) [b, a] else .value false := by
  unfold vmHandleOpGreater
  split
  next => exact absurd ⟨rfl, rfl⟩ h
  next => rfl

theorem compare_less_method (hnum : ¬(a.isNumber ∧ b.isNumber)) (hlt : M.ltOf a b ≠ .nil) :
    M.compare .less a b = (M.call (M.ltOf a b) [a, b]).map M.truth := by
  have hfound : methodOf M.ltMethod a b ≠ .nil := hlt
  rw [compare_less, vmHandleOpLess_method _ hnum, if_pos hfound]
  rfl

theorem compare_greater_method (hnum : ¬(a.isNumber ∧ b.isNumber)) (hlt : M.ltOf a b ≠ .nil) :
    M.compare .greater a b = (M.call (M.ltOf a b) [b, a]).map M.truth := by
  have hfound : methodOf M.ltMethod a b ≠ .nil := hlt
  rw [compare_greater, vmHandleOpGreater_method _ hnum, if_pos hfound]
  rfl

/-- Two values with a method have its order. -/
theorem lawful_method {r : Value → Value → Prop} (hr : M.OrderedBy r) (hnum : ¬(a.isNumber ∧ b.isNumber))
    (hlt : M.ltOf a b ≠ .nil) : M.Lawful a b := by
  have hless := compare_less_method hnum hlt
  have hgreater := compare_greater_method hnum hlt
  refine lawful_of (p := r a b) (q := r b a) (.inr hlt) (hr.asymm a b) ?_ ?_ ?_
  · intro l hl
    rw [hless] at hl
    obtain ⟨v, hv, rfl⟩ := Option.map_eq_some_iff.mp hl
    exact hr.less a b v hlt hv
  · intro g hg
    rw [hgreater] at hg
    obtain ⟨v, hv, rfl⟩ := Option.map_eq_some_iff.mp hg
    exact hr.greater a b v hlt hv
  · intro l g e hl hg he
    rw [hless] at hl
    rw [hgreater] at hg
    obtain ⟨v, hv, -⟩ := Option.map_eq_some_iff.mp hl
    obtain ⟨w, hw, -⟩ := Option.map_eq_some_iff.mp hg
    exact hr.equal a b v w e hlt hv hw he

/-- The order operators obey their laws exactly on the values that have an order: the others answer
false for smaller and greater, so true for the negations, instead of raising. -/
theorem lawful_iff {r : Value → Value → Prop} (hr : M.OrderedBy r) (ha : ∀ x, a = .number x → x.isNaN = false)
    (hb : ∀ y, b = .number y → y.isNaN = false) : M.Lawful a b ↔ M.HasOrder a b := by
  constructor
  · intro hlaw
    by_contra hnot
    obtain ⟨hnum, hlt⟩ := not_or.mp hnot
    have hnone := hlaw.unordered hnot .less List.mem_cons_self
    have hfound : ¬methodOf M.ltMethod a b ≠ .nil := hlt
    rw [compare_less, vmHandleOpLess_method _ hnum, if_neg hfound] at hnone
    cases hnone
  · intro horder
    by_cases hnum : a.isNumber ∧ b.isNumber
    · obtain ⟨hna, hnb⟩ := hnum
      cases a with
      | number x =>
        cases b with
        | number y => exact lawful_numbers (ha x rfl) (hb y rfl)
        | _ => cases hnb
      | _ => cases hna
    · exact lawful_method hr hnum (horder.resolve_left hnum)

namespace Sample

/-- No value has a method. -/
def plain : Metamethods := ⟨fun _ => .nil, fun _ => .nil, fun _ _ => none, fun _ => initTable⟩

/-- The tables from address 1 on have an `__lt` that compares their addresses. -/
def byAddress : Metamethods where
  eqMethod _ := .nil
  ltMethod
    | .table (_ + 1) => .closure 0 0 []
    | _ => .nil
  call _
    | [.table a, .table b] => some (.bool (decide (a < b)))
    | _ => none
  tables _ := initTable

end Sample

theorem byAddress_call {f v : Value} (h : Sample.byAddress.call f [a, b] = some v) :
    ∃ x y, a = .table x ∧ b = .table y ∧ v = .bool (decide (x < y)) := by
  cases a with
  | table x =>
    cases b with
    | table y => exact ⟨x, y, rfl, rfl, (Option.some.inj h).symm⟩
    | _ => cases h
  | _ => cases h

theorem byAddress_equal (x y : Nat) :
    Sample.byAddress.compare .equalEqual (.table x) (.table y) = some (decide (x = y)) := by
  rw [compare_equal]
  unfold vmHandleOpEqual
  by_cases hxy : x = y
  · subst hxy
    have heq : valuesEqualSimple (.table x) (.table x) = true := decide_eq_true rfl
    rw [if_pos heq, decide_eq_true rfl]
    rfl
  · have hne : ¬valuesEqualSimple (.table x) (.table y) = true := fun h =>
      hxy (Value.table.inj (of_decide_eq_true h))
    rw [if_neg hne, decide_eq_false hxy]
    rfl

theorem byAddress_ordered : Sample.byAddress.OrderedBy fun a b => ∃ x y, a = .table x ∧ b = .table y ∧ x < y where
  asymm := by
    rintro a b ⟨x, y, rfl, rfl, hxy⟩ ⟨x', y', hx, hy, hlt⟩
    cases hx
    cases hy
    omega
  trans := by
    rintro a b c ⟨x, y, rfl, rfl, hxy⟩ ⟨y', z, hy, rfl, hyz⟩
    cases hy
    exact ⟨x, z, rfl, rfl, by omega⟩
  less := by
    intro a b v _ hv
    obtain ⟨x, y, rfl, rfl, rfl⟩ := byAddress_call hv
    simp [truth_bool]
  greater := by
    intro a b v _ hv
    obtain ⟨x, y, rfl, rfl, rfl⟩ := byAddress_call hv
    simp [truth_bool]
  equal := by
    intro a b v w e _ hv _ he
    obtain ⟨x, y, rfl, rfl, -⟩ := byAddress_call hv
    rw [byAddress_equal] at he
    cases he
    simp
    omega

/-- Two tables with the method are ordered by their addresses. -/
theorem tables_lawful : Sample.byAddress.Lawful (.table 1) (.table 2) := by
  have hnumber : ∀ (n : Nat) x, Value.table n = .number x → x.isNaN = false := by
    intro n x h
    cases h
  exact (lawful_iff byAddress_ordered (hnumber 1) (hnumber 2)).mpr (.inr (by decide))

/-- `"a" <= "b"` is true, while `"a" < "b"` and `"a" == "b"` are false. -/
theorem strings_not_lawful : ¬∀ (M : Metamethods) (r : Value → Value → Prop) (a b : Value), M.OrderedBy r →
    (∀ x, a = .number x → x.isNaN = false) → (∀ y, b = .number y → y.isNaN = false) → M.Lawful a b := by
  intro hall
  have hr : Sample.plain.OrderedBy fun _ _ => False :=
    ⟨fun _ _ h => h.elim, fun _ _ _ h => h.elim, fun _ _ _ h => absurd rfl h, fun _ _ _ h => absurd rfl h,
      fun _ _ _ _ _ h => absurd rfl h⟩
  have hnumber : ∀ (t : Bytes) x, Value.string t = .number x → x.isNaN = false := by
    intro t x h
    cases h
  have hlaw := hall _ _ (.string [97]) (.string [98]) hr (hnumber _) (hnumber _)
  have hle := hlaw.lessEqual false false true rfl (by decide) rfl
  cases hle

end Metamethods

end ToiLang
