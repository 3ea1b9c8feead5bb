import ToiLang.Binding
import ToiLang.Compiler.Emits

namespace ToiLang

namespace Signature

variable {s : Signature} {f : ObjFunction} {literal : DefaultLiteral → Value}
  {ps : List (Formal × Option DefaultLiteral)} {gs : List (Option Value)}

/-- What the compiler puts down of the parameters of a function. -/
structure Declares (s : Signature) (f : ObjFunction) : Prop where
  arity : f.arity = s.ordinary.length + s.variadic.toList.length
  isVariadic : f.isVariadic = s.variadic.isSome
  defaults : f.defaults = s.optional.map fun o => Compile.defaultValue o.2
  paramNames : f.paramNames = s.ordinary.map (·.1.name) ++ s.variadic.toList.map Formal.name

theorem declares (s : Signature) (k : Compiler) (name : Name) (body : Code) :
    s.Declares (Compile.finishedFunction k name s.params body) where
  arity := by simp [Compile.finishedFunction, params]
  isVariadic := by
    cases hv : s.variadic <;> simp [Compile.finishedFunction, params, hv]
  defaults := by
    cases hv : s.variadic <;>
      simp [Compile.finishedFunction, params, ordinary, hv, List.filterMap_map, Function.comp_def]
  paramNames := by simp [Compile.finishedFunction, params, Function.comp_def]

theorem ordinary_length (s : Signature) : s.ordinary.length = s.required.length + s.optional.length := by
  simp [ordinary]

theorem ordinary_of_lt {i : Nat} {p : Formal × Option DefaultLiteral} (hi : i < s.required.length)
    (hp : s.ordinary[i]? = some p) : p.2 = none := by
  unfold ordinary at hp
  rw [List.getElem?_append_left (by simpa using hi), List.getElem?_map] at hp
  obtain ⟨q, -, rfl⟩ := Option.map_eq_some_iff.mp hp
  rfl

theorem ordinary_of_le {i : Nat} (hi : s.required.length ≤ i) :
    s.ordinary[i]? = (s.optional[i - s.required.length]?).map fun o => (o.1, some o.2) := by
  unfold ordinary
  rw [List.getElem?_append_right (by simpa using hi), List.getElem?_map, List.length_map]

theorem given_length (keyword : Bytes → Option Value) (args : List Value) :
    (given keyword ps args).length = ps.length := by
  induction ps generalizing args with
  | nil => rfl
  | cons p ps ih =>
    cases args with
    | nil => exact congrArg (· + 1) (ih [])
    | cons v vs => exact congrArg (· + 1) (ih vs)

theorem given_getElem? (keyword : Bytes → Option Value) (args : List Value) (i : Nat) :
    (given keyword ps args)[i]? = (ps[i]?).map fun p => args[i]? <|> keyword p.1.name := by
  induction ps generalizing args i with
  | nil => rfl
  | cons p ps ih =>
    cases args with
    | nil =>
      cases i with
      | zero => simp [given]
      | succ i => simpa [given] using ih [] i
    | cons v vs =>
      cases i with
      | zero => simp [given]
      | succ i => simpa [given] using ih vs i

theorem fill_eq_some_iff {vs : List Value} (h : ps.length = gs.length) :
    fill literal ps gs = some vs ↔ List.zipWith (fun p g => g <|> p.2.map literal) ps gs = vs.map some := by
  induction ps generalizing gs vs with
  | nil =>
    cases gs with
    | nil => cases vs <;> simp [fill]
    | cons g gs => simp at h
  | cons p ps ih =>
    cases gs with
    | nil => simp at h
    | cons g gs =>
      have hlen : ps.length = gs.length := Nat.succ.inj h
      rw [List.zipWith_cons_cons]
      unfold fill
      cases hv : g <|> p.2.map literal with
      | none => cases vs <;> simp
      | some v =>
        cases vs with
        | nil => cases hfill : fill literal ps gs <;> simp
        | cons v' vs =>
          rw [List.map_cons, List.cons.injEq, ← ih hlen]
          cases hfill : fill literal ps gs <;> simp

theorem fill_cons_some {p : Formal × Option DefaultLiteral} {v : Value} :
    fill literal (p :: ps) (some v :: gs) = (fill literal ps gs).map (v :: ·) := by
  rw [fill]
  cases fill literal ps gs <;> rfl

theorem fill_cons_none {p : Formal × Option DefaultLiteral} :
    fill literal (p :: ps) (none :: gs) = (p.2.map literal).bind fun v => (fill literal ps gs).map (v :: ·) := by
  rw [fill]
  cases p.2 <;> cases fill literal ps gs <;> rfl

/-- Where there is nothing for a parameter the whole fails. -/
theorem fill_eq_none {i : Nat} {p : Formal × Option DefaultLiteral} (h : ps.length = gs.length)
    (hp : ps[i]? = some p) (hdefault : p.2 = none) (hg : gs[i]? = some none) : fill literal ps gs = none := by
  cases hfill : fill literal ps gs with
  | none => rfl
  | some vs =>
    have hzip := congrArg (·[i]?) ((fill_eq_some_iff h).mp hfill)
    simp only [List.getElem?_zipWith, hp, hg, hdefault, List.getElem?_map] at hzip
    cases hv : vs[i]? with
    | none => rw [hv] at hzip; cases hzip
    | some v => rw [hv] at hzip; cases hzip

theorem zipWith_given (keyword : Bytes → Option Value) (args : List Value) (i : Nat) :
    (List.zipWith (fun p g => g <|> p.2.map literal) ps (given keyword ps args))[i]? =
      (ps[i]?).map fun p => args[i]? <|> keyword p.1.name <|> p.2.map literal := by
  rw [List.getElem?_zipWith, given_getElem?]
  cases ps[i]? with
  | none => rfl
  | some p => cases args[i]? <;> rfl

theorem fill_given_eq_some_iff {keyword : Bytes → Option Value} {args vs : List Value} :
    fill literal ps (given keyword ps args) = some vs ↔ ∀ i : Nat,
      ((ps[i]?).map fun p => args[i]? <|> keyword p.1.name <|> p.2.map literal) = (vs[i]?).map some := by
  rw [fill_eq_some_iff (given_length keyword args).symm]
  constructor
  · intro h i
    rw [← zipWith_given, h, List.getElem?_map]
  · intro h
    refine List.ext_getElem? fun i => ?_
    rw [zipWith_given, h, List.getElem?_map]

/-- As many arguments by position as there are ordinary parameters, or more. -/
theorem fill_of_le {keyword : Bytes → Option Value} {args : List Value} (h : ps.length ≤ args.length) :
    fill literal ps (given keyword ps args) = some (args.take ps.length) := by
  refine fill_given_eq_some_iff.mpr fun i => ?_
  rcases Nat.lt_or_ge i ps.length with hi | hi
  · rw [List.getElem?_eq_getElem hi, List.getElem?_take_of_lt hi, List.getElem?_eq_getElem (by omega)]
    rfl
  · have htake : (args.take ps.length)[i]? = none := List.getElem?_eq_none (by rw [List.length_take]; omega)
    rw [List.getElem?_eq_none hi, htake]
    rfl

/-- Arguments by position only, with the defaults behind them. -/
theorem fill_positional {args : List Value} (hle : s.required.length ≤ args.length)
    (hlt : args.length ≤ s.ordinary.length) :
    fill literal s.ordinary (given (fun _ => none) s.ordinary args) =
      some (args ++ (s.optional.map fun o => literal o.2).drop (args.length - s.required.length)) := by
  refine fill_given_eq_some_iff.mpr fun i => ?_
  rcases Nat.lt_or_ge i args.length with hi | hi
  · rw [List.getElem?_append_left hi, List.getElem?_eq_getElem hi, List.getElem?_eq_getElem (by omega)]
    rfl
  · rw [List.getElem?_append_right hi, List.getElem?_drop, List.getElem?_eq_none hi,
      ordinary_of_le (by omega), List.getElem?_map, Option.map_map,
      show args.length - s.required.length + (i - args.length) = i - s.required.length by omega]
    cases s.optional[i - s.required.length]? <;> rfl

theorem fill_missing {args : List Value} (hlt : args.length < s.required.length) :
    fill literal s.ordinary (given (fun _ => none) s.ordinary args) = none := by
  have hi : args.length < s.ordinary.length := by
    rw [ordinary_length]
    omega
  obtain ⟨p, hp⟩ : ∃ p, s.ordinary[args.length]? = some p := ⟨_, List.getElem?_eq_getElem hi⟩
  refine fill_eq_none (given_length _ _).symm hp (ordinary_of_lt hlt hp) ?_
  rw [given_getElem?, hp, List.getElem?_eq_none (le_refl _)]
  rfl

/-- The literals that are no booleans are put down as what they stand for. -/
theorem literalValue_eq_iff {l : DefaultLiteral} :
    literalValue l = Compile.defaultValue l ↔ l ≠ .true ∧ l ≠ .false := by
  cases l <;> simp [literalValue, Compile.defaultValue]

section Positional

variable {C : Conversions}

theorem call_eq (hf : s.Declares f) (args : List Value) : (Binding.call C f args).toOption =
    if args.length < s.ordinary.length ∧ s.variadic.isSome then none
    else if s.ordinary.length < args.length ∧ s.variadic.isNone then none
    else (fill Compile.defaultValue s.ordinary (given (fun _ => none) s.ordinary args)).bind fun vs =>
      (Binding.finishClosureCall C f (vs.map .value ++
        s.tableSlot (Binding.collect initTable 0 (args.drop s.ordinary.length)))).toOption := by
  have harity := hf.arity
  have hordinary := s.ordinary_length
  unfold Binding.call tableSlot
  rw [hf.isVariadic]
  cases hv : s.variadic with
  | some p =>
    rw [hv, Option.toList_some, List.length_singleton] at harity
    have hn : f.arity - 1 = s.ordinary.length := by omega
    rw [if_pos Option.isSome_some, hn]
    by_cases hlt : args.length < s.ordinary.length
    · rw [if_pos hlt, if_pos ⟨hlt, rfl⟩]
      rfl
    · rw [if_neg hlt, if_neg (fun h => hlt h.1), if_neg (fun h => Bool.noConfusion h.2),
        fill_of_le (Nat.le_of_not_lt hlt)]
      rfl
  | none =>
    rw [hv, Option.toList_none, List.length_nil, Nat.add_zero] at harity
    have hroom : ¬(args.length < s.ordinary.length ∧ (none : Option Formal).isSome = true) :=
      fun h => Bool.noConfusion h.2
    rw [if_neg (by decide), if_neg hroom, harity, hf.defaults]
    by_cases hmany : s.ordinary.length < args.length
    · rw [if_pos hmany, if_pos ⟨hmany, rfl⟩]
      rfl
    have hmany' : ¬(s.ordinary.length < args.length ∧ (none : Option Formal).isNone = true) := fun h => hmany h.1
    rw [if_neg hmany, if_neg hmany', Option.toList_none, List.map_nil]
    by_cases hfew : args.length < s.ordinary.length
    · rw [if_pos hfew]
      by_cases hnone : s.optional.map (fun o => Compile.defaultValue o.2) = []
      · have hlen := congrArg List.length hnone
        rw [List.length_map, List.length_nil] at hlen
        rw [if_pos hnone, fill_missing (by omega)]
        rfl
      · rw [if_neg hnone, List.length_map, show s.ordinary.length - s.optional.length = s.required.length by omega]
        by_cases hstart : args.length < s.required.length
        · rw [if_pos hstart, fill_missing hstart]
          rfl
        · rw [if_neg hstart, fill_positional (Nat.le_of_not_lt hstart) (by omega), Option.bind_some, List.append_nil]
    · have hlen : s.ordinary.length = args.length := by omega
      rw [if_neg hfew, fill_of_le (by omega), Option.bind_some, List.append_nil, hlen, List.take_length]

end Positional

section Named

variable {C : Conversions} {hash : Bytes → UInt32}

theorem names_nodup (s : Signature) : (s.ordinary.map (·.1.name) ++ s.variadic.toList.map Formal.name).Nodup := by
  have h := s.distinct
  have hnames : s.ordinary.map (·.1.name) = s.required.map Formal.name ++ s.optional.map fun o => o.1.name := by
    simp [ordinary, Function.comp_def]
  rwa [hnames]

theorem Declares.nonVariadicArity (hf : s.Declares f) : Binding.nonVariadicArity f = s.ordinary.length := by
  have harity := hf.arity
  unfold Binding.nonVariadicArity
  rw [hf.isVariadic]
  cases hv : s.variadic with
  | none =>
    rw [hv] at harity
    exact harity
  | some p =>
    rw [hv, Option.toList_some, List.length_singleton] at harity
    rw [if_pos Option.isSome_some]
    omega

theorem Declares.findNamedParamIndex_eq (hf : s.Declares f) (key : Bytes) :
    Binding.findNamedParamIndex f key = s.ordinary.findIdx? fun p => decide (p.1.name = key) := by
  unfold Binding.findNamedParamIndex
  rw [hf.nonVariadicArity, hf.paramNames, List.take_left' (List.length_map ..), List.findIdx?_map]
  rfl

theorem index_unique {i j : Nat} {p q : Formal × Option DefaultLiteral} (hp : s.ordinary[i]? = some p)
    (hq : s.ordinary[j]? = some q) (h : p.1.name = q.1.name) : i = j := by
  obtain ⟨hi, rfl⟩ := List.getElem?_eq_some_iff.mp hp
  obtain ⟨hj, rfl⟩ := List.getElem?_eq_some_iff.mp hq
  have hinj := @List.Nodup.getElem_inj_iff _ _ s.names_nodup.of_append_left i (by simpa using hi) j (by simpa using hj)
  rw [List.getElem_map, List.getElem_map] at hinj
  exact hinj.mp h

theorem find_ordinary (hf : s.Declares f) {i : Nat} {p : Formal × Option DefaultLiteral}
    (hp : s.ordinary[i]? = some p) : Binding.findNamedParamIndex f p.1.name = some i := by
  obtain ⟨hi, rfl⟩ := List.getElem?_eq_some_iff.mp hp
  rw [hf.findNamedParamIndex_eq, List.findIdx?_eq_some_iff_getElem]
  refine ⟨hi, decide_eq_true rfl, fun j hj => ?_⟩
  have hne : s.ordinary[j].1.name ≠ s.ordinary[i].1.name := fun h =>
    absurd (index_unique (List.getElem?_eq_getElem (by omega)) hp h) (by omega)
  simpa using hne

theorem find_variadic (hf : s.Declares f) {p : Formal} (hp : s.variadic = some p) :
    Binding.findNamedParamIndex f p.name = none := by
  rw [hf.findNamedParamIndex_eq, List.findIdx?_eq_none_iff]
  intro q hq
  have hdisjoint := (List.nodup_append.mp s.names_nodup).2.2
  rw [hp] at hdisjoint
  exact decide_eq_false (hdisjoint _ (List.mem_map.mpr ⟨q, hq, rfl⟩) _ (by simp))

theorem toOption_map {ε α β : Type} (g : α → β) (r : Except ε α) : (r.map g).toOption = r.toOption.map g := by
  cases r <;> rfl

theorem fillDefaults_eq (hf : s.Declares f) {i : Nat} {gs : List (Option Value)}
    (hlen : i + gs.length = s.ordinary.length) :
    (Binding.fillDefaults f i (gs.map (Option.map .value))).toOption =
      (fill Compile.defaultValue (s.ordinary.drop i) gs).map (List.map .value) := by
  induction gs generalizing i with
  | nil =>
    have hdrop : s.ordinary.drop i = [] := List.drop_eq_nil_of_le (by simpa using hlen.ge)
    rw [hdrop]
    rfl
  | cons g gs ih =>
    have hi : i < s.ordinary.length := by
      rw [List.length_cons] at hlen
      omega
    have hrest := @ih (i + 1) (by rw [List.length_cons] at hlen; omega)
    have hstart : Binding.nonVariadicArity f - f.defaults.length = s.required.length := by
      have hordinary := s.ordinary_length
      rw [hf.nonVariadicArity, hf.defaults, List.length_map]
      omega
    obtain ⟨p, hp⟩ : ∃ p, s.ordinary[i]? = some p := ⟨_, List.getElem?_eq_getElem hi⟩
    have hdrop : s.ordinary.drop i = p :: s.ordinary.drop (i + 1) := by
      rw [List.drop_eq_getElem_cons hi, Option.some.inj ((List.getElem?_eq_getElem hi).symm.trans hp)]
    rw [hdrop, List.map_cons]
    cases g with
    | some v =>
      rw [Option.map_some, Binding.fillDefaults, fill_cons_some, toOption_map, hrest, Option.map_map, Option.map_map]
      rfl
    | none =>
      rw [Option.map_none, Binding.fillDefaults, fill_cons_none, hstart]
      rcases Nat.lt_or_ge i s.required.length with hlt | hge
      · rw [if_neg (by omega), ordinary_of_lt hlt hp]
        rfl
      · rw [if_pos hge, hf.defaults]
        rw [ordinary_of_le hge] at hp
        obtain ⟨o, ho, rfl⟩ := Option.map_eq_some_iff.mp hp
        have hvalue : (s.optional.map fun o => Compile.defaultValue o.2).getD (i - s.required.length) .nil =
            Compile.defaultValue o.2 := by
          rw [List.getD_eq_getElem?_getD, List.getElem?_map, ho]
          rfl
        rw [hvalue, toOption_map, hrest, Option.map_some, Option.bind_some, Option.map_map, Option.map_map]
        rfl

/-- The value of the entry of a key. -/
def entryValue (es : List Entry) (key : Bytes) : Option Value :=
  (es.find? fun e => decide (e.key = some key)).map Entry.value

theorem entryValue_cons {e : Entry} {es : List Entry} (key : Bytes) :
    entryValue (e :: es) key = if e.key = some key then some e.value else entryValue es key := by
  unfold entryValue
  rw [List.find?_cons]
  by_cases h : e.key = some key
  · rw [if_pos h, decide_eq_true h]
    rfl
  · rw [if_neg h, decide_eq_false h]

/-- No two entries have one key. -/
def KeysApart (es : List Entry) : Prop := es.Pairwise fun a b => ∀ key, a.key = some key → b.key ≠ some key

theorem entryValue_of_apart {e : Entry} {es : List Entry} {key : Bytes} (h : KeysApart (e :: es))
    (he : e.key = some key) : entryValue es key = none := by
  unfold entryValue
  rw [List.find?_eq_none.mpr fun b hb => by simpa using (List.pairwise_cons.mp h).1 b hb key he]
  rfl

/-- A parameter that an entry names although it is bound already. -/
def Clash (s : Signature) (es : List Entry) (bound : List (Option Bound)) : Prop :=
  ∃ (i : Nat) (p : Formal × Option DefaultLiteral), s.ordinary[i]? = some p ∧ (bound.getD i none).isSome ∧
    (entryValue es p.1.name).isSome

/-- What the parameters have after the entries. -/
def merge (s : Signature) (es : List Entry) (bound : List (Option Bound)) : List (Option Bound) :=
  List.zipWith (fun p b => b <|> (entryValue es p.1.name).map .value) s.ordinary bound

theorem merge_getElem? {es : List Entry} {bound : List (Option Bound)} (i : Nat) :
    (s.merge es bound)[i]? = (s.ordinary[i]?).bind fun p =>
      (bound[i]?).map fun b => b <|> (entryValue es p.1.name).map .value := by
  unfold merge
  rw [List.getElem?_zipWith]
  cases s.ordinary[i]? <;> cases bound[i]? <;> rfl

theorem clash_congr {es es' : List Entry} {bound bound' : List (Option Bound)}
    (h : ∀ (i : Nat) (p : Formal × Option DefaultLiteral), s.ordinary[i]? = some p →
      ((bound.getD i none).isSome ∧ (entryValue es p.1.name).isSome ↔
        (bound'.getD i none).isSome ∧ (entryValue es' p.1.name).isSome)) :
    s.Clash es bound ↔ s.Clash es' bound' := by
  constructor
  · intro ⟨i, p, hp, hclash⟩
    exact ⟨i, p, hp, (h i p hp).mp hclash⟩
  · intro ⟨i, p, hp, hclash⟩
    exact ⟨i, p, hp, (h i p hp).mpr hclash⟩

theorem merge_congr {es es' : List Entry} {bound bound' : List (Option Bound)} (hlen : bound.length = bound'.length)
    (h : ∀ (i : Nat) (p : Formal × Option DefaultLiteral), s.ordinary[i]? = some p →
      (bound.getD i none <|> (entryValue es p.1.name).map Bound.value) =
        (bound'.getD i none <|> (entryValue es' p.1.name).map Bound.value)) :
    s.merge es bound = s.merge es' bound' := by
  refine List.ext_getElem? fun i => ?_
  rw [merge_getElem?, merge_getElem?]
  cases hp : s.ordinary[i]? with
  | none => rfl
  | some p =>
    have hi := h i p hp
    rw [List.getD_eq_getElem?_getD, List.getD_eq_getElem?_getD] at hi
    rcases Nat.lt_or_ge i bound.length with hlt | hge
    · rw [List.getElem?_eq_getElem hlt, List.getElem?_eq_getElem (hlen ▸ hlt)] at hi ⊢
      exact congrArg some hi
    · rw [List.getElem?_eq_none hge, List.getElem?_eq_none (hlen ▸ hge)]
      rfl

/-- One entry that names an ordinary parameter that is still free. -/
theorem bind_ordinary {e : Entry} {es : List Entry} {bound : List (Option Bound)} {i : Nat}
    {p : Formal × Option DefaultLiteral} (hp : s.ordinary[i]? = some p) (he : e.key = some p.1.name)
    (hnone : entryValue es p.1.name = none) (hfree : bound.getD i none = none) (hlen : bound.length = s.ordinary.length) :
    (s.Clash es (bound.set i (some (.value e.value))) ↔ s.Clash (e :: es) bound) ∧
      s.merge es (bound.set i (some (.value e.value))) = s.merge (e :: es) bound := by
  have hi : i < bound.length := by
    rw [hlen]
    exact (List.getElem?_eq_some_iff.mp hp).1
  have hset : ∀ j, (bound.set i (some (.value e.value))).getD j none =
      if i = j then some (.value e.value) else bound.getD j none := by
    intro j
    rw [List.getD_eq_getElem?_getD, List.getElem?_set, List.getD_eq_getElem?_getD]
    by_cases hij : i = j
    · rw [if_pos hij, if_pos hi, if_pos hij]
      rfl
    · rw [if_neg hij, if_neg hij]
  have hother : ∀ (j : Nat) (q : Formal × Option DefaultLiteral), s.ordinary[j]? = some q → i ≠ j →
      entryValue (e :: es) q.1.name = entryValue es q.1.name := by
    intro j q hq hij
    rw [entryValue_cons, if_neg]
    intro h
    exact hij (index_unique hp hq (Option.some.inj (he.symm.trans h)))
  constructor
  · refine clash_congr fun j q hq => ?_
    rw [hset]
    by_cases hij : i = j
    · obtain rfl := hij
      obtain rfl := Option.some.inj (hp.symm.trans hq)
      rw [if_pos rfl, hnone, hfree]
      simp
    · rw [if_neg hij, hother j q hq hij]
  · refine merge_congr (List.length_set ..) fun j q hq => ?_
    rw [hset]
    by_cases hij : i = j
    · obtain rfl := hij
      obtain rfl := Option.some.inj (hp.symm.trans hq)
      rw [if_pos rfl, hnone, hfree, entryValue_cons, if_pos he]
      rfl
    · rw [if_neg hij, hother j q hq hij]

/-- One entry that names no ordinary parameter, or no parameter at all. -/
theorem bind_other {e : Entry} {es : List Entry} {bound : List (Option Bound)}
    (h : ∀ p ∈ s.ordinary, e.key ≠ some p.1.name) :
    (s.Clash es bound ↔ s.Clash (e :: es) bound) ∧ s.merge es bound = s.merge (e :: es) bound := by
  have hother : ∀ (j : Nat) (q : Formal × Option DefaultLiteral), s.ordinary[j]? = some q →
      entryValue (e :: es) q.1.name = entryValue es q.1.name := by
    intro j q hq
    rw [entryValue_cons, if_neg (h q (List.mem_of_getElem? hq))]
  constructor
  · refine clash_congr fun j q hq => ?_
    rw [hother j q hq]
  · refine merge_congr rfl fun j q hq => ?_
    rw [hother j q hq]

/-- The loop ends with the error that a parameter is bound twice, or with every parameter bound that
an entry names; `varargs` is as it was unless an entry has the name of its parameter. -/
theorem bindEntries_spec (hf : s.Declares f) {es : List Entry} {st : Binding.NamedArgs} {m : Bytes → Option Value}
    (happart : KeysApart es) (hnames : ∀ e ∈ es, ∀ key, e.key = some key →
      (∃ p ∈ s.ordinary, p.1.name = key) ∨ ∃ p, s.variadic = some p ∧ p.name = key)
    (hlen : st.bound.length = s.ordinary.length) (hlegacy : st.legacy = none) (hvarargs : st.varargs.Represents hash m) :
    ∃ r, Binding.bindEntries hash f es st = some r ∧ (∀ message, r = .error message → s.Clash es st.bound) ∧
      ∀ st', r = .ok st' → ¬s.Clash es st.bound ∧ st'.legacy = none ∧ st'.bound = s.merge es st.bound ∧
        ((∀ p, s.variadic = some p → entryValue es p.name = none) → st'.varargs = st.varargs) := by
  induction es generalizing st m with
  | nil =>
    refine ⟨.ok st, rfl, fun message h => (by cases h), fun st' h => ?_⟩
    obtain rfl := Except.ok.inj h
    refine ⟨fun ⟨i, p, _, _, h⟩ => Bool.noConfusion h, hlegacy, List.ext_getElem? fun i => ?_, fun _ => rfl⟩
    rw [merge_getElem?]
    rcases Nat.lt_or_ge i st.bound.length with hi | hi
    · rw [List.getElem?_eq_getElem hi, List.getElem?_eq_getElem (show i < s.ordinary.length by omega)]
      change some _ = some (st.bound[i] <|> none)
      cases st.bound[i] <;> rfl
    · rw [List.getElem?_eq_none hi, List.getElem?_eq_none (show s.ordinary.length ≤ i by omega)]
      rfl
  | cons e es ih =>
    have hrest : KeysApart es := (List.pairwise_cons.mp happart).2
    have hnames' : ∀ e ∈ es, ∀ key, e.key = some key →
        (∃ p ∈ s.ordinary, p.1.name = key) ∨ ∃ p, s.variadic = some p ∧ p.name = key :=
      fun b hb => hnames b (List.mem_cons_of_mem _ hb)
    cases hkey : e.key with
    | none =>
      have hother : ∀ p ∈ s.ordinary, e.key ≠ some p.1.name := fun p _ h => by
        rw [hkey] at h
        cases h
      obtain ⟨hclash, hmerge⟩ := @bind_other s e es st.bound hother
      obtain ⟨r, hr, herror, hok⟩ := ih hrest hnames' hlen hlegacy hvarargs
      refine ⟨r, ?_, fun message h => hclash.mp (herror message h), fun st' h => ?_⟩
      · rw [Binding.bindEntries, hkey]
        exact hr
      · obtain ⟨hno, hlegacy', hbound, hsame⟩ := hok st' h
        refine ⟨fun h => hno (hclash.mpr h), hlegacy', hbound.trans hmerge, fun hrest => hsame fun p hp => ?_⟩
        have hnone := hrest p hp
        rwa [entryValue_cons, hkey, if_neg (by simp)] at hnone
    | some key =>
      rcases hnames e List.mem_cons_self key hkey with ⟨p, hp, rfl⟩ | ⟨p, hp, rfl⟩
      · obtain ⟨i, hi⟩ := List.mem_iff_getElem?.mp hp
        have hfind := find_ordinary hf hi
        by_cases hassigned : (st.bound.getD i none).isSome = true
        · refine ⟨.error (ascii "Multiple values for argument '" ++ p.1.name ++ ascii "'."), ?_, fun message _ => ?_,
            fun st' h => by cases h⟩
          · rw [Binding.bindEntries, hkey]
            dsimp only
            rw [Binding.bindEntry, hfind]
            dsimp only
            rw [if_pos hassigned]
            rfl
          · refine ⟨i, p, hi, hassigned, ?_⟩
            rw [entryValue_cons, if_pos hkey]
            rfl
        · have hfree : st.bound.getD i none = none := Option.not_isSome_iff_eq_none.mp hassigned
          obtain ⟨hclash, hmerge⟩ := bind_ordinary hi hkey (entryValue_of_apart happart hkey) hfree hlen
          obtain ⟨r, hr, herror, hok⟩ := @ih { st with bound := st.bound.set i (some (.value e.value)) } m hrest hnames'
            (by rw [List.length_set, hlen]) hlegacy hvarargs
          refine ⟨r, ?_, fun message h => hclash.mp (herror message h), fun st' h => ?_⟩
          · rw [Binding.bindEntries, hkey]
            dsimp only
            rw [Binding.bindEntry, hfind]
            dsimp only
            rw [if_neg hassigned]
            exact hr
          · obtain ⟨hno, hlegacy', hbound, hsame⟩ := hok st' h
            refine ⟨fun h => hno (hclash.mpr h), hlegacy', hbound.trans hmerge, fun hrest => hsame fun q hq => ?_⟩
            have hnone := hrest q hq
            rw [entryValue_cons] at hnone
            split at hnone
            · cases hnone
            · exact hnone
      · have hother : ∀ q ∈ s.ordinary, e.key ≠ some q.1.name := by
          intro q hq h
          obtain ⟨j, hj⟩ := List.mem_iff_getElem?.mp hq
          have hfind := find_ordinary hf hj
          rw [← Option.some.inj (hkey.symm.trans h), find_variadic hf hp] at hfind
          cases hfind
        obtain ⟨hclash, hmerge⟩ := @bind_other s e es st.bound hother
        obtain ⟨t, ht, hr, -⟩ := tableSet_spec hvarargs p.name e.value
        obtain ⟨r, hr, herror, hok⟩ := @ih { st with varargs := t } _ hrest hnames' hlen hlegacy hr
        refine ⟨r, ?_, fun message h => hclash.mp (herror message h), fun st' h => ?_⟩
        · rw [Binding.bindEntries, hkey]
          dsimp only
          rw [Binding.bindEntry, find_variadic hf hp, hf.isVariadic, hp]
          dsimp only
          rw [if_pos Option.isSome_some, ht]
          exact hr
        · obtain ⟨hno, hlegacy', hbound, -⟩ := hok st' h
          refine ⟨fun h => hno (hclash.mpr h), hlegacy', hbound.trans hmerge, fun hrest => ?_⟩
          have hnone := hrest p hp
          rw [entryValue_cons, if_pos hkey] at hnone
          cases hnone

theorem slot_of_key {e : Entry} {key : Bytes} (h : e.key = some key) : e.slot = .used key e.value := by
  unfold Entry.slot
  rw [h]

theorem represents_apart {t : Table} {m : Bytes → Option Value} (h : t.Represents hash m) : KeysApart t.entries := by
  refine List.pairwise_iff_getElem.mpr fun i j hi hj hlt key hkey hkey' => ?_
  have hunique := h.valid.unique i j key t.entries[i].value t.entries[j].value
    (by rw [slots_getElem?, List.getElem?_eq_getElem hi, Option.map_some, slot_of_key hkey])
    (by rw [slots_getElem?, List.getElem?_eq_getElem hj, Option.map_some, slot_of_key hkey'])
  omega

theorem entryValue_eq {t : Table} {m : Bytes → Option Value} (h : t.Represents hash m) (key : Bytes) :
    entryValue t.entries key = m key := by
  have hholds := holds_iff_mem.mp h.holds
  unfold entryValue
  cases hfind : t.entries.find? fun e => decide (e.key = some key) with
  | none =>
    cases hm : m key with
    | none => rfl
    | some v =>
      obtain ⟨e, he, hslot⟩ := List.mem_map.mp ((hholds key v).mp hm)
      have hkey := List.find?_eq_none.mp hfind e he
      rw [Entry.slot_eq_used hslot] at hkey
      exact absurd (decide_eq_true rfl) hkey
  | some e =>
    have hfound := List.find?_some hfind
    have hkey := of_decide_eq_true hfound
    refine ((hholds key e.value).mpr (List.mem_map.mpr ⟨e, List.mem_of_find?_eq_some hfind, ?_⟩)).symm
    exact slot_of_key hkey

/-- Filling the array part leaves the hash part. -/
theorem collect_represents {t : Table} {m : Bytes → Option Value} (h : t.Represents hash m) (pos : Nat)
    (vs : List Value) : (Binding.collect t pos vs).Represents hash m := by
  induction vs generalizing t pos with
  | nil => exact h
  | cons v vs ih =>
    refine ih ?_ (pos + 1)
    unfold tableSetArray
    dsimp only
    split
    · exact h
    · split
      · exact h
      · exact ⟨h.valid, h.holds, h.count, h.load⟩

theorem mem_names {key : Bytes} (h : key ∈ s.names) :
    (∃ p ∈ s.ordinary, p.1.name = key) ∨ ∃ p, s.variadic = some p ∧ p.name = key := by
  unfold names params at h
  rw [List.map_append, List.mem_append, List.map_map, List.map_map] at h
  rcases h with h | h
  · obtain ⟨p, hp, rfl⟩ := List.mem_map.mp h
    exact .inl ⟨p, hp, rfl⟩
  · obtain ⟨p, hp, rfl⟩ := List.mem_map.mp h
    exact .inr ⟨p, Option.mem_toList.mp hp, rfl⟩

/-- `bound_args` before the named arguments. -/
def firstBound (s : Signature) (args : List Value) : List (Option Bound) :=
  (args.take s.ordinary.length).map (fun v => some (.value v)) ++ List.replicate (s.ordinary.length - args.length) none

theorem firstBound_length (args : List Value) : (s.firstBound args).length = s.ordinary.length := by
  unfold firstBound
  rw [List.length_append, List.length_map, List.length_take, List.length_replicate]
  omega

theorem firstBound_getElem? {args : List Value} {i : Nat} (hi : i < s.ordinary.length) :
    (s.firstBound args)[i]? = some ((args[i]?).map .value) := by
  unfold firstBound
  rcases Nat.lt_or_ge i args.length with hlt | hge
  · rw [List.getElem?_append_left (by rw [List.length_map, List.length_take]; omega), List.getElem?_map,
      List.getElem?_take_of_lt hi, List.getElem?_eq_getElem hlt]
    rfl
  · rw [List.getElem?_append_right (by rw [List.length_map, List.length_take]; omega), List.getElem?_replicate,
      List.length_map, List.length_take, if_pos (by omega), List.getElem?_eq_none hge]
    rfl

theorem clash_firstBound {t : Table} {keyword : Bytes → Option Value} (h : t.Represents hash keyword)
    (args : List Value) : s.Clash t.entries (s.firstBound args) ↔
      ∃ p ∈ s.ordinary.take args.length, (keyword p.1.name).isSome := by
  constructor
  · intro ⟨i, p, hp, hbound, hvalue⟩
    rw [entryValue_eq h] at hvalue
    have hi := (List.getElem?_eq_some_iff.mp hp).1
    rw [List.getD_eq_getElem?_getD, firstBound_getElem? hi] at hbound
    have hlt : i < args.length := by
      by_contra hge
      rw [List.getElem?_eq_none (by omega)] at hbound
      exact Bool.noConfusion hbound
    exact ⟨p, List.mem_iff_getElem?.mpr ⟨i, by rw [List.getElem?_take_of_lt hlt, hp]⟩, hvalue⟩
  · intro ⟨p, hp, hvalue⟩
    obtain ⟨i, hi⟩ := List.mem_iff_getElem?.mp hp
    have hlt : i < args.length := by
      have hi' := (List.getElem?_eq_some_iff.mp hi).1
      rw [List.length_take] at hi'
      omega
    rw [List.getElem?_take_of_lt hlt] at hi
    refine ⟨i, p, hi, ?_, by rwa [entryValue_eq h]⟩
    rw [List.getD_eq_getElem?_getD, firstBound_getElem? (List.getElem?_eq_some_iff.mp hi).1,
      List.getElem?_eq_getElem hlt]
    rfl

theorem merge_firstBound {t : Table} {keyword : Bytes → Option Value} (h : t.Represents hash keyword)
    (args : List Value) : s.merge t.entries (s.firstBound args) =
      (given keyword s.ordinary args).map (Option.map .value) := by
  refine List.ext_getElem? fun i => ?_
  rw [merge_getElem?, List.getElem?_map, given_getElem?]
  cases hp : s.ordinary[i]? with
  | none => rfl
  | some p =>
    rw [Option.bind_some, firstBound_getElem? (List.getElem?_eq_some_iff.mp hp).1, entryValue_eq h]
    cases args[i]? <;> rfl

theorem callNamed_of_entries (hf : s.Declares f) {t : Table} {args : List Value}
    (hroom : ¬(s.ordinary.length < args.length ∧ s.variadic = none)) {r : Except Bytes Binding.NamedArgs}
    (hr : Binding.bindEntries hash f t.entries
      ⟨s.firstBound args, Binding.collect initTable 0 (args.drop s.ordinary.length), none⟩ = some r) :
    Binding.callNamed C hash f args t = some (do
      let st ← r
      let bound ← Binding.bindOptions f st
      let slots ← Binding.fillDefaults f 0 bound
      Binding.finishClosureCall C f (slots ++ if f.isVariadic then [.table st.varargs] else [])) := by
  have hroom' : ¬(s.ordinary.length < args.length ∧ f.isVariadic = false) := by
    rw [hf.isVariadic, ← Bool.not_eq_true, Option.not_isSome_iff_eq_none]
    exact hroom
  unfold Binding.callNamed
  dsimp only
  rw [hf.nonVariadicArity, if_neg hroom']
  change (Binding.bindEntries hash f t.entries
    ⟨s.firstBound args, Binding.collect initTable 0 (args.drop s.ordinary.length), none⟩).bind _ = _
  rw [hr]
  cases r <;> rfl

theorem callNamed_spec (hf : s.Declares f) {t : Table} {keyword : Bytes → Option Value} (h : t.Represents hash keyword)
    (hnames : ∀ key, keyword key ≠ none → key ∈ s.names) {args : List Value}
    (hroom : ¬(s.ordinary.length < args.length ∧ s.variadic = none)) :
    ∃ r varargs, Binding.callNamed C hash f args t = some r ∧
      ((∃ p ∈ s.ordinary.take args.length, (keyword p.1.name).isSome) → r.toOption = none) ∧
      ((¬∃ p ∈ s.ordinary.take args.length, (keyword p.1.name).isSome) → r.toOption =
        (fill Compile.defaultValue s.ordinary (given keyword s.ordinary args)).bind fun vs =>
          (Binding.finishClosureCall C f (vs.map .value ++ s.tableSlot varargs)).toOption) ∧
      ((∀ p, s.variadic = some p → keyword p.name = none) →
        varargs = Binding.collect initTable 0 (args.drop s.ordinary.length)) := by
  have hcollect : (Binding.collect initTable 0 (args.drop s.ordinary.length)).Represents hash fun _ => none :=
    collect_represents initTable_represents _ _
  have hentries : ∀ e ∈ t.entries, ∀ key, e.key = some key →
      (∃ p ∈ s.ordinary, p.1.name = key) ∨ ∃ p, s.variadic = some p ∧ p.name = key := by
    intro e he key hkey
    refine mem_names (hnames key ?_)
    rw [((holds_iff_mem.mp h.holds) key e.value).mpr (List.mem_map.mpr ⟨e, he, slot_of_key hkey⟩)]
    exact Option.some_ne_none _
  obtain ⟨r, hr, herror, hok⟩ := @bindEntries_spec s f hash hf _ ⟨s.firstBound args, _, none⟩ _ (represents_apart h)
    hentries (firstBound_length args) rfl hcollect
  have hcall := @callNamed_of_entries s f C hash hf t args hroom _ hr
  cases r with
  | error message =>
    refine ⟨.error message, _, hcall, fun _ => rfl, fun hno => ?_, fun _ => rfl⟩
    exact absurd ((clash_firstBound h args).mp (herror message rfl)) hno
  | ok st =>
    obtain ⟨hno, hlegacy, hbound, hvarargs⟩ := hok st rfl
    refine ⟨_, st.varargs, hcall, fun hclash => absurd ((clash_firstBound h args).mpr hclash) hno, fun _ => ?_,
      fun hrest => hvarargs fun p hp => (entryValue_eq h _).trans (hrest p hp)⟩
    have hslots : (if f.isVariadic then [Bound.table st.varargs] else []) = s.tableSlot st.varargs := by
      unfold tableSlot
      rw [hf.isVariadic]
      cases s.variadic <;> rfl
    have hfill := @fillDefaults_eq s f hf 0 (given keyword s.ordinary args) (by rw [given_length, Nat.zero_add])
    rw [List.drop_zero, ← merge_firstBound h, ← hbound] at hfill
    change ((Binding.bindOptions f st).bind fun bound => (Binding.fillDefaults f 0 bound).bind fun slots =>
      Binding.finishClosureCall C f (slots ++ if f.isVariadic then [.table st.varargs] else [])).toOption = _
    rw [hslots, Binding.bindOptions, hlegacy]
    change ((Binding.fillDefaults f 0 st.bound).bind fun slots =>
      Binding.finishClosureCall C f (slots ++ s.tableSlot st.varargs)).toOption = _
    cases hslots' : Binding.fillDefaults f 0 st.bound with
    | error message =>
      rw [hslots'] at hfill
      cases hvs : fill Compile.defaultValue s.ordinary (given keyword s.ordinary args) with
      | none => rfl
      | some vs =>
        rw [hvs] at hfill
        cases hfill
    | ok slots =>
      rw [hslots'] at hfill
      obtain ⟨vs, hvs, hmap⟩ := Option.map_eq_some_iff.mp hfill.symm
      rw [hvs, ← hmap]
      rfl

end Named

section Call

variable {C : Conversions} {hash : Bytes → UInt32} {c : Call}

/-- The types see no difference between one table and another. -/
theorem mismatch_tableSlot (types : List TypeHint) (bs : List Bound) (i : Nat) (t u : Table) :
    Binding.mismatch C types (bs ++ s.tableSlot t) i = Binding.mismatch C types (bs ++ s.tableSlot u) i := by
  induction bs generalizing types i with
  | nil =>
    unfold tableSlot
    cases s.variadic with
    | none => rfl
    | some p => cases types <;> rfl
  | cons b bs ih =>
    cases types with
    | nil => rfl
    | cons type types =>
      rw [List.cons_append, List.cons_append, Binding.mismatch, Binding.mismatch, ih types (i + 1)]

theorem finish_toOption (slots : List Bound) : (Binding.finishClosureCall C f slots).toOption =
    if Binding.mismatch C (f.paramTypes.take f.arity) slots 1 = none then some slots else none := by
  unfold Binding.finishClosureCall
  cases Binding.mismatch C (f.paramTypes.take f.arity) slots 1 <;> rfl

/-- What a call comes to. -/
def Comes (C : Conversions) (hash : Bytes → UInt32) (s : Signature) (c : Call) (f : ObjFunction)
    (r : Except Bytes (List Bound)) : Prop :=
  (s.Refused C hash c f → r.toOption = none) ∧
    (¬s.Refused C hash c f → ∃ vs varargs,
      fill Compile.defaultValue s.ordinary (given (c.keyword hash) s.ordinary c.args) = some vs ∧
      r.toOption = some (vs.map .value ++ s.tableSlot varargs) ∧
      (¬s.NamesRest hash c → varargs = Binding.collect initTable 0 (c.args.drop s.ordinary.length)))

theorem comes_of_refused {r : Except Bytes (List Bound)} (hr : r.toOption = none) (h : s.Refused C hash c f) :
    Comes C hash s c f r := ⟨fun _ => hr, fun hno => absurd h hno⟩

theorem comes_of_fill {r : Except Bytes (List Bound)} {varargs : Table}
    (hr : r.toOption = (fill Compile.defaultValue s.ordinary (given (c.keyword hash) s.ordinary c.args)).bind fun vs =>
      (Binding.finishClosureCall C f (vs.map .value ++ s.tableSlot varargs)).toOption)
    (hvarargs : ¬s.NamesRest hash c → varargs = Binding.collect initTable 0 (c.args.drop s.ordinary.length))
    (hshort : ¬s.Short c) (hcrowded : ¬c.Crowded) (hmany : ¬s.TooMany c) (hdoubled : ¬s.Doubled hash c) :
    Comes C hash s c f r := by
  have hiff : s.Refused C hash c f ↔ s.Mismatched C hash c f := by
    unfold Refused
    constructor
    · rintro (h | h | h | h | h)
      · exact absurd h hshort
      · exact absurd h hcrowded
      · exact absurd h hmany
      · exact absurd h hdoubled
      · exact h
    · intro h
      exact .inr (.inr (.inr (.inr h)))
  unfold Comes
  rw [hiff]
  unfold Mismatched
  cases hfill : fill Compile.defaultValue s.ordinary (given (c.keyword hash) s.ordinary c.args) with
  | none =>
    rw [hfill] at hr
    exact ⟨fun _ => hr, fun h => absurd (fun vs hvs => by cases hvs) h⟩
  | some vs =>
    rw [hfill, Option.bind_some, finish_toOption, mismatch_tableSlot _ _ _ _ initTable] at hr
    by_cases hmismatch : Binding.mismatch C (f.paramTypes.take f.arity) (vs.map .value ++ s.tableSlot initTable) 1 = none
    · rw [if_pos hmismatch] at hr
      exact ⟨fun h => absurd hmismatch (h vs rfl), fun _ => ⟨vs, varargs, rfl, hr, hvarargs⟩⟩
    · rw [if_neg hmismatch] at hr
      refine ⟨fun _ => hr, fun h => absurd (fun vs' hvs => ?_) h⟩
      obtain rfl := Option.some.inj hvs
      exact hmismatch

theorem foldl_update_of_ne {names : List (Bytes × Value)} {m : Bytes → Option Value} {key : Bytes}
    (h : key ∉ names.map Prod.fst) :
    names.foldl (fun (m : Bytes → Option Value) n => Function.update m n.1 (some n.2)) m key = m key := by
  induction names generalizing m with
  | nil => rfl
  | cons n names ih =>
    rw [List.map_cons, List.mem_cons, not_or] at h
    rw [List.foldl_cons, ih h.2, Function.update_of_ne h.1]

theorem namedTable_spec (names : List (Bytes × Value)) : ∃ t, Binding.namedTable hash names = some t ∧
    t.Represents hash (names.foldl (fun m n => Function.update m n.1 (some n.2)) fun _ => none) := by
  have hall : ∀ {t : Table} {m : Bytes → Option Value}, t.Represents hash m → ∃ u,
      names.foldlM (fun t n => (tableSet hash t n.1 n.2).map Prod.fst) t = some u ∧
        u.Represents hash (names.foldl (fun m n => Function.update m n.1 (some n.2)) m) := by
    induction names with
    | nil => exact fun ht => ⟨_, rfl, ht⟩
    | cons n names ih =>
      intro t m ht
      obtain ⟨u, hu, hrep, -⟩ := tableSet_spec ht n.1 n.2
      obtain ⟨w, hw, hrep'⟩ := ih hrep
      refine ⟨w, ?_, hrep'⟩
      rw [List.foldlM_cons, hu]
      exact hw
  exact hall initTable_represents

/-- A call that passes a table of named arguments. -/
theorem named_comes (hf : s.Declares f) {t : Table} (h : t.Represents hash (c.keyword hash))
    (hnames : ∀ key, c.keyword hash key ≠ none → key ∈ s.names) (htable : c.passesTable = true)
    (hlen : c.args.length < 255) :
    ∃ r, Binding.callNamed C hash f c.args t = some r ∧ Comes C hash s c f r := by
  by_cases hroom : s.ordinary.length < c.args.length ∧ s.variadic = none
  · have hvariadic : f.isVariadic = false := by
      rw [hf.isVariadic, hroom.2]
      rfl
    refine ⟨.error (ascii s!"Expected {f.arity} arguments but got {c.args.length}."), ?_,
      comes_of_refused rfl (.inr (.inr (.inl (.inr hroom))))⟩
    unfold Binding.callNamed
    dsimp only
    rw [hf.nonVariadicArity, if_pos ⟨hroom.1, hvariadic⟩]
  · obtain ⟨r, varargs, hr, hclash, hfill, hvarargs⟩ := @callNamed_spec s f C hash hf t _ h hnames c.args hroom
    refine ⟨r, hr, ?_⟩
    by_cases hdoubled : s.Doubled hash c
    · exact comes_of_refused (hclash hdoubled) (.inr (.inr (.inr (.inl hdoubled))))
    · refine comes_of_fill (hfill hdoubled) (fun hrest => hvarargs fun p hp => ?_) ?_ ?_ ?_ hdoubled
      · by_contra hne
        exact hrest ⟨p, hp, Option.isSome_iff_ne_none.mpr hne⟩
      · intro hshort
        rw [hshort.1] at htable
        exact Bool.noConfusion htable
      · intro hcrowded
        have := hcrowded.2
        omega
      · rintro (hmany | hmany)
        · omega
        · exact hroom hmany

/-- A call without a table of named arguments. -/
theorem positional_comes (hf : s.Declares f) (hkeyword : c.keyword hash = fun _ => none)
    (htable : c.passesTable = false) (hlen : c.args.length ≤ 255) :
    Comes C hash s c f (Binding.call C f c.args) := by
  have hcall := @call_eq s f C hf c.args
  by_cases hshort : c.args.length < s.ordinary.length ∧ s.variadic.isSome
  · rw [if_pos hshort] at hcall
    exact comes_of_refused hcall (.inl ⟨htable, hshort.2, hshort.1⟩)
  rw [if_neg hshort] at hcall
  by_cases hmany : s.ordinary.length < c.args.length ∧ s.variadic.isNone
  · rw [if_pos hmany] at hcall
    exact comes_of_refused hcall (.inr (.inr (.inl (.inr ⟨hmany.1, Option.isNone_iff_eq_none.mp hmany.2⟩))))
  rw [if_neg hmany, ← hkeyword] at hcall
  refine comes_of_fill hcall (fun _ => rfl) (fun h => hshort ⟨h.2.2, h.2.1⟩) ?_ ?_ ?_
  · intro hcrowded
    rw [hcrowded.1] at htable
    exact Bool.noConfusion htable
  · rintro (h | h)
    · omega
    · exact hmany ⟨h.1, Option.isNone_iff_eq_none.mpr h.2⟩
  · intro ⟨p, _, hp⟩
    rw [hkeyword] at hp
    exact Bool.noConfusion hp

theorem bind_spec (hf : s.Declares f) (hc : c.Proper hash s) :
    ∃ r, Binding.bind C hash f c = some r ∧ Comes C hash s c f r := by
  by_cases hmany : 255 < c.args.length
  · refine ⟨Binding.tooManyArguments, ?_, comes_of_refused rfl (.inr (.inr (.inl (.inl hmany))))⟩
    cases c with
    | positional args => exact if_pos hmany
    | named args names => exact if_pos (Nat.lt_succ_of_lt hmany)
    | spread args t => exact if_pos hmany
  cases c with
  | positional args =>
    refine ⟨Binding.call C f args, if_neg hmany, positional_comes hf rfl rfl (Nat.le_of_not_lt hmany)⟩
  | named args names =>
    by_cases hcrowded : args.length = 255
    · exact ⟨Binding.tooManyArguments, if_pos (by omega), comes_of_refused rfl (.inr (.inl ⟨rfl, hcrowded⟩))⟩
    · obtain ⟨t, ht, hrep⟩ := @namedTable_spec hash names
      have hlen : args.length < 255 := Nat.lt_of_le_of_ne (Nat.le_of_not_lt hmany) hcrowded
      have hnames : ∀ key, (Call.named args names).keyword hash key ≠ none → key ∈ s.names := by
        intro key hkey
        by_contra hno
        refine hkey (foldl_update_of_ne fun hmem => ?_)
        obtain ⟨n, hn, rfl⟩ := List.mem_map.mp hmem
        exact hno (hc n hn)
      obtain ⟨r, hr, hcomes⟩ := @named_comes s f C hash (.named args names) hf t hrep hnames rfl hlen
      refine ⟨r, ?_, hcomes⟩
      unfold Binding.bind
      dsimp only
      rw [if_neg (by omega), ht]
      exact hr
  | spread args t =>
    obtain ⟨m, hm, hnames⟩ := hc
    have hkeyword : (Call.spread args t).keyword hash = m := by
      funext key
      change (tableGet hash t key).getD none = m key
      rw [tableGet_eq hm, Option.getD_some]
    have hmany' : ¬255 < (args ++ Binding.spreadValues t).length := hmany
    by_cases hcount : 0 < t.count
    · obtain ⟨named, hnamed, hrep⟩ := tableAddAll_spec hm (@initTable_represents hash)
      have hoverride : override m (fun _ => none) = m := by
        funext key
        unfold override
        cases m key <;> rfl
      rw [hoverride] at hrep
      by_cases hcrowded : (args ++ Binding.spreadValues t).length = 255
      · refine ⟨Binding.tooManyArguments, ?_, comes_of_refused rfl (.inr (.inl ⟨decide_eq_true hcount, hcrowded⟩))⟩
        unfold Binding.bind
        dsimp only
        rw [if_neg hmany', if_pos hcount, hnamed]
        exact if_pos (by omega)
      · have hlen : (args ++ Binding.spreadValues t).length < 255 :=
          Nat.lt_of_le_of_ne (Nat.le_of_not_lt hmany') hcrowded
        obtain ⟨r, hr, hcomes⟩ := @named_comes s f C hash (.spread args t) hf named (hkeyword ▸ hrep)
          (by rw [hkeyword]; exact hnames) (decide_eq_true hcount) hlen
        refine ⟨r, ?_, hcomes⟩
        unfold Binding.bind
        dsimp only
        rw [if_neg hmany', if_pos hcount, hnamed]
        exact (if_neg (by omega)).trans hr
    · have hnone : m = fun _ => none := funext fun key => hm.get_eq_none (Nat.eq_zero_of_not_pos hcount) key
      refine ⟨Binding.call C f (args ++ Binding.spreadValues t), ?_, @positional_comes s f C hash (.spread args t) hf
        (hkeyword.trans hnone) (decide_eq_false hcount) (Nat.le_of_not_lt hmany')⟩
      unfold Binding.bind
      dsimp only
      rw [if_neg hmany', if_neg hcount]

theorem fill_literal (h : ¬s.BooleanDefault hash c) :
    fill literalValue s.ordinary (given (c.keyword hash) s.ordinary c.args) =
      fill Compile.defaultValue s.ordinary (given (c.keyword hash) s.ordinary c.args) := by
  have hvalue : ∀ i : Nat,
      ((s.ordinary[i]?).map fun p => c.args[i]? <|> c.keyword hash p.1.name <|> p.2.map literalValue) =
        (s.ordinary[i]?).map fun p => c.args[i]? <|> c.keyword hash p.1.name <|> p.2.map Compile.defaultValue := by
    intro i
    cases hp : s.ordinary[i]? with
    | none => rfl
    | some p =>
      rcases Nat.lt_or_ge i c.args.length with hlt | hge
      · rw [List.getElem?_eq_getElem hlt]
        rfl
      · rw [List.getElem?_eq_none hge]
        cases hkeyword : c.keyword hash p.1.name with
        | some v => simp [hkeyword]
        | none =>
          cases hdefault : p.2 with
          | none => simp [hdefault]
          | some l =>
            have hl := literalValue_eq_iff.mpr (show l ≠ .true ∧ l ≠ .false from
              ⟨fun hl => h ⟨i, p, hp, hge, hkeyword, .inl (hl ▸ hdefault)⟩,
                fun hl => h ⟨i, p, hp, hge, hkeyword, .inr (hl ▸ hdefault)⟩⟩)
            simp [hkeyword, hdefault, hl]
  refine Option.ext fun vs => ?_
  rw [fill_given_eq_some_iff, fill_given_eq_some_iff]
  exact forall_congr' fun i => by rw [hvalue]

theorem rest_eq (h : ¬s.NamesRest hash c) :
    s.rest hash c = s.tableSlot (Binding.collect initTable 0 (c.args.drop s.ordinary.length)) := by
  unfold rest tableSlot
  refine List.map_congr_left fun p hp => ?_
  have hkeyword : c.keyword hash p.name = none := by
    by_contra hne
    exact h ⟨p, Option.mem_toList.mp hp, Option.isSome_iff_ne_none.mpr hne⟩
  rw [hkeyword]

theorem rest_ne (h : s.NamesRest hash c) (varargs : Table) : s.rest hash c ≠ s.tableSlot varargs := by
  obtain ⟨p, hp, hkeyword⟩ := h
  obtain ⟨v, hv⟩ := Option.isSome_iff_exists.mp hkeyword
  unfold rest tableSlot
  rw [hp, Option.toList_some, List.map_singleton, List.map_singleton, hv]
  simp

theorem fill_length {args vs : List Value} {keyword : Bytes → Option Value}
    (h : fill literal ps (given keyword ps args) = some vs) : vs.length = ps.length := by
  have hzip := congrArg List.length ((fill_eq_some_iff (given_length keyword args).symm).mp h)
  rw [List.length_zipWith, given_length, List.length_map, Nat.min_self] at hzip
  exact hzip.symm

/-- A boolean default is not put down as what it is written as. -/
theorem fill_ne (h : s.BooleanDefault hash c) {vs : List Value}
    (hliteral : fill literalValue s.ordinary (given (c.keyword hash) s.ordinary c.args) = some vs) :
    fill Compile.defaultValue s.ordinary (given (c.keyword hash) s.ordinary c.args) ≠ some vs := by
  intro hstored
  obtain ⟨i, p, hp, hge, hkeyword, hdefault⟩ := h
  have hone := (fill_given_eq_some_iff.mp hliteral i).trans (fill_given_eq_some_iff.mp hstored i).symm
  rw [hp, List.getElem?_eq_none hge] at hone
  rcases hdefault with hdefault | hdefault <;>
    simp [hkeyword, hdefault, literalValue, Compile.defaultValue] at hone

theorem map_value_inj {vs ws : List Value} (h : vs.map Bound.value = ws.map Bound.value) : vs = ws :=
  List.map_injective_iff.mpr (fun _ _ hv => Bound.value.inj hv) h

theorem Binds.not_slip {slots : List Bound} {r : Except Bytes (List Bound)} (hcomes : Comes C hash s c f r)
    (hbinds : s.Binds C hash c f slots) (hr : r.toOption = some slots) : ¬s.Slip hash c := by
  have hrefused : ¬s.Refused C hash c f := fun h => by
    rw [hcomes.1 h] at hr
    cases hr
  obtain ⟨vs, varargs, hstored, hslots, -⟩ := hcomes.2 hrefused
  obtain ⟨-, -, ws, hliteral, heq, -⟩ := hbinds
  rw [hslots, heq] at hr
  have hlen : (vs.map Bound.value).length = (ws.map Bound.value).length := by
    rw [List.length_map, List.length_map, fill_length hstored, fill_length hliteral]
  obtain ⟨hvalues, hrest⟩ := List.append_inj (Option.some.inj hr) hlen
  rintro (h | h | h | h)
  · exact hrefused (.inl h)
  · exact hrefused (.inr (.inl h))
  · rw [map_value_inj hvalues] at hstored
    exact fill_ne h hliteral hstored
  · exact rest_ne h varargs hrest.symm

theorem comes_binds {r : Except Bytes (List Bound)} (hcomes : Comes C hash s c f r) (hslip : ¬s.Slip hash c)
    (slots : List Bound) : r.toOption = some slots ↔ s.Binds C hash c f slots := by
  obtain ⟨hshort, hslip⟩ := not_or.mp hslip
  obtain ⟨hcrowded, hslip⟩ := not_or.mp hslip
  obtain ⟨hboolean, hrest⟩ := not_or.mp hslip
  constructor
  · intro hr
    have hrefused : ¬s.Refused C hash c f := fun h => by
      rw [hcomes.1 h] at hr
      cases hr
    obtain ⟨vs, varargs, hstored, hslots, hvarargs⟩ := hcomes.2 hrefused
    have hmany : ¬s.TooMany c := fun h => hrefused (.inr (.inr (.inl h)))
    have hdoubled : ¬s.Doubled hash c := fun h => hrefused (.inr (.inr (.inr (.inl h))))
    have hmismatch : ¬s.Mismatched C hash c f := fun h => hrefused (.inr (.inr (.inr (.inr h))))
    obtain rfl := Option.some.inj (hslots.symm.trans hr)
    refine ⟨hmany, fun h => h.elim hdoubled fun h => hrest h.2, vs, (fill_literal hboolean).trans hstored, ?_, ?_⟩
    · rw [rest_eq hrest, hvarargs hrest]
    · by_contra hne
      refine hmismatch fun ws hws => ?_
      obtain rfl := Option.some.inj (hstored.symm.trans hws)
      rwa [mismatch_tableSlot _ _ _ _ varargs]
  · intro ⟨hmany, htwice, vs, hliteral, hslots, hmismatch⟩
    rw [fill_literal hboolean] at hliteral
    rw [rest_eq hrest] at hslots
    have hrefused : ¬s.Refused C hash c f := by
      rintro (h | h | h | h | h)
      · exact hshort h
      · exact hcrowded h
      · exact hmany h
      · exact htwice (.inl h)
      · refine h vs hliteral ?_
        rwa [hslots, mismatch_tableSlot _ _ _ _ initTable] at hmismatch
    obtain ⟨ws, varargs, hstored, hr, hvarargs⟩ := hcomes.2 hrefused
    obtain rfl := Option.some.inj (hliteral.symm.trans hstored)
    rw [hr, hvarargs hrest, hslots]

theorem eq_ok_iff {r : Except Bytes (List Bound)} {slots : List Bound} : r = .ok slots ↔ r.toOption = some slots := by
  cases r with
  | error message => simp [Except.toOption]
  | ok bound => simp [Except.toOption]

end Call

/-- For every function that the compiler makes of a signature, and every call that names only
parameters. -/
theorem bindsRight_iff (C : Conversions) (hash : Bytes → UInt32) (s : Signature) (k : Compiler) (name : Name)
    (body : Code) (c : Call) (hc : c.Proper hash s) :
    s.BindsRight C hash c (Compile.finishedFunction k name s.params body) ↔
      s.Clear C hash c (Compile.finishedFunction k name s.params body) := by
  obtain ⟨r, hr, hcomes⟩ := @bind_spec s _ C hash c (s.declares k name body) hc
  have hright : s.BindsRight C hash c (Compile.finishedFunction k name s.params body) ↔
      ∀ slots, r.toOption = some slots ↔ s.Binds C hash c (Compile.finishedFunction k name s.params body) slots := by
    constructor
    · intro ⟨r', hr', h⟩ slots
      obtain rfl := Option.some.inj (hr.symm.trans hr')
      rw [← eq_ok_iff]
      exact h slots
    · intro h
      refine ⟨r, hr, fun slots => ?_⟩
      rw [eq_ok_iff]
      exact h slots
  rw [hright]
  constructor
  · intro h
    by_cases hslip : s.Slip hash c
    · have hnone : ∀ slots, ¬s.Binds C hash c (Compile.finishedFunction k name s.params body) slots :=
        fun slots hbinds => hbinds.not_slip hcomes ((h slots).mpr hbinds) hslip
      refine .inr ⟨hnone, ?_⟩
      by_contra hrefused
      obtain ⟨vs, varargs, -, hslots, -⟩ := hcomes.2 hrefused
      exact hnone _ ((h _).mp hslots)
    · exact .inl hslip
  · rintro (hslip | ⟨hnone, hrefused⟩) slots
    · exact @comes_binds s _ C hash c r hcomes hslip slots
    · rw [hcomes.1 hrefused]
      exact ⟨fun h => absurd h.symm (Option.some_ne_none _), fun h => absurd h (hnone slots)⟩

end Signature

section Declaration

open Compile

/-- The names that a new one may not be equal to. -/
def scopeNames (t : State) : List Name :=
  (sameScopeLocals t.current.scopeDepth t.current.locals).map Local.name

end Declaration

section Sample

def sampleConversions : Conversions := ⟨fun _ => 0, fun _ => 0, fun _ => 0⟩

def noHash : Bytes → UInt32 := fun _ => 0

/-- The parameters `(a, b = 2, *rest)`. -/
def samplePair : Signature where
  required := [⟨ascii "a", none⟩]
  optional := [(⟨ascii "b", none⟩, .number (Compile.doubleOfNat 2))]
  variadic := some ⟨ascii "rest", none⟩
  distinct := by decide

/-- The parameter `(a = true)`. -/
def sampleFlag : Signature where
  required := []
  optional := [(⟨ascii "a", none⟩, .true)]
  variadic := none
  distinct := by decide

def sampleFunction (s : Signature) : ObjFunction :=
  Compile.finishedFunction (Compile.initCompiler false) (ascii "f") s.params .nil

/-- The call `f(nil, b = true)`. -/
def sampleCall : Call := .named [.nil] [(ascii "b", .bool true)]

theorem sampleCall_bindsRight : samplePair.BindsRight sampleConversions noHash sampleCall (sampleFunction samplePair) := by
  have hproper : ∀ n ∈ [(ascii "b", Value.bool true)], n.1 ∈ samplePair.names := by decide
  refine (Signature.bindsRight_iff sampleConversions noHash samplePair (Compile.initCompiler false) (ascii "f") .nil
    sampleCall hproper).mpr (.inl ?_)
  rintro (h | h | ⟨i, p, hp, -, -, hdefault⟩ | ⟨p, hp, h⟩)
  · exact Bool.noConfusion h.1
  · exact absurd h.2 (by decide)
  · have hdefaults : ∀ p ∈ samplePair.ordinary, p.2 ≠ some .true ∧ p.2 ≠ some .false := by decide
    obtain ⟨htrue, hfalse⟩ := hdefaults p (List.mem_of_getElem? hp)
    exact hdefault.elim htrue hfalse
  · obtain rfl := Option.some.inj hp
    exact absurd h (by decide)

/-- Without its argument the parameter is the number 1. -/
theorem bindsRight_false : ¬sampleFlag.BindsRight sampleConversions noHash (.positional []) (sampleFunction sampleFlag) := by
  intro ⟨r, hr, h⟩
  have hbind : Binding.bind sampleConversions noHash (sampleFunction sampleFlag) (.positional []) =
      some (.ok [.value (.number (Compile.doubleOfNat 1))]) := by decide
  obtain rfl := Option.some.inj (hr.symm.trans hbind)
  have hbinds : sampleFlag.Binds sampleConversions noHash (.positional []) (sampleFunction sampleFlag)
      [.value (.bool true)] := by
    refine ⟨?_, ?_, [.bool true], rfl, rfl, rfl⟩
    · rintro (h | h)
      · exact absurd h (by decide)
      · exact absurd h.1 (by decide)
    · rintro (⟨p, hp, -⟩ | h)
      · cases hp
      · exact absurd h.1 (by decide)
  have hok := (h _).mpr hbinds
  cases hok

end Sample

end ToiLang
