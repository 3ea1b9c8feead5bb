import ToiLang.Http.Route

namespace ToiLang.Http

/-! Dispatch to the handler of the first route, with its parameters bound by name. -/

/-- The segments of a path that are not empty. -/
def pathSegments (path : Bytes) : List Bytes := (segments path).filter (· ≠ [])

/-- A segment of a pattern that is a name between angle brackets. -/
def NamesParam (seg name : Bytes) : Prop := name ≠ [] ∧ seg = 60 :: (name ++ [62])

/-- The segments of a pattern match those of a path; the parameters of the path come in order. -/
inductive PatternMatches : List Bytes → List Bytes → List (Bytes × Bytes) → Prop
  | nil : PatternMatches [] [] []
  | param {rseg name seg : Bytes} {pattern path : List Bytes} {params : List (Bytes × Bytes)} :
      NamesParam rseg name → PatternMatches pattern path params →
        PatternMatches (rseg :: pattern) (seg :: path) ((name, seg) :: params)
  | literal {seg : Bytes} {pattern path : List Bytes} {params : List (Bytes × Bytes)} :
      (¬∃ name, NamesParam seg name) → PatternMatches pattern path params →
        PatternMatches (seg :: pattern) (seg :: path) params

def Route.Matches (r : Route) (path : Bytes) (params : List (Bytes × Bytes)) : Prop :=
  PatternMatches (pathSegments r.path) (pathSegments path) params

/-- The first route with the method and a pattern that matches. -/
def FirstMatch (routes : List Route) (method path : Bytes) (r : Route) (params : List (Bytes × Bytes)) : Prop :=
  ∃ before behind, routes = before ++ r :: behind ∧
    (∀ q ∈ before, q.method = method → ∀ ps, ¬q.Matches path ps) ∧ r.method = method ∧ r.Matches path params

def InPath (params : List (Bytes × Bytes)) (name : Bytes) : Prop := ∃ seg, (name, seg) ∈ params

/-- Every parameter that is in the path holds its segments, coerced, and every other one is left at
its default. -/
structure Bound (f : HandlerFunction) (params : List (Bytes × Bytes)) (slots : List Slot) : Prop where
  length : slots.length = f.params.length
  inPath : ∀ (i : Nat) (p : Param), f.params[i]? = some p → ∀ seg, (p.name, seg) ∈ params →
    ∃ v, coerceParam seg p.type = .ok v ∧ slots[i]? = some (Slot.arg v)
  default : ∀ (i : Nat) (p : Param), f.params[i]? = some p → ¬InPath params p.name →
    ∃ v, f.defaultStart ≤ i ∧ f.defaults[i - f.defaultStart]? = some v ∧ slots[i]? = some (Slot.default v)

/-- A parameter has no value: a segment of its name is none of its type, or it is neither in the path
nor has a default. -/
def Unanswerable (f : HandlerFunction) (params : List (Bytes × Bytes)) : Prop :=
  ∃ p ∈ f.signature, (∃ seg e, (p.name, seg) ∈ params ∧ coerceParam seg p.type = .error e) ∨
    (¬InPath params p.name ∧ p.hasDefault = false)

/-- The handler of the route is started with its parameters bound by name, or the request is refused
for a parameter without a value. -/
def Served (r : Route) (params : List (Bytes × Bytes)) (out : Dispatched) : Prop :=
  match r.handler with
  | .native => out = .runNative r
  | .closure f => (∃ slots, out = .run r slots ∧ Bound f params slots) ∨
      (Unanswerable f params ∧ ∃ e, out = .badRequest e)

structure Dispatches (C : Conversions) (routes : List Route) (reqMethod reqPath : Option Bytes) : Prop where
  first : ∀ r params, FirstMatch routes (requestMethod reqMethod) (requestPath reqPath) r params →
    Served r params (dispatch C routes reqMethod reqPath)
  otherMethod : (∀ r ∈ routes, r.method = requestMethod reqMethod → ∀ ps, ¬r.Matches (requestPath reqPath) ps) →
    (∃ r ∈ routes, ∃ ps, r.Matches (requestPath reqPath) ps) →
      dispatch C routes reqMethod reqPath = .notAllowed
  none : (∀ r ∈ routes, ∀ ps, ¬r.Matches (requestPath reqPath) ps) →
    dispatch C routes reqMethod reqPath = .notFound

/-- The last segment of a name, which is the one that the table of the parameters keeps. -/
def lastSegment (params : List (Bytes × Bytes)) : PathParams :=
  params.foldl (fun t p => t.set p.1 p.2) .empty

/-- The request is refused: a parameter is missing, or its last segment is none of its type. -/
def Refused (f : HandlerFunction) (params : List (Bytes × Bytes)) : Prop :=
  ∃ p ∈ f.signature, (∃ seg e, lastSegment params p.name = some seg ∧ coerceParam seg p.type = .error e) ∨
    (¬InPath params p.name ∧ p.hasDefault = false)

/-- The parameters of a handler that are bound right by their places alone. -/
structure InPlace (C : Conversions) (f : HandlerFunction) (params : List (Bytes × Bytes)) : Prop where
  notSelf : f.isSelf = false
  notVariadic : f.variadic = false
  ordered : f.params.Pairwise fun p q => InPath params q.name → InPath params p.name
  agree : ∀ p ∈ f.params, ∀ seg seg', (p.name, seg) ∈ params → (p.name, seg') ∈ params →
    coerceParam seg p.type = coerceParam seg' p.type
  typed : ∀ p ∈ f.params, ∀ seg v, (p.name, seg) ∈ params → coerceParam seg p.type = .ok v →
    valueMatches C v p.type = true
  defaultsTyped : ∀ (i : Nat) (p : Param) v, f.params[i]? = some p → ¬InPath params p.name → f.defaultStart ≤ i →
    f.defaults[i - f.defaultStart]? = some v → valueMatches C v p.type = true

/-- No slash stands behind a zero byte. -/
def SplitsWhole (path : Bytes) : Prop := (47 : UInt8) ∉ path.dropWhile (· ≠ 0)

instance (path : Bytes) : Decidable (SplitsWhole path) :=
  inferInstanceAs (Decidable ((47 : UInt8) ∉ path.dropWhile (· ≠ 0)))

theorem splitPathSegments_eq {path : Bytes} (h : SplitsWhole path) : splitPathSegments path = pathSegments path := by
  obtain ⟨front, last, hfront⟩ : ∃ front last, segments (path.takeWhile (· ≠ 0)) = front ++ [last] :=
    exists_last 47 _
  have hcut : path.takeWhile (· ≠ 0) ++ path.dropWhile (· ≠ 0) = path := List.takeWhile_append_dropWhile
  have hall : segments path = splitSlash path := by
    rw [splitSlash_parts path hfront]
    conv_lhs => rw [← hcut]
    rw [segments_behind hfront, segments_single h, List.modifyHead_cons]
  unfold splitPathSegments pathSegments
  by_cases hnil : path = []
  · subst hnil
    rfl
  · rw [if_neg hnil, hall]

theorem parseParamSegment_some {seg name : Bytes} :
    parseParamSegment seg = some name ↔ NamesParam seg name := by
  unfold parseParamSegment NamesParam
  constructor
  · intro h
    split_ifs at h with hseg
    dsimp only at h
    obtain ⟨hlen, hhead, hlast⟩ := hseg
    split_ifs at h with hne
    cases Option.some.inj h
    refine ⟨hne, ?_⟩
    obtain ⟨t, rfl⟩ := List.head?_eq_some_iff.mp hhead
    obtain ⟨u, hu⟩ := List.getLast?_eq_some_iff.mp hlast
    cases u with
    | nil =>
      rw [hu] at hlen
      simp at hlen
    | cons c u =>
      obtain ⟨rfl, rfl⟩ := List.cons.inj hu
      simp
  · rintro ⟨hne, rfl⟩
    have hlen : 0 < name.length := List.length_pos_iff.mpr hne
    have hlast : (60 :: (name ++ [62])).getLast? = some (62 : UInt8) := by
      rw [← List.cons_append, List.getLast?_concat]
    rw [if_pos ⟨by simp; omega, rfl, hlast⟩]
    have hname : ((60 :: (name ++ [62])).drop 1).take ((60 :: (name ++ [62])).length - 2) = name := by
      simp
    dsimp only
    rw [hname, if_neg hne]

theorem PatternMatches.length {pattern path : List Bytes} {params : List (Bytes × Bytes)}
    (h : PatternMatches pattern path params) : pattern.length = path.length := by
  induction h with
  | nil => rfl
  | param _ _ ih => rw [List.length_cons, List.length_cons, ih]
  | literal _ _ ih => rw [List.length_cons, List.length_cons, ih]

theorem parseParamSegment_none {seg : Bytes} :
    parseParamSegment seg = none ↔ ¬∃ name, NamesParam seg name := by
  constructor
  · rintro h ⟨name, hname⟩
    rw [parseParamSegment_some.mpr hname] at h
    cases h
  · intro h
    cases hp : parseParamSegment seg with
    | none => rfl
    | some name => exact absurd ⟨name, parseParamSegment_some.mp hp⟩ h

/-- The loop over the segments fills the table with the parameters in their order. -/
theorem matchSegments_iff {pattern path : List Bytes} {t t' : PathParams} (hlen : pattern.length = path.length) :
    matchSegments t pattern path = some t' ↔
      ∃ params, PatternMatches pattern path params ∧ t' = params.foldl (fun t p => t.set p.1 p.2) t := by
  induction pattern generalizing path t with
  | nil =>
    obtain rfl := List.length_eq_zero_iff.mp hlen.symm
    constructor
    · intro h
      exact ⟨[], .nil, (Option.some.inj h).symm⟩
    · rintro ⟨params, hm, rfl⟩
      cases hm
      rfl
  | cons rseg pattern ih =>
    cases path with
    | nil => cases hlen
    | cons pseg path =>
      have hrest : pattern.length = path.length := Nat.succ.inj hlen
      rw [matchSegments]
      cases hp : parseParamSegment rseg with
      | some name =>
        have hname := parseParamSegment_some.mp hp
        dsimp only
        rw [ih hrest]
        constructor
        · rintro ⟨params, hm, rfl⟩
          exact ⟨_, .param hname hm, rfl⟩
        · rintro ⟨params, hm, rfl⟩
          cases hm with
          | param hname' hm =>
            cases Option.some.inj (hp.symm.trans (parseParamSegment_some.mpr hname'))
            exact ⟨_, hm, rfl⟩
          | literal hno hm => exact absurd ⟨name, hname⟩ hno
      | none =>
        have hno := parseParamSegment_none.mp hp
        dsimp only
        constructor
        · intro h
          split_ifs at h with hseg
          subst hseg
          obtain ⟨params, hm, rfl⟩ := (ih hrest).mp h
          exact ⟨params, .literal hno hm, rfl⟩
        · rintro ⟨params, hm, rfl⟩
          cases hm with
          | param hname hm => exact absurd ⟨_, hname⟩ hno
          | literal _ hm =>
            rw [if_pos rfl]
            exact (ih hrest).mpr ⟨params, hm, rfl⟩

theorem matchPath_iff {r : Route} {path : Bytes} {t : PathParams} (hr : SplitsWhole r.path)
    (hpath : SplitsWhole path) :
    r.matchPath path = some t ↔ ∃ params, r.Matches path params ∧ t = lastSegment params := by
  unfold Route.matchPath Route.Matches
  dsimp only
  rw [splitPathSegments_eq hr, splitPathSegments_eq hpath]
  by_cases hlen : (pathSegments r.path).length = (pathSegments path).length
  · rw [if_neg (not_not_intro hlen), matchSegments_iff hlen]
    rfl
  · rw [if_pos hlen]
    constructor
    · intro h
      cases h
    · rintro ⟨params, hm, -⟩
      exact absurd hm.length hlen

theorem matchPath_none {r : Route} {path : Bytes} (hr : SplitsWhole r.path) (hpath : SplitsWhole path) :
    r.matchPath path = none ↔ ∀ params, ¬r.Matches path params := by
  rw [Option.eq_none_iff_forall_ne_some]
  constructor
  · intro h params hm
    exact h _ ((matchPath_iff hr hpath).mpr ⟨params, hm, rfl⟩)
  · intro h t ht
    obtain ⟨params, hm, -⟩ := (matchPath_iff hr hpath).mp ht
    exact h params hm

section Loop

variable {C : Conversions} {method path : Bytes} {routes : List Route} {saw : Bool}

theorem dispatchRoutes_first {r : Route} {params : List (Bytes × Bytes)}
    (hclean : ∀ q ∈ routes, SplitsWhole q.path) (hpath : SplitsWhole path)
    (h : FirstMatch routes method path r params) :
    dispatchRoutes C method path saw routes = r.runHandler C (lastSegment params) := by
  obtain ⟨before, behind, rfl, hbefore, hmethod, hmatch⟩ := h
  induction before generalizing saw with
  | nil =>
    have hr := hclean r (by simp)
    rw [List.nil_append, dispatchRoutes, (matchPath_iff hr hpath).mpr ⟨params, hmatch, rfl⟩]
    exact if_pos hmethod
  | cons q before ih =>
    have hrest := fun saw => @ih saw (fun q' hq' => hclean q' (List.mem_cons_of_mem _ hq'))
      fun q' hq' => hbefore q' (List.mem_cons_of_mem _ hq')
    rw [List.cons_append, dispatchRoutes]
    cases hm : q.matchPath path with
    | none => exact hrest saw
    | some t =>
      obtain ⟨ps, hps, -⟩ := (matchPath_iff (hclean q (by simp)) hpath).mp hm
      have hother : q.method ≠ method := fun he => hbefore q List.mem_cons_self he ps hps
      dsimp only
      rw [if_neg hother]
      exact hrest true

/-- Without a route of the method, only whether some pattern matches counts. -/
theorem dispatchRoutes_other (hclean : ∀ q ∈ routes, SplitsWhole q.path) (hpath : SplitsWhole path)
    (h : ∀ r ∈ routes, r.method = method → ∀ ps, ¬r.Matches path ps) :
    (saw = true ∨ (∃ r ∈ routes, ∃ ps, r.Matches path ps) →
      dispatchRoutes C method path saw routes = .notAllowed) ∧
    (saw = false → (∀ r ∈ routes, ∀ ps, ¬r.Matches path ps) →
      dispatchRoutes C method path saw routes = .notFound) := by
  induction routes generalizing saw with
  | nil =>
    rw [dispatchRoutes]
    refine ⟨fun hsaw => ?_, fun hsaw _ => by rw [hsaw]; rfl⟩
    rcases hsaw with rfl | ⟨r, hr, -⟩
    · rfl
    · cases hr
  | cons r routes ih =>
    have hrest := fun saw => @ih saw (fun q hq => hclean q (List.mem_cons_of_mem _ hq))
      fun q hq => h q (List.mem_cons_of_mem _ hq)
    have hr := hclean r List.mem_cons_self
    rw [dispatchRoutes]
    cases hm : r.matchPath path with
    | none =>
      have hno := (matchPath_none hr hpath).mp hm
      refine ⟨fun hsaw => (hrest saw).1 (hsaw.imp_right ?_), fun hsaw hall =>
        (hrest saw).2 hsaw fun q hq => hall q (List.mem_cons_of_mem _ hq)⟩
      rintro ⟨q, hq, ps, hps⟩
      rcases List.mem_cons.mp hq with rfl | hq
      · exact absurd hps (hno ps)
      · exact ⟨q, hq, ps, hps⟩
    | some t =>
      obtain ⟨ps, hps, -⟩ := (matchPath_iff hr hpath).mp hm
      have hother : r.method ≠ method := fun he => h r List.mem_cons_self he ps hps
      dsimp only
      rw [if_neg hother]
      exact ⟨fun _ => (hrest true).1 (.inl rfl), fun _ hall => absurd hps (hall r List.mem_cons_self ps)⟩

end Loop

theorem lastSegment_append (params : List (Bytes × Bytes)) (name seg : Bytes) :
    lastSegment (params ++ [(name, seg)]) = (lastSegment params).set name seg := by
  rw [lastSegment, List.foldl_append]
  rfl

theorem lastSegment_some {params : List (Bytes × Bytes)} {name seg : Bytes}
    (h : lastSegment params name = some seg) : (name, seg) ∈ params := by
  induction params using List.reverseRecOn with
  | nil => cases h
  | append_singleton params p ih =>
    obtain ⟨n, s⟩ := p
    rw [lastSegment_append, PathParams.set, Function.update_apply] at h
    split_ifs at h with hn
    · cases Option.some.inj h
      subst hn
      simp
    · exact List.mem_append_left _ (ih h)

theorem lastSegment_none {params : List (Bytes × Bytes)} {name : Bytes} :
    lastSegment params name = none ↔ ¬InPath params name := by
  constructor
  · rintro h ⟨seg, hseg⟩
    induction params using List.reverseRecOn with
    | nil => cases hseg
    | append_singleton params p ih =>
      obtain ⟨n, s⟩ := p
      rw [lastSegment_append, PathParams.set, Function.update_apply] at h
      split_ifs at h with hn
      rcases List.mem_append.mp hseg with hseg | hseg
      · exact ih h hseg
      · cases List.mem_singleton.mp hseg
        exact hn rfl
  · intro h
    cases hl : lastSegment params name with
    | none => rfl
    | some seg => exact absurd ⟨seg, lastSegment_some hl⟩ h

variable {f : HandlerFunction} {params : List (Bytes × Bytes)}

theorem buildHandlerArgs_error {t : PathParams} {sig : List SignatureParam} :
    (∃ e, buildHandlerArgs t sig = .error e) ↔ ∃ p ∈ sig,
      (∃ seg e, t p.name = some seg ∧ coerceParam seg p.type = .error e) ∨ (t p.name = none ∧ p.hasDefault = false) := by
  induction sig with
  | nil =>
    constructor
    · rintro ⟨e, h⟩
      cases h
    · rintro ⟨p, hp, -⟩
      cases hp
  | cons p sig ih =>
    rw [buildHandlerArgs, List.exists_mem_cons_iff, ← ih]
    cases ht : t p.name with
    | none =>
      cases hd : p.hasDefault with
      | true => simp
      | false => simp
    | some seg =>
      cases hc : coerceParam seg p.type with
      | error e => simp [hc]
      | ok v =>
        cases hrest : buildHandlerArgs t sig with
        | error e => simp [Except.map, hc]
        | ok args => simp [Except.map, hc]

/-- The argument for a parameter, if the path has one. -/
def argOf (t : PathParams) (p : Param) : Option RouteValue :=
  (t p.name).bind fun seg =>
    match coerceParam seg p.type with
    | .ok v => some v
    | .error _ => none

theorem buildHandlerArgs_ok {t : PathParams} {sig : List SignatureParam} {args : List RouteValue}
    (h : buildHandlerArgs t sig = .ok args) : args = (sig.map (·.toParam)).filterMap (argOf t) := by
  induction sig generalizing args with
  | nil =>
    cases h
    rfl
  | cons p sig ih =>
    rw [buildHandlerArgs] at h
    rw [List.map_cons]
    cases ht : t p.name with
    | none =>
      have harg : argOf t p.toParam = none := by rw [argOf, ht, Option.bind_none]
      rw [ht] at h
      dsimp only at h
      split_ifs at h
      rw [List.filterMap_cons_none harg]
      exact ih h
    | some seg =>
      rw [ht] at h
      dsimp only at h
      cases hc : coerceParam seg p.type with
      | error e =>
        rw [hc] at h
        cases h
      | ok v =>
        have harg : argOf t p.toParam = some v := by rw [argOf, ht, Option.bind_some, hc]
        rw [hc] at h
        dsimp only at h
        cases hrest : buildHandlerArgs t sig with
        | error e =>
          rw [hrest] at h
          cases h
        | ok vs =>
          rw [hrest] at h
          cases h
          rw [List.filterMap_cons_some harg, ih hrest]

theorem signature_params (f : HandlerFunction) : f.signature.map (·.toParam) = f.params := by
  refine List.ext_getElem? fun i => ?_
  rw [List.getElem?_map, HandlerFunction.signature, List.getElem?_mapIdx, Option.map_map]
  cases f.params[i]? with
  | none => rfl
  | some p => rfl

theorem mem_signature {p : SignatureParam} :
    p ∈ f.signature ↔ ∃ i, f.params[i]? = some p.toParam ∧
      p.hasDefault = decide (f.defaultStart ≤ i ∧ i < f.positionalCount) := by
  rw [List.mem_iff_getElem?]
  refine exists_congr fun i => ?_
  rw [HandlerFunction.signature, List.getElem?_mapIdx, Option.map_eq_some_iff]
  constructor
  · rintro ⟨q, hq, rfl⟩
    exact ⟨hq, rfl⟩
  · rintro ⟨hq, hd⟩
    refine ⟨p.toParam, hq, ?_⟩
    rw [← hd]

/-- Where the arguments are refused is said by the last segments. -/
theorem refused_iff : Refused f params ↔ ∃ e, buildHandlerArgs (lastSegment params) f.signature = .error e := by
  rw [buildHandlerArgs_error]
  unfold Refused
  simp only [lastSegment_none]

theorem Refused.unanswerable (h : Refused f params) : Unanswerable f params := by
  obtain ⟨p, hp, ⟨seg, e, hseg, he⟩ | hmissing⟩ := h
  · exact ⟨p, hp, .inl ⟨seg, e, lastSegment_some hseg, he⟩⟩
  · exact ⟨p, hp, .inr hmissing⟩

/-- Every slot of bound parameters is an argument or a default. -/
theorem Bound.slot {slots : List Slot} (hb : Bound f params slots) {i : Nat} (hi : i < f.params.length) :
    ∃ v, slots[i]? = some (.arg v) ∨ slots[i]? = some (.default v) := by
  have hp : f.params[i]? = some f.params[i] := List.getElem?_eq_getElem hi
  by_cases hin : InPath params f.params[i].name
  · obtain ⟨seg, hseg⟩ := hin
    obtain ⟨v, -, hv⟩ := hb.inPath i _ hp seg hseg
    exact ⟨v, .inl hv⟩
  · obtain ⟨v, -, -, hv⟩ := hb.default i _ hp hin
    exact ⟨v, .inr hv⟩

def SlotsMatch (C : Conversions) (slots : List Slot) (params : List Param) : Prop :=
  ∀ (i : Nat) (s : Slot) (p : Param), slots[i]? = some s → params[i]? = some p → slotMatches C s p.type = true

/-- The slots that a call fills, if it gets as far as the checks of the types. -/
theorem call_some {C : Conversions} {args slots : List Slot} (h : f.call C args = some slots) :
    SlotsMatch C slots f.params ∧
      ((f.variadic = true ∧ slots = args.take (f.params.length - 1) ++ [.rest (args.drop (f.params.length - 1))]) ∨
        (f.variadic = false ∧ f.defaultStart ≤ args.length ∧ args.length ≤ f.params.length ∧
          slots = args ++ (f.defaults.drop (args.length - f.defaultStart)).map .default)) := by
  unfold HandlerFunction.call at h
  obtain ⟨filled, hfilled, h⟩ := Option.bind_eq_some_iff.mp h
  split_ifs at h with htypes
  rw [← Option.some.inj h]
  refine ⟨fun i s p hs hp => ?_, ?_⟩
  · have hzip : (filled.zip f.params)[i]? = some (s, p) := List.getElem?_zip_eq_some.mpr ⟨hs, hp⟩
    exact List.all_eq_true.mp htypes _ (List.mem_of_getElem? hzip)
  · cases hv : f.variadic with
    | true =>
      rw [hv, if_pos rfl] at hfilled
      split_ifs at hfilled
      exact .inl ⟨rfl, (Option.some.inj hfilled).symm⟩
    | false =>
      rw [hv, if_neg (by decide)] at hfilled
      split_ifs at hfilled with hlong hshort
      exact .inr ⟨rfl, Nat.not_lt.mp hshort, Nat.not_lt.mp hlong, (Option.some.inj hfilled).symm⟩

theorem call_of_fits {C : Conversions} {args : List Slot} (hv : f.variadic = false)
    (hlow : f.defaultStart ≤ args.length) (hhigh : args.length ≤ f.params.length)
    (htypes : SlotsMatch C (args ++ (f.defaults.drop (args.length - f.defaultStart)).map .default) f.params) :
    f.call C args = some (args ++ (f.defaults.drop (args.length - f.defaultStart)).map .default) := by
  unfold HandlerFunction.call
  dsimp only
  rw [if_neg (by rw [hv]; decide), if_neg (Nat.not_lt.mpr hhigh), if_neg (Nat.not_lt.mpr hlow), Option.bind_some,
    if_pos]
  refine List.all_eq_true.mpr fun x hx => ?_
  obtain ⟨i, hi⟩ := List.mem_iff_getElem?.mp hx
  obtain ⟨hs, hp⟩ := List.getElem?_zip_eq_some.mp hi
  exact htypes i _ _ hs hp

/-- A handler that is bound by name takes its arguments in place. -/
theorem inPlace_of_bound {C : Conversions} {args : List RouteValue} {slots : List Slot}
    (hcall : f.call C ((if f.isSelf then [Slot.receiver] else []) ++ args.map .arg) = some slots)
    (hb : Bound f params slots) : InPlace C f params := by
  obtain ⟨htypes, hslots⟩ := call_some hcall
  have hvariadic : f.variadic = false := by
    rcases hslots with ⟨hv, hslots⟩ | ⟨hv, -⟩
    · -- the last slot is a table of arguments
      have hle := f.defaults_le
      rw [hv, Bool.toNat_true] at hle
      have hlen := hb.length
      obtain ⟨v, hslot⟩ := hb.slot (show f.params.length - 1 < f.params.length by omega)
      generalize List.take (f.params.length - 1) _ = front at hslots
      rw [hslots, List.length_append, List.length_singleton] at hlen
      have hlast : f.params.length - 1 = front.length := by omega
      rw [hslots, hlast, List.getElem?_concat_length] at hslot
      rcases hslot with hslot | hslot <;> cases hslot
    · exact hv
  obtain ⟨-, hlow, -, hslots⟩ := hslots.resolve_left (fun h => by rw [hvariadic] at h; cases h.1)
  have hself : f.isSelf = false := by
    cases hs : f.isSelf with
    | false => rfl
    | true =>
      have hpos : 0 < f.params.length := by
        unfold HandlerFunction.isSelf at hs
        cases hp : f.params with
        | nil =>
          rw [hp] at hs
          cases hs
        | cons p ps => exact Nat.succ_pos _
      obtain ⟨v, hslot⟩ := hb.slot hpos
      rw [hslots, hs, if_pos rfl] at hslot
      rcases hslot with hslot | hslot <;> cases hslot
  rw [hself] at hslots hlow
  simp only [Bool.false_eq_true, ↓reduceIte, List.nil_append, List.length_map] at hslots hlow
  have hsame : ∀ (i : Nat) (p : Param), f.params[i]? = some p → ∀ seg, (p.name, seg) ∈ params → ∀ s, slots[i]? = some s →
      ∃ v, coerceParam seg p.type = .ok v ∧ s = .arg v := by
    intro i p hp seg hseg s hs
    obtain ⟨v, hv, hslot⟩ := hb.inPath i p hp seg hseg
    exact ⟨v, hv, Option.some.inj (hs.symm.trans hslot)⟩
  refine ⟨hself, hvariadic, ?_, ?_, ?_, ?_⟩
  · rw [List.pairwise_iff_getElem]
    rintro i j hi hj hij ⟨seg, hseg⟩
    by_contra hno
    -- an argument stands behind a default
    obtain ⟨v, -, hv⟩ := hb.inPath j _ (List.getElem?_eq_getElem hj) seg hseg
    obtain ⟨d, -, -, hd⟩ := hb.default i _ (List.getElem?_eq_getElem hi) hno
    rw [hslots] at hv hd
    by_cases hlt : j < args.length
    · rw [List.getElem?_append_left (by rw [List.length_map]; omega), List.getElem?_map] at hd
      obtain ⟨a, -, ha⟩ := Option.map_eq_some_iff.mp hd
      cases ha
    · rw [List.getElem?_append_right (by rw [List.length_map]; omega), List.getElem?_map] at hv
      obtain ⟨a, -, ha⟩ := Option.map_eq_some_iff.mp hv
      cases ha
  · intro p hp seg seg' hseg hseg'
    obtain ⟨i, hi⟩ := List.mem_iff_getElem?.mp hp
    obtain ⟨v, hv, hslot⟩ := hb.inPath i p hi seg hseg
    obtain ⟨v', hv', heq⟩ := hsame i p hi seg' hseg' _ hslot
    cases heq
    rw [hv, hv']
  · intro p hp seg v hseg hv
    obtain ⟨i, hi⟩ := List.mem_iff_getElem?.mp hp
    obtain ⟨v', hv', hslot⟩ := hb.inPath i p hi seg hseg
    cases hv.symm.trans hv'
    exact htypes i _ p hslot hi
  · intro i p v hi hno hle hv
    obtain ⟨v', -, hv', hslot⟩ := hb.default i p hi hno
    cases hv.symm.trans hv'
    exact htypes i _ p hslot hi

theorem filterMap_of_isSome {α β : Type} {g : α → Option β} {l : List α} (h : ∀ x ∈ l, (g x).isSome = true) :
    (l.filterMap g).length = l.length ∧ ∀ i : Nat, (l.filterMap g)[i]? = l[i]?.bind g := by
  induction l with
  | nil => exact ⟨rfl, fun i => rfl⟩
  | cons x l ih =>
    obtain ⟨y, hy⟩ := Option.isSome_iff_exists.mp (h x List.mem_cons_self)
    obtain ⟨hlen, hget⟩ := ih fun x' hx' => h x' (List.mem_cons_of_mem _ hx')
    rw [List.filterMap_cons_some hy]
    refine ⟨by rw [List.length_cons, List.length_cons, hlen], fun i => ?_⟩
    cases i with
    | zero => exact hy.symm
    | succ i => exact hget i

/-- A list whose members with a property come first. -/
theorem split_of_pairwise {α : Type} {P : α → Prop} {l : List α} (h : l.Pairwise fun x y => P y → P x) :
    ∃ front back, l = front ++ back ∧ (∀ x ∈ front, P x) ∧ ∀ x ∈ back, ¬P x := by
  induction l with
  | nil => exact ⟨[], [], rfl, by simp, by simp⟩
  | cons x l ih =>
    obtain ⟨hx, hl⟩ := List.pairwise_cons.mp h
    by_cases hp : P x
    · obtain ⟨front, back, rfl, hfront, hback⟩ := ih hl
      refine ⟨x :: front, back, rfl, fun y hy => ?_, hback⟩
      rcases List.mem_cons.mp hy with rfl | hy
      · exact hp
      · exact hfront y hy
    · refine ⟨[], x :: l, rfl, by simp, fun y hy => ?_⟩
      rcases List.mem_cons.mp hy with rfl | hy
      · exact hp
      · exact fun hpy => hp (hx y hy hpy)

/-- A parameter that is not in the path of a request that is not refused has a default. -/
theorem default_of_not_refused (h : ¬Refused f params) (hv : f.variadic = false) {i : Nat} {p : Param}
    (hp : f.params[i]? = some p) (hno : ¬InPath params p.name) :
    f.defaultStart ≤ i ∧ ∃ v, f.defaults[i - f.defaultStart]? = some v := by
  have hmem : (⟨p, decide (f.defaultStart ≤ i ∧ i < f.positionalCount)⟩ : SignatureParam) ∈ f.signature :=
    mem_signature.mpr ⟨i, hp, rfl⟩
  have hdefault : decide (f.defaultStart ≤ i ∧ i < f.positionalCount) = true := by
    cases hd : decide (f.defaultStart ≤ i ∧ i < f.positionalCount) with
    | true => rfl
    | false => exact absurd ⟨_, hmem, .inr ⟨hno, hd⟩⟩ h
  obtain ⟨hle, hlt⟩ := of_decide_eq_true hdefault
  have hcount : f.positionalCount = f.params.length := by
    rw [HandlerFunction.positionalCount, hv, Bool.toNat_false, Nat.sub_zero]
  have hstart : f.defaultStart = f.params.length - f.defaults.length := by
    rw [HandlerFunction.defaultStart, hcount]
  refine ⟨hle, _, List.getElem?_eq_getElem ?_⟩
  have hbound := f.defaults_le
  rw [hv, Bool.toNat_false] at hbound
  omega

/-- The argument of a parameter that is in the path of a request that is not refused. -/
theorem argOf_of_not_refused (h : ¬Refused f params) {p : Param} (hp : p ∈ f.params) (hin : InPath params p.name) :
    ∃ seg v, (p.name, seg) ∈ params ∧ coerceParam seg p.type = .ok v ∧ argOf (lastSegment params) p = some v := by
  cases hl : lastSegment params p.name with
  | none => exact absurd hin (lastSegment_none.mp hl)
  | some seg =>
    obtain ⟨i, hi⟩ := List.mem_iff_getElem?.mp hp
    have hmem : (⟨p, decide (f.defaultStart ≤ i ∧ i < f.positionalCount)⟩ : SignatureParam) ∈ f.signature :=
      mem_signature.mpr ⟨i, hi, rfl⟩
    cases hc : coerceParam seg p.type with
    | error e => exact absurd ⟨_, hmem, .inl ⟨seg, e, hl, hc⟩⟩ h
    | ok v =>
      refine ⟨seg, v, lastSegment_some hl, hc, ?_⟩
      rw [argOf, hl, Option.bind_some, hc]

/-- Arguments in place are bound by name. -/
theorem bound_of_inPlace {C : Conversions} {args : List RouteValue} (hin : InPlace C f params)
    (hargs : buildHandlerArgs (lastSegment params) f.signature = .ok args) :
    ∃ slots, f.call C (args.map .arg) = some slots ∧ Bound f params slots := by
  have hnot : ¬Refused f params := by
    intro h
    obtain ⟨e, he⟩ := refused_iff.mp h
    rw [he] at hargs
    cases hargs
  obtain ⟨front, back, hsplit, hfront, hback⟩ := split_of_pairwise hin.ordered
  have hargs := buildHandlerArgs_ok hargs
  rw [signature_params, hsplit, List.filterMap_append] at hargs
  have hnone : back.filterMap (argOf (lastSegment params)) = [] := by
    refine List.filterMap_eq_nil_iff.mpr fun p hp => ?_
    rw [argOf, lastSegment_none.mpr (hback p hp), Option.bind_none]
  have hsome : ∀ p ∈ front, (argOf (lastSegment params) p).isSome = true := by
    intro p hp
    obtain ⟨-, v, -, -, hv⟩ := argOf_of_not_refused hnot (by rw [hsplit]; exact List.mem_append_left _ hp) (hfront p hp)
    rw [hv]
    rfl
  obtain ⟨hlen, hget⟩ := filterMap_of_isSome hsome
  rw [hnone, List.append_nil] at hargs
  rw [← hargs] at hlen hget
  have htotal : f.params.length = front.length + back.length := by rw [hsplit, List.length_append]
  have hbehind : ∀ (i : Nat) (p : Param), f.params[i]? = some p → ¬InPath params p.name → front.length ≤ i := by
    intro i p hp hno
    by_contra hlt
    rw [hsplit, List.getElem?_append_left (Nat.not_le.mp hlt)] at hp
    exact hno (hfront p (List.mem_of_getElem? hp))
  have hbefore : ∀ (i : Nat) (p : Param), f.params[i]? = some p → InPath params p.name → front[i]? = some p := by
    intro i p hp hyes
    rw [hsplit] at hp
    by_cases hlt : i < front.length
    · rwa [List.getElem?_append_left hlt] at hp
    · rw [List.getElem?_append_right (Nat.not_lt.mp hlt)] at hp
      exact absurd hyes (hback p (List.mem_of_getElem? hp))
  have hstart : f.defaultStart = f.params.length - f.defaults.length := by
    rw [HandlerFunction.defaultStart, HandlerFunction.positionalCount, hin.notVariadic, Bool.toNat_false, Nat.sub_zero]
  have hbound := f.defaults_le
  rw [hin.notVariadic, Bool.toNat_false] at hbound
  have hlow : f.defaultStart ≤ args.length := by
    rw [hlen]
    cases hb : back with
    | nil =>
      rw [hb, List.length_nil] at htotal
      omega
    | cons p rest =>
      have hp : f.params[front.length]? = some p := by
        rw [hsplit, hb, List.getElem?_append_right (Nat.le_refl _), Nat.sub_self]
        rfl
      exact (default_of_not_refused hnot hin.notVariadic hp (hback p (by rw [hb]; exact List.mem_cons_self))).1
  have hslots : Bound f params (args.map .arg ++ (f.defaults.drop (args.length - f.defaultStart)).map .default) := by
    refine ⟨?_, fun i p hp seg hseg => ?_, fun i p hp hno => ?_⟩
    · rw [List.length_append, List.length_map, List.length_map, List.length_drop]
      omega
    · have hat := hbefore i p hp ⟨seg, hseg⟩
      obtain ⟨seg', v, hseg', hv, harg⟩ := argOf_of_not_refused hnot (List.mem_of_getElem? hp) ⟨seg, hseg⟩
      have hi : args[i]? = some v := by rw [hget, hat, Option.bind_some, harg]
      obtain ⟨hlt, -⟩ := List.getElem?_eq_some_iff.mp hi
      refine ⟨v, (hin.agree p (List.mem_of_getElem? hp) seg seg' hseg hseg').trans hv, ?_⟩
      rw [List.getElem?_append_left (by rw [List.length_map]; exact hlt), List.getElem?_map, hi, Option.map_some]
    · obtain ⟨hle, v, hv⟩ := default_of_not_refused hnot hin.notVariadic hp hno
      have hge := hbehind i p hp hno
      refine ⟨v, hle, hv, ?_⟩
      rw [List.getElem?_append_right (by rw [List.length_map]; omega), List.getElem?_map, List.length_map,
        List.getElem?_drop]
      have hi : args.length - f.defaultStart + (i - args.length) = i - f.defaultStart := by omega
      rw [hi, hv, Option.map_some]
  refine ⟨_, call_of_fits hin.notVariadic (by rw [List.length_map]; exact hlow)
    (by rw [List.length_map]; omega) ?_, by rw [List.length_map]; exact hslots⟩
  rw [List.length_map]
  intro i s p hs hp
  by_cases hyes : InPath params p.name
  · obtain ⟨seg, hseg⟩ := hyes
    obtain ⟨v, hv, hslot⟩ := hslots.inPath i p hp seg hseg
    cases hs.symm.trans hslot
    exact hin.typed p (List.mem_of_getElem? hp) seg v hseg hv
  · obtain ⟨v, hle, hv, hslot⟩ := hslots.default i p hp hyes
    cases hs.symm.trans hslot
    exact hin.defaultsTyped i p v hp hyes hle hv

/-- The handler of a route serves a match exactly where the request is refused or the arguments are in
place. -/
theorem served_iff (C : Conversions) (r : Route) (params : List (Bytes × Bytes)) :
    Served r params (r.runHandler C (lastSegment params)) ↔
      ∀ f, r.handler = .closure f → Refused f params ∨ InPlace C f params := by
  unfold Served Route.runHandler
  cases hh : r.handler with
  | native =>
    constructor
    · intro _ f hf
      cases hf
    · intro _
      rfl
  | closure f =>
    dsimp only
    have hone : (∀ g, Handler.closure f = .closure g → Refused g params ∨ InPlace C g params) ↔
        Refused f params ∨ InPlace C f params :=
      ⟨fun h => h f rfl, fun h g hg => by cases hg; exact h⟩
    rw [hone]
    cases hargs : buildHandlerArgs (lastSegment params) f.signature with
    | error e =>
      have hrefused := refused_iff.mpr ⟨e, hargs⟩
      exact iff_of_true (.inr ⟨hrefused.unanswerable, e, rfl⟩) (.inl hrefused)
    | ok args =>
      have hnot : ¬Refused f params := by
        intro h
        obtain ⟨e, he⟩ := refused_iff.mp h
        rw [he] at hargs
        cases hargs
      dsimp only
      constructor
      · intro h
        refine .inr ?_
        cases hcall : f.call C ((if f.isSelf then [Slot.receiver] else []) ++ args.map .arg) with
        | none =>
          rw [hcall] at h
          rcases h with ⟨slots, hrun, -⟩ | ⟨-, e, he⟩
          · cases hrun
          · cases he
        | some slots =>
          rw [hcall] at h
          rcases h with ⟨slots', hrun, hb⟩ | ⟨-, e, he⟩
          · cases hrun
            exact inPlace_of_bound hcall hb
          · cases he
      · intro h
        have hin := h.resolve_left hnot
        obtain ⟨slots, hcall, hb⟩ := bound_of_inPlace hin hargs
        refine .inl ⟨slots, ?_, hb⟩
        rw [hin.notSelf]
        simp only [Bool.false_eq_true, ↓reduceIte, List.nil_append]
        rw [hcall]

/-- Requests are dispatched as the routes say exactly where the arguments of the first match are in
place or it is refused. -/
theorem dispatches_iff (C : Conversions) (routes : List Route) (reqMethod reqPath : Option Bytes)
    (hroutes : ∀ r ∈ routes, SplitsWhole r.path) (hpath : SplitsWhole (requestPath reqPath)) :
    Dispatches C routes reqMethod reqPath ↔
      ∀ r params, FirstMatch routes (requestMethod reqMethod) (requestPath reqPath) r params →
        ∀ f, r.handler = .closure f → Refused f params ∨ InPlace C f params := by
  constructor
  · intro h r params hfirst
    have hserved := h.first r params hfirst
    rw [dispatch, dispatchRoutes_first hroutes hpath hfirst] at hserved
    exact (served_iff C r params).mp hserved
  · intro h
    refine ⟨fun r params hfirst => ?_, fun hno hsome => ?_, fun hno => ?_⟩
    · rw [dispatch, dispatchRoutes_first hroutes hpath hfirst]
      exact (served_iff C r params).mpr (h r params hfirst)
    · exact (dispatchRoutes_other hroutes hpath hno).1 (.inr hsome)
    · exact (dispatchRoutes_other hroutes hpath fun r hr _ => hno r hr).2 rfl hno

namespace Sample

def conversions : Conversions := ⟨fun _ => 0, fun _ => 0, fun _ => 0⟩

/-- A handler with two defaults. -/
def pageOf : HandlerFunction where
  params := [⟨ascii "page", .any⟩, ⟨ascii "user", .any⟩]
  defaults := [.string (ascii "1"), .string (ascii "none")]
  variadic := false
  defaults_le := by decide

/-- A route that has only the second of them in its path. -/
def userRoute : Route := .compile (ascii "get") (ascii "/users/<user>") (.closure pageOf)

end Sample

theorem user_request_iff :
    Dispatches Sample.conversions [Sample.userRoute] (some (ascii "GET")) (some (ascii "/users/ann")) ↔
      ∀ r params, FirstMatch [Sample.userRoute] (requestMethod (some (ascii "GET")))
          (requestPath (some (ascii "/users/ann"))) r params →
        ∀ f, r.handler = .closure f → Refused f params ∨ InPlace Sample.conversions f params :=
  dispatches_iff _ _ _ _ (by decide) (by decide)

/-- The segment for `user` is given to `page`. -/
theorem user_is_taken_for_page :
    dispatch Sample.conversions [Sample.userRoute] (some (ascii "GET")) (some (ascii "/users/ann")) =
        .run Sample.userRoute [.arg (.string (ascii "ann")), .default (.string (ascii "none"))] ∧
      ¬Dispatches Sample.conversions [Sample.userRoute] (some (ascii "GET")) (some (ascii "/users/ann")) := by
  have hrun : dispatch Sample.conversions [Sample.userRoute] (some (ascii "GET")) (some (ascii "/users/ann")) =
      .run Sample.userRoute [.arg (.string (ascii "ann")), .default (.string (ascii "none"))] := rfl
  refine ⟨hrun, fun h => ?_⟩
  have hmatch : Sample.userRoute.Matches (ascii "/users/ann") [(ascii "user", ascii "ann")] := by
    have hpattern : pathSegments Sample.userRoute.path = [ascii "users", ascii "<user>"] := by decide
    have hpath : pathSegments (ascii "/users/ann") = [ascii "users", ascii "ann"] := by decide
    have hno : ¬∃ name, NamesParam (ascii "users") name := by
      rintro ⟨name, -, hname⟩
      exact absurd (List.cons.inj hname).1 (by decide)
    unfold Route.Matches
    rw [hpattern, hpath]
    exact .literal hno (.param ⟨by decide, by decide⟩ .nil)
  have hserved := h.first Sample.userRoute _ ⟨[], [], rfl, by simp, rfl, hmatch⟩
  rw [hrun] at hserved
  rcases hserved with ⟨slots, heq, hb⟩ | ⟨-, e, he⟩
  · cases heq
    have hno : ¬InPath [(ascii "user", ascii "ann")] (ascii "page") := by
      rintro ⟨seg, hseg⟩
      have hname := (Prod.mk.inj (List.mem_singleton.mp hseg)).1
      exact absurd hname (by decide)
    obtain ⟨v, -, -, hslot⟩ := hb.default 0 ⟨ascii "page", .any⟩ rfl hno
    cases hslot
  · cases he

end ToiLang.Http
