import ToiLang.DepthFirst
import ToiLang.InlineCache
import ToiLang.Sequence

namespace ToiLang.TableClone

open InlineCache (TableObj)
open OpenAddressing

/-- The table objects at their addresses; from `next` on there is none. -/
structure Heap where
  objects : Nat → TableObj
  next : Nat

/-- `seen` holds the pairs of `TableClonePair`. -/
structure State where
  heap : Heap
  seen : List (Nat × Nat)

namespace State

def setTable (s : State) (a : Nat) (t : Table) : State :=
  { s with heap := { s.heap with
      objects := Function.update s.heap.objects a { s.heap.objects a with table := t } } }

/-- `clone->table.array[i] = v` -/
def setPlace (s : State) (a : Nat) (i : Nat) (v : Value) : State :=
  let t := (s.heap.objects a).table
  s.setTable a { t with array := t.array.set i v }

/-- The new table for `source`, and its pair. -/
def newClone (s : State) (deep : Bool) (source : Nat) : State :=
  let o := s.heap.objects source
  { heap :=
      { objects := Function.update s.heap.objects s.heap.next ⟨initTable, o.metatable, o.isModule⟩
        next := s.heap.next + 1 }
    seen := if deep then s.seen ++ [(source, s.heap.next)] else s.seen }

/-- The array of the clone as `malloc` gives it: no place is read before it is written. -/
def mallocArray (s : State) (clone : Nat) (t : Table) : State :=
  s.setTable clone { (s.heap.objects clone).table with
    array := List.replicate t.arrayCapacity .nil
    arrayMax := t.arrayMax }

/-- The clone of a table that has been seen. -/
def cloneOf? (s : State) (source : Nat) : Option Nat :=
  (s.seen.find? fun pair => pair.1 == source).map Prod.snd

end State

section Clone

variable (recurse : Nat → State → Option (Nat × State)) (deep : Bool)

def cloneValue (v : Value) (s : State) : Option (Value × State) :=
  match v with
  | .table child =>
    if deep then (recurse child s).map fun (clone, s) => (.table clone, s) else some (v, s)
  | v => some (v, s)

/-- The loop over the array part of the source, whose values no turn changes. -/
def cloneArray (clone : Nat) : List Value → Nat → State → Option State
  | [], _, s => some s
  | v :: values, i, s => do
    let (w, s) ← cloneValue recurse deep v s
    cloneArray clone values (i + 1) (s.setPlace clone i w)

/-- The array part of the clone. -/
def fillArray (clone : Nat) (t : Table) (s : State) : Option State :=
  if t.arrayCapacity > 0 then cloneArray recurse deep clone t.array 0 (s.mallocArray clone t)
  else some s

variable (hash : Bytes → UInt32)

/-- The loop over the hash part. -/
def cloneEntries (clone : Nat) : List Entry → State → Option State
  | [], s => some s
  | entry :: entries, s =>
    match entry.key with
    | none => cloneEntries clone entries s
    | some key =>
      if entry.value = .nil then cloneEntries clone entries s
      else do
        let (w, s) ← cloneValue recurse deep entry.value s
        let (t, _) ← tableSet hash (s.heap.objects clone).table key w
        cloneEntries clone entries (s.setTable clone t)

/-- What follows the push of the new table. -/
def fillClone (source : Nat) (s : State) : Option (Nat × State) := do
  let clone := s.heap.next
  let t := (s.heap.objects source).table
  let s := s.newClone deep source
  let s ← fillArray recurse deep clone t s
  let s ← cloneEntries recurse deep hash clone t.entries s
  return (clone, s)

/-- With room for so many values on the operand stack: none where `push` writes behind the stack. -/
def tableCloneRecursive : Nat → Nat → State → Option (Nat × State)
  | 0, source, s =>
    match if deep then s.cloneOf? source else none with
    | some clone => some (clone, s)
    | none => none
  | room + 1, source, s =>
    match if deep then s.cloneOf? source else none with
    | some clone => some (clone, s)
    | none => fillClone (tableCloneRecursive room) deep hash source s

end Clone

/-- The arguments behind the table say whether the clone is deep. -/
def deepOf (hash : Bytes → UInt32) (H : Heap) : List Value → Option (Except String Bool)
  | [] => some (.ok false)
  | [.bool b] => some (.ok b)
  | [.table a] => do
    match ← tableGet hash (H.objects a).table (ascii "deep") with
    | none => some (.ok false)
    | some (.bool b) => some (.ok b)
    | some _ => some (.error "table.clone: deep must be a bool.")
  | [_] => some (.error "table.clone: deep must be a bool.")
  | _ => some (.error "table.clone: expected 1 to 2 arguments.")

def tableClone (hash : Bytes → UInt32) (room : Nat) (t : Nat) (rest : List Value) (H : Heap) :
    Option (Except String (Nat × Heap)) := do
  match ← deepOf hash H rest with
  | .error message => some (.error message)
  | .ok deep =>
    let (clone, s) ← tableCloneRecursive deep hash room t ⟨H, []⟩
    some (.ok (clone, s.heap))

section Graph

variable (hash : Bytes → UInt32)

/-- A value of `o` is the table `b`. -/
def Child (o : TableObj) (b : Nat) : Prop :=
  .table b ∈ o.table.array ∨ ∃ s, o.table.hashValue hash s = .table b

/-- The tables that are reached from `a` through the values of tables. -/
def Reaches (H : Heap) : Nat → Nat → Prop :=
  Relation.ReflTransGen fun a b => Child hash (H.objects a) b

/-- The table that an entry holds. -/
def entryRef (e : Entry) : Option Nat := if e.key.isSome then e.value.ref else none

/-- The tables of a table in the order of the two loops. -/
def children (o : TableObj) : List Nat :=
  o.table.array.filterMap Value.ref ++ o.table.entries.filterMap entryRef

/-- What the operations leave: every hash part holds a map, and a table refers to tables that there are. -/
structure Heap.WellFormed (H : Heap) : Prop where
  represents : ∀ a, a < H.next → ∃ h, (H.objects a).table.Represents hash h
  child : ∀ a, a < H.next → ∀ b, Child hash (H.objects a) b → b < H.next

/-- A value with its table replaced. -/
def mapRef (f : Nat → Nat) : Value → Value
  | .table a => .table (f a)
  | v => v

/-- `f` takes the graph of `a` in one heap to an equal graph of fresh tables in the other. -/
structure GraphCopy (H H' : Heap) (a : Nat) (f : Nat → Nat) : Prop where
  fresh : ∀ x, Reaches hash H a x → H.next ≤ f x ∧ f x < H'.next
  injective : ∀ x y, Reaches hash H a x → Reaches hash H a y → f x = f y → x = y
  onto : ∀ y, Reaches hash H' (f a) y → ∃ x, Reaches hash H a x ∧ f x = y
  metatable : ∀ x, Reaches hash H a x → (H'.objects (f x)).metatable = (H.objects x).metatable
  isModule : ∀ x, Reaches hash H a x → (H'.objects (f x)).isModule = (H.objects x).isModule
  array : ∀ x, Reaches hash H a x →
    (H'.objects (f x)).table.array = (H.objects x).table.array.map (mapRef f)
  hashPart : ∀ x, Reaches hash H a x → ∀ s,
    (H'.objects (f x)).table.hashValue hash s = mapRef f ((H.objects x).table.hashValue hash s)

/-- The call returns a copy of the graph of `t`, and every table that there was is as it was. -/
def DeepCopies (room : Nat) (t : Nat) (H : Heap) : Prop :=
  ∃ c H', tableClone hash room t [.bool true] H = some (.ok (c, H')) ∧
    (∀ b, b < H.next → H'.objects b = H.objects b) ∧ ∃ f, f t = c ∧ GraphCopy hash H H' t f

/-- So many tables are open at once in a depth-first search from `t`. -/
def Depth (t : Nat) (H : Heap) (d : Nat) : Prop :=
  ∃ seen, DepthFirst.Visits (fun a => children (H.objects a)) [] [t] seen d

end Graph

/-- The value of the clone for a value of the source. -/
def ValueCopy (seen : List (Nat × Nat)) (v w : Value) : Prop :=
  match v.ref with
  | some a => ∃ c, w = .table c ∧ (a, c) ∈ seen
  | none => w = v

section Copy

variable {hash : Bytes → UInt32} {seen seen' : List (Nat × Nat)} {v w : Value} {o o' : TableObj}

theorem Value.eq_table {a : Nat} (h : v.ref = some a) : v = .table a := by
  cases v with
  | table b => exact congrArg Value.table (Option.some.inj h)
  | _ => cases h

theorem ValueCopy.leaf (hv : v.ref = none) : ValueCopy seen v v := by
  unfold ValueCopy
  rw [hv]

theorem ValueCopy.mono (h : ValueCopy seen v w) (hs : seen ⊆ seen') : ValueCopy seen' v w := by
  unfold ValueCopy at *
  cases hv : v.ref with
  | none =>
    rw [hv] at h
    exact h
  | some a =>
    rw [hv] at h
    obtain ⟨c, hw, hc⟩ := h
    exact ⟨c, hw, hs hc⟩

/-- `o'` is the finished clone of `o`. -/
structure Copied (hash : Bytes → UInt32) (seen : List (Nat × Nat)) (o o' : TableObj) : Prop where
  metatable : o'.metatable = o.metatable
  isModule : o'.isModule = o.isModule
  array : List.Forall₂ (ValueCopy seen) o.table.array o'.table.array
  hashPart : ∀ s, ValueCopy seen (o.table.hashValue hash s) (o'.table.hashValue hash s)

theorem Copied.mono (h : Copied hash seen o o') (hs : seen ⊆ seen') : Copied hash seen' o o' :=
  ⟨h.metatable, h.isModule, h.array.imp fun _ _ hv => hv.mono hs, fun s => (h.hashPart s).mono hs⟩

end Copy

section Invariant

variable {hash : Bytes → UInt32} {H : Heap} {s s₁ s₂ s₃ : State} {n : Nat}

/-- The tables that there were are as they were, and every pair is one of them and a fresh table. -/
structure Good (H : Heap) (s : State) : Prop where
  next : H.next ≤ s.heap.next
  kept : ∀ b, b < H.next → s.heap.objects b = H.objects b
  pair : ∀ p, p ∈ s.seen → p.1 < H.next ∧ H.next ≤ p.2 ∧ p.2 < s.heap.next
  sources : (s.seen.map Prod.fst).Nodup
  clones : (s.seen.map Prod.snd).Nodup

/-- What is done while the table `n` is filled: the other tables stay, and the pairs that are added are of
finished clones. -/
structure Extends (hash : Bytes → UInt32) (H : Heap) (n : Nat) (s s' : State) : Prop where
  next : s.heap.next ≤ s'.heap.next
  frame : ∀ b, b < s.heap.next → b ≠ n → s'.heap.objects b = s.heap.objects b
  seen : ∃ more, s'.seen = s.seen ++ more ∧ ∀ p, p ∈ more →
    s.heap.next ≤ p.2 ∧ Copied hash s'.seen (H.objects p.1) (s'.heap.objects p.2)

theorem Extends.refl (hash : Bytes → UInt32) (H : Heap) (n : Nat) (s : State) : Extends hash H n s s :=
  ⟨Nat.le_refl _, fun _ _ _ => rfl, [], (List.append_nil _).symm, fun _ hp => nomatch hp⟩

theorem Extends.seen_subset (h : Extends hash H n s₁ s₂) : s₁.seen ⊆ s₂.seen := by
  obtain ⟨more, hmore, -⟩ := h.seen
  rw [hmore]
  exact List.subset_append_left _ _

theorem Extends.trans (h : Extends hash H n s₁ s₂) (h' : Extends hash H n s₂ s₃) (hn : n < s₁.heap.next)
    (hg : Good H s₂) : Extends hash H n s₁ s₃ := by
  obtain ⟨more, hmore, hcopied⟩ := h.seen
  obtain ⟨more', hmore', hcopied'⟩ := h'.seen
  have hnext := h.next
  refine ⟨Nat.le_trans h.next h'.next, fun b hb hne => ?_, more ++ more', ?_, fun p hp => ?_⟩
  · rw [h'.frame b (by omega) hne, h.frame b hb hne]
  · rw [hmore', hmore, List.append_assoc]
  · rcases List.mem_append.mp hp with hold | hnew
    · obtain ⟨hfresh, hdone⟩ := hcopied p hold
      have hmem : p ∈ s₂.seen := by
        rw [hmore]
        exact List.mem_append_right _ hold
      refine ⟨hfresh, ?_⟩
      rw [h'.frame p.2 (hg.pair p hmem).2.2 (by omega)]
      exact hdone.mono h'.seen_subset
    · obtain ⟨hfresh, hdone⟩ := hcopied' p hnew
      exact ⟨by omega, hdone⟩

/-- A whole call leaves the table that is being filled. -/
theorem Extends.whole (h : Extends hash H s₁.heap.next s₁ s₂) : Extends hash H n s₁ s₂ :=
  ⟨h.next, fun b hb _ => h.frame b hb (by omega), h.seen⟩

theorem extends_set (t : Table) : Extends hash H n s (s.setTable n t) :=
  ⟨Nat.le_refl _, fun _ _ hne => Function.update_of_ne hne _ _, [], (List.append_nil _).symm,
    fun _ hp => nomatch hp⟩

theorem Good.set (hg : Good H s) (hlo : H.next ≤ n) (t : Table) : Good H (s.setTable n t) where
  next := hg.next
  kept := by
    intro b hb
    have hne : b ≠ n := by omega
    rw [← hg.kept b hb]
    exact Function.update_of_ne hne _ _
  pair := hg.pair
  sources := hg.sources
  clones := hg.clones

end Invariant

def State.sources (s : State) : List Nat := s.seen.map Prod.fst

section Loops

variable {hash : Bytes → UInt32} {H : Heap} {visit : Nat → List Nat → Option (List Nat)}
  {recurse : Nat → State → Option (Nat × State)} {s : State} {n : Nat}

/-- What a call does that comes to its end, and that it comes to its end where the search does. -/
def CloneSpec (hash : Bytes → UInt32) (H : Heap) (visit : Nat → List Nat → Option (List Nat))
    (recurse : Nat → State → Option (Nat × State)) : Prop :=
  ∀ a s, a < H.next → Good H s →
    (∃ c s', recurse a s = some (c, s') ∧ visit a s.sources = some s'.sources ∧ Good H s' ∧
      Extends hash H s.heap.next s s' ∧ (a, c) ∈ s'.seen) ∨
    recurse a s = none ∧ visit a s.sources = none

theorem cloneValue_spec (hrec : CloneSpec hash H visit recurse) {v : Value}
    (hv : ∀ a, v.ref = some a → a < H.next) (hg : Good H s) :
    (∃ w s', cloneValue recurse true v s = some (w, s') ∧
      DepthFirst.searchAll visit v.ref.toList s.sources = some s'.sources ∧ Good H s' ∧
      Extends hash H s.heap.next s s' ∧ ValueCopy s'.seen v w) ∨
    cloneValue recurse true v s = none ∧ DepthFirst.searchAll visit v.ref.toList s.sources = none := by
  cases hr : v.ref with
  | none =>
    have hleaf : cloneValue recurse true v s = some (v, s) := by
      cases v with
      | table a => cases hr
      | _ => rfl
    exact .inl ⟨v, s, hleaf, rfl, hg, .refl .., .leaf hr⟩
  | some a =>
    rw [Value.eq_table hr]
    have hsearch : DepthFirst.searchAll visit (some a).toList s.sources = visit a s.sources :=
      DepthFirst.searchAll_singleton visit
    rw [hsearch]
    unfold cloneValue
    rcases hrec a s (hv a hr) hg with ⟨c, s', hrun, hvisit, hg', he, hmem⟩ | ⟨hrun, hvisit⟩
    · left
      dsimp only
      rw [if_pos rfl, hrun]
      exact ⟨.table c, s', rfl, hvisit, hg', he, c, rfl, hmem⟩
    · right
      dsimp only
      rw [if_pos rfl, hrun]
      exact ⟨rfl, hvisit⟩

theorem filterMap_ref_cons {X : Type} (f : X → Option Nat) (x : X) (xs : List X) :
    (x :: xs).filterMap f = (f x).toList ++ xs.filterMap f := by
  rw [List.filterMap_cons]
  cases f x <;> rfl

theorem setPlace_object {pre junk : List Value} {v w : Value}
    (harray : (s.heap.objects n).table.array = pre ++ v :: junk) :
    (s.setPlace n pre.length w).heap.objects n =
      { s.heap.objects n with table := { (s.heap.objects n).table with array := pre ++ w :: junk } } := by
  unfold State.setPlace State.setTable
  dsimp only
  rw [Function.update_self, harray, List.set_append_right _ _ (Nat.le_refl _), Nat.sub_self]
  rfl

theorem cloneArray_spec (hrec : CloneSpec hash H visit recurse) (hlo : H.next ≤ n) {values : List Value}
    (hvalues : ∀ v ∈ values, ∀ a, v.ref = some a → a < H.next) (pre junk : List Value) (hn : n < s.heap.next)
    (hg : Good H s) (harray : (s.heap.objects n).table.array = pre ++ junk)
    (hlen : junk.length = values.length) :
    (∃ s' ws, cloneArray recurse true n values pre.length s = some s' ∧
      DepthFirst.searchAll visit (values.filterMap Value.ref) s.sources = some s'.sources ∧ Good H s' ∧
      Extends hash H n s s' ∧ List.Forall₂ (ValueCopy s'.seen) values ws ∧
      s'.heap.objects n =
        { s.heap.objects n with table := { (s.heap.objects n).table with array := pre ++ ws } }) ∨
    cloneArray recurse true n values pre.length s = none ∧
      DepthFirst.searchAll visit (values.filterMap Value.ref) s.sources = none := by
  induction values generalizing s pre junk with
  | nil =>
    cases List.eq_nil_of_length_eq_zero hlen
    refine .inl ⟨s, [], rfl, rfl, hg, .refl .., .nil, ?_⟩
    rw [← harray]
  | cons v values ih =>
    obtain ⟨x, junk, rfl⟩ : ∃ x xs, junk = x :: xs := List.exists_cons_of_length_eq_add_one hlen
    rw [filterMap_ref_cons, DepthFirst.searchAll_append]
    unfold cloneArray
    rcases cloneValue_spec hrec (hvalues v List.mem_cons_self) hg with
      ⟨w, s₁, hrun, hvisit, hg₁, he, hcopy⟩ | ⟨hrun, hvisit⟩
    · have hkept : s₁.heap.objects n = s.heap.objects n := he.frame n hn (Nat.ne_of_lt hn)
      have hnext := he.next
      rw [hrun, hvisit, Option.bind_some]
      change (∃ s' ws, cloneArray recurse true n values (pre.length + 1) (s₁.setPlace n pre.length w) = some s' ∧
        _) ∨ cloneArray recurse true n values (pre.length + 1) (s₁.setPlace n pre.length w) = none ∧ _
      have hobject : (s₁.setPlace n pre.length w).heap.objects n =
          { s₁.heap.objects n with
            table := { (s₁.heap.objects n).table with array := pre ++ w :: junk } } :=
        setPlace_object (by rw [hkept, harray])
      have hpre : pre.length + 1 = (pre ++ [w]).length := by rw [List.length_append]; rfl
      have hset : Extends hash H n s₁ (s₁.setPlace n pre.length w) := extends_set _
      have hg₂ : Good H (s₁.setPlace n pre.length w) := hg₁.set hlo _
      rw [hpre]
      rcases ih (s := s₁.setPlace n pre.length w) (fun v hv => hvalues v (List.mem_cons_of_mem _ hv))
        (pre ++ [w]) junk (Nat.lt_of_lt_of_le hn hnext) hg₂
        (by rw [hobject, List.append_assoc]; rfl) (Nat.succ.inj hlen) with
        ⟨s', ws, hloop, hrest, hg', he', hcopies, hfinal⟩ | hnone
      · left
        have hstep := (he.whole (n := n)).trans hset hn hg₁
        have hcopy' : ValueCopy s'.seen v w := hcopy.mono he'.seen_subset
        refine ⟨s', w :: ws, hloop, hrest, hg', hstep.trans he' hn hg₂, .cons hcopy' hcopies, ?_⟩
        rw [hfinal, hobject, hkept, List.append_assoc]
        rfl
      · exact .inr hnone
    · right
      rw [hrun, hvisit]
      exact ⟨rfl, rfl⟩

/-- How far the loop over the hash part has come: the map of the entries that are done, and the clone. -/
structure Transferred (hash : Bytes → UInt32) (done : List Entry) (n : Nat) (s : State) : Prop where
  maps : ∃ m h, Holds (slots done) m ∧ (s.heap.objects n).table.Represents hash h ∧
    ∀ key, ValueCopy s.seen ((m key).getD .nil) ((h key).getD .nil)

/-- An entry that the loop passes over. -/
theorem Transferred.skip {done es : List Entry} {e : Entry} (ht : Transferred hash done n s)
    (hd : DistinctKeys (slots (done ++ e :: es))) (he : e.key = none ∨ e.value = .nil) :
    Transferred hash (done ++ [e]) n s := by
  obtain ⟨m, h, hm, hr, hcopy⟩ := ht.maps
  obtain ⟨ek, ev⟩ := e
  cases ek with
  | none => exact ⟨m, h, holds_append_free hm rfl, hr, hcopy⟩
  | some key =>
    have hnil : ev = .nil := he.resolve_left fun h => nomatch h
    subst hnil
    have habs := hd.absent
    refine ⟨_, h, holds_append hm habs, hr, fun key' => ?_⟩
    have hold := hcopy key'
    by_cases hk : key' = key
    · subst hk
      rw [hm.get_absent habs] at hold
      rwa [Function.update_self]
    · rwa [Function.update_of_ne hk]

/-- An entry whose value is copied. -/
theorem Transferred.put {done es : List Entry} {key : Bytes} {v w : Value} {s₁ : State} {t : Table}
    {isNewKey : Bool} (ht : Transferred hash done n s) (hd : DistinctKeys (slots (done ++ ⟨some key, v⟩ :: es)))
    (hkept : s₁.heap.objects n = s.heap.objects n) (hseen : s.seen ⊆ s₁.seen) (hcopy : ValueCopy s₁.seen v w)
    (hset : tableSet hash (s₁.heap.objects n).table key w = some (t, isNewKey)) :
    Transferred hash (done ++ [⟨some key, v⟩]) n (s₁.setTable n t) := by
  obtain ⟨m, h, hm, hr, hcopies⟩ := ht.maps
  rw [hkept] at hset
  obtain ⟨t', ht', hr', -⟩ := tableSet_spec hr key w
  rw [hset] at ht'
  obtain ⟨rfl, -⟩ := Prod.mk.inj (Option.some.inj ht')
  refine ⟨_, Function.update h key (some w), holds_append hm hd.absent, ?_, fun key' => ?_⟩
  · have hobject : ((s₁.setTable n t).heap.objects n).table = t := by
      unfold State.setTable
      dsimp only
      rw [Function.update_self]
    rw [hobject]
    exact hr'
  · by_cases hk : key' = key
    · subst hk
      rw [Function.update_self, Function.update_self]
      exact hcopy
    · rw [Function.update_of_ne hk, Function.update_of_ne hk]
      exact (hcopies key').mono hseen

theorem Transferred.kept {done : List Entry} {s₁ : State} (ht : Transferred hash done n s)
    (hkept : s₁.heap.objects n = s.heap.objects n) (hseen : s.seen ⊆ s₁.seen) :
    Transferred hash done n s₁ := by
  obtain ⟨m, h, hm, hr, hcopies⟩ := ht.maps
  refine ⟨m, h, hm, ?_, fun key => (hcopies key).mono hseen⟩
  rw [hkept]
  exact hr

theorem cloneEntries_spec (hrec : CloneSpec hash H visit recurse) (hlo : H.next ≤ n) (done es : List Entry)
    (hvalues : ∀ e ∈ es, ∀ a, entryRef e = some a → a < H.next) (hd : DistinctKeys (slots (done ++ es)))
    (hn : n < s.heap.next) (hg : Good H s) (ht : Transferred hash done n s) :
    (∃ s', cloneEntries recurse true hash n es s = some s' ∧
      DepthFirst.searchAll visit (es.filterMap entryRef) s.sources = some s'.sources ∧ Good H s' ∧
      Extends hash H n s s' ∧ Transferred hash (done ++ es) n s' ∧
      ∃ t, s'.heap.objects n = { s.heap.objects n with table := t } ∧
        t.array = (s.heap.objects n).table.array) ∨
    cloneEntries recurse true hash n es s = none ∧
      DepthFirst.searchAll visit (es.filterMap entryRef) s.sources = none := by
  induction es generalizing s done with
  | nil =>
    rw [List.append_nil]
    exact .inl ⟨s, rfl, rfl, hg, .refl .., ht, _, rfl, rfl⟩
  | cons e es ih =>
    have happend : done ++ e :: es = (done ++ [e]) ++ es := by rw [List.append_assoc]; rfl
    have hvalues' := fun e' he' => hvalues e' (List.mem_cons_of_mem e he')
    have hd' := happend ▸ hd
    have hskip (hpass : e.key = none ∨ e.value = .nil) (href : entryRef e = none)
        (hrun : cloneEntries recurse true hash n (e :: es) s = cloneEntries recurse true hash n es s) := by
      have hnext := ih (done ++ [e]) hvalues' hd' hn hg (ht.skip hd hpass)
      have hsame : (e :: es).filterMap entryRef = es.filterMap entryRef := List.filterMap_cons_none href
      rw [← happend, ← hrun, ← hsame] at hnext
      exact hnext
    obtain ⟨ek, v⟩ := e
    cases ek with
    | none => exact hskip (.inl rfl) rfl rfl
    | some key =>
      by_cases hnil : v = .nil
      · subst hnil
        exact hskip (.inr rfl) rfl rfl
      · rw [filterMap_ref_cons, DepthFirst.searchAll_append]
        have hloop : cloneEntries recurse true hash n (⟨some key, v⟩ :: es) s =
            (cloneValue recurse true v s).bind fun (w, s) =>
              (tableSet hash (s.heap.objects n).table key w).bind fun (t, _) =>
                cloneEntries recurse true hash n es (s.setTable n t) := by
          change (if v = .nil then _ else _) = _
          rw [if_neg hnil]
          rfl
        rw [hloop]
        rcases cloneValue_spec hrec (hvalues ⟨some key, v⟩ List.mem_cons_self) hg with
          ⟨w, s₁, hrun, hvisit, hg₁, he, hcopy⟩ | ⟨hrun, hvisit⟩
        · have hkept : s₁.heap.objects n = s.heap.objects n := he.frame n hn (Nat.ne_of_lt hn)
          have hnext := he.next
          obtain ⟨m, h, -, hr, -⟩ := (ht.kept hkept he.seen_subset).maps
          obtain ⟨t, hset, -, -, harray, -⟩ := tableSet_spec hr key w
          have hput := ht.put hd hkept he.seen_subset hcopy hset
          have hwrite : Extends hash H n s₁ (s₁.setTable n t) := extends_set t
          have hg₂ : Good H (s₁.setTable n t) := hg₁.set hlo t
          have hobject : (s₁.setTable n t).heap.objects n = { s.heap.objects n with table := t } := by
            unfold State.setTable
            dsimp only
            rw [Function.update_self, hkept]
          change DepthFirst.searchAll visit v.ref.toList s.sources = some s₁.sources at hvisit
          have href : entryRef ⟨some key, v⟩ = v.ref := rfl
          rw [href, hvisit, hrun, Option.bind_some, Option.bind_some]
          dsimp only
          rw [hset, Option.bind_some]
          dsimp only
          rcases ih (done ++ [⟨some key, v⟩]) hvalues' hd' (s := s₁.setTable n t) (Nat.lt_of_lt_of_le hn hnext) hg₂ hput with
            ⟨s', hrun', hrest, hg', he', ht', u, hu, huarray⟩ | hnone
          · left
            have hstep := (he.whole (n := n)).trans hwrite hn hg₁
            rw [← happend] at ht'
            refine ⟨s', hrun', hrest, hg', hstep.trans he' hn hg₂, ht', u, ?_, ?_⟩
            · rw [hu, hobject]
            · rw [huarray, hobject, harray, hkept]
          · exact .inr hnone
        · right
          have href : entryRef ⟨some key, v⟩ = v.ref := rfl
          rw [href, hvisit, hrun]
          exact ⟨rfl, rfl⟩

theorem cloneOf?_none {a : Nat} (h : s.cloneOf? a = none) : a ∉ s.sources := by
  intro ha
  obtain ⟨p, hp, rfl⟩ := List.mem_map.mp ha
  have hfind := List.find?_eq_none.mp (Option.map_eq_none_iff.mp h) p hp
  exact hfind (beq_self_eq_true p.1)

theorem cloneOf?_some {a c : Nat} (h : s.cloneOf? a = some c) : (a, c) ∈ s.seen := by
  obtain ⟨p, hp, rfl⟩ := Option.map_eq_some_iff.mp h
  have ha := List.find?_some hp
  rw [← beq_iff_eq.mp ha]
  exact List.mem_of_find?_eq_some hp

theorem mem_sources {a c : Nat} (h : (a, c) ∈ s.seen) : a ∈ s.sources := List.mem_map.mpr ⟨_, h, rfl⟩

theorem newClone_object (deep : Bool) (a : Nat) : (s.newClone deep a).heap.objects s.heap.next =
    ⟨initTable, (s.heap.objects a).metatable, (s.heap.objects a).isModule⟩ :=
  Function.update_self ..

theorem newClone_frame (deep : Bool) (a : Nat) {b : Nat} (hb : b < s.heap.next) :
    (s.newClone deep a).heap.objects b = s.heap.objects b :=
  Function.update_of_ne (Nat.ne_of_lt hb) _ _

theorem newClone_sources (a : Nat) : (s.newClone true a).sources = s.sources ++ [a] :=
  List.map_append

theorem Good.newClone {a : Nat} (hg : Good H s) (ha : a < H.next) (hnew : a ∉ s.sources) :
    Good H (s.newClone true a) where
  next := Nat.le_succ_of_le hg.next
  kept := by
    intro b hb
    have hnext := hg.next
    rw [newClone_frame true a (by omega), hg.kept b hb]
  pair := by
    intro p hp
    rcases List.mem_append.mp hp with hold | hlast
    · have hpair := hg.pair p hold
      exact ⟨hpair.1, hpair.2.1, Nat.lt_succ_of_lt hpair.2.2⟩
    · rw [List.mem_singleton.mp hlast]
      exact ⟨ha, hg.next, Nat.lt_succ_self _⟩
  sources := by
    have hs := newClone_sources (s := s) a
    unfold State.sources at hs hnew
    rw [hs]
    refine List.nodup_append.mpr ⟨hg.sources, List.nodup_singleton a, fun x hx y hy hxy => ?_⟩
    rw [List.mem_singleton.mp hy] at hxy
    exact hnew (hxy ▸ hx)
  clones := by
    change ((s.seen ++ [(a, s.heap.next)]).map Prod.snd).Nodup
    rw [List.map_append]
    refine List.nodup_append.mpr ⟨hg.clones, List.nodup_singleton _, fun x hx y hy hxy => ?_⟩
    obtain ⟨p, hp, rfl⟩ := List.mem_map.mp hx
    have hlt := (hg.pair p hp).2.2
    rw [hxy, List.mem_singleton.mp hy] at hlt
    exact Nat.lt_irrefl _ hlt

theorem fillArray_spec (hrec : CloneSpec hash H visit recurse) (hlo : H.next ≤ n) {t : Table}
    (hvalues : ∀ v ∈ t.array, ∀ a, v.ref = some a → a < H.next) (hn : n < s.heap.next) (hg : Good H s)
    (hempty : (s.heap.objects n).table = initTable) :
    (∃ s', fillArray recurse true n t s = some s' ∧
      DepthFirst.searchAll visit (t.array.filterMap Value.ref) s.sources = some s'.sources ∧ Good H s' ∧
      Extends hash H n s s' ∧ Transferred hash [] n s' ∧
      List.Forall₂ (ValueCopy s'.seen) t.array (s'.heap.objects n).table.array ∧
      ∃ u, s'.heap.objects n = { s.heap.objects n with table := u }) ∨
    fillArray recurse true n t s = none ∧
      DepthFirst.searchAll visit (t.array.filterMap Value.ref) s.sources = none := by
  have htransferred (s' : State) (u : Table) (hu : s'.heap.objects n = { s.heap.objects n with table := u })
      (hcount : u.count = 0) (hentries : u.entries = []) : Transferred hash [] n s' := by
    refine ⟨fun _ => none, fun _ => none, holds_replicate 0, ?_, fun _ => .leaf rfl⟩
    rw [hu]
    exact initTable_represents.of_hash hcount hentries
  unfold fillArray
  by_cases hcap : t.arrayCapacity > 0
  · rw [if_pos hcap]
    have hmalloc : (s.mallocArray n t).heap.objects n = { s.heap.objects n with
        table := { initTable with array := List.replicate t.arrayCapacity .nil, arrayMax := t.arrayMax } } := by
      unfold State.mallocArray State.setTable
      dsimp only
      rw [Function.update_self, hempty]
    have hset : Extends hash H n s (s.mallocArray n t) := extends_set _
    have hg₁ : Good H (s.mallocArray n t) := hg.set hlo _
    rcases cloneArray_spec (s := s.mallocArray n t) hrec hlo hvalues [] (List.replicate t.arrayCapacity .nil) hn hg₁ (by rw [hmalloc]; rfl)
      (by rw [List.length_replicate]; rfl) with
      ⟨s', ws, hrun, hvisit, hg', he, hcopies, hobject⟩ | hnone
    · left
      rw [hmalloc] at hobject
      refine ⟨s', hrun, hvisit, hg', hset.trans he hn hg₁, htransferred s' _ hobject rfl rfl, ?_, _, hobject⟩
      rw [hobject]
      exact hcopies
    · exact .inr hnone
  · rw [if_neg hcap]
    have hnil : t.array = [] := List.eq_nil_of_length_eq_zero (by unfold Table.arrayCapacity at hcap; omega)
    rw [hnil]
    refine .inl ⟨s, rfl, rfl, hg, .refl .., htransferred s initTable ?_ rfl rfl, ?_, _, rfl⟩
    · rw [← hempty]
    · rw [hempty]
      exact .nil

theorem child_of_array {o : TableObj} {v : Value} (hv : v ∈ o.table.array) {a : Nat} (ha : v.ref = some a) :
    Child hash o a :=
  .inl (Value.eq_table ha ▸ hv)

theorem child_of_entry {o : TableObj} {h : Bytes → Option Value} (hr : o.table.Represents hash h) {e : Entry}
    (he : e ∈ o.table.entries) {a : Nat} (ha : entryRef e = some a) : Child hash o a := by
  obtain ⟨ek, v⟩ := e
  cases ek with
  | none => cases ha
  | some key =>
    have hmem : Slot.used key v ∈ slots o.table.entries := List.mem_map.mpr ⟨_, he, rfl⟩
    have hh : h key = some v := (holds_iff_mem.mp hr.holds key v).mpr hmem
    refine .inr ⟨key, ?_⟩
    rw [hashValue_eq hr, hh]
    exact Value.eq_table ha

theorem holds_unique {ss : List (Slot Bytes Value)} {m m' : Bytes → Option Value} (h : Holds ss m)
    (h' : Holds ss m') : m = m' := by
  funext key
  refine Option.ext fun v => ?_
  rw [h key v, h' key v]

/-- The pairs after the clone of `a` is filled. -/
theorem fill_extends {a : Nat} {s' : State} (he : Extends hash H s.heap.next (s.newClone true a) s')
    (hdone : Copied hash s'.seen (H.objects a) (s'.heap.objects s.heap.next)) :
    Extends hash H s.heap.next s s' ∧ (a, s.heap.next) ∈ s'.seen := by
  obtain ⟨more, hmore, hcopied⟩ := he.seen
  have hnext := he.next
  have hseen : s'.seen = s.seen ++ ((a, s.heap.next) :: more) := by
    rw [hmore]
    exact List.append_assoc s.seen [(a, s.heap.next)] more
  have hsucc : (s.newClone true a).heap.next = s.heap.next + 1 := rfl
  refine ⟨⟨by omega, fun b hb hne => ?_, _, hseen, fun p hp => ?_⟩, ?_⟩
  · rw [he.frame b (by omega) hne, newClone_frame true a hb]
  · rcases List.mem_cons.mp hp with rfl | hp
    · exact ⟨Nat.le_refl _, hdone⟩
    · obtain ⟨hfresh, hcopy⟩ := hcopied p hp
      exact ⟨by omega, hcopy⟩
  · rw [hseen]
    exact List.mem_append_right _ List.mem_cons_self

theorem fillClone_spec (hrec : CloneSpec hash H visit recurse) (hw : H.WellFormed hash) {a : Nat}
    (ha : a < H.next) (hg : Good H s) (hnew : a ∉ s.sources) :
    (∃ c s', fillClone recurse true hash a s = some (c, s') ∧
      DepthFirst.searchAll visit (children (H.objects a)) (s.sources ++ [a]) = some s'.sources ∧ Good H s' ∧
      Extends hash H s.heap.next s s' ∧ (a, c) ∈ s'.seen) ∨
    fillClone recurse true hash a s = none ∧
      DepthFirst.searchAll visit (children (H.objects a)) (s.sources ++ [a]) = none := by
  obtain ⟨h₀, hr₀⟩ := hw.represents a ha
  have hsource : s.heap.objects a = H.objects a := hg.kept a ha
  have hg₁ := hg.newClone ha hnew
  have hobject := newClone_object (s := s) true a
  have hlt : s.heap.next < (s.newClone true a).heap.next := Nat.lt_succ_self _
  unfold fillClone children
  dsimp only
  rw [hsource, DepthFirst.searchAll_append, ← newClone_sources]
  rcases fillArray_spec hrec hg.next (n := s.heap.next) (t := (H.objects a).table)
    (fun v hv b hb => hw.child a ha b (child_of_array hv hb)) hlt hg₁ (by rw [hobject]) with
    ⟨s₂, hrun, hvisit, hg₂, he₂, ht₂, hcopies, u, hu⟩ | ⟨hrun, hvisit⟩
  · rw [hrun, hvisit, Option.bind_some]
    change (∃ c s', ((cloneEntries recurse true hash s.heap.next (H.objects a).table.entries s₂).bind _) = _ ∧ _) ∨
      ((cloneEntries recurse true hash s.heap.next (H.objects a).table.entries s₂).bind _) = _ ∧ _
    rcases cloneEntries_spec hrec hg.next [] (H.objects a).table.entries
      (fun e he b hb => hw.child a ha b (child_of_entry hr₀ he hb)) hr₀.valid.unique
      (Nat.lt_of_lt_of_le hlt he₂.next) hg₂ ht₂ with
      ⟨s', hrun', hvisit', hg', he', ht', u', hu', harray⟩ | ⟨hrun', hvisit'⟩
    · left
      rw [hrun', hvisit']
      have he := he₂.trans he' hlt hg₂
      have hdone : Copied hash s'.seen (H.objects a) (s'.heap.objects s.heap.next) := by
        obtain ⟨m, h, hm, hr, hmaps⟩ := ht'.maps
        have hmap := holds_unique hm hr₀.holds
        refine ⟨?_, ?_, ?_, fun key => ?_⟩
        · rw [hu', hu, hobject, hsource]
        · rw [hu', hu, hobject, hsource]
        · rw [hu']
          dsimp only
          rw [harray]
          exact hcopies.imp fun _ _ hv => hv.mono he'.seen_subset
        · rw [hashValue_eq hr₀, hashValue_eq hr, ← hmap]
          exact hmaps key
      obtain ⟨hext, hmem⟩ := fill_extends he hdone
      exact ⟨s.heap.next, s', rfl, rfl, hg', hext, hmem⟩
    · right
      rw [hrun', hvisit']
      exact ⟨rfl, rfl⟩
  · right
    rw [hrun, hvisit]
    exact ⟨rfl, rfl⟩

end Loops

/-- The search that the calls follow. -/
def visitTable (H : Heap) : Nat → Nat → List Nat → Option (List Nat) :=
  DepthFirst.search fun a => children (H.objects a)

theorem tableCloneRecursive_spec {hash : Bytes → UInt32} {H : Heap} (hw : H.WellFormed hash) (room : Nat) :
    CloneSpec hash H (visitTable H room) (tableCloneRecursive true hash room) := by
  induction room with
  | zero =>
    intro a s ha hg
    unfold tableCloneRecursive
    rw [if_pos rfl]
    cases hc : s.cloneOf? a with
    | some c =>
      have hmem := cloneOf?_some hc
      exact .inl ⟨c, s, rfl, DepthFirst.search_seen (mem_sources hmem), hg, .refl .., hmem⟩
    | none =>
      have hnew := cloneOf?_none hc
      exact .inr ⟨rfl, if_neg hnew⟩
  | succ room ih =>
    intro a s ha hg
    unfold tableCloneRecursive
    rw [if_pos rfl]
    cases hc : s.cloneOf? a with
    | some c =>
      have hmem := cloneOf?_some hc
      exact .inl ⟨c, s, rfl, DepthFirst.search_seen (mem_sources hmem), hg, .refl .., hmem⟩
    | none =>
      have hnew := cloneOf?_none hc
      have hsearch : visitTable H (room + 1) a s.sources = _ := DepthFirst.search_succ hnew
      rw [hsearch]
      exact fillClone_spec ih hw ha hg hnew

end ToiLang.TableClone
