import Mathlib.Order.WellFounded
import ToiLang.BTree.Contained
import ToiLang.BTree.File

namespace ToiLang

/-! The reads of a file with any pages behind its header. -/

/-- A way from place to place that has no end. -/
def Endless {α : Type} (r : α → α → Prop) (a : α) : Prop := ∃ f : Nat → α, f 0 = a ∧ ∀ n, r (f n) (f (n + 1))

theorem not_endless_iff {α : Type} {r : α → α → Prop} {a : α} :
    ¬Endless r a ↔ Acc (fun b a => r a b) a := by
  rw [acc_iff_isEmpty_descending_chain]
  constructor
  · intro h
    exact ⟨fun f => h ⟨f.1, f.2.1, f.2.2⟩⟩
  · rintro ⟨h⟩ ⟨f, h0, hstep⟩
    exact h ⟨f, h0, hstep⟩

namespace BTreeDb

variable (db : BTreeDb)

/-- The page under an id says the node. -/
def Says (p : UInt32) (n : NodeData) : Prop := ∃ page, db.pages p = some page ∧ NodeAt page n

/-- From a page to the one that a key is routed to. -/
def Routed (key : BTreeAtom) (p q : UInt32) : Prop :=
  ∃ leftChild entries, db.Says p (.internal leftChild entries) ∧
    q = (internalFindRoute leftChild entries key).2

/-- From a page to its left child. -/
def LeftOf (p q : UInt32) : Prop := ∃ entries, db.Says p (.internal q entries)

def children (leftChild : UInt32) (entries : List InternalEntry) : List UInt32 :=
  leftChild :: entries.map InternalEntry.child

/-- The page and all below it are tree pages, finitely many. -/
inductive Whole : UInt32 → Prop
  | leaf {p leftChild : UInt32} {entries : List LeafEntry} :
      db.Says p (.leaf leftChild entries) → Whole p
  | internal {p leftChild : UInt32} {entries : List InternalEntry} :
      db.Says p (.internal leftChild entries) → (∀ c ∈ children leftChild entries, Whole c) → Whole p

/-- From a page to a child, where all children before it are whole. -/
def Visits (p q : UInt32) : Prop :=
  ∃ leftChild entries before after, db.Says p (.internal leftChild entries) ∧
    children leftChild entries = before ++ q :: after ∧ ∀ c ∈ before, db.Whole c

/-- No page is read past its end and no read goes on without end. -/
structure Robust : Prop where
  inside : ∀ p page, db.pages p = some page → loadNode page ≠ .error .outOfBounds
  getValue : ∀ key, ∃ fuel, getValue key fuel db.rootPage db ≠ .undefined
  collectRange : ∀ min max limit, ∃ fuel, collectRange min max limit fuel db.rootPage [] db ≠ .undefined
  subtreeMinKey : ∀ p, ∃ fuel, subtreeMinKey fuel p db ≠ .undefined

/-- Every record that is looked at is inside of its page, and no chain of child pointers is
endless. -/
structure Tame : Prop where
  contained : ∀ p page, db.pages p = some page → Contained page
  routes : ∀ key, ¬Endless (db.Routed key) db.rootPage
  visits : ¬Endless db.Visits db.rootPage
  lefts : ∀ p, ¬Endless db.LeftOf p

end BTreeDb

section Reads

variable {db : BTreeDb} (hsize : ∀ p page, db.pages p = some page → page.length = 4096)
  (hin : ∀ p page, db.pages p = some page → Contained page)
include hsize

theorem says_unique {p : UInt32} {n n' : NodeData} (h : db.Says p n) (h' : db.Says p n') : n = n' := by
  obtain ⟨page, hpage, hn⟩ := h
  obtain ⟨page', hpage', hn'⟩ := h'
  obtain rfl := Option.some.inj (hpage.symm.trans hpage')
  exact nodeAt_unique (hsize p page hpage) hn hn'

include hin

/-- `node_load` on pages that are contained. -/
theorem nodeLoad_cases (p : UInt32) :
    (∃ n, db.Says p n ∧ nodeLoad p db = .done n db) ∨
      (∀ n, ¬db.Says p n) ∧ nodeLoad p db = .failed db := by
  cases hpage : db.pages p with
  | none =>
    refine .inr ⟨?_, ?_⟩
    · rintro n ⟨page, hsome, -⟩
      rw [hpage] at hsome
      cases hsome
    · have hread : dbReadPage p db = .failed db := by rw [dbReadPage, hpage]
      rw [nodeLoad, Io.bind_failed hread]
  | some page =>
    have hread : dbReadPage p db = .done page db := by rw [dbReadPage, hpage]
    rw [nodeLoad, Io.bind_done hread]
    cases loadNode_reads (hsize p page hpage) with
    | out hout _ _ => exact absurd (hin p page hpage) hout
    | found n _ hn hr =>
      rw [hr]
      exact .inl ⟨n, ⟨page, hpage, hn⟩, rfl⟩
    | failed _ hnone hr =>
      rw [hr]
      refine .inr ⟨?_, rfl⟩
      rintro n ⟨page', hsome, hn⟩
      obtain rfl := Option.some.inj (hpage.symm.trans hsome)
      exact hnone n hn

theorem nodeLoad_said {p : UInt32} {n : NodeData} (h : db.Says p n) : nodeLoad p db = .done n db := by
  rcases nodeLoad_cases hsize hin p with ⟨n', hn', hrun⟩ | ⟨hnone, -⟩
  · rw [hrun, says_unique hsize h hn']
  · exact absurd h (hnone n)

/-- The descent for a key ends exactly where no route is endless. -/
theorem getValue_terminates {key : BTreeAtom} {p : UInt32} :
    (∃ fuel, getValue key fuel p db ≠ .undefined) ↔ ¬Endless (db.Routed key) p := by
  rw [not_endless_iff]
  constructor
  · rintro ⟨fuel, h⟩
    induction fuel generalizing p with
    | zero => exact absurd rfl h
    | succ fuel ih =>
      refine Acc.intro p ?_
      rintro q ⟨leftChild, entries, hp, rfl⟩
      refine ih ?_
      rw [getValue, Io.bind_done (nodeLoad_said hsize hin hp)] at h
      exact h
  · intro h
    induction h with
    | intro p _ ih =>
      rcases nodeLoad_cases hsize hin p with ⟨n, hn, hrun⟩ | ⟨-, hrun⟩
      · cases n with
        | leaf leftChild entries =>
          refine ⟨1, ?_⟩
          rw [getValue, Io.bind_done hrun]
          nofun
        | internal leftChild entries =>
          obtain ⟨fuel, hfuel⟩ := ih _ ⟨leftChild, entries, hn, rfl⟩
          refine ⟨fuel + 1, ?_⟩
          rw [getValue, Io.bind_done hrun]
          exact hfuel
      · refine ⟨1, ?_⟩
        rw [getValue, Io.bind_failed hrun]
        nofun

theorem subtreeMinKey_terminates {p : UInt32} :
    (∃ fuel, subtreeMinKey fuel p db ≠ .undefined) ↔ ¬Endless db.LeftOf p := by
  rw [not_endless_iff]
  constructor
  · rintro ⟨fuel, h⟩
    induction fuel generalizing p with
    | zero => exact absurd rfl h
    | succ fuel ih =>
      refine Acc.intro p ?_
      rintro q ⟨entries, hp⟩
      refine ih ?_
      rw [subtreeMinKey, Io.bind_done (nodeLoad_said hsize hin hp)] at h
      exact h
  · intro h
    induction h with
    | intro p _ ih =>
      rcases nodeLoad_cases hsize hin p with ⟨n, hn, hrun⟩ | ⟨-, hrun⟩
      · cases n with
        | leaf leftChild entries =>
          refine ⟨1, ?_⟩
          rw [subtreeMinKey, Io.bind_done hrun]
          cases entries <;> nofun
        | internal leftChild entries =>
          obtain ⟨fuel, hfuel⟩ := ih _ ⟨entries, hn⟩
          refine ⟨fuel + 1, ?_⟩
          rw [subtreeMinKey, Io.bind_done hrun]
          exact hfuel
      · refine ⟨1, ?_⟩
        rw [subtreeMinKey, Io.bind_failed hrun]
        nofun

section Range

variable (min max : Option BTreeAtom) (limit : Int)

/-- The children of a page from one on, each as long as the limit is not reached. -/
def collectChildren (fuel : Nat) : List UInt32 → List LeafEntry → Io (List LeafEntry)
  | [], rows => pure rows
  | c :: cs, rows =>
    (if limitReached limit rows then pure rows else collectRange min max limit fuel c rows) >>=
      collectChildren fuel cs

omit hsize hin in
theorem foldlM_collect (fuel : Nat) (entries : List InternalEntry) (rows : List LeafEntry) :
    entries.foldlM (fun rows e => if limitReached limit rows then pure rows
      else collectRange min max limit fuel e.child rows) rows =
      collectChildren min max limit fuel (entries.map InternalEntry.child) rows := by
  induction entries generalizing rows with
  | nil => rfl
  | cons e entries ih =>
    rw [List.foldlM_cons, List.map_cons, collectChildren]
    simp only [ih]

omit hsize hin in
theorem collectRange_reached {rows : List LeafEntry} (h : limitReached limit rows = true) (fuel : Nat)
    (p : UInt32) : collectRange min max limit (fuel + 1) p rows = pure rows := by
  rw [collectRange, if_pos h]

variable {min max : Option BTreeAtom} {limit : Int} {rows : List LeafEntry}

theorem collectRange_leaf (h : limitReached limit rows = false) (fuel : Nat) {p leftChild : UInt32}
    {entries : List LeafEntry} (hp : db.Says p (.leaf leftChild entries)) :
    collectRange min max limit (fuel + 1) p rows db = .done (collectLeaf min max limit entries rows) db := by
  rw [collectRange, if_neg (by rw [h]; decide), Io.bind_done (nodeLoad_said hsize hin hp)]
  rfl

theorem collectRange_internal (h : limitReached limit rows = false) (fuel : Nat) {p leftChild : UInt32}
    {entries : List InternalEntry} (hp : db.Says p (.internal leftChild entries)) :
    collectRange min max limit (fuel + 1) p rows db =
      collectChildren min max limit fuel (BTreeDb.children leftChild entries) rows db := by
  rw [collectRange, if_neg (by rw [h]; decide), Io.bind_done (nodeLoad_said hsize hin hp),
    BTreeDb.children, collectChildren, if_neg (by rw [h]; decide)]
  simp only [foldlM_collect]

theorem collectRange_nothing (h : limitReached limit rows = false) (fuel : Nat) {p : UInt32}
    (hp : ∀ n, ¬db.Says p n) : collectRange min max limit (fuel + 1) p rows db = .failed db := by
  rcases nodeLoad_cases hsize hin p with ⟨n, hn, -⟩ | ⟨-, hrun⟩
  · exact absurd hn (hp n)
  · rw [collectRange, if_neg (by rw [h]; decide), Io.bind_failed hrun]

omit hsize hin in
theorem collectChildren_reached (h : limitReached limit rows = true) (fuel : Nat) (cs : List UInt32) :
    collectChildren min max limit fuel cs rows db = .done rows db := by
  induction cs with
  | nil => rfl
  | cons c cs ih =>
    rw [collectChildren, if_pos h]
    exact ih

/-- A page that was collected to its end, with the limit not reached, is whole. -/
theorem collectRange_done {fuel : Nat} {p : UInt32} {rows' : List LeafEntry} {db' : BTreeDb}
    (h : collectRange min max limit fuel p rows db = .done rows' db') :
    db' = db ∧ (limitReached limit rows' = false → db.Whole p) := by
  induction fuel generalizing p rows rows' db' with
  | zero => cases h
  | succ fuel ih =>
    cases hreached : limitReached limit rows with
    | true =>
      rw [collectRange_reached min max limit hreached] at h
      cases h
      refine ⟨rfl, fun hno => ?_⟩
      rw [hreached] at hno
      cases hno
    | false =>
      have hchildren : ∀ (cs : List UInt32) {rows rows' : List LeafEntry} {db' : BTreeDb},
          collectChildren min max limit fuel cs rows db = .done rows' db' →
            db' = db ∧ (limitReached limit rows' = false → ∀ c ∈ cs, db.Whole c) := by
        intro cs
        induction cs with
        | nil =>
          intro rows rows' db' h
          cases h
          exact ⟨rfl, fun _ c hc => nomatch hc⟩
        | cons c cs ihcs =>
          intro rows rows' db' h
          cases hr : limitReached limit rows with
          | true =>
            rw [collectChildren_reached hr] at h
            cases h
            refine ⟨rfl, fun hno => ?_⟩
            rw [hr] at hno
            cases hno
          | false =>
            rw [collectChildren, if_neg (by rw [hr]; decide)] at h
            cases hc : collectRange min max limit fuel c rows db with
            | undefined =>
              rw [Io.bind_undefined hc] at h
              cases h
            | failed db₁ =>
              rw [Io.bind_failed hc] at h
              cases h
            | done rows₁ db₁ =>
              obtain ⟨rfl, hwhole⟩ := ih hc
              rw [Io.bind_done hc] at h
              obtain ⟨rfl, hrest⟩ := ihcs h
              refine ⟨rfl, fun hno c' hc' => ?_⟩
              rcases List.mem_cons.mp hc' with rfl | hc'
              · refine hwhole ?_
                cases hr₁ : limitReached limit rows₁ with
                | false => rfl
                | true =>
                  rw [collectChildren_reached hr₁] at h
                  cases h
                  rw [hr₁] at hno
                  cases hno
              · exact hrest hno c' hc'
      rcases nodeLoad_cases hsize hin p with ⟨n, hn, -⟩ | ⟨hnone, -⟩
      · cases n with
        | leaf leftChild entries =>
          rw [collectRange_leaf hsize hin hreached fuel hn] at h
          cases h
          exact ⟨rfl, fun _ => .leaf hn⟩
        | internal leftChild entries =>
          rw [collectRange_internal hsize hin hreached fuel hn] at h
          obtain ⟨rfl, hall⟩ := hchildren _ h
          exact ⟨rfl, fun hno => .internal hn (hall hno)⟩
      · rw [collectRange_nothing hsize hin hreached fuel hnone] at h
        cases h

/-- More fuel changes no result. -/
theorem collectRange_mono {fuel : Nat} {p : UInt32} (h : collectRange min max limit fuel p rows db ≠ .undefined) :
    collectRange min max limit (fuel + 1) p rows db = collectRange min max limit fuel p rows db := by
  induction fuel generalizing p rows with
  | zero => exact absurd rfl h
  | succ fuel ih =>
    cases hreached : limitReached limit rows with
    | true => rw [collectRange_reached min max limit hreached, collectRange_reached min max limit hreached]
    | false =>
      have hchildren : ∀ (cs : List UInt32) {rows : List LeafEntry},
          collectChildren min max limit fuel cs rows db ≠ .undefined →
            collectChildren min max limit (fuel + 1) cs rows db =
              collectChildren min max limit fuel cs rows db := by
        intro cs
        induction cs with
        | nil => exact fun _ => rfl
        | cons c cs ihcs =>
          intro rows h
          cases hr : limitReached limit rows with
          | true => rw [collectChildren_reached hr, collectChildren_reached hr]
          | false =>
            rw [collectChildren, if_neg (by rw [hr]; decide)] at h
            rw [collectChildren, collectChildren, if_neg (by rw [hr]; decide), if_neg (by rw [hr]; decide)]
            cases hc : collectRange min max limit fuel c rows db with
            | undefined =>
              rw [Io.bind_undefined hc] at h
              exact absurd rfl h
            | failed db₁ =>
              have hc' := ih (by rw [hc]; nofun)
              rw [hc] at hc'
              rw [Io.bind_failed hc, Io.bind_failed hc']
            | done rows₁ db₁ =>
              have hc' := ih (by rw [hc]; nofun)
              rw [hc] at hc'
              obtain ⟨rfl, -⟩ := collectRange_done hsize hin hc
              rw [Io.bind_done hc] at h
              rw [Io.bind_done hc, Io.bind_done hc']
              exact ihcs h
      rcases nodeLoad_cases hsize hin p with ⟨n, hn, -⟩ | ⟨hnone, -⟩
      · cases n with
        | leaf leftChild entries =>
          rw [collectRange_leaf hsize hin hreached _ hn, collectRange_leaf hsize hin hreached _ hn]
        | internal leftChild entries =>
          rw [collectRange_internal hsize hin hreached _ hn] at h
          rw [collectRange_internal hsize hin hreached _ hn, collectRange_internal hsize hin hreached _ hn]
          exact hchildren _ h
      · rw [collectRange_nothing hsize hin hreached _ hnone, collectRange_nothing hsize hin hreached _ hnone]

theorem collectRange_mono_le {fuel fuel' : Nat} {p : UInt32} (hle : fuel ≤ fuel')
    (h : collectRange min max limit fuel p rows db ≠ .undefined) :
    collectRange min max limit fuel' p rows db = collectRange min max limit fuel p rows db := by
  induction fuel', hle using Nat.le_induction with
  | base => rfl
  | succ fuel' _ ih =>
    have hdefined : collectRange min max limit fuel' p rows db ≠ .undefined := by
      rw [ih]
      exact h
    rw [collectRange_mono hsize hin hdefined, ih]

/-- Children that are each collected in the end, as long as those before them are whole. -/
theorem collectChildren_terminates (before cs : List UInt32) (hbefore : ∀ c ∈ before, db.Whole c)
    (hcs : ∀ b q a, cs = b ++ q :: a → (∀ c ∈ before ++ b, db.Whole c) →
      ∀ rows, ∃ fuel, collectRange min max limit fuel q rows db ≠ .undefined) (rows : List LeafEntry) :
    ∃ fuel, ∀ fuel' ≥ fuel, collectChildren min max limit fuel' cs rows db ≠ .undefined := by
  induction cs generalizing before rows with
  | nil => exact ⟨0, fun _ _ => nofun⟩
  | cons c cs ih =>
    cases hr : limitReached limit rows with
    | true =>
      refine ⟨0, fun fuel' _ => ?_⟩
      rw [collectChildren_reached hr]
      nofun
    | false =>
      obtain ⟨fuel, hfuel⟩ := hcs [] c cs rfl (by rwa [List.append_nil]) rows
      have hstep : ∀ fuel' ≥ fuel, collectChildren min max limit fuel' (c :: cs) rows db =
          (collectRange min max limit fuel c rows db).rec
            (fun rows₁ db₁ => collectChildren min max limit fuel' cs rows₁ db₁)
            (fun db₁ => .failed db₁) .undefined := by
        intro fuel' hle
        have hmore := collectRange_mono_le hsize hin hle hfuel
        rw [collectChildren, if_neg (by rw [hr]; decide)]
        cases hc : collectRange min max limit fuel c rows db with
        | undefined => exact absurd hc hfuel
        | failed db₁ => rw [Io.bind_failed (hmore.trans hc)]
        | done rows₁ db₁ => rw [Io.bind_done (hmore.trans hc)]
      cases hc : collectRange min max limit fuel c rows db with
      | undefined => exact absurd hc hfuel
      | failed db₁ =>
        refine ⟨fuel, fun fuel' hle => ?_⟩
        rw [hstep fuel' hle, hc]
        nofun
      | done rows₁ db₁ =>
        obtain ⟨rfl, hwhole⟩ := collectRange_done hsize hin hc
        cases hr₁ : limitReached limit rows₁ with
        | true =>
          refine ⟨fuel, fun fuel' hle => ?_⟩
          rw [hstep fuel' hle, hc]
          dsimp only
          rw [collectChildren_reached hr₁]
          nofun
        | false =>
          have hbefore' : ∀ c' ∈ before ++ [c], db₁.Whole c' := by
            intro c' hc'
            rcases List.mem_append.mp hc' with hc' | hc'
            · exact hbefore c' hc'
            · rw [List.mem_singleton.mp hc']
              exact hwhole hr₁
          obtain ⟨more, hmore⟩ := ih (before ++ [c]) hbefore' (fun b q a heq hall rows => by
            refine hcs (c :: b) q a (by rw [heq]; rfl) ?_ rows
            intro c' hc'
            exact hall c' (by simpa [List.append_assoc] using hc')) rows₁
          refine ⟨Nat.max fuel more, fun fuel' hle => ?_⟩
          rw [hstep fuel' (Nat.le_trans (Nat.le_max_left _ _) hle), hc]
          exact hmore fuel' (Nat.le_trans (Nat.le_max_right _ _) hle)

theorem collectRange_ends {p : UInt32} (h : Acc (fun q p => db.Visits p q) p) (rows : List LeafEntry) :
    ∃ fuel, collectRange min max limit fuel p rows db ≠ .undefined := by
  induction h generalizing rows with
  | intro p _ ih =>
    cases hr : limitReached limit rows with
    | true =>
      refine ⟨1, ?_⟩
      rw [collectRange_reached min max limit hr]
      nofun
    | false =>
      rcases nodeLoad_cases hsize hin p with ⟨n, hn, -⟩ | ⟨hnone, -⟩
      · cases n with
        | leaf leftChild entries =>
          refine ⟨1, ?_⟩
          rw [collectRange_leaf hsize hin hr 0 hn]
          nofun
        | internal leftChild entries =>
          obtain ⟨fuel, hfuel⟩ := collectChildren_terminates hsize hin []
            (BTreeDb.children leftChild entries) (fun c hc => nomatch hc)
            (fun b q a heq hall rows => ih q ⟨leftChild, entries, b, a, hn, heq, hall⟩ rows) rows
          refine ⟨fuel + 1, ?_⟩
          rw [collectRange_internal hsize hin hr fuel hn]
          exact hfuel fuel (Nat.le_refl _)
      · refine ⟨1, ?_⟩
        rw [collectRange_nothing hsize hin hr 0 hnone]
        nofun

/-- A whole page does not make the collection fail. -/
theorem BTreeDb.Whole.not_failed {p : UInt32} (h : db.Whole p) (fuel : Nat) (rows : List LeafEntry)
    (db' : BTreeDb) : collectRange min max limit fuel p rows db ≠ .failed db' := by
  induction h generalizing fuel rows db' with
  | leaf hp =>
    cases fuel with
    | zero => nofun
    | succ fuel =>
      cases hr : limitReached limit rows with
      | true => rw [collectRange_reached min max limit hr]; nofun
      | false => rw [collectRange_leaf hsize hin hr fuel hp]; nofun
  | @internal p leftChild entries hp _ ih =>
    cases fuel with
    | zero => nofun
    | succ fuel =>
      cases hr : limitReached limit rows with
      | true => rw [collectRange_reached min max limit hr]; nofun
      | false =>
        rw [collectRange_internal hsize hin hr fuel hp]
        clear hr
        generalize BTreeDb.children leftChild entries = cs at ih
        induction cs generalizing rows with
        | nil => nofun
        | cons c cs ihcs =>
          cases hr : limitReached limit rows with
          | true => rw [collectChildren_reached hr]; nofun
          | false =>
            rw [collectChildren, if_neg (by rw [hr]; decide)]
            cases hc : collectRange min max limit fuel c rows db with
            | undefined => rw [Io.bind_undefined hc]; nofun
            | failed db₁ => exact absurd hc (ih c List.mem_cons_self fuel rows db₁)
            | done rows₁ db₁ =>
              obtain ⟨rfl, -⟩ := collectRange_done hsize hin hc
              rw [Io.bind_done hc]
              exact ihcs rows₁ fun c' hc' => ih c' (List.mem_cons_of_mem _ hc')

/-- Without bounds and limit, a collection that ends has visited no endless way. -/
theorem acc_of_collectRange {fuel : Nat} {p : UInt32} {rows : List LeafEntry}
    (h : collectRange none none (-1) fuel p rows db ≠ .undefined) : Acc (fun q p => db.Visits p q) p := by
  have hr : ∀ rows, limitReached (-1) rows = false := fun rows => by simp [limitReached]
  induction fuel generalizing p rows with
  | zero => exact absurd rfl h
  | succ fuel ih =>
    refine Acc.intro p ?_
    rintro q ⟨leftChild, entries, before, after, hp, heq, hbefore⟩
    rw [collectRange_internal hsize hin (hr rows) fuel hp, heq] at h
    clear heq
    induction before generalizing rows with
    | nil =>
      refine @ih q rows fun hc => h ?_
      rw [List.nil_append, collectChildren, if_neg (by rw [hr]; decide), Io.bind_undefined hc]
    | cons c before ihbefore =>
      rw [List.cons_append, collectChildren, if_neg (by rw [hr]; decide)] at h
      cases hc : collectRange none none (-1) fuel c rows db with
      | undefined =>
        rw [Io.bind_undefined hc] at h
        exact absurd rfl h
      | failed db₁ =>
        exact absurd hc ((hbefore c List.mem_cons_self).not_failed hsize hin fuel rows db₁)
      | done rows₁ db₁ =>
        obtain ⟨rfl, -⟩ := collectRange_done hsize hin hc
        rw [Io.bind_done hc] at h
        exact ihbefore h fun c' hc' => hbefore c' (List.mem_cons_of_mem _ hc')

end Range

end Reads

theorem robust_iff_tame {db : BTreeDb} (hsize : ∀ p page, db.pages p = some page → page.length = 4096) :
    db.Robust ↔ db.Tame := by
  have hinside : (∀ p page, db.pages p = some page → loadNode page ≠ .error .outOfBounds) ↔
      ∀ p page, db.pages p = some page → Contained page := by
    refine forall_congr' fun p => forall_congr' fun page => forall_congr' fun hpage => ?_
    rw [ne_eq, (loadNode_reads (hsize p page hpage)).out_iff, not_not]
  constructor
  · rintro ⟨hin, hget, hrange, hleft⟩
    have hin := hinside.mp hin
    refine ⟨hin, fun key => (getValue_terminates hsize hin).mp (hget key), ?_,
      fun p => (subtreeMinKey_terminates hsize hin).mp (hleft p)⟩
    obtain ⟨fuel, hfuel⟩ := hrange none none (-1)
    exact not_endless_iff.mpr (acc_of_collectRange hsize hin hfuel)
  · rintro ⟨hin, hroutes, hvisits, hlefts⟩
    refine ⟨hinside.mpr hin, fun key => (getValue_terminates hsize hin).mpr (hroutes key), ?_,
      fun p => (subtreeMinKey_terminates hsize hin).mpr (hlefts p)⟩
    intro min max limit
    exact collectRange_ends hsize hin (not_endless_iff.mp hvisits) []

theorem btreeOpenFile_sized {file : Bytes} {db : BTreeDb} (h : btreeOpenFile file = some db) (p : UInt32)
    (page : Bytes) (hpage : db.pages p = some page) : page.length = 4096 := by
  unfold btreeOpenFile at h
  dsimp only at h
  split at h
  · rw [← Option.some.inj h] at hpage
    exact emptyDb_sized hpage
  · split at h
    · cases h
    · split at h
      · cases h
      · split at h
        · cases h
        · split at h
          · cases h
          · rw [← Option.some.inj h] at hpage
            exact (filePage_eq_some hpage).1

/-- A header, and an internal page whose left child is itself. -/
def loopingFile : Bytes := headerPage emptyDb ++ pageInit pageTypeInternal 1

theorem loopingFile_opens :
    ∃ db, btreeOpenFile loopingFile = some db ∧ db.rootPage = 1 ∧
      db.pages 1 = some (pageInit pageTypeInternal 1) := by
  have hheader := headerPage_length emptyDb
  have hroot := (pageInit_packed pageTypeInternal 1).length
  have hlen : loopingFile.length = 8192 := by rw [loopingFile, List.length_append, hheader, hroot]
  have hfirst : filePage loopingFile 0 = some (headerPage emptyDb) := by
    have htake : (loopingFile.drop 0).take 4096 = headerPage emptyDb := by
      rw [List.drop_zero, loopingFile, List.take_left' hheader]
    have hzero : (0 : UInt32).toNat * btreePageSize = 0 := rfl
    rw [filePage, hzero, show btreePageSize = 4096 from rfl, htake, if_pos hheader]
  have hsecond : filePage loopingFile 1 = some (pageInit pageTypeInternal 1) := by
    have htake : (loopingFile.drop 4096).take 4096 = pageInit pageTypeInternal 1 := by
      rw [loopingFile, List.drop_left' hheader]
      exact List.take_of_length_le (by rw [hroot])
    have hone : (1 : UInt32).toNat * btreePageSize = 4096 := rfl
    rw [filePage, hone, show btreePageSize = 4096 from rfl, htake, if_pos hroot]
  obtain ⟨-, hmagic, hversion, hrootPage, hpages, hfree⟩ := headerPage_spec emptyDb
  have hroot1 : emptyDb.rootPage = 1 := rfl
  have hcount : emptyDb.pageCount = 2 := rfl
  have hhead : emptyDb.freeHead = 0 := rfl
  have hopen : btreeOpenFile loopingFile = some ⟨filePage loopingFile, 1, 2, 0⟩ := by
    unfold btreeOpenFile
    rw [hlen, if_neg (by decide), if_neg (by decide), hfirst]
    dsimp only
    rw [if_neg (by rw [hmagic, hversion]; simp), hrootPage, hpages, hfree, hroot1, hcount, hhead,
      if_neg (by decide)]
  refine ⟨_, hopen, rfl, ?_⟩
  rw [← hsecond]

end ToiLang
