import ToiLang.Gc.Heap

namespace ToiLang.Gc

open Marking (Reachable)

/-- The objects that the collector reaches from the roots. -/
def MarkReachable (s : VM) : Ref → Prop := Reachable s.heap.children s.roots.refs

/-- The objects that the rest of a run can read. -/
def Readable (s : VM) : Ref → Prop := Reachable s.heap.reads s.roots.refs

/-- A readable object, or the thread whose stack has the slot that a readable upvalue points at. -/
inductive Needed (s : VM) (r : Ref) : Prop
  | readable : Readable s r → Needed s r
  | owner {u : Ref} {o : Obj} {k : Nat} :
    Readable s u → s.heap.obj u = some o → o.slot? = some (r, k) → Needed s r

/-- The objects that are needed are still there, with their contents. -/
def Keeps (s t : VM) : Prop := ∀ r, Needed s r → s.heap.Allocated r ∧ t.heap.obj r = s.heap.obj r

/-- Every open upvalue that the collector reaches points into the stack of a thread that it reaches, at a
value that it reaches. -/
def Covered (s : VM) : Prop :=
  ∀ r o T k, MarkReachable s r → s.heap.obj r = some o → o.slot? = some (T, k) →
    MarkReachable s T ∧ ∀ y ∈ (s.heap.slotValue (T, k)).refs, MarkReachable s y

/-- What holds of the heap between two collections. -/
structure Heap.WF (h : Heap) : Prop where
  nodup : h.objects.Nodup
  listed : ∀ r, r ∈ h.objects ↔ h.Allocated r
  clear : ∀ r, h.isMarked r = false
  closed : ∀ r o, h.obj r = some o → ∀ y ∈ h.given o, h.Allocated y

structure VM.WF (s : VM) : Prop where
  heap : s.heap.WF
  roots : ∀ y ∈ s.roots.refs, s.heap.Allocated y

namespace Heap

variable {h : Heap} {r y : Ref} {o : Obj}

theorem mem_children : y ∈ h.children r ↔ ∃ o, h.obj r = some o ∧ y ∈ o.children := by
  unfold children
  cases h.obj r with
  | none => simp
  | some o => simp

theorem mem_slotRefs : y ∈ h.slotRefs o ↔ ∃ T k, o.slot? = some (T, k) ∧ y ∈ (h.slotValue (T, k)).refs := by
  unfold slotRefs
  cases o.slot? with
  | none => simp
  | some s =>
    obtain ⟨T, k⟩ := s
    constructor
    · intro hy
      exact ⟨T, k, rfl, hy⟩
    · rintro ⟨T', k', he, hy⟩
      cases Option.some.inj he
      exact hy

theorem mem_reads : y ∈ h.reads r ↔ ∃ o, h.obj r = some o ∧ (y ∈ o.children ∨ y ∈ h.slotRefs o) := by
  unfold reads children
  cases h.obj r with
  | none => simp
  | some o => simp

theorem mem_given : y ∈ h.given o ↔ y ∈ o.children ∨ (∃ k, o.slot? = some (y, k)) ∨ y ∈ h.slotRefs o := by
  unfold given
  cases hs : o.slot? with
  | none => simp
  | some s => simp [Prod.ext_iff, eq_comm]

/-- What a sweep leaves: the marked objects of the list, without their marks. -/
theorem sweepList_spec {rs : List Ref} (hn : rs.Nodup) :
    (h.sweepList rs).objects = rs.filter h.isMarked ∧
      (∀ r, (h.sweepList rs).obj r = if r ∈ rs ∧ h.isMarked r = false then none else h.obj r) ∧
      ∀ r, (h.sweepList rs).isMarked r = if r ∈ rs then false else h.isMarked r := by
  induction rs generalizing h with
  | nil => exact ⟨rfl, fun r => by simp [sweepList], fun r => by simp [sweepList]⟩
  | cons x rs ih =>
    obtain ⟨hx, hn⟩ := List.nodup_cons.mp hn
    have hne : ∀ y ∈ rs, y ≠ x := fun y hy he => hx (he ▸ hy)
    unfold sweepList
    cases hm : h.isMarked x with
    | true =>
      obtain ⟨ho, hobj, hmark⟩ := @ih { h with isMarked := Function.update h.isMarked x false } hn
      refine ⟨?_, fun r => ?_, fun r => ?_⟩
      · have hfilter : rs.filter (Function.update h.isMarked x false) = rs.filter h.isMarked :=
          List.filter_congr fun y hy => Function.update_of_ne (hne y hy) _ _
        simp [hm, ho, hfilter]
      · by_cases hr : r = x
        · simp [hr, hobj, hx, hm]
        · simp [hobj, hr]
      · by_cases hr : r = x
        · simp [hr, hmark, hx]
        · simp [hmark, hr]
    | false =>
      obtain ⟨ho, hobj, hmark⟩ := @ih { h with obj := Function.update h.obj x none } hn
      refine ⟨?_, fun r => ?_, fun r => ?_⟩
      · simp [hm, ho]
      · by_cases hr : r = x
        · simp [hr, hobj, hx, hm]
        · simp [hobj, hr]
      · by_cases hr : r = x
        · simp [hr, hmark, hx, hm]
        · simp [hmark, hr]

end Heap

variable {s t : VM} {r y : Ref}

theorem MarkReachable.allocated (hs : s.WF) (h : MarkReachable s r) : s.heap.Allocated r := by
  refine h.closed hs.roots fun x _ y hy => ?_
  obtain ⟨o, ho, hy⟩ := Heap.mem_children.mp hy
  exact hs.heap.closed x o ho y (Heap.mem_given.mpr (.inl hy))

theorem Readable.allocated (hs : s.WF) (h : Readable s r) : s.heap.Allocated r := by
  refine h.closed hs.roots fun x _ y hy => ?_
  obtain ⟨o, ho, hy⟩ := Heap.mem_reads.mp hy
  refine hs.heap.closed x o ho y (Heap.mem_given.mpr ?_)
  rcases hy with hy | hy
  · exact .inl hy
  · exact .inr (.inr hy)

theorem MarkReachable.readable (h : MarkReachable s r) : Readable s r := by
  refine h.closed (fun x hx => .start hx) fun x hx y hy => hx.next ?_
  exact List.mem_append_left _ hy

/-- The marking reaches what can be reached. -/
theorem markRoots_isMarked (hs : s.WF) :
    (s.heap.markRoots s.roots).isMarked r = true ↔ MarkReachable s r := by
  have hclear : s.heap.isMarked = fun _ => false := funext hs.heap.clear
  have hmem : ∀ {x}, x ∈ s.heap.objects.toFinset ↔ s.heap.Allocated x := by
    intro x
    rw [List.mem_toFinset, hs.heap.listed]
  unfold Heap.markRoots
  rw [hclear]
  refine Marking.visitAll_iff (u := s.heap.objects.toFinset) (fun x _ y hy => ?_)
    (fun x hx => hmem.mpr (hs.roots x hx)) (List.toFinset_card_le _)
  obtain ⟨o, ho, hy⟩ := Heap.mem_children.mp hy
  exact hmem.mpr (hs.heap.closed x o ho y (Heap.mem_given.mpr (.inl hy)))

/-- What a collection does: it frees the objects that it does not reach. -/
theorem collect_spec (hs : s.WF) :
    (∀ r, MarkReachable s r → s.collectGarbage.heap.obj r = s.heap.obj r) ∧
      (∀ r, s.collectGarbage.heap.Allocated r → MarkReachable s r) ∧
      (∀ r, r ∈ s.collectGarbage.heap.objects ↔ MarkReachable s r) ∧
      s.collectGarbage.heap.objects.Nodup ∧ ∀ r, s.collectGarbage.heap.isMarked r = false := by
  obtain ⟨ho, hobj, hmark⟩ := @Heap.sweepList_spec (s.heap.markRoots s.roots) s.heap.objects hs.heap.nodup
  have hin : ∀ r, MarkReachable s r → r ∈ s.heap.objects := fun r hr =>
    (hs.heap.listed r).mpr (hr.allocated hs)
  refine ⟨fun r hr => ?_, fun r hr => ?_, fun r => ?_, ?_, fun r => ?_⟩
  · refine (hobj r).trans (if_neg ?_)
    rintro ⟨-, hm⟩
    rw [(markRoots_isMarked hs).mpr hr] at hm
    cases hm
  · by_contra hno
    have hm : (s.heap.markRoots s.roots).isMarked r = false := by
      rw [← Bool.not_eq_true, markRoots_isMarked hs]
      exact hno
    refine hr ((hobj r).trans ?_)
    by_cases hr : r ∈ s.heap.objects
    · exact if_pos ⟨hr, hm⟩
    · rw [if_neg fun h => hr h.1]
      exact not_not.mp fun h => hr ((hs.heap.listed r).mpr h)
  · have hmem : r ∈ s.collectGarbage.heap.objects ↔
        r ∈ s.heap.objects.filter (s.heap.markRoots s.roots).isMarked := by
      unfold VM.collectGarbage Heap.sweepObjects
      rw [← ho]
      rfl
    rw [hmem, List.mem_filter, markRoots_isMarked hs]
    exact ⟨fun h => h.2, fun h => ⟨hin r h, h⟩⟩
  · have hlist : s.collectGarbage.heap.objects = s.heap.objects.filter (s.heap.markRoots s.roots).isMarked := ho
    rw [hlist]
    exact hs.heap.nodup.filter _
  · refine (hmark r).trans ?_
    split_ifs with hr
    · rfl
    · rw [← Bool.not_eq_true, markRoots_isMarked hs]
      exact fun h => hr (hin r h)

theorem slotValue_congr {h h' : Heap} {T k : Nat} (hT : h'.obj T = h.obj T) :
    h'.slotValue (T, k) = h.slotValue (T, k) := by
  unfold Heap.slotValue
  rw [hT]

/-- A collection in a covered state frees nothing that is needed, and only then. -/
theorem keeps_iff_covered (hs : s.WF) : Keeps s s.collectGarbage ↔ Covered s := by
  obtain ⟨hkept, hfreed, -, -, -⟩ := collect_spec hs
  have hreached : ∀ r, s.heap.Allocated r → s.collectGarbage.heap.obj r = s.heap.obj r → MarkReachable s r :=
    fun r ha he => hfreed r (by rwa [Heap.Allocated, he])
  constructor
  · intro hkeeps r o T k hr ho hslot
    obtain ⟨haT, heT⟩ := hkeeps T (.owner hr.readable ho hslot)
    refine ⟨hreached T haT heT, fun y hy => ?_⟩
    have hread : Readable s y := hr.readable.next
      (Heap.mem_reads.mpr ⟨o, ho, .inr (Heap.mem_slotRefs.mpr ⟨T, k, hslot, hy⟩)⟩)
    obtain ⟨hay, hey⟩ := hkeeps y (.readable hread)
    exact hreached y hay hey
  · intro hcov
    have hread : ∀ r, Readable s r → MarkReachable s r := by
      intro r hr
      refine hr.closed (fun x hx => .start hx) fun x hx y hy => ?_
      obtain ⟨o, ho, hy⟩ := Heap.mem_reads.mp hy
      rcases hy with hy | hy
      · exact hx.next (Heap.mem_children.mpr ⟨o, ho, hy⟩)
      · obtain ⟨T, k, hslot, hy⟩ := Heap.mem_slotRefs.mp hy
        exact (hcov x o T k hx ho hslot).2 y hy
    intro r hr
    have hmark : MarkReachable s r := by
      cases hr with
      | readable hr => exact hread r hr
      | owner hu ho hslot => exact (hcov _ _ _ _ (hread _ hu) ho hslot).1
    exact ⟨hmark.allocated hs, hkept r hmark⟩

theorem collect_wf (hs : s.WF) (hcov : Covered s) : s.collectGarbage.WF := by
  obtain ⟨hkept, hfreed, hlist, hnodup, hclear⟩ := collect_spec hs
  have halloc : ∀ r, MarkReachable s r → s.collectGarbage.heap.Allocated r := fun r hr => by
    rw [Heap.Allocated, hkept r hr]
    exact hr.allocated hs
  refine ⟨⟨hnodup, fun r => ?_, hclear, fun r o ho y hy => ?_⟩, fun y hy => halloc y (.start hy)⟩
  · exact (hlist r).trans ⟨halloc r, hfreed r⟩
  · have hr : MarkReachable s r := hfreed r (by rw [Heap.Allocated, ho]; simp)
    have ho' : s.heap.obj r = some o := (hkept r hr).symm.trans ho
    rcases Heap.mem_given.mp hy with hy | ⟨k, hslot⟩ | hy
    · exact halloc y (hr.next (Heap.mem_children.mpr ⟨o, ho', hy⟩))
    · exact halloc y (hcov r o y k hr ho' hslot).1
    · obtain ⟨T, k, hslot, hy⟩ := Heap.mem_slotRefs.mp hy
      obtain ⟨hT, hrefs⟩ := hcov r o T k hr ho' hslot
      rw [slotValue_congr (hkept T hT)] at hy
      exact halloc y (hrefs y hy)

theorem update_wf (hs : s.WF) {o : Obj} {h : Heap} (hobj : h.obj = Function.update s.heap.obj r (some o))
    (hgiven : ∀ y ∈ s.heap.given o, s.heap.Allocated y)
    (hstack : s.heap.StackStored (((s.heap.obj r).map Obj.stack).getD []) o.stack) :
    (∀ y, s.heap.Allocated y → h.Allocated y) ∧ ∀ x p, h.obj x = some p → ∀ y ∈ h.given p, h.Allocated y := by
  have hmono : ∀ y, s.heap.Allocated y → h.Allocated y := by
    intro y hy
    unfold Heap.Allocated at hy ⊢
    rw [hobj]
    by_cases hyr : y = r
    · simp [hyr]
    · rwa [Function.update_of_ne hyr]
  refine ⟨hmono, fun x p hp y hy => ?_⟩
  -- what an object was given before, seen from the new heap: a slot of `r` may have changed
  have hafter : ∀ p, (∀ y ∈ s.heap.given p, s.heap.Allocated y) → ∀ y ∈ h.given p, h.Allocated y := by
    intro p hp y hy
    rcases Heap.mem_given.mp hy with hy | hy | hy
    · exact hmono y (hp y (Heap.mem_given.mpr (.inl hy)))
    · exact hmono y (hp y (Heap.mem_given.mpr (.inr (.inl hy))))
    · obtain ⟨T, k, hslot, hy⟩ := Heap.mem_slotRefs.mp hy
      have hold : y ∈ (s.heap.slotValue (T, k)).refs → h.Allocated y := fun hy =>
        hmono y (hp y (Heap.mem_given.mpr (.inr (.inr (Heap.mem_slotRefs.mpr ⟨T, k, hslot, hy⟩)))))
      by_cases hT : T = r
      · subst hT
        have hnew : h.slotValue (T, k) = o.stack.getD k .nil := by simp [Heap.slotValue, hobj]
        rw [hnew] at hy
        by_cases hk : k < o.stack.length
        · rcases hstack k hk with he | ha
          · rw [he] at hy
            exact hold hy
          · exact hmono y (ha y hy)
        · rw [List.getD_eq_getElem?_getD, List.getElem?_eq_none (Nat.le_of_not_lt hk)] at hy
          cases hy
      · have hsame : h.slotValue (T, k) = s.heap.slotValue (T, k) :=
          slotValue_congr (by rw [hobj, Function.update_of_ne hT])
        rw [hsame] at hy
        exact hold hy
  by_cases hx : x = r
  · rw [hobj, hx, Function.update_self] at hp
    cases Option.some.inj hp
    exact hafter o hgiven y hy
  · rw [hobj, Function.update_of_ne hx] at hp
    exact hafter p (hs.heap.closed x p hp) y hy

/-- A step of a run that collects in covered states only keeps the heap in order. -/
theorem step_wf {i : Op} (hs : s.WF) (hok : i = .collect → Covered s) (h : step i s = some t) : t.WF := by
  cases i with
  | allocate r o =>
    simp only [step] at h
    split_ifs at h with hc
    cases Option.some.inj h
    obtain ⟨hfree, hgiven, hstack⟩ := hc
    have hnone : s.heap.obj r = none := not_not.mp hfree
    obtain ⟨hmono, hclosed⟩ := update_wf (h := s.heap.allocate r o) hs rfl hgiven (by rwa [hnone])
    refine ⟨⟨?_, fun x => ?_, fun x => ?_, hclosed⟩, fun y hy => hmono y (hs.roots y hy)⟩
    · exact List.nodup_cons.mpr ⟨fun hr => hfree ((hs.heap.listed r).mp hr), hs.heap.nodup⟩
    · by_cases hx : x = r
      · simp [hx, Heap.Allocated, Heap.allocate]
      · have hlisted := hs.heap.listed x
        simpa [hx, Heap.Allocated, Heap.allocate] using hlisted
    · by_cases hx : x = r
      · simp [hx, Heap.allocate]
      · simpa [hx, Heap.allocate] using hs.heap.clear x
  | store r o =>
    simp only [step] at h
    split_ifs at h with hc
    cases Option.some.inj h
    obtain ⟨hr, hgiven, hstack⟩ := hc
    obtain ⟨hmono, hclosed⟩ := update_wf (h := s.heap.store r o) hs rfl hgiven hstack
    refine ⟨⟨hs.heap.nodup, fun x => ?_, hs.heap.clear, hclosed⟩, fun y hy => hmono y (hs.roots y hy)⟩
    have hlisted := hs.heap.listed x
    by_cases hx : x = r
    · rw [hx] at hlisted ⊢
      exact iff_of_true (hlisted.mpr hr) (hmono r hr)
    · simpa [hx, Heap.Allocated, Heap.store] using hlisted
  | setRoots R =>
    simp only [step] at h
    split_ifs at h with hR
    cases Option.some.inj h
    exact ⟨hs.heap, hR⟩
  | collect =>
    cases Option.some.inj h
    exact collect_wf hs (hok rfl)

theorem initVm_wf : initVm.WF := by
  refine ⟨⟨by simp [initVm], fun r => ?_, fun _ => rfl, fun r o ho y hy => ?_⟩, fun y hy => ?_⟩
  · simp [initVm, Heap.Allocated]
  · have ho : o = newThread := by
      simp only [initVm] at ho
      split_ifs at ho
      exact (Option.some.inj ho).symm
    rw [ho] at hy
    simp [newThread, Heap.given, Obj.children, Obj.slot?, Heap.slotRefs, Value.refs] at hy
  · simp only [initVm, Roots.refs, Option.toList, List.flatMap_nil, Value.refs, entryRefs, List.append_nil,
      List.mem_singleton] at hy
    rw [hy]
    simp [initVm, Heap.Allocated]

/-- The collections of a run are in covered states. -/
def CollectsCovered (i : Op) (s : VM) : Prop := i = .collect → Covered s

theorem reachable_wf (h : Transition.Reachable step CollectsCovered initVm s) : s.WF :=
  h.invariant initVm_wf fun _ _ _ hs hok hstep => step_wf hs hok hstep

/-- A coroutine (2) keeps a table (1) in a local, makes a closure (5) over it and hands it to the main
thread (0). -/
def sampleOps : List Op :=
  [.allocate 2 newThread, .store 0 (.thread [.obj 2] 1 [] [] none false .nil .nil),
    .allocate 1 (.table [] [] none), .store 2 (.thread [.obj 1] 1 [] [] (some 0) false .nil .nil),
    .allocate 4 (.function none none [] [] [] [] [] [] [] []), .allocate 3 (.upvalue (.stack 2 0) .nil),
    .store 2 (.thread [.obj 1] 1 [] [3] none false .nil .nil), .allocate 5 (.closure (some 4) [some 3]),
    .store 0 (.thread [.obj 2, .obj 5] 2 [] [] none false .nil .nil)]

def sampleVm : VM := (Transition.run step sampleOps initVm).getD initVm

/-- The main thread forgets the coroutine and keeps the closure. -/
def droppedOps : List Op := sampleOps ++ [.store 0 (.thread [.obj 5, .obj 5] 1 [] [] none false .nil .nil)]

def droppedVm : VM := (Transition.run step droppedOps initVm).getD initVm

theorem sampleVm_reachable : Transition.Reachable step CollectsCovered initVm sampleVm := by
  refine Transition.run_reachable ?_ (Transition.run_getD (by decide))
  simp [sampleOps, CollectsCovered]

theorem droppedVm_reachable : Transition.Reachable step CollectsCovered initVm droppedVm := by
  refine Transition.run_reachable ?_ (Transition.run_getD (by decide))
  simp [droppedOps, sampleOps, CollectsCovered]

theorem sampleVm_covered : Covered sampleVm := by
  intro r o T k hr ho hslot
  have hobjects : sampleVm.heap.objects = [5, 3, 4, 1, 2, 0] := by decide
  have hmem := ((reachable_wf sampleVm_reachable).heap.listed r).mpr (by rw [Heap.Allocated, ho]; simp)
  rw [hobjects] at hmem
  have hslots : ∀ r ∈ [5, 3, 4, 1, 2, 0], (sampleVm.heap.obj r).bind Obj.slot? = none ∨
      (sampleVm.heap.obj r).bind Obj.slot? = some (2, 0) := by decide
  have hthread : (T, k) = (2, 0) := by
    rcases hslots r hmem with h | h
    · rw [ho, Option.bind_some, hslot] at h
      cases h
    · rw [ho, Option.bind_some, hslot] at h
      exact Option.some.inj h
  cases hthread
  have h0 : MarkReachable sampleVm 0 := .start (by decide)
  have h2 : MarkReachable sampleVm 2 := h0.next (by decide)
  have h1 : MarkReachable sampleVm 1 := h2.next (by decide)
  have hvalue : (sampleVm.heap.slotValue (2, 0)).refs = [1] := by decide
  refine ⟨h2, fun y hy => ?_⟩
  rw [hvalue] at hy
  rw [List.mem_singleton.mp hy]
  exact h1

end ToiLang.Gc
