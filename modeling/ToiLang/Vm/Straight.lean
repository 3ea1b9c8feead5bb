import ToiLang.Compiler.Assignment
import ToiLang.Vm.Step

namespace ToiLang

/-- A stack ends in these values, the lowest at `base`. -/
structure ObjThread.Cells (t : ObjThread) (base : Nat) (vs : List Value) : Prop where
  height : t.stackTop = base + vs.length
  value : ∀ j v, vs[j]? = some v → t.stack (base + j) = v

namespace ObjThread.Cells

variable {t : ObjThread} {base : Nat} {vs ws : List Value} {v : Value}

theorem push (h : t.Cells base vs) (v : Value) : (t.push v).Cells base (vs ++ [v]) := by
  constructor
  · rw [List.length_append, List.length_singleton, ← Nat.add_assoc, ← h.height]
    rfl
  · intro j w hw
    by_cases hj : j < vs.length
    · rw [List.getElem?_append_left hj] at hw
      have hne : base + j ≠ t.stackTop := by
        rw [h.height]
        omega
      exact (Function.update_of_ne hne _ _).trans (h.value j w hw)
    · have hlen := (List.getElem?_eq_some_iff.mp hw).1
      simp only [List.length_append, List.length_singleton] at hlen
      obtain rfl : j = vs.length := by omega
      have hwv : v = w := by simpa using hw
      rw [← h.height, ← hwv]
      exact Function.update_self _ _ _

theorem pushAll (h : t.Cells base vs) (ws : List Value) : (t.pushAll ws).Cells base (vs ++ ws) := by
  induction ws generalizing t vs with
  | nil =>
    rw [List.append_nil]
    exact h
  | cons w ws ih =>
    have hrest := ih (h.push w)
    rw [List.append_assoc] at hrest
    exact hrest

theorem peek (h : t.Cells base (vs ++ [v])) : t.peek 0 = v := by
  have hlast := h.value vs.length v (by simp)
  rw [ObjThread.peek, h.height, List.length_append, List.length_singleton]
  exact hlast

/-- What is above is given up. -/
theorem lower (h : t.Cells base (vs ++ ws)) :
    { t with stackTop := base + vs.length }.Cells base vs := by
  refine ⟨rfl, fun j w hw => h.value j w ?_⟩
  rw [List.getElem?_append_left (List.getElem?_eq_some_iff.mp hw).1]
  exact hw

theorem drop (h : t.Cells base (vs ++ [v])) : (t.drop 1).Cells base vs := by
  have htop : t.stackTop - 1 = base + vs.length := by
    rw [h.height, List.length_append, List.length_singleton]
    omega
  rw [ObjThread.drop, htop]
  exact h.lower

/-- A slot below the values is written. -/
theorem setSlot {k : Nat} (h : t.Cells base vs) (hk : k < base) (w : Value) :
    (t.setSlot k w).Cells base vs :=
  ⟨h.height, fun j u hu => (Function.update_of_ne (by omega) _ _).trans (h.value j u hu)⟩

/-- The same stack read from a higher base. -/
theorem raise (h : t.Cells base (vs ++ ws)) : t.Cells (base + vs.length) ws := by
  constructor
  · rw [h.height, List.length_append, Nat.add_assoc]
  · intro j w hw
    rw [Nat.add_assoc]
    refine h.value _ w ?_
    rw [List.getElem?_append_right (by omega), Nat.add_sub_cancel_left]
    exact hw

theorem top (h : t.Cells base vs) : t.top vs.length = vs := by
  apply List.ext_getElem?
  intro j
  rw [ObjThread.top, List.getElem?_map, h.height, Nat.add_sub_cancel]
  by_cases hj : j < vs.length
  · rw [List.getElem?_range hj, Option.map_some, h.value j _ (List.getElem?_eq_getElem hj),
      List.getElem?_eq_getElem hj]
  · rw [List.getElem?_eq_none (by simpa using hj), List.getElem?_eq_none (by simpa using hj)]
    rfl

end ObjThread.Cells

@[simp] theorem ObjThread.length_top (t : ObjThread) (k : Nat) : (t.top k).length = k := by
  simp [ObjThread.top]

theorem ObjThread.cells_top {t : ObjThread} {base k : Nat} (h : t.stackTop = base + k) :
    t.Cells base (t.top k) := by
  refine ⟨by rw [t.length_top, h], fun j v hv => ?_⟩
  have hj : j < k := by simpa using (List.getElem?_eq_some_iff.mp hv).1
  rw [ObjThread.top, List.getElem?_map, List.getElem?_range hj, h, Nat.add_sub_cancel] at hv
  exact Option.some.inj hv

/-- The last `n` values of a list that has as many. -/
theorem drop_last_eq {vs : List Value} {n : Nat} (h : n ≤ vs.length) :
    vs.drop (vs.length - n) = (List.range n).map fun i => vs.getD (vs.length - n + i) .nil := by
  apply List.ext_getElem?
  intro i
  rw [List.getElem?_drop, List.getElem?_map]
  by_cases hi : i < n
  · rw [List.getElem?_range hi, Option.map_some, List.getD_eq_getElem?_getD,
      List.getElem?_eq_getElem (by omega)]
    rfl
  · rw [List.getElem?_eq_none (by omega), List.getElem?_eq_none (by simpa using hi)]
    rfl

theorem getD_append_nils (vs : List Value) (k i : Nat) :
    (vs ++ List.replicate k Value.nil).getD i .nil = vs.getD i .nil := by
  rw [List.getD_eq_getElem?_getD, List.getD_eq_getElem?_getD]
  by_cases hi : i < vs.length
  · rw [List.getElem?_append_left hi]
  · rw [List.getElem?_append_right (by omega), List.getElem?_replicate,
      List.getElem?_eq_none (by omega)]
    split <;> rfl

namespace VM

variable {W : Type}

/-- The variable that an instruction writes in a state of the machine, and the value. -/
def stored (E : Env W) (vm : VM W) (i : Instr) : Option (Place × Value) :=
  match i.op, i.args with
  | .opSetLocal, [k] => some (.slot k.toNat, vm.thread.peek 0)
  | .opSetUpvalue, [k] => some (.upvalue k.toNat, vm.thread.peek 0)
  | .opSetGlobal, [k] =>
    match vm.constant E k.toNat with
    | .string n => some (.global n, vm.thread.peek 0)
    | _ => none
  | _, _ => none

/-- Straight code, with the stores it makes in their order. -/
def performAll (E : Env W) : List Instr → VM W → Option (VM W × List (Place × Value))
  | [], vm => some (vm, [])
  | i :: is, vm =>
    match vm.perform E i.op i.args with
    | .next vm' => do
      let (last, log) ← performAll E is vm'
      some (last, (vm.stored E i).toList ++ log)
    | _ => none

theorem performAll_cons {E : Env W} {i : Instr} {vm vm₁ last : VM W} {is : List Instr}
    {log : List (Place × Value)} (h : vm.perform E i.op i.args = .next vm₁)
    (hrest : performAll E is vm₁ = some (last, log)) :
    performAll E (i :: is) vm = some (last, (vm.stored E i).toList ++ log) := by
  rw [performAll, h]
  simp only [hrest, Option.bind_eq_bind, Option.bind_some]

theorem performAll_append (E : Env W) (is js : List Instr) (vm : VM W) :
    performAll E (is ++ js) vm = (do
      let (vm₁, log) ← performAll E is vm
      let (last, log') ← performAll E js vm₁
      some (last, log ++ log')) := by
  induction is generalizing vm with
  | nil =>
    cases h : performAll E js vm <;> simp [performAll, h]
  | cons i is ih =>
    simp only [List.cons_append, performAll]
    cases vm.perform E i.op i.args with
    | next vm' =>
      simp only [ih]
      cases performAll E is vm' with
      | none => rfl
      | some r =>
        obtain ⟨vm₁, log⟩ := r
        simp only [Option.bind_eq_bind, Option.bind_some]
        cases performAll E js vm₁ <;> simp
    | _ => rfl

/-- The instruction pointer, the thread and the frame stay. -/
structure SameRun (vm vm' : VM W) : Prop where
  run : vm'.run = vm.run
  thread : vm'.currentThread = vm.currentThread
  frame : vm'.frame = vm.frame

theorem SameRun.trans {vm vm' vm'' : VM W} (h : SameRun vm vm') (h' : SameRun vm' vm'') :
    SameRun vm vm'' :=
  ⟨h'.run.trans h.run, h'.thread.trans h.thread, h'.frame.trans h.frame⟩

/-- A thread with the frames it had is put in place of one. -/
theorem sameRun_update {vm : VM W} {i : Nat} {t : ObjThread} (ht : t.frames = (vm.threads i).frames) :
    SameRun vm { vm with threads := Function.update vm.threads i t } := by
  refine ⟨rfl, rfl, ?_⟩
  unfold frame
  by_cases hi : vm.run.frameThread = i
  · simp [hi, ht]
  · simp [Function.update_of_ne hi]

theorem sameRun_setThread {vm : VM W} {t : ObjThread} (ht : t.frames = vm.thread.frames) :
    SameRun vm (vm.setThread t) :=
  sameRun_update ht

theorem pushAll_frames (t : ObjThread) (vs : List Value) : (t.pushAll vs).frames = t.frames := by
  induction vs generalizing t with
  | nil => rfl
  | cons v vs ih => exact ih (t.push v)

/-- The value of a variable of the running function. -/
def read (vm : VM W) : Place → Option Value
  | .slot k => some (vm.getLocal k)
  | .upvalue k => some (vm.readUpvalue (vm.frame.closure.upvalues.getD k 0))
  | .global n => vm.globals n

/-- What the statement emits behind its right-hand side. -/
def Straight (op : OpCode) : Prop :=
  op = .opNil ∨ op = .opUnpack ∨ op = .opSetLocal ∨ op = .opSetGlobal ∨ op = .opPop ∨
    op = .opAdjustStack

theorem perform_sameRun {E : Env W} {vm vm' : VM W} {i : Instr} (hi : Straight i.op)
    (h : vm.perform E i.op i.args = .next vm') : SameRun vm vm' := by
  rcases hi with hi | hi | hi | hi | hi | hi <;> rw [hi] at h <;> simp only [perform] at h
  · cases h
    exact sameRun_setThread rfl
  · unfold opUnpack at h
    dsimp only at h
    split_ifs at h
    split at h
    · cases h
      exact sameRun_setThread (pushAll_frames _ _)
    · cases h
      exact sameRun_setThread (pushAll_frames _ _)
  · cases h
    exact sameRun_update rfl
  · unfold withName at h
    split at h
    · cases h
      exact ⟨rfl, rfl, rfl⟩
    · cases h
  · cases h
    exact sameRun_setThread rfl
  · cases h
    exact sameRun_setThread rfl

theorem performAll_sameRun {E : Env W} {is : List Instr} {vm vm' : VM W} {log : List (Place × Value)}
    (his : ∀ i ∈ is, Straight i.op) (h : vm.performAll E is = some (vm', log)) : SameRun vm vm' := by
  induction is generalizing vm log with
  | nil =>
    cases h
    exact ⟨rfl, rfl, rfl⟩
  | cons i is ih =>
    obtain ⟨hi, his⟩ := List.forall_mem_cons.mp his
    simp only [performAll] at h
    split at h
    next vm₁ h₁ =>
      obtain ⟨⟨last, log'⟩, hrest, h⟩ := Option.bind_eq_some_iff.mp h
      cases h
      exact (perform_sameRun hi h₁).trans (ih his hrest)
    next => cases h

@[simp] theorem thread_setThread (vm : VM W) (t : ObjThread) : (vm.setThread t).thread = t :=
  Function.update_self _ _ _

theorem SameRun.function_eq {E : Env W} {vm vm' : VM W} (h : SameRun vm vm') :
    vm'.function E = vm.function E := by
  unfold function
  rw [h.frame]

theorem performAll_nils (E : Env W) {vm : VM W} {base : Nat} {vs : List Value}
    (h : vm.thread.Cells base vs) (k : Nat) :
    ∃ vm', vm.performAll E (List.replicate k ⟨.opNil, []⟩) = some (vm', []) ∧
      vm'.thread.Cells base (vs ++ List.replicate k .nil) := by
  induction k generalizing vm vs with
  | zero => exact ⟨vm, rfl, by simpa using h⟩
  | succ k ih =>
    have hpush : (vm.push .nil).thread.Cells base (vs ++ [.nil]) := by
      rw [VM.push, thread_setThread]
      exact h.push .nil
    obtain ⟨vm', hrun, hcells⟩ := ih hpush
    refine ⟨vm', ?_, ?_⟩
    · rw [List.replicate_succ]
      exact performAll_cons rfl hrun
    · rw [List.replicate_succ]
      simpa using hcells

/-- The values that `OP_UNPACK` makes of those it finds. -/
def unpacked (E : Env W) (vm : VM W) (n : Nat) (ws : List Value) : List Value :=
  match ws with
  | [.table a] => (List.range n).map fun i => E.tableGetArray vm.toWorld a (i + 1)
  | _ => ws ++ List.replicate (n - ws.length) .nil

theorem unpacked_of_not_table (E : Env W) (vm : VM W) (n : Nat) {ws : List Value}
    (h : ∀ a, ws ≠ [.table a]) :
    unpacked E vm n ws = ws ++ List.replicate (n - ws.length) .nil := by
  unfold unpacked
  split
  next a => exact absurd rfl (h a)
  next => rfl

theorem le_length_unpacked (E : Env W) (vm : VM W) (n : Nat) (ws : List Value) :
    n ≤ (unpacked E vm n ws).length := by
  unfold unpacked
  split
  · simp
  · rw [List.length_append, List.length_replicate]
    omega

/-- What `OP_UNPACK` leaves for a target, counted from the top of the values it finds. -/
def unpackedCell (E : Env W) (vm : VM W) (n : Nat) (ws : List Value) (i : Nat) : Value :=
  match ws with
  | [.table a] => E.tableGetArray vm.toWorld a (i + 1)
  | _ => ws.getD (ws.length - n + i) .nil

/-- The last values that `OP_UNPACK` leaves. -/
theorem drop_last_unpacked (E : Env W) (vm : VM W) (n : Nat) (ws : List Value) :
    (unpacked E vm n ws).drop ((unpacked E vm n ws).length - n) =
      (List.range n).map (unpackedCell E vm n ws) := by
  rw [drop_last_eq (le_length_unpacked E vm n ws)]
  refine List.map_congr_left fun i hi => ?_
  by_cases hws : ∃ a, ws = [.table a]
  · obtain ⟨a, rfl⟩ := hws
    simp [unpacked, unpackedCell, List.getD_eq_getElem?_getD, List.mem_range.mp hi]
  · have hne : ∀ a, ws ≠ [.table a] := fun a ha => hws ⟨a, ha⟩
    have hcell : unpackedCell E vm n ws i = ws.getD (ws.length - n + i) .nil := by
      unfold unpackedCell
      split
      next a => exact absurd rfl (hne a)
      next => rfl
    rw [hcell, unpacked_of_not_table E vm n hne, getD_append_nils, List.length_append,
      List.length_replicate, show ws.length + (n - ws.length) - n = ws.length - n by omega]

/-- `OP_UNPACK` where the values it finds start at depth `vs.length` above `base`. -/
theorem opUnpack_spec (E : Env W) {vm : VM W} {base : Nat} {vs ws : List Value} (depth n : Nat)
    (h : vm.thread.Cells base (vs ++ ws)) (hd : vm.frame.slots + depth = base + vs.length) :
    ∃ vm', vm.opUnpack E depth n = .next vm' ∧ vm'.thread.Cells base (vs ++ unpacked E vm n ws) := by
  have hheight : vm.thread.stackTop - (base + vs.length) = ws.length := by
    rw [h.height, List.length_append]
    omega
  have hlt : ¬ vm.thread.stackTop < base + vs.length := by
    rw [h.height, List.length_append]
    omega
  rw [opUnpack]
  simp only [hd, hlt, if_false, hheight, h.raise.top]
  split
  · refine ⟨_, rfl, ?_⟩
    rw [thread_setThread]
    exact h.lower.pushAll _
  next hws =>
    refine ⟨_, rfl, ?_⟩
    rw [thread_setThread, unpacked_of_not_table E vm n fun a ha => hws a ha, ← List.append_assoc]
    exact h.pushAll _

/-- The stack that the last instruction of the statement leaves. -/
def adjusted (vm : VM W) (k : UInt8) : VM W :=
  vm.setThread { vm.thread with stackTop := vm.frame.slots + k.toNat }

theorem performAll_adjust (E : Env W) (vm : VM W) (k : UInt8) :
    vm.performAll E [⟨.opAdjustStack, [k]⟩] = some (vm.adjusted k, []) := rfl

/-- One store: the value on top goes to the place, and stays on top. -/
theorem perform_store {E : Env W} {vm : VM W} {base : Nat} {vs : List Value} {w : Value} {p : Place}
    {i : Instr} (h : vm.thread.Cells base (vs ++ [w])) (hi : p.StoredBy (vm.function E).constants i)
    (ht : vm.currentThread = vm.run.frameThread)
    (hp : (∃ n, p = .global n) ∨ ∃ k, p = .slot k ∧ k < 256 ∧ vm.frame.slots + k < base) :
    ∃ vm', vm.perform E i.op i.args = .next vm' ∧ vm.stored E i = some (p, w) ∧
      vm'.thread.Cells base (vs ++ [w]) := by
  rcases hp with ⟨n, rfl⟩ | ⟨k, rfl, hk, hbase⟩
  · obtain ⟨k, rfl, hk⟩ := hi
    have hconst : vm.constant E k.toNat = .string n := by
      rw [constant, List.getD_eq_getElem?_getD, hk]
      rfl
    refine ⟨vm.setGlobal n (some w), ?_, ?_, h⟩
    · simp [perform, withName, hconst, h.peek]
    · simp [stored, hconst, h.peek]
  · obtain rfl := hi
    have hk' : (UInt8.ofNat k).toNat = k := UInt8.toNat_ofNat_of_lt' hk
    refine ⟨vm.setLocal k w, ?_, ?_, ?_⟩
    · simp [perform, hk', h.peek]
    · simp [stored, hk', h.peek]
    · have hthread : (vm.setLocal k w).thread = vm.thread.setSlot (vm.frame.slots + k) w := by
        unfold VM.setLocal thread
        dsimp only
        rw [ht]
        exact Function.update_self _ _ _
      rw [hthread]
      exact h.setSlot hbase w

/-- The stores pop their values from the right. -/
theorem performAll_stores {E : Env W} {vm : VM W} {base : Nat} {vs ws cs : List Value}
    {ps : List Place} {is : List Instr} (h : vm.thread.Cells base (vs ++ ws.reverse))
    (hcs : (vm.function E).constants = cs)
    (his : List.Forall₂ (fun p i => p.StoredBy cs i) ps is)
    (ht : vm.currentThread = vm.run.frameThread) (hlen : ws.length = ps.length)
    (hps : ∀ p ∈ ps, (∃ n, p = .global n) ∨
      ∃ k, p = .slot k ∧ k < 256 ∧ vm.frame.slots + k < base) :
    ∃ vm', vm.performAll E (is.flatMap fun i => [i, popInstr]) = some (vm', ps.zip ws) ∧
      vm'.thread.Cells base vs := by
  induction his generalizing vm ws with
  | nil =>
    obtain rfl := List.eq_nil_of_length_eq_zero hlen
    exact ⟨vm, rfl, by simpa using h⟩
  | @cons p i ps is hpi hrest ih =>
    obtain ⟨w, ws, rfl⟩ := List.exists_cons_of_length_eq_add_one hlen
    obtain ⟨hp, hps⟩ := List.forall_mem_cons.mp hps
    rw [List.reverse_cons, ← List.append_assoc] at h
    obtain ⟨vm₁, hstep, hstored, hcells⟩ := perform_store h (hcs ▸ hpi) ht hp
    have hop : Straight i.op := by
      rcases hp with ⟨n, rfl⟩ | ⟨k, rfl, -⟩
      · obtain ⟨k, rfl, -⟩ := hpi
        exact .inr (.inr (.inr (.inl rfl)))
      · obtain rfl := hpi
        exact .inr (.inr (.inl rfl))
    have hsame := perform_sameRun hop hstep
    have hsame' : SameRun vm (vm₁.drop 1) := hsame.trans (sameRun_setThread rfl)
    have hdrop : (vm₁.drop 1).thread.Cells base (vs ++ ws.reverse) := by
      rw [VM.drop, thread_setThread]
      exact hcells.drop
    obtain ⟨vm', hrun, hlast⟩ := ih hdrop (hsame'.function_eq ▸ hcs)
      (hsame'.thread.trans (ht.trans (congrArg Run.frameThread hsame'.run).symm))
      (by simpa using hlen) (hsame'.frame ▸ hps)
    refine ⟨vm', ?_, hlast⟩
    have hpop : vm₁.perform E popInstr.op popInstr.args = .next (vm₁.drop 1) := rfl
    have hlog : vm₁.stored E popInstr = none := rfl
    rw [List.flatMap_cons, List.cons_append, List.cons_append, List.nil_append,
      performAll_cons hstep (performAll_cons hpop hrun), hstored, hlog]
    rfl

end VM

end ToiLang
