import ToiLang.Regions
import ToiLang.Vm.Effect

namespace ToiLang

/-- Control can go on behind the instruction. -/
def OpCode.goesOn (o : OpCode) : Bool :=
  o.fallsThrough || o == .opTry || o == .opEndTry || o == .opEndFinally

namespace Placed

/-- Where control can go from an instruction that does not fail. -/
def Goes (q : Placed) (r : Nat) : Prop :=
  (q.instr.op.goesOn = true ∧ r = q.offset + q.instr.size) ∨
    ∃ f ip, q.instr.op.jumpTarget q.instr.args ⟨f, q.offset + q.instr.size⟩ = some ip ∧ r = ip.offset

/-- The statement that an `OP_TRY` enters. -/
def entry (q : Placed) : Enclosing := ⟨q.offset + q.instr.size, q.instr.args, false⟩

/-- The statements around the next instruction. -/
def after (q : Placed) : List Enclosing :=
  match q.instr.op with
  | .opTry => q.entry :: q.around
  | .opEndTry => q.around.tail
  | _ => q.around

/-- Control goes from an instruction to positions that `A` admits. -/
structure Closed (A : Nat → List Enclosing → Prop) (q : Placed) : Prop where
  goes : ∀ r, q.Goes r → A r q.after
  except : q.instr.op = .opTry → q.entry.hasExcept = true →
    A q.entry.exceptStart ({ q.entry with inExcept := true } :: q.around)
  final : q.instr.op = .opTry → q.entry.hasFinally = true → A q.entry.finallyStart q.around
  endTry : q.instr.op = .opEndTry → q.around ≠ []

end Placed

theorem operandShort_shortBytes {n : Nat} (hn : n ≤ 0xffff) (xs ys : List UInt8) :
    operandShort (xs ++ (shortBytes n ++ ys)) xs.length = n := by
  have h1 : (UInt8.ofNat (n / 256)).toNat = n / 256 := by
    rw [UInt8.toNat_ofNat']
    omega
  have h2 : (UInt8.ofNat n).toNat = n % 256 := UInt8.toNat_ofNat'
  have hget : ∀ k, (xs ++ (shortBytes n ++ ys)).getD (xs.length + k) 0 =
      (shortBytes n ++ ys).getD k 0 := by
    intro k
    simp only [List.getD_eq_getElem?_getD, List.getElem?_append_right (Nat.le_add_right _ k),
      Nat.add_sub_cancel_left]
  have hz := hget 0
  rw [Nat.add_zero] at hz
  rw [operandShort, hz, hget 1]
  simp only [shortBytes, List.cons_append, List.nil_append, List.getD_cons_zero,
    List.getD_cons_succ, h1, h2]
  omega

section Closed

variable {A : Nat → List Enclosing → Prop} {q : Placed}

theorem jumpTarget_leaf {o : OpCode} (h : o.isControl = false) (args : List UInt8) (ip : CodePtr) :
    o.jumpTarget args ip = none := by
  cases o <;> first | rfl | cases h

theorem Placed.closed_of_goes (ht : q.instr.op ≠ .opTry) (he : q.instr.op ≠ .opEndTry)
    (h : ∀ r, q.Goes r → A r q.around) : q.Closed A := by
  have ha : q.after = q.around := by
    unfold Placed.after
    split <;> first | rfl | contradiction
  exact ⟨by rwa [ha], fun h => absurd h ht, fun h => absurd h ht, fun h => absurd h he⟩

theorem Placed.closed_leaf (hc : q.instr.op.isControl = false)
    (hf : q.instr.op.fallsThrough = true → A (q.offset + q.instr.size) q.around) : q.Closed A := by
  have ht : q.instr.op ≠ .opTry := fun h => by rw [h] at hc; cases hc
  have he : q.instr.op ≠ .opEndTry := fun h => by rw [h] at hc; cases hc
  have hn : q.instr.op ≠ .opEndFinally := fun h => by rw [h] at hc; cases hc
  refine closed_of_goes ht he ?_
  rintro r (⟨hg, rfl⟩ | ⟨f, ip, hj, rfl⟩)
  · refine hf ?_
    simpa [OpCode.goesOn, ht, he, hn] using hg
  · rw [jumpTarget_leaf hc] at hj
    cases hj

theorem Placed.closed_jump {o : OpCode} {p n : Nat} {es : List Enclosing}
    (ho : o = .opJump ∨ o = .opJumpIfFalse ∨ o = .opJumpIfTrue) (hn : n ≤ 0xffff)
    (hf : o ≠ .opJump → A (p + 3) es) (hj : A (p + 3 + n) es) :
    Placed.Closed A ⟨p, jumpInstr o n, es⟩ := by
  have hs : operandShort (shortBytes n) 0 = n := operandShort_shortBytes hn [] []
  have hne : o ≠ .opTry ∧ o ≠ .opEndTry := by rcases ho with rfl | rfl | rfl <;> simp
  refine closed_of_goes hne.1 hne.2 ?_
  rintro r (⟨hg, rfl⟩ | ⟨f, ip, ht, rfl⟩)
  · refine hf ?_
    rintro rfl
    cases hg
  · have hip : some ip = some (CodePtr.forward ⟨f, p + 3⟩ n) := by
      rw [← ht]
      rcases ho with rfl | rfl | rfl <;> exact congrArg (fun m => some (CodePtr.forward _ m)) hs
    cases Option.some.inj hip
    exact hj

theorem Placed.closed_loop {p n : Nat} {es : List Enclosing} (hn : n ≤ 0xffff)
    (hj : A (p + 3 - n) es) : Placed.Closed A ⟨p, jumpInstr .opLoop n, es⟩ := by
  have hs : operandShort (shortBytes n) 0 = n := operandShort_shortBytes hn [] []
  refine closed_of_goes (by rintro ⟨⟩) (by rintro ⟨⟩) ?_
  rintro r (⟨hg, rfl⟩ | ⟨f, ip, ht, rfl⟩)
  · cases hg
  · have hip : some ip = some (CodePtr.back ⟨f, p + 3⟩ n) := by
      rw [← ht]
      exact congrArg (fun m => some (CodePtr.back _ m)) hs
    cases Option.some.inj hip
    exact hj

theorem Placed.closed_forPrep {v l : UInt8} {p b : Nat} {es : List Enclosing}
    (hn : b + 5 ≤ 0xffff) (hf : A (p + 5) es) (hj : A (p + 5 + (b + 5)) es) :
    Placed.Closed A ⟨p, Code.forPrepInstr v l b, es⟩ := by
  have hs : operandShort ([v, l] ++ shortBytes (b + 5)) 2 = b + 5 :=
    operandShort_shortBytes hn [v, l] []
  refine closed_of_goes (by rintro ⟨⟩) (by rintro ⟨⟩) ?_
  rintro r (⟨-, rfl⟩ | ⟨f, ip, ht, rfl⟩)
  · exact hf
  · have hip : some ip = some (CodePtr.forward ⟨f, p + 5⟩ (b + 5)) := by
      rw [← ht]
      exact congrArg (fun m => some (CodePtr.forward _ m)) hs
    cases Option.some.inj hip
    exact hj

theorem Placed.closed_forLoop {v l : UInt8} {p b : Nat} {es : List Enclosing}
    (hn : 5 + b + 5 ≤ 0xffff) (hf : A (p + 5) es) (hj : A (p + 5 - (5 + b + 5)) es) :
    Placed.Closed A ⟨p, Code.forLoopInstr v l b, es⟩ := by
  have hs : operandShort ([v, l] ++ shortBytes (5 + b + 5)) 2 = 5 + b + 5 :=
    operandShort_shortBytes hn [v, l] []
  refine closed_of_goes (by rintro ⟨⟩) (by rintro ⟨⟩) ?_
  rintro r (⟨-, rfl⟩ | ⟨f, ip, ht, rfl⟩)
  · exact hf
  · have hip : some ip = some (CodePtr.back ⟨f, p + 5⟩ (5 + b + 5)) := by
      rw [← ht]
      exact congrArg (fun m => some (CodePtr.back _ m)) hs
    cases Option.some.inj hip
    exact hj

theorem Placed.closed_endTry {p : Nat} {e : Enclosing} {es : List Enclosing}
    (hf : A (p + 1) es) : Placed.Closed A ⟨p, endTryInstr, e :: es⟩ := by
  refine ⟨?_, by rintro ⟨⟩, by rintro ⟨⟩, fun _ => by simp⟩
  rintro r (⟨-, rfl⟩ | ⟨f, ip, ht, rfl⟩)
  · exact hf
  · cases ht

theorem Placed.closed_endFinally {p : Nat} {es : List Enclosing}
    (hf : A (p + 1) es) : Placed.Closed A ⟨p, endFinallyInstr, es⟩ := by
  refine closed_of_goes (by rintro ⟨⟩) (by rintro ⟨⟩) ?_
  rintro r (⟨-, rfl⟩ | ⟨f, ip, ht, rfl⟩)
  · exact hf
  · cases ht

section TryInstr

variable (x e f : Bool) (d : UInt8) (b n start : Nat) (k : Bool)

@[simp] theorem tryInstr_hasExcept :
    Enclosing.hasExcept ⟨start, (Code.tryInstr x e f d b n).args, k⟩ = x := by
  cases x <;> cases f <;> simp [Enclosing.hasExcept, Code.tryInstr]

@[simp] theorem tryInstr_hasFinally :
    Enclosing.hasFinally ⟨start, (Code.tryInstr x e f d b n).args, k⟩ = f := by
  cases x <;> cases f <;> simp [Enclosing.hasFinally, Code.tryInstr]

theorem tryInstr_exceptStart (hx : x = true) (hn : b + 1 + 3 ≤ 0xffff) :
    Enclosing.exceptStart ⟨start, (Code.tryInstr x e f d b n).args, k⟩ = start + (b + 1 + 3) := by
  subst hx
  exact congrArg (start + ·) (operandShort_shortBytes hn [d, _] _)

theorem tryInstr_finallyStart (hf : f = true) (hn : b + 1 + Code.exceptSize x e n ≤ 0xffff) :
    Enclosing.finallyStart ⟨start, (Code.tryInstr x e f d b n).args, k⟩ =
      start + (b + 1 + Code.exceptSize x e n) := by
  subst hf
  exact congrArg (start + ·) (operandShort_shortBytes hn ([d, _] ++ shortBytes _) [])

end TryInstr

theorem Placed.closed_try {x e f : Bool} {d : UInt8} {b n p : Nat} {es : List Enclosing}
    (hx : x = true → b + 1 + 3 ≤ 0xffff) (hf : f = true → b + 1 + Code.exceptSize x e n ≤ 0xffff)
    (hbody : A (p + 7) (⟨p + 7, (Code.tryInstr x e f d b n).args, false⟩ :: es))
    (hexc : x = true → A (p + 7 + (b + 1 + 3)) (⟨p + 7, (Code.tryInstr x e f d b n).args, true⟩ :: es))
    (hfin : f = true → A (p + 7 + (b + 1 + Code.exceptSize x e n)) es) :
    Placed.Closed A ⟨p, Code.tryInstr x e f d b n, es⟩ := by
  refine ⟨?_, fun _ h => ?_, fun _ h => ?_, by rintro ⟨⟩⟩
  · rintro r (⟨-, rfl⟩ | ⟨g, ip, ht, rfl⟩)
    · exact hbody
    · cases ht
  · have hxt : x = true := (tryInstr_hasExcept x e f d b n (p + 7) false).symm.trans h
    have hs := tryInstr_exceptStart x e f d b n (p + 7) false hxt (hx hxt)
    have ha := hexc hxt
    rw [← hs] at ha
    exact ha
  · have hft : f = true := (tryInstr_hasFinally x e f d b n (p + 7) false).symm.trans h
    have hs := tryInstr_finallyStart x e f d b n (p + 7) false hft (hf hft)
    have ha := hfin hft
    rw [← hs] at ha
    exact ha

end Closed

namespace Code

/-- The loop around a piece of code lies around it, and `continue` reaches its end. -/
structure Targets.Around (t : Targets) (base stop : Nat) : Prop where
  brk : stop ≤ t.brk
  back : t.kind = .while → t.cont ≤ base
  forward : t.kind ≠ .while → stop ≤ t.cont
  near : t.kind = .forRange → t.cont ≤ base + 0xffff

theorem Targets.Around.mono {t : Targets} {base stop base' stop' : Nat} (h : t.Around base stop)
    (hb : base ≤ base') (hs : stop' ≤ stop) : t.Around base' stop' :=
  ⟨Nat.le_trans hs h.brk, fun hk => Nat.le_trans (h.back hk) hb,
    fun hk => Nat.le_trans hs (h.forward hk),
    fun hk => Nat.le_trans (h.near hk) (Nat.add_le_add_right hb _)⟩

variable {A : Nat → List Enclosing → Prop}

/-- Code starts with its first instruction or, when it has none, with what is behind it. -/
theorem layout_start {c : Code} {L : Option Targets} {base : Nat} {es : List Enclosing}
    (hA : ∀ q ∈ c.layout L base es, A q.offset q.around) (hexit : c.size = 0 → A base es) :
    A base es := by
  induction c generalizing base with
  | nil | mark => exact hexit rfl
  | instr i | call i => exact hA _ (List.mem_singleton_self _)
  | seq a b iha ihb =>
    refine iha (fun q hq => hA q (List.mem_append_left _ hq)) fun ha => ?_
    have hb := @ihb (base + a.size) (fun q hq => hA q (List.mem_append_right _ hq))
    rw [ha] at hb
    exact hb fun hb0 => hexit (by rw [size, ha, hb0])
  | skipIfFalse | branch | forRange | tryBlock => exact hA _ List.mem_cons_self
  | whileLoop c b ihc =>
    simp only [layout, List.append_assoc] at hA
    refine ihc (fun q hq => hA q (List.mem_append_left _ hq)) fun hc => ?_
    have h := hA _ (List.mem_append_right _ List.mem_cons_self)
    rwa [hc] at h
  | forIn hd b e ihh =>
    simp only [layout, List.append_assoc] at hA
    refine ihh (fun q hq => hA q (List.mem_append_left _ hq)) fun hh => ?_
    have h := hA _ (List.mem_append_right _ List.mem_cons_self)
    rwa [hh] at h
  | breakJump ps | continueJump ps =>
    cases ps with
    | nil => exact hA _ (List.mem_singleton_self _)
    | cons i is => exact hA _ List.mem_cons_self

/-- Plain instructions are followed by one another and by what is behind the last. -/
theorem placeAll_closed {is : List Instr} {p : Nat} {es : List Enclosing}
    (hc : ∀ i ∈ is, i.op.isControl = false) (hA : ∀ q ∈ placeAll is p es, A q.offset q.around)
    (hexit : A (p + codeSize is) es) : ∀ q ∈ placeAll is p es, q.Closed A := by
  induction is generalizing p with
  | nil => simp [placeAll]
  | cons i is ih =>
    intro q hq
    rcases List.mem_cons.mp hq with rfl | hq
    · refine Placed.closed_leaf (hc i List.mem_cons_self) fun _ => ?_
      cases is with
      | nil => simpa using hexit
      | cons j js => exact hA _ (List.mem_cons_of_mem _ List.mem_cons_self)
    · refine ih (fun j hj => hc j (List.mem_cons_of_mem _ hj))
        (fun r hr => hA r (List.mem_cons_of_mem _ hr)) ?_ q hq
      rwa [codeSize_cons, ← Nat.add_assoc] at hexit

theorem stops_of_empty {c : Code} (h : c.size = 0) : c.stops = false := by
  induction c with
  | instr i =>
    have hi := i.size_pos
    simp only [size] at h
    omega
  | seq a b _ ihb =>
    simp only [size] at h
    exact ihb (by omega)
  | _ => rfl

theorem breakJump_closed {t : Targets} {p : Nat} {es : List Enclosing}
    (ht : p + 3 ≤ t.brk) (hn : t.brk - (p + 3) ≤ 0xffff) (hA : A t.brk es) :
    Placed.Closed A ⟨p, breakInstr (some t) (p + 3), es⟩ := by
  refine Placed.closed_jump (.inl rfl) hn (fun h => absurd rfl h) ?_
  rwa [Nat.add_sub_cancel' ht]

theorem continueJump_closed {t : Targets} {ps : List Instr} {base : Nat} {es : List Enclosing}
    (ht : t.Around base (base + (codeSize ps + 3)))
    (hn : (continueJump ps).jumpsFit (some t) base = true) (hA : A t.cont es) :
    Placed.Closed A
      ⟨base + codeSize ps, continueInstr (some t) (base + codeSize ps + 3), es⟩ := by
  obtain ⟨brk, cont, kind⟩ := t
  have hback := ht.back
  have hforward := ht.forward
  have hnear := ht.near
  cases kind with
  | «while» =>
    have hn : base + codeSize ps + 3 - cont ≤ 0xffff := of_decide_eq_true hn
    have hcont : cont ≤ base := hback rfl
    refine Placed.closed_loop hn ?_
    rwa [Nat.sub_sub_self (show cont ≤ base + codeSize ps + 3 by omega)]
  | forIn =>
    have hn : cont - (base + codeSize ps + 3) ≤ 0xffff := of_decide_eq_true hn
    have hcont : base + (codeSize ps + 3) ≤ cont := hforward (by simp)
    refine Placed.closed_jump (.inl rfl) hn (fun h => absurd rfl h) ?_
    rwa [Nat.add_sub_cancel' (by omega)]
  | forRange =>
    have hcont : base + (codeSize ps + 3) ≤ cont := hforward (by simp)
    have hn : cont ≤ base + 0xffff := hnear rfl
    refine Placed.closed_jump (n := cont - (base + codeSize ps + 3)) (.inl rfl) (by omega)
      (fun h => absurd rfl h) ?_
    rwa [Nat.add_sub_cancel' (by omega)]

/-- Control stays in the code, goes on behind it, or leads to the targets of the loop around it;
`A` holds along the way of the statements around each position. -/
theorem layout_closed {P : Instr → Prop} (hP : ∀ i, P i → i.op.isControl = false) {c : Code}
    {L : Option Targets} {base : Nat} {es : List Enclosing} {k : Bool}
    (hfit : c.jumpsFit L base = true) (hrange : c.rangesFit = true) (hleaf : c.Leaves P)
    (hL : ∀ t, L = some t → t.Around base (base + c.size))
    (hA : ∀ q ∈ c.layout L base es, A q.offset q.around)
    (hexit : c.stops = false → A (base + c.size) es)
    (hk : k = true → ∃ t, L = some t ∧ A t.brk es ∧ A t.cont es) :
    ∀ q ∈ c.layout L base es, q.offset ∉ c.escapes k base → q.Closed A := by
  have hstart {c : Code} {L : Option Targets} {base : Nat} {es : List Enclosing}
      (hA : ∀ q ∈ c.layout L base es, A q.offset q.around)
      (hexit : c.stops = false → A (base + c.size) es) : A base es := by
    refine layout_start hA fun h => ?_
    have he := hexit (stops_of_empty h)
    rwa [h] at he
  induction c generalizing L base es k with
  | nil | mark => simp [layout]
  | instr i | call i =>
    intro q hq _
    rw [List.mem_singleton.mp hq]
    refine Placed.closed_leaf (hP i hleaf) fun hf => hexit ?_
    simp [stops, hf]
  | seq a b iha ihb =>
    simp only [jumpsFit, rangesFit, Bool.and_eq_true] at hfit hrange
    simp only [size, ← Nat.add_assoc] at hL hexit
    have hAb := fun q hq => hA q (List.mem_append_right _ hq)
    intro q hq hesc
    simp only [escapes, List.mem_append, not_or] at hesc
    rcases List.mem_append.mp hq with hq | hq
    · exact iha hfit.1 hrange.1 hleaf.1 (fun t ht => (hL t ht).mono (by omega) (by omega))
        (fun q hq => hA q (List.mem_append_left _ hq)) (fun _ => hstart hAb hexit) hk q hq hesc.1
    · exact ihb hfit.2 hrange.2 hleaf.2 (fun t ht => (hL t ht).mono (by omega) (by omega))
        hAb hexit hk q hq hesc.2
  | skipIfFalse a ih =>
    simp only [jumpsFit, Bool.and_eq_true, decide_eq_true_eq] at hfit
    simp only [size, ← Nat.add_assoc] at hL hexit
    have hAa := fun q hq => hA q (List.mem_cons_of_mem _ hq)
    intro q hq hesc
    rcases List.mem_cons.mp hq with rfl | hq
    · exact Placed.closed_jump (.inr (.inl rfl)) hfit.1 (fun _ => hstart hAa fun _ => hexit rfl)
        (hexit rfl)
    · exact ih hfit.2 hrange hleaf (fun t ht => (hL t ht).mono (by omega) (by omega)) hAa
        (fun _ => hexit rfl) hk q hq hesc
  | branch a b iha ihb =>
    simp only [jumpsFit, rangesFit, Bool.and_eq_true, decide_eq_true_eq] at hfit hrange
    simp only [size, ← Nat.add_assoc] at hL hexit
    simp only [layout, List.cons_append, List.mem_cons, List.mem_append] at hA
    have hAa := fun q hq => hA q (.inr (.inl hq))
    have hAb := fun q hq => hA q (.inr (.inr (.inr hq)))
    have hmid : A (base + 3 + a.size) es := hA _ (.inr (.inr (.inl rfl)))
    have hb := hstart hAb fun _ => hexit rfl
    intro q hq hesc
    simp only [escapes, List.mem_append, not_or] at hesc
    simp only [layout, List.cons_append, List.mem_cons, List.mem_append] at hq
    rcases hq with rfl | hq | rfl | hq
    · exact Placed.closed_jump (.inr (.inl rfl)) hfit.1.1.1 (fun _ => hstart hAa fun _ => hmid) hb
    · exact iha hfit.1.2 hrange.1 hleaf.1 (fun t ht => (hL t ht).mono (by omega) (by omega)) hAa
        (fun _ => hmid) hk q hq hesc.1
    · exact Placed.closed_jump (.inl rfl) hfit.1.1.2 (fun h => absurd rfl h) (hexit rfl)
    · exact ihb hfit.2 hrange.2 hleaf.2 (fun t ht => (hL t ht).mono (by omega) (by omega)) hAb
        (fun _ => hexit rfl) hk q hq hesc.2
  | whileLoop c b ihc ihb =>
    simp only [jumpsFit, rangesFit, Bool.and_eq_true, decide_eq_true_eq] at hfit hrange
    simp only [size, ← Nat.add_assoc] at hL hexit
    simp only [layout, placeAll, List.append_assoc, List.cons_append, List.mem_cons,
      List.mem_append, List.not_mem_nil, or_false, jumpInstr_size] at hA
    have hAc := fun q hq => hA q (.inl hq)
    have hAb := fun q hq => hA q (.inr (.inr (.inr (.inl hq))))
    have hbase := hstart hAc fun _ => hA _ (.inr (.inl rfl))
    have hpop : A (base + c.size + 3) es := hA _ (.inr (.inr (.inl rfl)))
    have hloop : A (base + c.size + 3 + 1 + b.size) es := hA _ (.inr (.inr (.inr (.inr (.inl rfl)))))
    have hlast : A (base + c.size + 3 + 1 + b.size + 3) es :=
      hA _ (.inr (.inr (.inr (.inr (.inr rfl)))))
    intro q hq hesc
    simp only [escapes, List.mem_append, not_or] at hesc
    simp only [layout, placeAll, List.append_assoc, List.cons_append, List.mem_cons,
      List.mem_append, List.not_mem_nil, or_false, jumpInstr_size] at hq
    rcases hq with hq | rfl | rfl | hq | rfl | rfl
    · exact ihc hfit.1.2 hrange.1 hleaf.1 (fun t ht => (hL t ht).mono (by omega) (by omega)) hAc
        (fun _ => hA _ (.inr (.inl rfl))) hk q hq hesc.1
    · refine Placed.closed_jump (.inr (.inl rfl)) (by omega) (fun _ => hpop) ?_
      rwa [show base + c.size + 3 + (1 + b.size + 3) = base + c.size + 3 + 1 + b.size + 3 by omega]
    · exact Placed.closed_leaf rfl fun _ => hstart hAb fun _ => hloop
    · refine ihb hfit.2 hrange.2 hleaf.2 ?_ hAb (fun _ => hloop)
        (fun _ => ⟨_, rfl, hexit rfl, hbase⟩) q hq hesc.2
      rintro t ⟨⟩
      exact ⟨by simp [whileTargets]; omega, fun _ => by simp [whileTargets]; omega,
        fun h => absurd rfl h, by rintro ⟨⟩⟩
    · refine Placed.closed_loop (by omega) ?_
      rwa [show base + c.size + 3 + 1 + b.size + 3 - (c.size + 3 + 1 + b.size + 3) = base by omega]
    · exact Placed.closed_leaf rfl fun _ => hexit rfl
  | forIn hd b e ihh ihb ihe =>
    simp only [jumpsFit, rangesFit, Bool.and_eq_true, decide_eq_true_eq] at hfit hrange
    simp only [size, ← Nat.add_assoc] at hL hexit
    simp only [layout, List.append_assoc, List.cons_append, List.mem_cons, List.mem_append] at hA
    have hAh := fun q hq => hA q (.inl hq)
    have hAb := fun q hq => hA q (.inr (.inr (.inl hq)))
    have hAe := fun q hq => hA q (.inr (.inr (.inr (.inr hq))))
    have hbase := hstart hAh fun _ => hA _ (.inr (.inl rfl))
    have hloop : A (base + hd.size + 3 + b.size) es := hA _ (.inr (.inr (.inr (.inl rfl))))
    have hend := hstart hAe fun _ => hexit rfl
    intro q hq hesc
    simp only [escapes, List.mem_append, not_or] at hesc
    simp only [layout, List.append_assoc, List.cons_append, List.mem_cons, List.mem_append] at hq
    rcases hq with hq | rfl | hq | rfl | hq
    · exact ihh hfit.1.1.2 hrange.1.1 hleaf.1 (fun t ht => (hL t ht).mono (by omega) (by omega)) hAh
        (fun _ => hA _ (.inr (.inl rfl))) hk q hq hesc.1.1
    · refine Placed.closed_jump (.inr (.inr rfl)) (by omega)
        (fun _ => hstart hAb fun _ => hloop) ?_
      rwa [← Nat.add_assoc]
    · refine ihb hfit.1.2 hrange.1.2 hleaf.2.1 ?_ hAb (fun _ => hloop)
        (fun _ => ⟨_, rfl, hexit rfl, hloop⟩) q hq hesc.1.2
      rintro t ⟨⟩
      exact ⟨by simp [forInTargets]; omega, by rintro ⟨⟩, fun _ => by simp [forInTargets],
        by rintro ⟨⟩⟩
    · refine Placed.closed_loop (by omega) ?_
      rwa [show base + hd.size + 3 + b.size + 3 - (hd.size + 3 + b.size + 3) = base by omega]
    · exact ihe hfit.2 hrange.2 hleaf.2.2 (fun t ht => (hL t ht).mono (by omega) (by omega)) hAe
        (fun _ => hexit rfl) hk q hq hesc.2
  | forRange v l b ih =>
    simp only [jumpsFit, rangesFit, Bool.and_eq_true, decide_eq_true_eq] at hfit hrange
    simp only [size, ← Nat.add_assoc] at hL hexit
    simp only [layout, List.cons_append, List.mem_cons, List.mem_append, List.not_mem_nil,
      or_false] at hA
    have hAb := fun q hq => hA q (.inr (.inl hq))
    have hloop : A (base + 5 + b.size) es := hA _ (.inr (.inr rfl))
    intro q hq hesc
    simp only [layout, List.cons_append, List.mem_cons, List.mem_append, List.not_mem_nil,
      or_false] at hq
    rcases hq with rfl | hq | rfl
    · refine Placed.closed_forPrep (by omega) (hstart hAb fun _ => hloop) ?_
      rw [← Nat.add_assoc]
      exact hexit rfl
    · refine ih hfit hrange.2 hleaf ?_ hAb (fun _ => hloop)
        (fun _ => ⟨_, rfl, hexit rfl, hloop⟩) q hq hesc
      rintro t ⟨⟩
      exact ⟨by simp [forRangeTargets], by rintro ⟨⟩, fun _ => by simp [forRangeTargets],
        fun _ => by simp [forRangeTargets]; omega⟩
    · refine Placed.closed_forLoop hrange.1 (hexit rfl) ?_
      rw [show base + 5 + b.size + 5 - (5 + b.size + 5) = base by omega]
      exact hA _ (.inl rfl)
  | tryBlock x e f d b exc fin ihb ihe ihf =>
    simp only [jumpsFit, rangesFit, Bool.and_eq_true, decide_eq_true_eq, Bool.or_eq_true,
      Bool.not_eq_true'] at hfit hrange
    simp only [size, ← Nat.add_assoc] at hL hexit
    obtain ⟨hleafb, hleafe, hleaff, hstops⟩ := hleaf
    have hsize : x = true → exceptSize x e exc.size = 3 + exc.size + (if e then 1 else 0) := by
      rintro rfl
      rfl
    have hmem := fun q => @mem_layout_tryBlock x e f d b exc fin L base es q
    generalize hi : tryInstr x e f d b.size exc.size = i at hmem
    dsimp only at hmem
    simp only [hmem] at hA ⊢
    have hAb := fun q hq => hA q (.inr (.inl hq))
    have hAx := fun hx q hq => hA q (.inr (.inr (.inr (.inl ⟨hx, .inr (.inl hq)⟩))))
    have hAf := fun hf q hq => hA q (.inr (.inr (.inr (.inr ⟨hf, .inl hq⟩))))
    have hendTry := hA _ (.inr (.inr (.inl rfl)))
    have hfinally : A (base + 7 + b.size + 1 + exceptSize x e exc.size) es := by
      cases f with
      | false => exact hexit rfl
      | true => exact hstart (hAf rfl) fun _ => hA _ (.inr (.inr (.inr (.inr ⟨rfl, .inr rfl⟩))))
    have hover : A (base + 7 + b.size + 1) es := by
      cases x with
      | false => exact hfinally
      | true => exact hA _ (.inr (.inr (.inr (.inl ⟨rfl, .inl rfl⟩))))
    have hclause : x = true → exc.stops = false →
        A (base + 7 + b.size + 1 + 3 + exc.size) (⟨base + 7, i.args, true⟩ :: es) := by
      intro hx hs
      cases e with
      | false => rw [hstops hx rfl] at hs; cases hs
      | true => exact hA _ (.inr (.inr (.inr (.inl ⟨hx, .inr (.inr ⟨rfl, rfl⟩)⟩))))
    intro q hq hesc
    simp only [escapes, List.mem_append, not_or] at hesc
    rcases hq with rfl | hq | rfl | ⟨hx, rfl | hq | ⟨he, rfl⟩⟩ | ⟨hf, hq | rfl⟩
    · subst hi
      refine Placed.closed_try (fun hx => ?_) (fun hf => ?_) (hstart hAb fun _ => hendTry)
        (fun hx => ?_) fun _ => ?_
      · rcases hfit.1.1.1.2 with h | h
        · exact h.1
        · rw [hx] at h; cases h
      · rcases hfit.1.1.1.1 with h | h
        · exact h
        · rw [hf] at h; cases h
      · simpa only [← Nat.add_assoc] using hstart (hAx hx) (hclause hx)
      · simpa only [← Nat.add_assoc] using hfinally
    · exact ihb hfit.1.1.2 hrange.1.1 hleafb (fun t ht => (hL t ht).mono (by omega) (by omega)) hAb
        (fun _ => hendTry) (by rintro ⟨⟩) q hq hesc.1.1
    · exact Placed.closed_endTry hover
    · have hlen : exc.size + (if e then 1 else 0) ≤ 0xffff := by
        rcases hfit.1.1.1.2 with h | h
        · exact h.2
        · rw [hx] at h; cases h
      refine Placed.closed_jump (.inl rfl) hlen (fun h => absurd rfl h) ?_
      rw [hsize hx] at hfinally
      simpa only [← Nat.add_assoc] using hfinally
    · rw [hx] at hesc
      rw [hsize hx] at hL
      exact ihe hfit.1.2 hrange.1.2 hleafe (fun t ht => (hL t ht).mono (by omega) (by omega)) (hAx hx)
        (hclause hx) (by rintro ⟨⟩) q hq hesc.1.2
    · refine Placed.closed_endTry ?_
      rw [hsize hx, if_pos he] at hfinally
      simpa only [← Nat.add_assoc] using hfinally
    · rw [hf] at hesc hL
      exact ihf hfit.2 hrange.2 hleaff
        (fun t ht => (hL t ht).mono (by omega) (by simp only [↓reduceIte]; omega)) (hAf hf)
        (fun _ => hA _ (.inr (.inr (.inr (.inr ⟨hf, .inr rfl⟩))))) hk q hq hesc.2
    · rw [hf] at hexit
      exact Placed.closed_endFinally (hexit rfl)
  | breakJump ps =>
    simp only [size] at hL
    intro q hq hesc
    have hj : A (base + codeSize ps) es := hA _ (List.mem_append_right _ (List.mem_singleton_self _))
    rcases List.mem_append.mp hq with hq | hq
    · exact placeAll_closed (fun i hi => hP i (hleaf i hi))
        (fun q hq => hA q (List.mem_append_left _ hq)) hj q hq
    · rw [List.mem_singleton.mp hq] at hesc ⊢
      have hkt : k = true := by
        by_contra hkf
        simp [escapes, hkf] at hesc
      obtain ⟨t, rfl, hb, -⟩ := hk hkt
      have ht := (hL t rfl).brk
      exact breakJump_closed (by omega) (of_decide_eq_true hfit) hb
  | continueJump ps =>
    simp only [size] at hL
    intro q hq hesc
    have hj : A (base + codeSize ps) es := hA _ (List.mem_append_right _ (List.mem_singleton_self _))
    rcases List.mem_append.mp hq with hq | hq
    · exact placeAll_closed (fun i hi => hP i (hleaf i hi))
        (fun q hq => hA q (List.mem_append_left _ hq)) hj q hq
    · rw [List.mem_singleton.mp hq] at hesc ⊢
      have hkt : k = true := by
        by_contra hkf
        simp [escapes, hkf] at hesc
      obtain ⟨t, rfl, -, hc⟩ := hk hkt
      exact continueJump_closed (hL t rfl) hfit hc

end Code

end ToiLang
