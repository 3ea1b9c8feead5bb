import ToiLang.Compiler.LoopsProgram
import ToiLang.Flow

namespace ToiLang

/-- The places of an instruction's relative operands among its operand bytes. -/
def Instr.relative (i : Instr) : List Nat :=
  match i.op with
  | .opJump | .opJumpIfFalse | .opJumpIfTrue | .opLoop => [0]
  | .opForPrep | .opForLoop => [2]
  | .opTry =>
    let flags := (i.args.getD 1 0).toNat
    (if flags % 2 = 1 then [2] else []) ++ (if flags / 2 % 2 = 1 then [4] else [])
  | _ => []

/-- Where a relative operand leads from an instruction at `offset`. -/
def Instr.relativeTarget (i : Instr) (offset operand : Nat) : Option Int :=
  let ip : Int := offset + i.size
  match i.op with
  | .opJump | .opJumpIfFalse | .opJumpIfTrue | .opForPrep | .opTry =>
    some (ip + operandShort i.args operand)
  | .opLoop | .opForLoop => some (ip - operandShort i.args operand)
  | _ => none

/-- The same as `vm_run` decodes it from the bytes of a chunk. -/
def Chunk.relativeTarget (fns : Nat → ObjFunction) (c : Chunk) (offset operand : Nat) : Option Int := do
  let op ← OpCode.ofCode (c.byte offset)
  let args ← readOperands fns c offset op
  (⟨op, args⟩ : Instr).relativeTarget offset operand

/-- A relative operand of the instruction at `offset`, and the offset that the construct means. -/
structure Landing where
  offset : Nat
  operand : Nat
  target : Nat
  deriving DecidableEq, Repr

namespace Code

/-- What the relative operands of the code are meant for: the end of what is skipped, the else
branch, the start and the exit of a loop, the place that `continue` goes on at, the except clause,
the finally part. -/
def landings : Code → Option Targets → Nat → List Landing
  | nil, _, _ | instr _, _, _ | call _ _, _, _ | mark _, _, _ => []
  | seq a b, L, base => a.landings L base ++ b.landings L (base + a.size)
  | skipIfFalse a, L, base => ⟨base, 0, base + 3 + a.size⟩ :: a.landings L (base + 3)
  | branch a b, L, base =>
      let els := base + 3 + a.size + 3
      ⟨base, 0, els⟩ :: a.landings L (base + 3) ++
        ⟨base + 3 + a.size, 0, els + b.size⟩ :: b.landings L els
  | whileLoop c b, L, base =>
      let body := base + c.size + 3 + 1
      c.landings L base ++ ⟨base + c.size, 0, body + b.size + 3⟩ ::
        b.landings (some (whileTargets base c.size b.size)) body ++ [⟨body + b.size, 0, base⟩]
  | forIn h b e, L, base =>
      let body := base + h.size + 3
      let exit := body + b.size + 3
      h.landings L base ++ ⟨base + h.size, 0, exit⟩ ::
        b.landings (some (forInTargets base h.size b.size e.size)) body ++
        ⟨body + b.size, 0, base⟩ :: e.landings L exit
  | forRange _ _ b, _, base =>
      ⟨base, 2, base + 5 + b.size + 5⟩ ::
        b.landings (some (forRangeTargets base b.size)) (base + 5) ++ [⟨base + 5 + b.size, 2, base⟩]
  | tryBlock x e f _ b exc fin, L, base =>
      let past := base + 7 + b.size + 1
      let last := past + exceptSize x e exc.size
      (if x then [⟨base, 2, past + 3⟩] else []) ++ (if f then [⟨base, 4, last⟩] else []) ++
        b.landings L (base + 7) ++
        (if x then ⟨past, 0, last⟩ :: exc.landings L (past + 3) else []) ++
        (if f then fin.landings L last else [])
  | breakJump ps, L, base => (L.map fun t => ⟨base + codeSize ps, 0, t.brk⟩).toList
  | continueJump ps, L, base => (L.map fun t => ⟨base + codeSize ps, 0, t.cont⟩).toList

end Code

theorem shortBytes_mod (n : Nat) (xs ys : List UInt8) :
    operandShort (xs ++ (shortBytes n ++ ys)) xs.length = n % 2 ^ 16 := by
  have hbytes : shortBytes n = shortBytes (n % 2 ^ 16) := by
    unfold shortBytes
    have h1 : UInt8.ofNat (n / 256) = UInt8.ofNat (n % 2 ^ 16 / 256) := by
      apply UInt8.toNat_inj.mp
      rw [UInt8.toNat_ofNat', UInt8.toNat_ofNat']
      omega
    have h2 : UInt8.ofNat n = UInt8.ofNat (n % 2 ^ 16) := by
      apply UInt8.toNat_inj.mp
      rw [UInt8.toNat_ofNat', UInt8.toNat_ofNat']
      omega
    rw [h1, h2]
  rw [hbytes]
  exact operandShort_shortBytes (by omega) xs ys

section Target

variable {offset target n : Nat}

theorem jump_lands {o : OpCode} (ho : o = .opJump ∨ o = .opJumpIfFalse ∨ o = .opJumpIfTrue)
    (hn : n ≤ 0xffff) (ht : target = offset + 3 + n) :
    (jumpInstr o n).relativeTarget offset 0 = some (target : Int) := by
  have hs : operandShort (shortBytes n) 0 = n := operandShort_shortBytes hn [] []
  have hi : (jumpInstr o n).relativeTarget offset 0 =
      some ((offset : Int) + 3 + operandShort (shortBytes n) 0) := by
    rcases ho with rfl | rfl | rfl <;> rfl
  rw [hi, hs, ht]
  push_cast
  rfl

theorem loop_lands (hn : n ≤ 0xffff) (ht : target + n = offset + 3) :
    (jumpInstr .opLoop n).relativeTarget offset 0 = some (target : Int) := by
  have hs : operandShort (shortBytes n) 0 = n := operandShort_shortBytes hn [] []
  have hi : (jumpInstr .opLoop n).relativeTarget offset 0 =
      some ((offset : Int) + 3 - operandShort (shortBytes n) 0) := rfl
  rw [hi, hs]
  congr 1
  omega

theorem forPrep_lands {v l : UInt8} (hn : n + 5 ≤ 0xffff) (ht : target = offset + 5 + n + 5) :
    (Code.forPrepInstr v l n).relativeTarget offset 2 = some (target : Int) := by
  have hs : operandShort ([v, l] ++ shortBytes (n + 5)) 2 = n + 5 :=
    operandShort_shortBytes hn [v, l] []
  have hi : (Code.forPrepInstr v l n).relativeTarget offset 2 =
      some ((offset : Int) + 5 + operandShort ([v, l] ++ shortBytes (n + 5)) 2) := rfl
  rw [hi, hs]
  congr 1
  omega

/-- The way back of a range loop is written modulo 2^16. -/
theorem forLoop_lands_iff {v l : UInt8} (ht : target + (5 + n + 5) = offset + 5) :
    (Code.forLoopInstr v l n).relativeTarget offset 2 = some (target : Int) ↔ 5 + n + 5 ≤ 0xffff := by
  have hs : operandShort ([v, l] ++ shortBytes (5 + n + 5)) 2 = (5 + n + 5) % 2 ^ 16 :=
    shortBytes_mod (5 + n + 5) [v, l] []
  have hi : (Code.forLoopInstr v l n).relativeTarget offset 2 =
      some ((offset : Int) + 5 - operandShort ([v, l] ++ shortBytes (5 + n + 5)) 2) := rfl
  rw [hi, hs, Option.some.injEq]
  omega

theorem try_lands_except {x e f : Bool} {d : UInt8} {b : Nat} (hx : x = true)
    (hn : b + 1 + 3 ≤ 0xffff) (ht : target = offset + 7 + b + 1 + 3) :
    (Code.tryInstr x e f d b n).relativeTarget offset 2 = some (target : Int) := by
  subst hx
  have hs : operandShort (Code.tryInstr true e f d b n).args 2 = b + 1 + 3 :=
    operandShort_shortBytes hn [d, _] _
  have hi : (Code.tryInstr true e f d b n).relativeTarget offset 2 =
      some ((offset : Int) + 7 + operandShort (Code.tryInstr true e f d b n).args 2) := rfl
  rw [hi, hs]
  congr 1
  omega

theorem try_lands_finally {x e f : Bool} {d : UInt8} {b : Nat} (hf : f = true)
    (hn : b + 1 + Code.exceptSize x e n ≤ 0xffff)
    (ht : target = offset + 7 + b + 1 + Code.exceptSize x e n) :
    (Code.tryInstr x e f d b n).relativeTarget offset 4 = some (target : Int) := by
  subst hf
  have hs : operandShort (Code.tryInstr x e true d b n).args 4 = b + 1 + Code.exceptSize x e n :=
    operandShort_shortBytes hn ([d, _] ++ shortBytes _) []
  have hi : (Code.tryInstr x e true d b n).relativeTarget offset 4 =
      some ((offset : Int) + 7 + operandShort (Code.tryInstr x e true d b n).args 4) := rfl
  rw [hi, hs]
  congr 1
  omega

end Target

namespace Code

theorem mem_landings_tryBlock {x e f : Bool} {d : UInt8} {b exc fin : Code} {L : Option Targets}
    {base : Nat} {l : Landing} :
    l ∈ (tryBlock x e f d b exc fin).landings L base ↔
      let past := base + 7 + b.size + 1
      let last := past + exceptSize x e exc.size
      (x = true ∧ l = ⟨base, 2, past + 3⟩) ∨ (f = true ∧ l = ⟨base, 4, last⟩) ∨
      l ∈ b.landings L (base + 7) ∨
      (x = true ∧ (l = ⟨past, 0, last⟩ ∨ l ∈ exc.landings L (past + 3))) ∨
      (f = true ∧ l ∈ fin.landings L last) := by
  cases x <;> cases f <;> simp [landings, or_assoc]

/-- A relative operand leads where it is meant to. -/
def Lands (qs : List Placed) (l : Landing) : Prop :=
  ∃ q ∈ qs, q.offset = l.offset ∧ q.instr.relativeTarget q.offset l.operand = some (l.target : Int)

theorem Lands.mono {qs qs' : List Placed} {l : Landing} (h : Lands qs l) (hs : qs ⊆ qs') :
    Lands qs' l := by
  obtain ⟨q, hq, h⟩ := h
  exact ⟨q, hs hq, h⟩

theorem continue_lands {t : Targets} {ps : List Instr} {base : Nat}
    (ht : t.Around base (base + (codeSize ps + 3)))
    (hn : (continueJump ps).jumpsFit (some t) base = true) :
    (continueInstr (some t) (base + codeSize ps + 3)).relativeTarget (base + codeSize ps) 0 =
      some (t.cont : Int) := by
  obtain ⟨brk, cont, kind⟩ := t
  have hback := ht.back
  have hforward := ht.forward
  have hnear := ht.near
  cases kind with
  | «while» =>
    have hn : base + codeSize ps + 3 - cont ≤ 0xffff := of_decide_eq_true hn
    have hcont : cont ≤ base := hback rfl
    exact loop_lands hn (by dsimp only; omega)
  | forIn =>
    have hn : cont - (base + codeSize ps + 3) ≤ 0xffff := of_decide_eq_true hn
    have hcont : base + (codeSize ps + 3) ≤ cont := hforward (by simp)
    exact jump_lands (.inl rfl) hn (by dsimp only; omega)
  | forRange =>
    have hcont : base + (codeSize ps + 3) ≤ cont := hforward (by simp)
    have hn : cont ≤ base + 0xffff := hnear rfl
    exact jump_lands (n := cont - (base + codeSize ps + 3)) (.inl rfl) (by omega) (by dsimp only; omega)

/-- The jumps of code whose range loops are short enough. -/
theorem landings_land {c : Code} {L : Option Targets} {base : Nat} (es : List Enclosing)
    (hfit : c.jumpsFit L base = true) (hrange : c.rangesFit = true)
    (hL : ∀ t, L = some t → t.Around base (base + c.size)) :
    ∀ l ∈ c.landings L base, Lands (c.layout L base es) l := by
  induction c generalizing L base es with
  | nil | instr | call | mark => simp [landings]
  | seq a b iha ihb =>
    simp only [jumpsFit, rangesFit, Bool.and_eq_true] at hfit hrange
    simp only [size, ← Nat.add_assoc] at hL
    intro l hl
    rcases List.mem_append.mp hl with hl | hl
    · exact (iha es hfit.1 hrange.1 (fun t ht => (hL t ht).mono (by omega) (by omega)) l hl).mono
        (List.subset_append_left _ _)
    · exact (ihb es hfit.2 hrange.2 (fun t ht => (hL t ht).mono (by omega) (by omega)) l hl).mono
        (List.subset_append_right _ _)
  | skipIfFalse a ih =>
    simp only [jumpsFit, Bool.and_eq_true, decide_eq_true_eq] at hfit
    simp only [size, ← Nat.add_assoc] at hL
    intro l hl
    rcases List.mem_cons.mp hl with rfl | hl
    · exact ⟨_, List.mem_cons_self, rfl, jump_lands (.inr (.inl rfl)) hfit.1 rfl⟩
    · exact (ih es hfit.2 hrange (fun t ht => (hL t ht).mono (by omega) (by omega)) l hl).mono
        (List.subset_cons_self _ _)
  | branch a b iha ihb =>
    simp only [jumpsFit, rangesFit, Bool.and_eq_true, decide_eq_true_eq] at hfit hrange
    simp only [size, ← Nat.add_assoc] at hL
    intro l hl
    simp only [landings, List.cons_append, List.mem_cons, List.mem_append] at hl
    rcases hl with rfl | hl | rfl | hl
    · exact ⟨⟨base, jumpInstr .opJumpIfFalse (a.size + 3), es⟩, by simp [layout], rfl,
        jump_lands (.inr (.inl rfl)) hfit.1.1.1 (by dsimp only; omega)⟩
    · exact (iha es hfit.1.2 hrange.1 (fun t ht => (hL t ht).mono (by omega) (by omega)) l hl).mono
        fun q hq => by simp [layout, hq]
    · exact ⟨⟨base + 3 + a.size, jumpInstr .opJump b.size, es⟩, by simp [layout], rfl,
        jump_lands (.inl rfl) hfit.1.1.2 rfl⟩
    · exact (ihb es hfit.2 hrange.2 (fun t ht => (hL t ht).mono (by omega) (by omega)) l hl).mono
        fun q hq => by simp [layout, hq]
  | whileLoop c b ihc ihb =>
    simp only [jumpsFit, rangesFit, Bool.and_eq_true, decide_eq_true_eq] at hfit hrange
    simp only [size, ← Nat.add_assoc] at hL
    have hbody : ∀ t, some (whileTargets base c.size b.size) = some t →
        t.Around (base + c.size + 3 + 1) (base + c.size + 3 + 1 + b.size) := by
      rintro t ⟨⟩
      exact ⟨by simp [whileTargets]; omega, fun _ => by simp [whileTargets]; omega,
        fun h => absurd rfl h, by rintro ⟨⟩⟩
    intro l hl
    simp only [landings, List.append_assoc, List.cons_append, List.mem_cons, List.mem_append,
      List.not_mem_nil, or_false] at hl
    rcases hl with hl | rfl | hl | rfl
    · exact (ihc es hfit.1.2 hrange.1 (fun t ht => (hL t ht).mono (by omega) (by omega)) l hl).mono
        fun q hq => by simp [layout, hq]
    · exact ⟨⟨base + c.size, jumpInstr .opJumpIfFalse (1 + b.size + 3), es⟩, by simp [layout], rfl,
        jump_lands (.inr (.inl rfl)) (by omega) (by dsimp only; omega)⟩
    · exact (ihb es hfit.2 hrange.2 hbody l hl).mono fun q hq => by simp [layout, hq]
    · exact ⟨⟨base + c.size + 3 + 1 + b.size, jumpInstr .opLoop (c.size + 3 + 1 + b.size + 3), es⟩,
        by simp [layout, placeAll], rfl, loop_lands hfit.1.1 (by dsimp only; omega)⟩
  | forIn hd b e ihh ihb ihe =>
    simp only [jumpsFit, rangesFit, Bool.and_eq_true, decide_eq_true_eq] at hfit hrange
    simp only [size, ← Nat.add_assoc] at hL
    have hbody : ∀ t, some (forInTargets base hd.size b.size e.size) = some t →
        t.Around (base + hd.size + 3) (base + hd.size + 3 + b.size) := by
      rintro t ⟨⟩
      exact ⟨by simp [forInTargets]; omega, by rintro ⟨⟩, fun _ => by simp [forInTargets],
        by rintro ⟨⟩⟩
    intro l hl
    simp only [landings, List.append_assoc, List.cons_append, List.mem_cons, List.mem_append] at hl
    rcases hl with hl | rfl | hl | rfl | hl
    · exact (ihh es hfit.1.1.2 hrange.1.1 (fun t ht => (hL t ht).mono (by omega) (by omega)) l hl).mono
        fun q hq => by simp [layout, hq]
    · exact ⟨⟨base + hd.size, jumpInstr .opJumpIfTrue (b.size + 3), es⟩, by simp [layout], rfl,
        jump_lands (.inr (.inr rfl)) (by omega) (by dsimp only; omega)⟩
    · exact (ihb es hfit.1.2 hrange.1.2 hbody l hl).mono fun q hq => by simp [layout, hq]
    · exact ⟨⟨base + hd.size + 3 + b.size, jumpInstr .opLoop (hd.size + 3 + b.size + 3), es⟩,
        by simp [layout], rfl, loop_lands hfit.1.1.1 (by dsimp only; omega)⟩
    · exact (ihe es hfit.2 hrange.2 (fun t ht => (hL t ht).mono (by omega) (by omega)) l hl).mono
        fun q hq => by simp [layout, hq]
  | forRange v w b ih =>
    simp only [jumpsFit, rangesFit, Bool.and_eq_true, decide_eq_true_eq] at hfit hrange
    have hbody : ∀ t, some (forRangeTargets base b.size) = some t →
        t.Around (base + 5) (base + 5 + b.size) := by
      rintro t ⟨⟩
      exact ⟨by simp [forRangeTargets], by rintro ⟨⟩, fun _ => by simp [forRangeTargets],
        fun _ => by simp [forRangeTargets]; omega⟩
    intro l hl
    simp only [landings, List.cons_append, List.mem_cons, List.mem_append, List.not_mem_nil,
      or_false] at hl
    rcases hl with rfl | hl | rfl
    · exact ⟨⟨base, forPrepInstr v w b.size, es⟩, by simp [layout], rfl,
        forPrep_lands (by omega) rfl⟩
    · exact (ih es hfit hrange.2 hbody l hl).mono fun q hq => by simp [layout, hq]
    · exact ⟨⟨base + 5 + b.size, forLoopInstr v w b.size, es⟩, by simp [layout], rfl,
        (forLoop_lands_iff (by dsimp only; omega)).mpr hrange.1⟩
  | tryBlock x e f d b exc fin ihb ihe ihf =>
    simp only [jumpsFit, rangesFit, Bool.and_eq_true, decide_eq_true_eq, Bool.or_eq_true,
      Bool.not_eq_true'] at hfit hrange
    simp only [size, ← Nat.add_assoc] at hL
    obtain ⟨⟨⟨⟨hfin, hexc⟩, hfitb⟩, hfite⟩, hfitf⟩ := hfit
    have hsize : x = true → exceptSize x e exc.size = 3 + exc.size + (if e then 1 else 0) := by
      rintro rfl
      rfl
    have hmem := fun q => @mem_layout_tryBlock x e f d b exc fin L base es q
    have hx (hx : x = true) : b.size + 1 + 3 ≤ 0xffff ∧ exc.size + (if e then 1 else 0) ≤ 0xffff := by
      rcases hexc with h | h
      · exact h
      · rw [hx] at h; cases h
    have hf (hf : f = true) : b.size + 1 + exceptSize x e exc.size ≤ 0xffff := by
      rcases hfin with h | h
      · exact h
      · rw [hf] at h; cases h
    intro l hl
    rcases mem_landings_tryBlock.mp hl with ⟨hxt, rfl⟩ | ⟨hft, rfl⟩ | hl | ⟨hxt, rfl | hl⟩ | ⟨hft, hl⟩
    · exact ⟨_, (hmem _).mpr (.inl rfl), rfl, try_lands_except hxt (hx hxt).1 rfl⟩
    · exact ⟨_, (hmem _).mpr (.inl rfl), rfl, try_lands_finally hft (hf hft) rfl⟩
    · exact (ihb _ hfitb hrange.1.1 (fun t ht => (hL t ht).mono (by omega) (by omega)) l hl).mono
        fun q hq => (hmem q).mpr (.inr (.inl hq))
    · refine ⟨_, (hmem _).mpr (.inr (.inr (.inr (.inl ⟨hxt, .inl rfl⟩)))), rfl,
        jump_lands (.inl rfl) (hx hxt).2 ?_⟩
      have hs := hsize hxt
      dsimp only
      omega
    · have hs := hsize hxt
      exact (ihe _ hfite hrange.1.2 (fun t ht => (hL t ht).mono (by omega) (by omega)) l hl).mono
        fun q hq => (hmem q).mpr (.inr (.inr (.inr (.inl ⟨hxt, .inr (.inl hq)⟩))))
    · have hs : base + 7 + b.size + 1 + exceptSize x e exc.size + fin.size ≤
          base + 7 + b.size + 1 + exceptSize x e exc.size + (if f then fin.size + 1 else 0) := by
        rw [if_pos hft]
        omega
      exact (ihf _ hfitf hrange.2 (fun t ht => (hL t ht).mono (by omega) (by omega)) l hl).mono
        fun q hq => (hmem q).mpr (.inr (.inr (.inr (.inr ⟨hft, .inl hq⟩))))
  | breakJump ps =>
    intro l hl
    cases L with
    | none => cases hl
    | some t =>
      have ht := (hL t rfl).brk
      simp only [size] at ht
      cases List.mem_singleton.mp hl
      exact ⟨⟨base + codeSize ps, breakInstr (some t) (base + codeSize ps + 3), es⟩, by simp [layout], rfl,
        jump_lands (.inl rfl) (of_decide_eq_true hfit) (by dsimp only; omega)⟩
  | continueJump ps =>
    intro l hl
    cases L with
    | none => cases hl
    | some t =>
      have ht := hL t rfl
      simp only [size] at ht
      cases List.mem_singleton.mp hl
      exact ⟨⟨base + codeSize ps, continueInstr (some t) (base + codeSize ps + 3), es⟩,
        by simp [layout], rfl, continue_lands ht hfit⟩

/-- A range loop that is too long jumps back to another place. -/
theorem exists_astray {c : Code} {k : Bool} (L : Option Targets) (base : Nat) (es : List Enclosing)
    (hc : c.formed k) (hrange : c.rangesFit = false) :
    ∃ l ∈ c.landings L base, ∃ q ∈ c.layout L base es, q.offset = l.offset ∧
      q.instr.relativeTarget q.offset l.operand ≠ some (l.target : Int) := by
  induction c generalizing k L base es with
  | nil | instr | call | mark | breakJump | continueJump => cases hrange
  | seq a b iha ihb =>
    rcases Bool.and_eq_false_iff.mp hrange with h | h
    · obtain ⟨l, hl, q, hq, hne⟩ := iha L base es hc.1 h
      exact ⟨l, by simp [landings, hl], q, by simp [layout, hq], hne⟩
    · obtain ⟨l, hl, q, hq, hne⟩ := ihb L (base + a.size) es hc.2 h
      exact ⟨l, by simp [landings, hl], q, by simp [layout, hq], hne⟩
  | skipIfFalse a ih =>
    obtain ⟨l, hl, q, hq, hne⟩ := ih L (base + 3) es hc hrange
    exact ⟨l, by simp [landings, hl], q, by simp [layout, hq], hne⟩
  | branch a b iha ihb =>
    rcases Bool.and_eq_false_iff.mp hrange with h | h
    · obtain ⟨l, hl, q, hq, hne⟩ := iha L (base + 3) es hc.1 h
      exact ⟨l, by simp [landings, hl], q, by simp [layout, hq], hne⟩
    · obtain ⟨l, hl, q, hq, hne⟩ := ihb L (base + 3 + a.size + 3) es hc.2 h
      exact ⟨l, by simp [landings, hl], q, by simp [layout, hq], hne⟩
  | whileLoop c b ihc ihb =>
    rcases Bool.and_eq_false_iff.mp hrange with h | h
    · obtain ⟨l, hl, q, hq, hne⟩ := ihc L base es hc.1 h
      exact ⟨l, by simp [landings, hl], q, by simp [layout, hq], hne⟩
    · obtain ⟨l, hl, q, hq, hne⟩ := ihb (some (whileTargets base c.size b.size)) (base + c.size + 3 + 1) es
        hc.2 h
      exact ⟨l, by simp [landings, hl], q, by simp [layout, hq], hne⟩
  | forIn hd b e ihh ihb ihe =>
    rcases Bool.and_eq_false_iff.mp hrange with h | h
    · rcases Bool.and_eq_false_iff.mp h with h | h
      · obtain ⟨l, hl, q, hq, hne⟩ := ihh L base es hc.1 h
        exact ⟨l, by simp [landings, hl], q, by simp [layout, hq], hne⟩
      · obtain ⟨l, hl, q, hq, hne⟩ := ihb (some (forInTargets base hd.size b.size e.size))
          (base + hd.size + 3) es hc.2.1 h
        exact ⟨l, by simp [landings, hl], q, by simp [layout, hq], hne⟩
    · obtain ⟨l, hl, q, hq, hne⟩ := ihe L (base + hd.size + 3 + b.size + 3) es hc.2.2 h
      exact ⟨l, by simp [landings, hl], q, by simp [layout, hq], hne⟩
  | forRange v w b ih =>
    rcases Bool.and_eq_false_iff.mp hrange with h | h
    · refine ⟨⟨base + 5 + b.size, 2, base⟩, by simp [landings],
        ⟨base + 5 + b.size, forLoopInstr v w b.size, es⟩, by simp [layout], rfl, fun hland => ?_⟩
      have hfit := (forLoop_lands_iff (by dsimp only; omega)).mp hland
      exact of_decide_eq_false h hfit
    · obtain ⟨l, hl, q, hq, hne⟩ := ih (some (forRangeTargets base b.size)) (base + 5) es hc h
      exact ⟨l, by simp [landings, hl], q, by simp [layout, hq], hne⟩
  | tryBlock x e f d b exc fin ihb ihe ihf =>
    obtain ⟨hcb, hce, hcf, hx, hf⟩ := hc
    let i := tryInstr x e f d b.size exc.size
    have hmem := fun q => @mem_layout_tryBlock x e f d b exc fin L base es q
    rcases Bool.and_eq_false_iff.mp hrange with h | h
    · rcases Bool.and_eq_false_iff.mp h with h | h
      · obtain ⟨l, hl, q, hq, hne⟩ := ihb L (base + 7) (⟨base + 7, i.args, false⟩ :: es) hcb h
        exact ⟨l, mem_landings_tryBlock.mpr (.inr (.inr (.inl hl))), q, (hmem q).mpr (.inr (.inl hq)), hne⟩
      · have hxt : x = true := by
          by_contra hne
          rw [hx (by simpa using hne)] at h
          cases h
        obtain ⟨l, hl, q, hq, hne⟩ :=
          ihe L (base + 7 + b.size + 1 + 3) (⟨base + 7, i.args, true⟩ :: es) hce h
        exact ⟨l, mem_landings_tryBlock.mpr (.inr (.inr (.inr (.inl ⟨hxt, .inr hl⟩)))), q,
          (hmem q).mpr (.inr (.inr (.inr (.inl ⟨hxt, .inr (.inl hq)⟩)))), hne⟩
    · have hft : f = true := by
        by_contra hne
        rw [hf (by simpa using hne)] at h
        cases h
      obtain ⟨l, hl, q, hq, hne⟩ := ihf L (base + 7 + b.size + 1 + exceptSize x e exc.size) es hcf h
      exact ⟨l, mem_landings_tryBlock.mpr (.inr (.inr (.inr (.inr ⟨hft, hl⟩)))), q,
        (hmem q).mpr (.inr (.inr (.inr (.inr ⟨hft, .inl hq⟩)))), hne⟩


/-- Every target is an instruction of the code, or what `A` is told of behind and around it. -/
theorem landings_targets {A : Nat → Prop} {c : Code} {L : Option Targets} {base : Nat}
    {es : List Enclosing} (hA : ∀ q ∈ c.layout L base es, A q.offset) (hexit : A (base + c.size))
    (hL : ∀ t, L = some t → A t.brk ∧ A t.cont) : ∀ l ∈ c.landings L base, A l.target := by
  have hstart {c : Code} {L : Option Targets} {base : Nat} {es : List Enclosing}
      (hA : ∀ q ∈ c.layout L base es, A q.offset) (hexit : A (base + c.size)) : A base := by
    refine layout_start (A := fun p _ => A p) hA fun h => ?_
    rwa [h] at hexit
  induction c generalizing L base es with
  | nil | instr | call | mark => simp [landings]
  | seq a b iha ihb =>
    simp only [size, ← Nat.add_assoc] at hexit
    have hAb := fun q hq => hA q (List.mem_append_right _ hq)
    intro l hl
    rcases List.mem_append.mp hl with hl | hl
    · exact iha (fun q hq => hA q (List.mem_append_left _ hq)) (hstart hAb hexit) hL l hl
    · exact ihb hAb hexit hL l hl
  | skipIfFalse a ih =>
    simp only [size, ← Nat.add_assoc] at hexit
    intro l hl
    rcases List.mem_cons.mp hl with rfl | hl
    · exact hexit
    · exact ih (fun q hq => hA q (List.mem_cons_of_mem _ hq)) hexit hL l hl
  | branch a b iha ihb =>
    simp only [size, ← Nat.add_assoc] at hexit
    simp only [layout, List.cons_append, List.mem_cons, List.mem_append] at hA
    have hAb := fun q hq => hA q (.inr (.inr (.inr hq)))
    intro l hl
    simp only [landings, List.cons_append, List.mem_cons, List.mem_append] at hl
    rcases hl with rfl | hl | rfl | hl
    · exact hstart hAb hexit
    · exact iha (fun q hq => hA q (.inr (.inl hq))) (hA _ (.inr (.inr (.inl rfl)))) hL l hl
    · exact hexit
    · exact ihb hAb hexit hL l hl
  | whileLoop c b ihc ihb =>
    simp only [size, ← Nat.add_assoc] at hexit
    simp only [layout, placeAll, List.append_assoc, List.cons_append, List.mem_cons,
      List.mem_append, List.not_mem_nil, or_false, jumpInstr_size] at hA
    have hAc := fun q hq => hA q (.inl hq)
    have hjump := hA _ (.inr (.inl rfl))
    have hbase := hstart hAc hjump
    intro l hl
    simp only [landings, List.append_assoc, List.cons_append, List.mem_cons, List.mem_append,
      List.not_mem_nil, or_false] at hl
    rcases hl with hl | rfl | hl | rfl
    · exact ihc hAc hjump hL l hl
    · exact hA _ (.inr (.inr (.inr (.inr (.inr rfl)))))
    · refine ihb (fun q hq => hA q (.inr (.inr (.inr (.inl hq)))))
        (hA _ (.inr (.inr (.inr (.inr (.inl rfl)))))) ?_ l hl
      rintro t ⟨⟩
      exact ⟨hexit, hbase⟩
    · exact hbase
  | forIn hd b e ihh ihb ihe =>
    simp only [size, ← Nat.add_assoc] at hexit
    simp only [layout, List.append_assoc, List.cons_append, List.mem_cons, List.mem_append] at hA
    have hAh := fun q hq => hA q (.inl hq)
    have hAe := fun q hq => hA q (.inr (.inr (.inr (.inr hq))))
    have hjump := hA _ (.inr (.inl rfl))
    have hloop := hA _ (.inr (.inr (.inr (.inl rfl))))
    have hbase := hstart hAh hjump
    intro l hl
    simp only [landings, List.append_assoc, List.cons_append, List.mem_cons, List.mem_append] at hl
    rcases hl with hl | rfl | hl | rfl | hl
    · exact ihh hAh hjump hL l hl
    · exact hstart hAe hexit
    · refine ihb (fun q hq => hA q (.inr (.inr (.inl hq)))) hloop ?_ l hl
      rintro t ⟨⟩
      exact ⟨hexit, hloop⟩
    · exact hbase
    · exact ihe hAe hexit hL l hl
  | forRange v w b ih =>
    simp only [size, ← Nat.add_assoc] at hexit
    simp only [layout, List.cons_append, List.mem_cons, List.mem_append, List.not_mem_nil,
      or_false] at hA
    have hloop := hA _ (.inr (.inr rfl))
    intro l hl
    simp only [landings, List.cons_append, List.mem_cons, List.mem_append, List.not_mem_nil,
      or_false] at hl
    rcases hl with rfl | hl | rfl
    · exact hexit
    · refine ih (fun q hq => hA q (.inr (.inl hq))) hloop ?_ l hl
      rintro t ⟨⟩
      exact ⟨hexit, hloop⟩
    · exact hA _ (.inl rfl)
  | tryBlock x e f d b exc fin ihb ihe ihf =>
    simp only [size, ← Nat.add_assoc] at hexit
    simp only [mem_layout_tryBlock] at hA
    have hAe := fun hx q hq => hA q (.inr (.inr (.inr (.inl ⟨hx, .inr (.inl hq)⟩))))
    have hAf := fun hf q hq => hA q (.inr (.inr (.inr (.inr ⟨hf, .inl hq⟩))))
    have hfinish (hf : f = true) := hA _ (.inr (.inr (.inr (.inr ⟨hf, .inr rfl⟩))))
    have hlast : A (base + 7 + b.size + 1 + exceptSize x e exc.size) := by
      cases f with
      | false => exact hexit
      | true => exact hstart (hAf rfl) (hfinish rfl)
    have hclause (hx : x = true) : A (base + 7 + b.size + 1 + 3 + exc.size) := by
      cases e with
      | false =>
        rw [hx] at hlast
        simpa only [exceptSize, ↓reduceIte, Bool.false_eq_true, Nat.add_zero, ← Nat.add_assoc] using hlast
      | true => exact hA _ (.inr (.inr (.inr (.inl ⟨hx, .inr (.inr ⟨rfl, rfl⟩)⟩))))
    intro l hl
    rcases mem_landings_tryBlock.mp hl with ⟨hx, rfl⟩ | ⟨hf, rfl⟩ | hl | ⟨hx, rfl | hl⟩ | ⟨hf, hl⟩
    · exact hstart (hAe hx) (hclause hx)
    · exact hlast
    · exact ihb (fun q hq => hA q (.inr (.inl hq))) (hA _ (.inr (.inr (.inl rfl)))) hL l hl
    · exact hlast
    · exact ihe (hAe hx) (hclause hx) hL l hl
    · exact ihf (hAf hf) (hfinish hf) hL l hl
  | breakJump ps =>
    intro l hl
    cases L with
    | none => cases hl
    | some t =>
      cases List.mem_singleton.mp hl
      exact (hL t rfl).1
  | continueJump ps =>
    intro l hl
    cases L with
    | none => cases hl
    | some t =>
      cases List.mem_singleton.mp hl
      exact (hL t rfl).2

theorem relative_leaf {i : Instr} (h : i.op.isControl = false) : i.relative = [] := by
  obtain ⟨o, args⟩ := i
  cases o <;> first | rfl | cases h

theorem relative_tryInstr (x e f : Bool) (d : UInt8) (b n : Nat) :
    (tryInstr x e f d b n).relative = (if x then [2] else []) ++ (if f then [4] else []) := by
  cases x <;> cases f <;> simp [Instr.relative, tryInstr]

theorem relative_breakInstr (t : Targets) (stop : Nat) : (breakInstr (some t) stop).relative = [0] := rfl

theorem relative_continueInstr (t : Targets) (stop : Nat) :
    (continueInstr (some t) stop).relative = [0] := by
  obtain ⟨brk, cont, kind⟩ := t
  cases kind <;> rfl

theorem mem_placeAll_leaf {is : List Instr} {p : Nat} {es : List Enclosing} {q : Placed}
    (his : ∀ i ∈ is, i.op.isControl = false) (hq : q ∈ placeAll is p es) : q.instr.relative = [] := by
  have hmem := List.mem_map_of_mem (f := Placed.instr) hq
  rw [placeAll_instrs] at hmem
  exact relative_leaf (his _ hmem)

/-- Every relative operand is meant for some place. -/
theorem landings_complete {P : Instr → Prop} (hP : ∀ i, P i → i.op.isControl = false) {c : Code}
    {L : Option Targets} {base : Nat} {es : List Enclosing} {k : Bool} (hleaf : c.Leaves P)
    (hc : c.formed k) (hL : k = true → L.isSome = true) :
    ∀ q ∈ c.layout L base es, ∀ i ∈ q.instr.relative,
      ∃ target, (⟨q.offset, i, target⟩ : Landing) ∈ c.landings L base := by
  induction c generalizing L base es k with
  | nil | mark => simp [layout]
  | instr j | call j =>
    intro q hq i hi
    rw [List.mem_singleton.mp hq, relative_leaf (hP j hleaf)] at hi
    cases hi
  | seq a b iha ihb =>
    intro q hq i hi
    rcases List.mem_append.mp hq with hq | hq
    · obtain ⟨t, ht⟩ := iha hleaf.1 hc.1 hL q hq i hi
      exact ⟨t, List.mem_append_left _ ht⟩
    · obtain ⟨t, ht⟩ := ihb hleaf.2 hc.2 hL q hq i hi
      exact ⟨t, List.mem_append_right _ ht⟩
  | skipIfFalse a ih =>
    intro q hq i hi
    rcases List.mem_cons.mp hq with rfl | hq
    · cases List.mem_singleton.mp hi
      exact ⟨_, List.mem_cons_self⟩
    · obtain ⟨t, ht⟩ := ih hleaf hc hL q hq i hi
      exact ⟨t, List.mem_cons_of_mem _ ht⟩
  | branch a b iha ihb =>
    intro q hq i hi
    simp only [layout, List.cons_append, List.mem_cons, List.mem_append] at hq
    simp only [landings, List.cons_append, List.mem_cons, List.mem_append]
    rcases hq with rfl | hq | rfl | hq
    · cases List.mem_singleton.mp hi
      exact ⟨_, .inl rfl⟩
    · obtain ⟨t, ht⟩ := iha hleaf.1 hc.1 hL q hq i hi
      exact ⟨t, .inr (.inl ht)⟩
    · cases List.mem_singleton.mp hi
      exact ⟨_, .inr (.inr (.inl rfl))⟩
    · obtain ⟨t, ht⟩ := ihb hleaf.2 hc.2 hL q hq i hi
      exact ⟨t, .inr (.inr (.inr ht))⟩
  | whileLoop c b ihc ihb =>
    intro q hq i hi
    simp only [layout, placeAll, List.append_assoc, List.cons_append, List.mem_cons,
      List.mem_append, List.not_mem_nil, or_false, jumpInstr_size] at hq
    simp only [landings, List.append_assoc, List.cons_append, List.mem_cons, List.mem_append,
      List.not_mem_nil, or_false]
    rcases hq with hq | rfl | rfl | hq | rfl | rfl
    · obtain ⟨t, ht⟩ := ihc hleaf.1 hc.1 hL q hq i hi
      exact ⟨t, .inl ht⟩
    · cases List.mem_singleton.mp hi
      exact ⟨_, .inr (.inl rfl)⟩
    · cases hi
    · obtain ⟨t, ht⟩ := ihb hleaf.2 hc.2 (fun _ => rfl) q hq i hi
      exact ⟨t, .inr (.inr (.inl ht))⟩
    · cases List.mem_singleton.mp hi
      exact ⟨_, .inr (.inr (.inr rfl))⟩
    · cases hi
  | forIn hd b e ihh ihb ihe =>
    intro q hq i hi
    simp only [layout, List.append_assoc, List.cons_append, List.mem_cons, List.mem_append] at hq
    simp only [landings, List.append_assoc, List.cons_append, List.mem_cons, List.mem_append]
    rcases hq with hq | rfl | hq | rfl | hq
    · obtain ⟨t, ht⟩ := ihh hleaf.1 hc.1 hL q hq i hi
      exact ⟨t, .inl ht⟩
    · cases List.mem_singleton.mp hi
      exact ⟨_, .inr (.inl rfl)⟩
    · obtain ⟨t, ht⟩ := ihb hleaf.2.1 hc.2.1 (fun _ => rfl) q hq i hi
      exact ⟨t, .inr (.inr (.inl ht))⟩
    · cases List.mem_singleton.mp hi
      exact ⟨_, .inr (.inr (.inr (.inl rfl)))⟩
    · obtain ⟨t, ht⟩ := ihe hleaf.2.2 hc.2.2 hL q hq i hi
      exact ⟨t, .inr (.inr (.inr (.inr ht)))⟩
  | forRange v w b ih =>
    intro q hq i hi
    simp only [layout, List.cons_append, List.mem_cons, List.mem_append, List.not_mem_nil,
      or_false] at hq
    simp only [landings, List.cons_append, List.mem_cons, List.mem_append, List.not_mem_nil,
      or_false]
    rcases hq with rfl | hq | rfl
    · cases List.mem_singleton.mp hi
      exact ⟨_, .inl rfl⟩
    · obtain ⟨t, ht⟩ := ih hleaf hc (fun _ => rfl) q hq i hi
      exact ⟨t, .inr (.inl ht)⟩
    · cases List.mem_singleton.mp hi
      exact ⟨_, .inr (.inr rfl)⟩
  | tryBlock x e f d b exc fin ihb ihe ihf =>
    intro q hq i hi
    simp only [mem_landings_tryBlock]
    rcases mem_layout_tryBlock.mp hq with rfl | hq | rfl | ⟨hx, rfl | hq | ⟨-, rfl⟩⟩ | ⟨hf, hq | rfl⟩
    · rw [relative_tryInstr] at hi
      rcases List.mem_append.mp hi with hi | hi
      · cases x with
        | false => cases hi
        | true =>
          cases List.mem_singleton.mp hi
          exact ⟨_, .inl ⟨rfl, rfl⟩⟩
      · cases f with
        | false => cases hi
        | true =>
          cases List.mem_singleton.mp hi
          exact ⟨_, .inr (.inl ⟨rfl, rfl⟩)⟩
    · obtain ⟨t, ht⟩ := ihb hleaf.1 hc.1 hL q hq i hi
      exact ⟨t, .inr (.inr (.inl ht))⟩
    · cases hi
    · cases List.mem_singleton.mp hi
      exact ⟨_, .inr (.inr (.inr (.inl ⟨hx, .inl rfl⟩)))⟩
    · obtain ⟨t, ht⟩ := ihe hleaf.2.1 hc.2.1 hL q hq i hi
      exact ⟨t, .inr (.inr (.inr (.inl ⟨hx, .inr ht⟩)))⟩
    · cases hi
    · obtain ⟨t, ht⟩ := ihf hleaf.2.2.1 hc.2.2.1 hL q hq i hi
      exact ⟨t, .inr (.inr (.inr (.inr ⟨hf, ht⟩)))⟩
    · cases hi
  | breakJump ps | continueJump ps =>
    intro q hq i hi
    obtain ⟨t, rfl⟩ := Option.isSome_iff_exists.mp (hL hc)
    rcases List.mem_append.mp hq with hq | hq
    · rw [mem_placeAll_leaf (fun i hi => hP i (hleaf i hi)) hq] at hi
      cases hi
    · rw [List.mem_singleton.mp hq] at hi ⊢
      first
        | rw [relative_breakInstr] at hi
        | rw [relative_continueInstr] at hi
      cases List.mem_singleton.mp hi
      exact ⟨_, List.mem_singleton_self _⟩

end Code

theorem relativeTarget_encode {t : Final} {f : ObjFunction} (hf : t.FunctionOk f) {q : Placed}
    (hq : q ∈ f.body.layout none 0 []) (operand : Nat) :
    f.chunk.relativeTarget t.store q.offset operand = q.instr.relativeTarget q.offset operand := by
  obtain ⟨pre, post, hflat, hoffset⟩ := Code.layout_split hq
  have hcode : f.code = encode (pre ++ q.instr :: post) := by rw [hf.code, hflat]
  have hop := hf.operands q.instr (by rw [hflat]; simp)
  rw [hoffset, Nat.zero_add]
  unfold Chunk.relativeTarget
  rw [opcode_encode (c := f.chunk) hcode, Option.bind_eq_bind, Option.bind_some,
    readOperands_encode hop hcode]
  rfl

/-- Every relative operand of a function leads to the instruction that it is meant for. -/
structure ObjFunction.JumpsLand (fns : Nat → ObjFunction) (f : ObjFunction) : Prop where
  meant : ∀ q ∈ f.body.layout none 0 [], ∀ i ∈ q.instr.relative,
    ∃ target, (⟨q.offset, i, target⟩ : Landing) ∈ f.body.landings none 0
  lands : ∀ l ∈ f.body.landings none 0,
    f.chunk.relativeTarget fns l.offset l.operand = some (l.target : Int)
  starts : ∀ l ∈ f.body.landings none 0, ∃ q ∈ f.body.layout none 0 [], q.offset = l.target

theorem not_jumpsLand {t : Final} {f : ObjFunction} (hok : t.FunctionOk f) (hc : f.body.formed false)
    (hrange : f.body.rangesFit = false) : ¬ f.JumpsLand t.store := by
  intro hj
  obtain ⟨l, hl, q, hq, hoffset, hne⟩ := Code.exists_astray none 0 [] hc hrange
  have hland := hj.lands l hl
  rw [← hoffset, relativeTarget_encode hok hq] at hland
  exact hne hland

theorem jumpsLand {t : Final} {f : ObjFunction} (hok : t.FunctionOk f) (hc : f.Closed)
    (hrange : f.body.rangesFit = true) : f.JumpsLand t.store := by
  obtain ⟨c, hbody, hc⟩ := hc
  constructor
  · have hformed : f.body.formed false := by
      rw [hbody]
      exact ⟨hc, trivial⟩
    exact Code.landings_complete (fun i hi => hi.1) hok.leaves hformed (by rintro ⟨⟩)
  · intro l hl
    obtain ⟨q, hq, hoffset, hland⟩ := Code.landings_land [] hok.fits hrange (by rintro t ⟨⟩) l hl
    rw [← hoffset, relativeTarget_encode hok hq, hland]
  · intro l hl
    have hmem : l ∈ c.landings none 0 := by
      rw [hbody] at hl
      simpa [Compile.endBody, Code.landings, Compile.op0, Compile.op] using hl
    have hlayout : f.body.layout none 0 [] = c.layout none 0 [] ++ [⟨0 + c.size, ⟨.opReturn, []⟩, []⟩] := by
      rw [hbody]
      rfl
    refine @Code.landings_targets (fun p => ∃ q ∈ f.body.layout none 0 [], q.offset = p) _ _ _ []
      (fun q hq => ⟨q, ?_, rfl⟩) ⟨⟨0 + c.size, ⟨.opReturn, []⟩, []⟩, ?_, rfl⟩ (by rintro t ⟨⟩) l hmem
    · rw [hlayout]
      exact List.mem_append_left _ hq
    · rw [hlayout]
      exact List.mem_append_right _ (List.mem_singleton_self _)

namespace Compile

/-- `n` statements that do nothing, each of 4 bytes. -/
def nilStatements : Nat → Stmts
  | 0 => .nil
  | n + 1 => .cons (.expression .literalNil) (nilStatements n)

/-- `for i in 0..1` around `n` statements. -/
def rangeLoop (n : Nat) : Stmts :=
  .cons (.forStmt [105] false none (.range (.number 0 true) (.number (doubleOfNat 1) true)) .nil
    (nilStatements n)) .nil

theorem nilStatement_spec (s : State) : ∃ s', stmt (.expression .literalNil) s =
    some (seqs [op0 .opNil, op0 .opPop, op1 .opAdjustStack s.current.localCount], s') ∧
      s'.current = s.current ∧ s'.enclosing = s.enclosing ∧ s'.functions = s.functions :=
  ⟨_, rfl, rfl, rfl, rfl⟩

theorem nilStatements_spec (n : Nat) (s : State) :
    ∃ c s', block (nilStatements n) s = some (c, s') ∧ s'.current = s.current ∧
      s'.enclosing = s.enclosing ∧ s'.functions = s.functions ∧ c.size = 4 * n ∧
      (∀ L base, c.jumpsFit L base = true) ∧ c.rangesFit = true := by
  induction n generalizing s with
  | zero => exact ⟨.nil, s, rfl, rfl, rfl, rfl, rfl, fun _ _ => rfl, rfl⟩
  | succ n ih =>
    obtain ⟨s₁, h₁, hc₁, he₁, hf₁⟩ := nilStatement_spec s
    obtain ⟨c, s₂, h₂, hc₂, he₂, hf₂, hsize, hfit, hrange⟩ := ih s₁
    refine ⟨_, s₂, bind_eq_some.mpr ⟨_, s, rfl, bind_eq_some.mpr ⟨_, s₁, h₁,
      bind_eq_some.mpr ⟨c, s₂, h₂, rfl⟩⟩⟩, hc₂.trans hc₁, he₂.trans he₁, hf₂.trans hf₁, ?_, ?_, ?_⟩
    · simp only [seqs, Code.size, op0, op1, op, Instr.size, List.length_nil, List.length_cons, hsize]
      omega
    · intro L base
      simp [seqs, Code.jumpsFit, op0, op1, op, hfit]
    · simp [seqs, Code.rangesFit, op0, op1, op, hrange]

theorem scopedBlock_nilStatements (n : Nat) (s : State)
    (hlocals : localsAbove s.current.scopeDepth s.current.locals = []) :
    ∃ c s', scopedBlock (block (nilStatements n)) s = some (.seq c .nil, s') ∧
      s'.current = s.current ∧ s'.enclosing = s.enclosing ∧ s'.functions = s.functions ∧
      c.size = 4 * n ∧ (∀ L base, c.jumpsFit L base = true) ∧ c.rangesFit = true := by
  obtain ⟨c, s', hrun, hcurrent, henclosing, hfunctions, hsize, hfit, hrange⟩ := nilStatements_spec n
    { s with current := { s.current with scopeDepth := s.current.scopeDepth + 1 } }
  refine ⟨c, { s' with current := s.current }, bind_eq_some.mpr ⟨_, _, rfl,
    bind_eq_some.mpr ⟨c, s', hrun, bind_eq_some.mpr ⟨.nil, { s' with current := s.current }, ?_, rfl⟩⟩⟩,
    rfl, henclosing, hfunctions, hsize, hfit, hrange⟩
  refine bind_eq_some.mpr ⟨s'.current, s', rfl, ?_⟩
  simp only [hcurrent, Nat.add_sub_cancel, hlocals, List.length_nil, Nat.sub_zero, List.take_length]
  rfl

theorem forRangeLoop_nilStatements (n : Nat) (name : Name) (bounds : Code) (s : State)
    (hroom : s.current.locals.length + 2 ≤ 256) :
    ∃ v l b s', forRangeLoop name bounds s.current.scopeDepth (block (nilStatements n)) s =
        some (.seq bounds (.forRange v l (.seq b .nil)), s') ∧
      s'.current.locals = s.current.locals ++
        [⟨name, some s.current.scopeDepth, false, .any⟩,
          ⟨ascii "(end)", some s.current.scopeDepth, false, .any⟩] ∧
      s'.current.scopeDepth = s.current.scopeDepth ∧ s'.functions = s.functions ∧ b.size = 4 * n ∧
      (∀ L base, b.jumpsFit L base = true) ∧ b.rangesFit = true := by
  let locals := s.current.locals ++ [⟨name, some s.current.scopeDepth, false, .any⟩,
    ⟨ascii "(end)", some s.current.scopeDepth, false, .any⟩]
  have hlocals : (addLocals [name, ascii "(end)"] >>= fun _ => markInitializedCount 2) s =
      some ((), { s with current := { s.current with locals } }) := by
    have h1 : ¬ s.current.locals.length = 256 := by omega
    have h2 : ¬ s.current.locals.length = 255 := by omega
    simp [addLocals, addLocal, markInitializedCount, h1, h2, locals]
  obtain ⟨_, s₁, hadd, hmark⟩ := bind_eq_some.mp hlocals
  obtain ⟨b, s', hrun, hcurrent, henclosing, hfunctions, hsize, hfit, hrange⟩ := scopedBlock_nilStatements n
    { s with current := { s.current with
      locals, loopContext := some ⟨s.current.scopeDepth, true, 0⟩ } } (by simp [localsAbove, locals])
  refine ⟨_, _, b, _, bind_eq_some.mpr ⟨_, _, hadd, bind_eq_some.mpr ⟨_, _, hmark, bind_eq_some.mpr
    ⟨_, _, rfl, bind_eq_some.mpr ⟨_, _, bind_eq_some.mpr ⟨_, _, rfl, bind_eq_some.mpr ⟨_, _, rfl,
      bind_eq_some.mpr ⟨_, _, rfl, bind_eq_some.mpr ⟨_, _, hrun, bind_eq_some.mpr ⟨_, _, rfl,
      bind_eq_some.mpr ⟨_, _, rfl, rfl⟩⟩⟩⟩⟩⟩, rfl⟩⟩⟩⟩, ?_, ?_, hfunctions, hsize, hfit, hrange⟩
  · rw [hcurrent]
  · rw [hcurrent]

/-- The header of `rangeLoop` as the parser sees it. -/
def rangeHeader : IterHeader :=
  ⟨[105], false, none, expr (.range (.number 0 true) (.number (doubleOfNat 1) true)), []⟩

theorem rangeHeader_spec : ∃ s, headerExpression rangeHeader (freshExpression rangeHeader.first)
      { initialState 0 0 with current := { initCompiler true with scopeDepth := 2 } } =
      some ((.seq (op .opConstant [0]) (op .opConstant [1]), true), s) ∧
    s.current.locals = (initCompiler true).locals ∧ s.current.scopeDepth = 2 ∧ s.functions = [] :=
  ⟨_, rfl, rfl, rfl, rfl⟩

theorem compile_rangeLoop (n : Nat) : ∃ v l b f, compile 0 0 (rangeLoop n) = some [f] ∧
    f.body = endBody (seqs [.mark 1, .seq (.seq (.seq (op .opConstant [0]) (op .opConstant [1]))
      (.forRange v l (.seq b .nil))) (seqs [.instr popInstr, .instr popInstr]), .nil]) ∧
      b.size = 4 * n ∧ b.rangesFit = true := by
  obtain ⟨s, hheader, hlocals, hdepth, hfunctions⟩ := rangeHeader_spec
  obtain ⟨v, l, b, s', hrun, hlocals', hdepth', hfunctions', hsize, hfit, hrange⟩ := forRangeLoop_nilStatements n
    [105] (.seq (op .opConstant [0]) (op .opConstant [1])) s (by rw [hlocals]; decide)
  have hend : endScope s' = some (seqs [.instr popInstr, .instr popInstr], { s' with current :=
      { s'.current with scopeDepth := 1, locals := (initCompiler true).locals } }) := by
    refine bind_eq_some.mpr ⟨s'.current, s', rfl, ?_⟩
    simp only [hlocals', hdepth', hdepth, hlocals]
    rfl
  have hfor : stmt (.forStmt [105] false none
      (.range (.number 0 true) (.number (doubleOfNat 1) true)) .nil (nilStatements n))
        (initialState 0 0) = some (_, _) :=
    bind_eq_some.mpr ⟨_, _, rfl, bind_eq_some.mpr ⟨_, _, rfl, bind_eq_some.mpr ⟨_, _, hheader,
      bind_eq_some.mpr ⟨_, _, rfl, bind_eq_some.mpr ⟨_, _, hdepth ▸ hrun,
        bind_eq_some.mpr ⟨_, _, hend, rfl⟩⟩⟩⟩⟩⟩
  have hblock : block (rangeLoop n) (initialState 0 0) = some (_, _) :=
    bind_eq_some.mpr ⟨_, _, rfl, bind_eq_some.mpr ⟨_, _, hfor, bind_eq_some.mpr ⟨_, _, rfl, rfl⟩⟩⟩
  refine ⟨v, l, b, finishedFunction { s'.current with scopeDepth := 1, locals := (initCompiler true).locals }
    [] [] _, ?_, rfl, hsize, hrange⟩
  simp only [compile, hblock, Option.bind_eq_bind, Option.bind_some, hfunctions', hfunctions]
  exact if_pos (by simp [endBody, seqs, Code.jumpsFit, op, op0, hfit])

end Compile

end ToiLang
