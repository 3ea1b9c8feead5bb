import ToiLang.Compiler.LeavesProgram

namespace ToiLang

namespace Code

/-- A property of instructions that the control-flow skeletons have as well as the leaves. -/
theorem forall_flatten {P Q : Instr → Prop} (hPQ : ∀ i, P i → Q i)
    (hjump : ∀ o n, o.isControl = true → o.operandBytes = 2 → Q (jumpInstr o n)) (hpop : Q popInstr)
    (hend : Q endTryInstr) (hfin : Q endFinallyInstr)
    (htry : ∀ x e f d b n, Q (tryInstr x e f d b n))
    (hprep : ∀ v l n, Q (forPrepInstr v l n)) (hloop : ∀ v l n, Q (forLoopInstr v l n))
    {c : Code} (hc : c.Leaves P) (L : Option Targets) (base : Nat) :
    ∀ i ∈ c.flatten L base, Q i := by
  have hbrk : ∀ L n, Q (breakInstr L n) := by
    rintro (_ | t) n <;> exact hjump _ _ rfl rfl
  have hcont : ∀ L n, Q (continueInstr L n) := by
    rintro (_ | t) n
    · exact hjump _ _ rfl rfl
    · simp only [continueInstr]
      split_ifs <;> exact hjump _ _ rfl rfl
  induction c generalizing L base with
  | nil | mark => simp [flatten]
  | instr i | call i => simpa [flatten] using hPQ i hc
  | seq a b iha ihb =>
    simp only [flatten, List.mem_append]
    rintro i (hi | hi)
    · exact iha hc.1 _ _ i hi
    · exact ihb hc.2 _ _ i hi
  | skipIfFalse a ih =>
    simp only [flatten, List.mem_cons]
    rintro i (rfl | hi)
    · exact hjump _ _ rfl rfl
    · exact ih hc _ _ i hi
  | branch a b iha ihb =>
    simp only [flatten, List.mem_append, List.mem_cons]
    rintro i ((rfl | hi) | rfl | hi)
    · exact hjump _ _ rfl rfl
    · exact iha hc.1 _ _ i hi
    · exact hjump _ _ rfl rfl
    · exact ihb hc.2 _ _ i hi
  | whileLoop c b ihc ihb =>
    simp only [flatten, List.mem_append, List.mem_cons, List.not_mem_nil, or_false]
    rintro i ((hi | rfl | rfl | hi) | rfl | rfl)
    · exact ihc hc.1 _ _ i hi
    · exact hjump _ _ rfl rfl
    · exact hpop
    · exact ihb hc.2 _ _ i hi
    · exact hjump _ _ rfl rfl
    · exact hpop
  | forIn h b e ihh ihb ihe =>
    simp only [flatten, List.mem_append, List.mem_cons]
    rintro i ((hi | rfl | hi) | rfl | hi)
    · exact ihh hc.1 _ _ i hi
    · exact hjump _ _ rfl rfl
    · exact ihb hc.2.1 _ _ i hi
    · exact hjump _ _ rfl rfl
    · exact ihe hc.2.2 _ _ i hi
  | forRange v l b ih =>
    simp only [flatten, List.mem_append, List.mem_cons, List.not_mem_nil, or_false]
    rintro i ((rfl | hi) | rfl)
    · exact hprep _ _ _
    · exact ih hc _ _ i hi
    · exact hloop _ _ _
  | tryBlock x e f d b exc fin ihb ihe ihf =>
    simp only [flatten, List.mem_append, List.mem_cons]
    rintro i ((rfl | hi) | rfl | hi | hi)
    · exact htry _ _ _ _ _ _
    · exact ihb hc.1 _ _ i hi
    · exact hend
    · cases x
      · simp at hi
      · simp only [↓reduceIte, List.mem_append, List.mem_cons] at hi
        rcases hi with (rfl | hi) | hi
        · exact hjump _ _ rfl rfl
        · exact ihe hc.2.1 _ _ i hi
        · cases e
          · simp at hi
          · rw [List.mem_singleton.mp hi]
            exact hend
    · cases f
      · simp at hi
      · simp only [↓reduceIte, List.mem_append, List.mem_singleton] at hi
        rcases hi with hi | rfl
        · exact ihf hc.2.2.1 _ _ i hi
        · exact hfin
  | breakJump ps | continueJump ps =>
    simp only [flatten, List.mem_append, List.mem_singleton]
    rintro i (hi | rfl)
    · exact hPQ i (hc i hi)
    · first
        | exact hbrk _ _
        | exact hcont _ _

end Code

theorem Final.FunctionOk.operands {t : Final} {f : ObjFunction} (h : t.FunctionOk f) :
    ∀ i ∈ f.body.flatten none 0, Final.Operands { t with constants := f.constants } i := by
  have ho : ∀ i : Instr, i.op ≠ .opClosure → i.args.length = i.op.operandBytes →
      Final.Operands { t with constants := f.constants } i := by
    intro i hi hl
    rw [Final.Operands, if_neg hi]
    exact hl
  refine Code.forall_flatten (fun i hi => hi.2) ?_ (ho _ (by decide) rfl) (ho _ (by decide) rfl)
    (ho _ (by decide) rfl) ?_ ?_ ?_ h.leaves none 0
  · intro o n hc h2
    refine ho _ ?_ h2.symm
    rintro (rfl : o = .opClosure)
    cases hc
  · exact fun _ _ _ _ _ _ => ho _ (by simp [Code.tryInstr]) rfl
  · exact fun _ _ _ => ho _ (by simp [Code.forPrepInstr]) rfl
  · exact fun _ _ _ => ho _ (by simp [Code.forLoopInstr]) rfl

/-- The function objects of a compilation by address. -/
def Final.store (t : Final) (a : Nat) : ObjFunction :=
  (t.function a).getD
    { name := [], arity := 0, upvalueCount := 0, code := [], constants := [], defaults := []
      isVariadic := false, paramTypes := [], paramNames := [], isSelf := false
      isGenerator := false, body := .nil }

/-- The offsets where instructions start. -/
def starts : List Instr → Nat → List Nat
  | [], _ => []
  | i :: is, offset => offset :: starts is (offset + i.size)

theorem byte_encode {c : Chunk} {pre post : List Instr} {i : Instr}
    (hc : c.code = encode (pre ++ i :: post)) {k : Nat} (hk : k < i.encode.length) :
    c.byte (codeSize pre + k) = i.encode[k] := by
  have hl : (encode pre).length ≤ codeSize pre + k := by simp
  simp only [Chunk.byte, hc, encode_append, encode_cons, List.getD_eq_getElem?_getD]
  rw [List.getElem?_append_right hl, encode_length, Nat.add_sub_cancel_left,
    List.getElem?_append_left hk, List.getElem?_eq_getElem hk]
  rfl

/-- The opcode and the operands that a decoder at the start of an instruction sees. -/
theorem opcode_encode {c : Chunk} {pre post : List Instr} {i : Instr}
    (hc : c.code = encode (pre ++ i :: post)) : OpCode.ofCode (c.byte (codeSize pre)) = some i.op := by
  have h := byte_encode hc (k := 0) (by simp [Instr.encode])
  rw [Nat.add_zero] at h
  rw [h]
  exact OpCode.ofCode_code i.op

theorem bytes_encode {c : Chunk} {pre post : List Instr} {i : Instr}
    (hc : c.code = encode (pre ++ i :: post)) :
    c.bytes (codeSize pre + 1) i.args.length = i.args := by
  apply List.ext_getElem
  · simp [Chunk.bytes]
  · intro k h1 h2
    have h := byte_encode hc (k := k + 1) (by simp [Instr.size]; omega)
    simp only [Chunk.bytes, List.getElem_map, List.getElem_range]
    rw [Nat.add_assoc, Nat.add_comm 1 k, h]
    rfl

variable {t : Final} {f : ObjFunction} {pre post : List Instr} {i : Instr}

/-- The upvalue pairs that every decoder counts behind `OP_CLOSURE`. -/
theorem closure_constant (hi : Final.Operands { t with constants := f.constants } i)
    (hc : f.code = encode (pre ++ i :: post)) (ho : i.op = .opClosure) :
    ∃ a, f.constants[(f.chunk.byte (codeSize pre + 1)).toNat]? = some (.function a) ∧
      i.size = 2 + 2 * (t.store a).upvalueCount := by
  rw [Final.Operands, if_pos ho] at hi
  obtain ⟨k, ups, a, g, hargs, hk, hg, hl⟩ := hi
  have hsize : i.size = 2 + ups.length := by simp [Instr.size, hargs]; omega
  have hb : f.chunk.byte (codeSize pre + 1) = k := by
    rw [byte_encode (c := f.chunk) hc (k := 1) (by simp; omega)]
    simp [Instr.encode, hargs]
  refine ⟨a, by rw [hb]; exact hk, ?_⟩
  have hstore : t.store a = g := by
    have : t.function a = some g := hg
    simp [Final.store, this]
  rw [hstore, hsize, hl]

theorem size_of_operands (hi : t.Operands i) (ho : i.op ≠ .opClosure) :
    i.size = 1 + i.op.operandBytes := by
  rw [Final.Operands, if_neg ho] at hi
  rw [Instr.size, hi]

theorem readOperands_encode (hi : Final.Operands { t with constants := f.constants } i)
    (hc : f.code = encode (pre ++ i :: post)) :
    readOperands t.store f.chunk (codeSize pre) i.op = some i.args := by
  by_cases ho : i.op = .opClosure
  · obtain ⟨a, ha, hs⟩ := closure_constant hi hc ho
    have hl : 1 + 2 * (t.store a).upvalueCount = i.args.length := by
      rw [Instr.size] at hs
      omega
    have ha' : f.chunk.constants[(f.chunk.byte (codeSize pre + 1)).toNat]? = some (.function a) := ha
    simp only [readOperands, ho, ↓reduceIte, ha', hl, bytes_encode (c := f.chunk) hc]
  · have hl := hi
    rw [Final.Operands, if_neg ho] at hl
    simp only [readOperands, ho, ↓reduceIte, ← hl, bytes_encode (c := f.chunk) hc]

theorem readNext_encode (hi : Final.Operands { t with constants := f.constants } i)
    (hc : f.code = encode (pre ++ i :: post)) :
    readNext t.store f.chunk (codeSize pre) = some (codeSize pre + i.size) := by
  simp only [readNext, opcode_encode (c := f.chunk) hc, readOperands_encode hi hc, Option.map_some,
    Instr.size, Nat.add_assoc]

theorem disassembleInstruction_encode (hi : Final.Operands { t with constants := f.constants } i)
    (hc : f.code = encode (pre ++ i :: post)) :
    disassembleInstruction t.store f.chunk (codeSize pre) = some (codeSize pre + i.size) := by
  by_cases ho : i.op = .opClosure
  · obtain ⟨a, ha, hs⟩ := closure_constant hi hc ho
    have ha' : f.chunk.constants[(f.chunk.byte (codeSize pre + 1)).toNat]? = some (.function a) := ha
    simp only [disassembleInstruction, opcode_encode (c := f.chunk) hc, ho, ha', hs, Nat.add_assoc]
  · rw [size_of_operands hi ho, disassembleInstruction, opcode_encode (c := f.chunk) hc]
    revert ho
    cases i.op <;> simp [OpCode.operandBytes]

/-- The optimiser only misreads `OP_PRINT`, which it takes for an instruction of one byte. -/
theorem instrLength_encode (hi : Final.Operands { t with constants := f.constants } i)
    (hc : f.code = encode (pre ++ i :: post)) :
    instrLength t.store f.chunk (codeSize pre) = if i.op = .opPrint then 1 else i.size := by
  by_cases ho : i.op = .opClosure
  · obtain ⟨a, ha, hs⟩ := closure_constant hi hc ho
    have ha' : f.chunk.constants[(f.chunk.byte (codeSize pre + 1)).toNat]? = some (.function a) := ha
    simp only [instrLength, opcode_encode (c := f.chunk) hc, ho, ha', hs, reduceCtorEq, ↓reduceIte]
    omega
  · rw [size_of_operands hi ho, instrLength, opcode_encode (c := f.chunk) hc]
    revert ho
    cases i.op <;> simp [OpCode.operandBytes]

theorem length_le_codeSize (is : List Instr) : is.length ≤ codeSize is := by
  induction is with
  | nil => simp
  | cons i is ih =>
    have hi := i.size_pos
    simp only [List.length_cons, codeSize_cons]
    omega

@[simp] theorem starts_length (is : List Instr) (offset : Nat) :
    (starts is offset).length = is.length := by
  induction is generalizing offset with
  | nil => rfl
  | cons i is ih => simp [starts, ih]

theorem starts_append (xs ys : List Instr) (offset : Nat) :
    starts (xs ++ ys) offset = starts xs offset ++ starts ys (offset + codeSize xs) := by
  induction xs generalizing offset with
  | nil => simp [starts]
  | cons x xs ih => simp [starts, ih, Nat.add_assoc]

/-- A decoder that steps from each instruction to the next visits the starts. -/
theorem visits_starts {next : Nat → Option Nat} {is : List Instr}
    (h : ∀ pre i post, is = pre ++ i :: post → next (codeSize pre) = some (codeSize pre + i.size))
    {post : List Instr} (pre : List Instr) (his : is = pre ++ post) {fuel : Nat}
    (hf : post.length ≤ fuel) :
    visits next (codeSize is) fuel (codeSize pre) = some (starts post (codeSize pre)) := by
  induction post generalizing pre fuel with
  | nil =>
    have hlen : ¬ codeSize pre < codeSize is := by simp [his]
    cases fuel <;> simp [visits, starts, hlen]
  | cons i post ih =>
    obtain ⟨fuel, rfl⟩ : ∃ n, fuel = n + 1 := ⟨fuel - 1, by simp at hf; omega⟩
    have hlt : codeSize pre < codeSize is := by
      have hi := i.size_pos
      simp [his]
      omega
    have hf' : post.length ≤ fuel := by simpa using hf
    have hnext := ih (pre ++ [i]) (by simp [his]) hf'
    simp only [codeSize_append, codeSize_cons, codeSize_nil, Nat.add_zero] at hnext
    simp [visits, hlt, h pre i post his, hnext, starts]

theorem decoded_starts {next : Nat → Option Nat} {c : Chunk} {is : List Instr}
    (hc : c.code = encode is)
    (h : ∀ pre i post, is = pre ++ i :: post → next (codeSize pre) = some (codeSize pre + i.size)) :
    decoded next c = some (starts is 0) := by
  have hl := length_le_codeSize is
  have hv := visits_starts h [] rfl hl
  simpa [decoded, hc] using hv

/-- Where a decoder goes on behind an offset it visits. -/
theorem visits_next {next : Nat → Option Nat} {count fuel offset a : Nat} {xs ys : List Nat}
    (h : visits next count fuel offset = some (xs ++ a :: ys))
    (hf : (xs ++ a :: ys).length < fuel) :
    ∃ b, next a = some b ∧ (count ≤ b ∨ ys.head? = some b) := by
  induction xs generalizing fuel offset with
  | nil =>
    obtain ⟨fuel, rfl⟩ : ∃ n, fuel = n + 1 := ⟨fuel - 1, by omega⟩
    unfold visits at h
    split_ifs at h with hlt
    · obtain ⟨b, hb, h⟩ := Option.bind_eq_some_iff.mp h
      obtain ⟨rest, hr, h⟩ := Option.bind_eq_some_iff.mp h
      obtain ⟨rfl, rfl⟩ := List.cons.inj (Option.some.inj h)
      refine ⟨b, hb, ?_⟩
      obtain ⟨fuel, rfl⟩ : ∃ n, fuel = n + 1 := ⟨fuel - 1, by simp at hf; omega⟩
      unfold visits at hr
      split_ifs at hr with hlt'
      · obtain ⟨d, hd, hr⟩ := Option.bind_eq_some_iff.mp hr
        obtain ⟨rest', _, hr⟩ := Option.bind_eq_some_iff.mp hr
        rw [← Option.some.inj hr]
        exact .inr rfl
      · exact .inl (Nat.le_of_not_lt hlt')
    · simp at h
  | cons x xs ih =>
    obtain ⟨fuel, rfl⟩ : ∃ n, fuel = n + 1 := ⟨fuel - 1, by omega⟩
    unfold visits at h
    split_ifs at h with hlt
    · obtain ⟨b, hb, h⟩ := Option.bind_eq_some_iff.mp h
      obtain ⟨rest, hr, h⟩ := Option.bind_eq_some_iff.mp h
      obtain ⟨_, rfl⟩ := List.cons.inj (Option.some.inj h)
      exact ih hr (by simpa using hf)
    · simp at h

/-- The linear decoders of a function's chunk all find the instructions that the compiler wrote
and nothing else. -/
def DecodersAgree (fns : Nat → ObjFunction) (f : ObjFunction) : Prop :=
  optimizerVisits fns f.chunk = some (starts (f.body.flatten none 0) 0) ∧
  disassemblerVisits fns f.chunk = some (starts (f.body.flatten none 0) 0) ∧
  vmVisits fns f.chunk = some (starts (f.body.flatten none 0) 0)

instance (fns : Nat → ObjFunction) (f : ObjFunction) : Decidable (DecodersAgree fns f) :=
  inferInstanceAs (Decidable (_ ∧ _ ∧ _))

theorem disassemblerVisits_starts (hf : t.FunctionOk f) :
    disassemblerVisits t.store f.chunk = some (starts (f.body.flatten none 0) 0) := by
  refine decoded_starts hf.code fun pre i post h => ?_
  exact disassembleInstruction_encode (hf.operands i (by simp [h])) (h ▸ hf.code)

theorem vmVisits_starts (hf : t.FunctionOk f) :
    vmVisits t.store f.chunk = some (starts (f.body.flatten none 0) 0) := by
  refine decoded_starts hf.code fun pre i post h => ?_
  exact readNext_encode (hf.operands i (by simp [h])) (h ▸ hf.code)

theorem optimizerVisits_starts_iff (hf : t.FunctionOk f) :
    optimizerVisits t.store f.chunk = some (starts (f.body.flatten none 0) 0) ↔
      ∀ i ∈ f.body.flatten none 0, i.op ≠ .opPrint := by
  have hlen : ∀ pre i post, f.body.flatten none 0 = pre ++ i :: post →
      instrLength t.store f.chunk (codeSize pre) = if i.op = .opPrint then 1 else i.size :=
    fun pre i post h => instrLength_encode (hf.operands i (by simp [h])) (h ▸ hf.code)
  constructor
  · intro hv i hi hp
    obtain ⟨pre, post, h⟩ := List.append_of_mem hi
    have hsize : i.size = 2 := by
      rw [size_of_operands (hf.operands i hi) (by simp [hp]), hp]
      rfl
    have hcount : codeSize (f.body.flatten none 0) = codeSize pre + (2 + codeSize post) := by
      rw [h, codeSize_append, codeSize_cons, hsize]
    have hshort : (pre ++ i :: post).length < codeSize (f.body.flatten none 0) := by
      have hpre := length_le_codeSize pre
      have hpost := length_le_codeSize post
      simp only [List.length_append, List.length_cons]
      omega
    have hcode : f.chunk.code.length = codeSize (f.body.flatten none 0) := by
      simp [ObjFunction.chunk, hf.code]
    have hs : starts (f.body.flatten none 0) 0 =
        starts pre 0 ++ codeSize pre :: starts post (codeSize pre + 2) := by
      rw [h, starts_append]
      simp [starts, hsize]
    rw [optimizerVisits, decoded, hcode, hs] at hv
    obtain ⟨b, hb, hnext⟩ := visits_next hv (by simpa using hshort)
    have hb1 : b = codeSize pre + 1 := by
      rw [hlen pre i post h, if_pos hp] at hb
      exact (Option.some.inj hb).symm
    rcases hnext with hnext | hnext
    · omega
    · cases post with
      | nil => simp [starts] at hnext
      | cons j post =>
        simp only [starts, List.head?_cons, Option.some.injEq] at hnext
        omega
  · intro hp
    refine decoded_starts hf.code fun pre i post h => ?_
    rw [hlen pre i post h, if_neg (hp i (by simp [h]))]

/-- `x = 1` -/
def assignOne : Stmts :=
  .cons (.expression (.assign (ascii "x") .equals (.one (.number (Compile.doubleOfNat 1) true)))) .nil

/-- `print(1)` -/
def printOne : Stmts := .cons (.print (.cons (.number (Compile.doubleOfNat 1) true) .nil)) .nil

end ToiLang
