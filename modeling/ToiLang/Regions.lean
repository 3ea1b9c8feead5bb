import ToiLang.Decoders

namespace ToiLang

/-- A try or with statement around an instruction: the offset behind its `OP_TRY`, the operands
of `OP_TRY`, and whether the instruction is in the except clause. -/
structure Enclosing where
  start : Nat
  args : List UInt8
  inExcept : Bool
  deriving DecidableEq, Repr

def Enclosing.hasExcept (e : Enclosing) : Bool := (e.args.getD 1 0).toNat % 2 = 1
def Enclosing.hasFinally (e : Enclosing) : Bool := (e.args.getD 1 0).toNat / 2 % 2 = 1
def Enclosing.exceptStart (e : Enclosing) : Nat := e.start + operandShort e.args 2
def Enclosing.finallyStart (e : Enclosing) : Nat := e.start + operandShort e.args 4

/-- An instruction with its offset and the statements around it, the innermost first. -/
structure Placed where
  offset : Nat
  instr : Instr
  around : List Enclosing
  deriving DecidableEq, Repr

/-- The offsets of a finally part: behind `OP_TRY`, at its start, and at its `OP_END_FINALLY`. -/
structure FinallySpan where
  enter : Nat
  start : Nat
  stop : Nat
  deriving DecidableEq, Repr

def placeAll : List Instr → Nat → List Enclosing → List Placed
  | [], _, _ => []
  | i :: is, p, es => ⟨p, i, es⟩ :: placeAll is (p + i.size) es

namespace Code

/-- The instructions of `flatten`, with the statements around each. A protected body reaches to
its `OP_END_TRY`, and so does an except clause that has one. -/
def layout : Code → Option Targets → Nat → List Enclosing → List Placed
  | nil, _, _, _ | mark _, _, _, _ => []
  | instr i, _, base, es | call i _, _, base, es => [⟨base, i, es⟩]
  | seq a b, L, base, es => a.layout L base es ++ b.layout L (base + a.size) es
  | skipIfFalse a, L, base, es =>
      ⟨base, jumpInstr .opJumpIfFalse a.size, es⟩ :: a.layout L (base + 3) es
  | branch a b, L, base, es =>
      ⟨base, jumpInstr .opJumpIfFalse (a.size + 3), es⟩ :: a.layout L (base + 3) es ++
        ⟨base + 3 + a.size, jumpInstr .opJump b.size, es⟩ ::
        b.layout L (base + 3 + a.size + 3) es
  | whileLoop c b, L, base, es =>
      c.layout L base es ++
        ⟨base + c.size, jumpInstr .opJumpIfFalse (1 + b.size + 3), es⟩ ::
        ⟨base + c.size + 3, popInstr, es⟩ ::
        b.layout (some (whileTargets base c.size b.size)) (base + c.size + 3 + 1) es ++
        placeAll [jumpInstr .opLoop (c.size + 3 + 1 + b.size + 3), popInstr]
          (base + c.size + 3 + 1 + b.size) es
  | forIn h b e, L, base, es =>
      h.layout L base es ++
        ⟨base + h.size, jumpInstr .opJumpIfTrue (b.size + 3), es⟩ ::
        b.layout (some (forInTargets base h.size b.size e.size)) (base + h.size + 3) es ++
        ⟨base + h.size + 3 + b.size, jumpInstr .opLoop (h.size + 3 + b.size + 3), es⟩ ::
        e.layout L (base + h.size + 3 + b.size + 3) es
  | forRange v l b, _, base, es =>
      ⟨base, forPrepInstr v l b.size, es⟩ ::
        b.layout (some (forRangeTargets base b.size)) (base + 5) es ++
        [⟨base + 5 + b.size, forLoopInstr v l b.size, es⟩]
  | tryBlock x e f d b exc fin, L, base, es =>
      let i := tryInstr x e f d b.size exc.size
      let body : Enclosing := ⟨base + 7, i.args, false⟩
      let clause : Enclosing := ⟨base + 7, i.args, true⟩
      let p := base + 7 + b.size + 1
      ⟨base, i, es⟩ :: b.layout L (base + 7) (body :: es) ++
        ⟨base + 7 + b.size, endTryInstr, body :: es⟩ ::
        ((if x then ⟨p, jumpInstr .opJump (exc.size + (if e then 1 else 0)), es⟩ ::
            exc.layout L (p + 3) (clause :: es) ++
            (if e then [⟨p + 3 + exc.size, endTryInstr, clause :: es⟩] else [])
          else []) ++
         (if f then fin.layout L (p + exceptSize x e exc.size) es ++
            [⟨p + exceptSize x e exc.size + fin.size, endFinallyInstr, es⟩] else []))
  | breakJump ps, L, base, es =>
      placeAll ps base es ++ [⟨base + codeSize ps, breakInstr L (base + codeSize ps + 3), es⟩]
  | continueJump ps, L, base, es =>
      placeAll ps base es ++ [⟨base + codeSize ps, continueInstr L (base + codeSize ps + 3), es⟩]

/-- The try and with statements whose protected or except region has the offset `p` in it, the
innermost first. -/
def enclosing : Code → Nat → Nat → List Enclosing
  | nil, _, _ | instr _, _, _ | call _ _, _, _ | mark _, _, _ | breakJump _, _, _
  | continueJump _, _, _ => []
  | seq a b, base, p => a.enclosing base p ++ b.enclosing (base + a.size) p
  | skipIfFalse a, base, p => a.enclosing (base + 3) p
  | branch a b, base, p => a.enclosing (base + 3) p ++ b.enclosing (base + 3 + a.size + 3) p
  | whileLoop c b, base, p => c.enclosing base p ++ b.enclosing (base + c.size + 3 + 1) p
  | forIn h b e, base, p =>
      h.enclosing base p ++ b.enclosing (base + h.size + 3) p ++
        e.enclosing (base + h.size + 3 + b.size + 3) p
  | forRange _ _ b, base, p => b.enclosing (base + 5) p
  | tryBlock x e f d b exc fin, base, p =>
      let args := (tryInstr x e f d b.size exc.size).args
      let stop := base + 7 + b.size + 1
      (if base + 7 ≤ p ∧ p < stop then
        b.enclosing (base + 7) p ++ [⟨base + 7, args, false⟩] else []) ++
      (if x = true ∧ stop + 3 ≤ p ∧ p < stop + exceptSize x e exc.size then
        exc.enclosing (stop + 3) p ++ [⟨base + 7, args, true⟩] else []) ++
      (if f then fin.enclosing (stop + exceptSize x e exc.size) p else [])

/-- The offsets of the jumps of `break` and `continue` out of a protected body or an except clause,
or outside all loops. `inLoop` says that there is a loop and no such region in between. -/
def escapes : Code → Bool → Nat → List Nat
  | nil, _, _ | instr _, _, _ | call _ _, _, _ | mark _, _, _ => []
  | seq a b, k, base => a.escapes k base ++ b.escapes k (base + a.size)
  | skipIfFalse a, k, base => a.escapes k (base + 3)
  | branch a b, k, base => a.escapes k (base + 3) ++ b.escapes k (base + 3 + a.size + 3)
  | whileLoop c b, k, base => c.escapes k base ++ b.escapes true (base + c.size + 3 + 1)
  | forIn h b e, k, base =>
      h.escapes k base ++ b.escapes true (base + h.size + 3) ++
        e.escapes k (base + h.size + 3 + b.size + 3)
  | forRange _ _ b, _, base => b.escapes true (base + 5)
  | tryBlock x e f _ b exc fin, k, base =>
      b.escapes false (base + 7) ++
        (if x then exc.escapes false (base + 7 + b.size + 1 + 3) else []) ++
        (if f then fin.escapes k (base + 7 + b.size + 1 + exceptSize x e exc.size) else [])
  | breakJump ps, k, base | continueJump ps, k, base => if k then [] else [base + codeSize ps]

/-- The finally parts of the try and with statements in the code. -/
def finallySpans : Code → Nat → List FinallySpan
  | nil, _ | instr _, _ | call _ _, _ | mark _, _ | breakJump _, _ | continueJump _, _ => []
  | seq a b, base => a.finallySpans base ++ b.finallySpans (base + a.size)
  | skipIfFalse a, base => a.finallySpans (base + 3)
  | branch a b, base => a.finallySpans (base + 3) ++ b.finallySpans (base + 3 + a.size + 3)
  | whileLoop c b, base => c.finallySpans base ++ b.finallySpans (base + c.size + 3 + 1)
  | forIn h b e, base =>
      h.finallySpans base ++ b.finallySpans (base + h.size + 3) ++
        e.finallySpans (base + h.size + 3 + b.size + 3)
  | forRange _ _ b, base => b.finallySpans (base + 5)
  | tryBlock x e f _ b exc fin, base =>
      let start := base + 7 + b.size + 1 + exceptSize x e exc.size
      b.finallySpans (base + 7) ++
        (if x then exc.finallySpans (base + 7 + b.size + 1 + 3) else []) ++
        (if f then ⟨base + 7, start, start + fin.size⟩ :: fin.finallySpans start else [])

end Code

theorem placeAll_instrs (is : List Instr) (p : Nat) (es : List Enclosing) :
    (placeAll is p es).map Placed.instr = is := by
  induction is generalizing p with
  | nil => rfl
  | cons i is ih => simp [placeAll, ih]

theorem placeAll_starts (is : List Instr) (p : Nat) (es : List Enclosing) :
    (placeAll is p es).map Placed.offset = starts is p := by
  induction is generalizing p with
  | nil => rfl
  | cons i is ih => simp [placeAll, starts, ih]

namespace Code

theorem layout_instrs (c : Code) (L : Option Targets) (base : Nat) (es : List Enclosing) :
    (c.layout L base es).map Placed.instr = c.flatten L base := by
  induction c generalizing L base es with
  | nil | mark => rfl
  | instr i | call i => rfl
  | seq a b iha ihb => simp [layout, flatten, iha, ihb]
  | skipIfFalse a ih => simp [layout, flatten, ih]
  | branch a b iha ihb => simp [layout, flatten, iha, ihb]
  | whileLoop c b ihc ihb => simp [layout, flatten, placeAll, ihc, ihb]
  | forIn h b e ihh ihb ihe => simp [layout, flatten, ihh, ihb, ihe]
  | forRange v l b ih => simp [layout, flatten, ih]
  | tryBlock x e f d b exc fin ihb ihe ihf =>
    cases x <;> cases e <;> cases f <;> simp [layout, flatten, ihb, ihe, ihf]
  | breakJump ps | continueJump ps => simp [layout, flatten, placeAll_instrs]

theorem layout_starts (c : Code) (L : Option Targets) (base : Nat) (es : List Enclosing) :
    (c.layout L base es).map Placed.offset = starts (c.flatten L base) base := by
  induction c generalizing L base es with
  | nil | mark => rfl
  | instr i | call i => rfl
  | seq a b iha ihb => simp [layout, flatten, starts_append, iha, ihb]
  | skipIfFalse a ih => simp [layout, flatten, starts, ih]
  | branch a b iha ihb => simp [layout, flatten, starts, starts_append, iha, ihb, Nat.add_assoc]
  | whileLoop c b ihc ihb =>
    simp [layout, flatten, placeAll, starts, starts_append, ihc, ihb, Nat.add_assoc]
  | forIn h b e ihh ihb ihe =>
    simp [layout, flatten, starts, starts_append, ihh, ihb, ihe, Nat.add_assoc]
  | forRange v l b ih => simp [layout, flatten, starts, starts_append, ih, Nat.add_assoc]
  | tryBlock x e f d b exc fin ihb ihe ihf =>
    cases x <;> cases e <;> cases f <;>
      simp [layout, flatten, starts, starts_append, exceptSize, ihb, ihe, ihf, Nat.add_assoc]
    all_goals exact ⟨by congr 1; omega, by omega⟩
  | breakJump ps | continueJump ps =>
    simp [layout, flatten, starts, starts_append, placeAll_starts]

/-- An instruction of the layout is an instruction of the code at its offset. -/
theorem layout_split {c : Code} {L : Option Targets} {base : Nat} {es : List Enclosing} {q : Placed}
    (h : q ∈ c.layout L base es) :
    ∃ pre post, c.flatten L base = pre ++ q.instr :: post ∧ q.offset = base + codeSize pre := by
  obtain ⟨xs, ys, hxs⟩ := List.append_of_mem h
  have hi := c.layout_instrs L base es
  have ho := c.layout_starts L base es
  rw [hxs, List.map_append, List.map_cons] at hi ho
  refine ⟨xs.map Placed.instr, ys.map Placed.instr, hi.symm, ?_⟩
  rw [← hi, starts_append] at ho
  have hl : (xs.map Placed.offset).length = (starts (xs.map Placed.instr) base).length := by simp
  exact (List.cons.inj (List.append_inj ho hl).2).1

theorem mem_layout_tryBlock {x e f : Bool} {d : UInt8} {b exc fin : Code} {L : Option Targets}
    {base : Nat} {es : List Enclosing} {q : Placed} :
    q ∈ (tryBlock x e f d b exc fin).layout L base es ↔
      let i := tryInstr x e f d b.size exc.size
      let p := base + 7 + b.size + 1
      q = ⟨base, i, es⟩ ∨ q ∈ b.layout L (base + 7) (⟨base + 7, i.args, false⟩ :: es) ∨
      q = ⟨base + 7 + b.size, endTryInstr, ⟨base + 7, i.args, false⟩ :: es⟩ ∨
      (x = true ∧ (q = ⟨p, jumpInstr .opJump (exc.size + (if e then 1 else 0)), es⟩ ∨
        q ∈ exc.layout L (p + 3) (⟨base + 7, i.args, true⟩ :: es) ∨
        (e = true ∧ q = ⟨p + 3 + exc.size, endTryInstr, ⟨base + 7, i.args, true⟩ :: es⟩))) ∨
      (f = true ∧ (q ∈ fin.layout L (p + exceptSize x e exc.size) es ∨
        q = ⟨p + exceptSize x e exc.size + fin.size, endFinallyInstr, es⟩)) := by
  cases x <;> cases e <;> cases f <;> simp [layout, or_assoc]

end Code

end ToiLang
