import ToiLang.Chunk

namespace ToiLang

/-- The code of a function body as the compiler's control-flow emitters nest it. A
node stands for the bytes that one `emit_jump`/`patch_jump`, `emit_loop` or `emit_try`
skeleton writes around the code of its parts. `mark` writes nothing: it records where a
statement starts and the `local_count` of that moment. The number in `call` is how many
values the call is compiled to leave. -/
inductive Code
  | nil
  | instr (i : Instr)
  | call (i : Instr) (results : Nat)
  | seq (a b : Code)
  | mark (localCount : Nat)
  | skipIfFalse (a : Code)
  | branch (a b : Code)
  | whileLoop (cond body : Code)
  | forIn (head body exit : Code)
  | forRange (var last : UInt8) (body : Code)
  | tryBlock (hasExcept endExcept hasFinally : Bool) (depth : UInt8) (body exc fin : Code)
  | breakJump (pops : List Instr)
  | continueJump (pops : List Instr)
  deriving DecidableEq, Repr

def jumpInstr (op : OpCode) (distance : Nat) : Instr := ⟨op, shortBytes distance⟩

@[simp] theorem jumpInstr_size (op : OpCode) (distance : Nat) :
    (jumpInstr op distance).size = 3 := rfl

def popInstr : Instr := ⟨.opPop, []⟩

def endTryInstr : Instr := ⟨.opEndTry, []⟩
def endFinallyInstr : Instr := ⟨.opEndFinally, []⟩

@[simp] theorem popInstr_size : popInstr.size = 1 := rfl
@[simp] theorem endTryInstr_size : endTryInstr.size = 1 := rfl
@[simp] theorem endFinallyInstr_size : endFinallyInstr.size = 1 := rfl

namespace Code

/-- The number of bytes between the `OP_END_TRY` of a protected body and the code after
the except clause. -/
def exceptSize (hasExcept endExcept : Bool) (exc : Nat) : Nat :=
  if hasExcept then 3 + exc + (if endExcept then 1 else 0) else 0

def size : Code → Nat
  | nil => 0
  | instr i => i.size
  | call i _ => i.size
  | seq a b => a.size + b.size
  | mark _ => 0
  | skipIfFalse a => 3 + a.size
  | branch a b => 3 + a.size + 3 + b.size
  | whileLoop c b => c.size + 3 + 1 + b.size + 3 + 1
  | forIn h b e => h.size + 3 + b.size + 3 + e.size
  | forRange _ _ b => 5 + b.size + 5
  | tryBlock x e f _ b exc fin =>
      7 + b.size + 1 + exceptSize x e exc.size + (if f then fin.size + 1 else 0)
  | breakJump ps => codeSize ps + 3
  | continueJump ps => codeSize ps + 3

inductive LoopKind
  | while | forIn | forRange
  deriving DecidableEq, Repr

/-- Where `break` and `continue` of the enclosing loop lead. A `while` loop is continued
backwards by `OP_LOOP`, a `for` loop forwards by a patched `OP_JUMP`. -/
structure Targets where
  brk : Nat
  cont : Nat
  kind : LoopKind
  deriving DecidableEq, Repr

/-- The instruction that `break` jumps with, where `stop` is the offset behind it. -/
def breakInstr (L : Option Targets) (stop : Nat) : Instr :=
  match L with
  | some t => jumpInstr .opJump (t.brk - stop)
  | none => jumpInstr .opJump 0xffff

def continueInstr (L : Option Targets) (stop : Nat) : Instr :=
  match L with
  | some t =>
    if t.kind = .while then jumpInstr .opLoop (stop - t.cont)
    else jumpInstr .opJump (t.cont - stop)
  | none => jumpInstr .opJump 0xffff

/-- The operands of `OP_TRY`: the depth, the flags and both distances. -/
def tryInstr (hasExcept endExcept hasFinally : Bool) (depth : UInt8) (body exc : Nat) : Instr :=
  ⟨.opTry, [depth, (if hasExcept then 1 else 0) ||| (if hasFinally then 2 else 0)] ++
    shortBytes (if hasExcept then body + 1 + 3 else 0) ++
    shortBytes (if hasFinally then body + 1 + exceptSize hasExcept endExcept exc else 0)⟩

def forPrepInstr (var last : UInt8) (body : Nat) : Instr :=
  ⟨.opForPrep, [var, last] ++ shortBytes (body + 5)⟩

def forLoopInstr (var last : UInt8) (body : Nat) : Instr :=
  ⟨.opForLoop, [var, last] ++ shortBytes (5 + body + 5)⟩

@[simp] theorem breakInstr_size (L : Option Targets) (stop : Nat) : (breakInstr L stop).size = 3 := by
  cases L <;> rfl

@[simp] theorem continueInstr_size (L : Option Targets) (stop : Nat) :
    (continueInstr L stop).size = 3 := by
  rcases L with _ | ⟨b, c, _ | _ | _⟩ <;> rfl

@[simp] theorem tryInstr_size (x e f : Bool) (d : UInt8) (b exc : Nat) :
    (tryInstr x e f d b exc).size = 7 := rfl

@[simp] theorem forPrepInstr_size (v l : UInt8) (b : Nat) : (forPrepInstr v l b).size = 5 := rfl
@[simp] theorem forLoopInstr_size (v l : UInt8) (b : Nat) : (forLoopInstr v l b).size = 5 := rfl

/-- The targets of `break` and `continue` inside the loops at `base`. -/
def whileTargets (base cond body : Nat) : Targets :=
  ⟨base + cond + 3 + 1 + body + 3 + 1, base, .while⟩

def forInTargets (base head body exit : Nat) : Targets :=
  ⟨base + head + 3 + body + 3 + exit, base + head + 3 + body, .forIn⟩

def forRangeTargets (base body : Nat) : Targets :=
  ⟨base + 5 + body + 5, base + 5 + body, .forRange⟩

/-- The instructions of code placed at offset `base`. -/
def flatten : Code → Option Targets → Nat → List Instr
  | nil, _, _ => []
  | instr i, _, _ => [i]
  | call i _, _, _ => [i]
  | seq a b, L, base => a.flatten L base ++ b.flatten L (base + a.size)
  | mark _, _, _ => []
  | skipIfFalse a, L, base => jumpInstr .opJumpIfFalse a.size :: a.flatten L (base + 3)
  | branch a b, L, base =>
      jumpInstr .opJumpIfFalse (a.size + 3) :: a.flatten L (base + 3) ++
        jumpInstr .opJump b.size :: b.flatten L (base + 3 + a.size + 3)
  | whileLoop c b, L, base =>
      c.flatten L base ++ jumpInstr .opJumpIfFalse (1 + b.size + 3) :: popInstr ::
        b.flatten (some (whileTargets base c.size b.size)) (base + c.size + 3 + 1) ++
        [jumpInstr .opLoop (c.size + 3 + 1 + b.size + 3), popInstr]
  | forIn h b e, L, base =>
      h.flatten L base ++ jumpInstr .opJumpIfTrue (b.size + 3) ::
        b.flatten (some (forInTargets base h.size b.size e.size)) (base + h.size + 3) ++
        jumpInstr .opLoop (h.size + 3 + b.size + 3) ::
        e.flatten L (base + h.size + 3 + b.size + 3)
  | forRange v l b, _, base =>
      forPrepInstr v l b.size :: b.flatten (some (forRangeTargets base b.size)) (base + 5) ++
        [forLoopInstr v l b.size]
  | tryBlock x e f d b exc fin, L, base =>
      tryInstr x e f d b.size exc.size :: b.flatten L (base + 7) ++ endTryInstr ::
        ((if x then jumpInstr .opJump (exc.size + (if e then 1 else 0)) ::
            exc.flatten L (base + 7 + b.size + 1 + 3) ++ (if e then [endTryInstr] else [])
          else []) ++
         (if f then fin.flatten L (base + 7 + b.size + 1 + exceptSize x e exc.size) ++
            [endFinallyInstr] else []))
  | breakJump ps, L, base => ps ++ [breakInstr L (base + codeSize ps + 3)]
  | continueJump ps, L, base => ps ++ [continueInstr L (base + codeSize ps + 3)]

@[simp] theorem flatten_size (c : Code) (L : Option Targets) (base : Nat) :
    codeSize (c.flatten L base) = c.size := by
  induction c generalizing L base with
  | nil | mark => rfl
  | instr i | call i => simp [flatten, size]
  | seq a b iha ihb => simp [flatten, size, iha, ihb]
  | skipIfFalse a ih => simp [flatten, size, ih]
  | branch a b iha ihb => simp [flatten, size, iha, ihb]; omega
  | whileLoop c b ihc ihb => simp [flatten, size, ihc, ihb]; omega
  | forIn h b e ihh ihb ihe => simp [flatten, size, ihh, ihb, ihe]; omega
  | forRange v l b ih => simp [flatten, size, ih]; omega
  | tryBlock x e f d b exc fin ihb ihe ihf =>
    cases x <;> cases e <;> cases f <;>
      simp [flatten, size, exceptSize, ihb, ihe, ihf] <;> omega
  | breakJump ps | continueJump ps => simp [flatten, size]

/-- The distances that `patch_jump`, `patch_try`, `patch_try_finally` and `emit_loop` refuse
when they do not fit 16 bits. The two jumps of a range loop and its `continue` are written
without this check. -/
def jumpsFit : Code → Option Targets → Nat → Bool
  | nil, _, _ | instr _, _, _ | call _ _, _, _ | mark _, _, _ => true
  | seq a b, L, base => a.jumpsFit L base && b.jumpsFit L (base + a.size)
  | skipIfFalse a, L, base => decide (a.size ≤ 0xffff) && a.jumpsFit L (base + 3)
  | branch a b, L, base =>
      decide (a.size + 3 ≤ 0xffff) && decide (b.size ≤ 0xffff) && a.jumpsFit L (base + 3) &&
        b.jumpsFit L (base + 3 + a.size + 3)
  | whileLoop c b, L, base =>
      decide (c.size + 3 + 1 + b.size + 3 ≤ 0xffff) && c.jumpsFit L base &&
        b.jumpsFit (some (whileTargets base c.size b.size)) (base + c.size + 3 + 1)
  | forIn h b e, L, base =>
      decide (h.size + 3 + b.size + 3 ≤ 0xffff) && h.jumpsFit L base &&
        b.jumpsFit (some (forInTargets base h.size b.size e.size)) (base + h.size + 3) &&
        e.jumpsFit L (base + h.size + 3 + b.size + 3)
  | forRange _ _ b, _, base => b.jumpsFit (some (forRangeTargets base b.size)) (base + 5)
  | tryBlock x e f _ b exc fin, L, base =>
      decide (b.size + 1 + exceptSize x e exc.size ≤ 0xffff || !f) &&
        decide ((b.size + 1 + 3 ≤ 0xffff ∧ exc.size + (if e then 1 else 0) ≤ 0xffff) || !x) &&
        b.jumpsFit L (base + 7) && exc.jumpsFit L (base + 7 + b.size + 1 + 3) &&
        fin.jumpsFit L (base + 7 + b.size + 1 + exceptSize x e exc.size)
  | breakJump ps, L, base =>
      match L with
      | some t => decide (t.brk - (base + codeSize ps + 3) ≤ 0xffff)
      | none => true
  | continueJump ps, L, base =>
      match L with
      | some ⟨_, t, .while⟩ => decide (base + codeSize ps + 3 - t ≤ 0xffff)
      | some ⟨_, t, .forIn⟩ => decide (t - (base + codeSize ps + 3) ≤ 0xffff)
      | _ => true

/-- No range loop is longer than its 16-bit operands can say. -/
def rangesFit : Code → Bool
  | nil | instr _ | call _ _ | mark _ | breakJump _ | continueJump _ => true
  | seq a b | branch a b | whileLoop a b => a.rangesFit && b.rangesFit
  | skipIfFalse a => a.rangesFit
  | forIn h b e => h.rangesFit && b.rangesFit && e.rangesFit
  | forRange _ _ b => decide (5 + b.size + 5 ≤ 0xffff) && b.rangesFit
  | tryBlock _ _ _ _ b exc fin => b.rangesFit && exc.rangesFit && fin.rangesFit

end Code

end ToiLang
