import ToiLang.Compiler.State

namespace ToiLang

/-- `instr_length` of the optimiser. -/
def instrLength (fns : Nat → ObjFunction) (c : Chunk) (offset : Nat) : Nat :=
  match OpCode.ofCode (c.byte offset) with
  | none => 1
  | some op =>
    match op with
    | .opConstant | .opAddConst | .opSubConst | .opMulConst | .opDivConst | .opModConst
    | .opGetGlobal | .opDefineGlobal | .opSetGlobal | .opDeleteGlobal | .opGetLocal | .opSetLocal
    | .opAddSetLocal | .opSubSetLocal | .opMulSetLocal | .opDivSetLocal | .opModSetLocal
    | .opGetUpvalue | .opSetUpvalue | .opReturnN | .opAdjustStack | .opCall | .opCallNamed
    | .opCallExpand | .opImport | .opBuildString => 2
    | .opCall0 | .opCall1 | .opCall2 => 1
    | .opTry => 7
    | .opIncLocal | .opSubLocalConst | .opMulLocalConst | .opDivLocalConst | .opModLocalConst
    | .opUnpack => 3
    | .opForPrep | .opForLoop => 5
    | .opJump | .opJumpIfFalse | .opJumpIfTrue | .opLoop => 3
    | .opClosure =>
      match c.constants[(c.byte (offset + 1)).toNat]? with
      | some (.function f) => 2 + (fns f).upvalueCount * 2
      | _ => 2
    | _ => 1

/-- What `disassemble_instruction` returns. Its `AS_FUNCTION` is undefined on a constant that
is no function. -/
def disassembleInstruction (fns : Nat → ObjFunction) (c : Chunk) (offset : Nat) : Option Nat :=
  match OpCode.ofCode (c.byte offset) with
  | none => some (offset + 1)
  | some op =>
    match op with
    | .opConstant | .opImport | .opAddConst | .opSubConst | .opMulConst | .opDivConst
    | .opModConst | .opGetGlobal | .opDefineGlobal | .opSetGlobal | .opDeleteGlobal =>
      some (offset + 2)
    | .opReturnN | .opAdjustStack | .opBuildString | .opGetLocal | .opSetLocal | .opAddSetLocal
    | .opSubSetLocal | .opMulSetLocal | .opDivSetLocal | .opModSetLocal | .opGetUpvalue
    | .opSetUpvalue | .opPrint | .opCall | .opCallNamed | .opCallExpand => some (offset + 2)
    | .opUnpack | .opIncLocal | .opSubLocalConst | .opMulLocalConst | .opDivLocalConst
    | .opModLocalConst => some (offset + 3)
    | .opTry => some (offset + 7)
    | .opForPrep | .opForLoop => some (offset + 5)
    | .opJump | .opJumpIfFalse | .opJumpIfTrue | .opLoop => some (offset + 3)
    | .opClosure =>
      match c.constants[(c.byte (offset + 1)).toNat]? with
      | some (.function f) => some (offset + 2 + 2 * (fns f).upvalueCount)
      | _ => none
    | _ => some (offset + 1)

/-- The number of operand bytes that the case of `vm_run` for an opcode reads, without the
upvalue pairs of `OP_CLOSURE`. -/
@[simp] def OpCode.operandBytes : OpCode → Nat
  | .opConstant | .opAddConst | .opSubConst | .opMulConst | .opDivConst | .opModConst
  | .opGetGlobal | .opDefineGlobal | .opSetGlobal | .opDeleteGlobal | .opGetLocal | .opSetLocal
  | .opAddSetLocal | .opSubSetLocal | .opMulSetLocal | .opDivSetLocal | .opModSetLocal
  | .opGetUpvalue | .opSetUpvalue | .opReturnN | .opAdjustStack | .opCall | .opCallNamed
  | .opCallExpand | .opImport | .opBuildString | .opPrint | .opClosure => 1
  | .opIncLocal | .opSubLocalConst | .opMulLocalConst | .opDivLocalConst | .opModLocalConst
  | .opUnpack | .opJump | .opJumpIfFalse | .opJumpIfTrue | .opLoop => 2
  | .opForPrep | .opForLoop => 4
  | .opTry => 6
  | _ => 0

def operandShort (args : List UInt8) (i : Nat) : Nat :=
  (args.getD i 0).toNat * 256 + (args.getD (i + 1) 0).toNat

/-- The opcodes that only the control-flow emitters write. -/
@[simp] def OpCode.isControl : OpCode → Bool
  | .opJump | .opJumpIfFalse | .opJumpIfTrue | .opLoop | .opForPrep | .opForLoop | .opTry
  | .opEndTry | .opEndFinally => true
  | _ => false

/-- Control goes on behind the instruction when it neither jumps nor fails. -/
def OpCode.fallsThrough : OpCode → Bool
  | .opJump | .opLoop | .opTry | .opEndTry | .opEndFinally | .opThrow | .opReturn | .opReturnN => false
  | _ => true

/-- The operand bytes that `vm_run` reads behind an opcode at `ip`. -/
def readOperands (fns : Nat → ObjFunction) (c : Chunk) (ip : Nat) (op : OpCode) :
    Option (List UInt8) :=
  if op = .opClosure then
    match c.constants[(c.byte (ip + 1)).toNat]? with
    | some (.function f) => some (c.bytes (ip + 1) (1 + 2 * (fns f).upvalueCount))
    | _ => none
  else some (c.bytes (ip + 1) op.operandBytes)

/-- Where the operand reads of `vm_run` leave the instruction pointer. A byte that is no opcode
is skipped. -/
def readNext (fns : Nat → ObjFunction) (c : Chunk) (ip : Nat) : Option Nat :=
  match OpCode.ofCode (c.byte ip) with
  | none => some (ip + 1)
  | some op => (readOperands fns c ip op).map fun args => ip + 1 + args.length

/-- The offsets that a linear decoder visits from `offset` on, in at most `fuel` steps. -/
def visits (next : Nat → Option Nat) (count : Nat) : Nat → Nat → Option (List Nat)
  | 0, _ => some []
  | fuel + 1, offset =>
    if offset < count then do
      let rest ← visits next count fuel (← next offset)
      pure (offset :: rest)
    else some []

/-- The offsets where a decoder finds an opcode, from the start of a chunk to its end. Every
decoder moves on by at least a byte. -/
def decoded (next : Nat → Option Nat) (c : Chunk) : Option (List Nat) :=
  visits next c.code.length c.code.length 0

/-- The walk of `optimize_chunk`. -/
def optimizerVisits (fns : Nat → ObjFunction) (c : Chunk) : Option (List Nat) :=
  decoded (fun offset => some (offset + instrLength fns c offset)) c

/-- The walk of `disassemble_chunk`. -/
def disassemblerVisits (fns : Nat → ObjFunction) (c : Chunk) : Option (List Nat) :=
  decoded (disassembleInstruction fns c) c

/-- The offsets that `vm_run` fetches from when no jump is taken. -/
def vmVisits (fns : Nat → ObjFunction) (c : Chunk) : Option (List Nat) :=
  decoded (readNext fns c) c

end ToiLang
