import Mathlib.Algebra.Ring.Nat
import Mathlib.Data.List.Basic
import Mathlib.Order.Lattice

namespace ToiLang

/-- The instruction set of `chunk.h`, in the order of the C enumeration. -/
inductive OpCode
  | opConstant | opAppend | opAdd | opAddInplace | opAddConst | opSubtract | opSubConst
  | opMultiply | opMulConst | opDivide | opDivConst | opNot | opNegate | opLength | opPrint
  | opPop | opGetGlobal | opDefineGlobal | opSetGlobal | opDeleteGlobal | opGetLocal
  | opSetLocal | opAddSetLocal | opSubSetLocal | opMulSetLocal | opDivSetLocal | opModSetLocal
  | opIncLocal | opSubLocalConst | opMulLocalConst | opDivLocalConst | opModLocalConst
  | opGetUpvalue | opSetUpvalue | opCloseUpvalue | opGetTable | opGetMetaTable | opSetTable
  | opDeleteTable | opNewTable | opDup | opJump | opJumpIfFalse | opJumpIfTrue | opLoop | opCall
  | opCall0 | opCall1 | opCall2 | opCallNamed | opCallExpand | opClosure | opReturn | opTrue
  | opFalse | opNil | opEqual | opGreater | opLess | opHas | opIn | opPower | opIntDiv
  | opModulo | opIadd | opIsub | opImul | opIdiv | opImod | opFadd | opFsub | opFmul | opFdiv
  | opFmod | opModConst | opGc | opSetMetatable | opReturnN | opAdjustStack | opUnpack | opTry
  | opEndTry | opEndFinally | opImport | opImportStar | opThrow | opBuildString | opIterPrep
  | opIterPrepIpairs | opRange | opForPrep | opForLoop | opSlice
  deriving DecidableEq, Repr

/-- The enumerators by number. -/
def OpCode.all : List OpCode := [
  .opConstant, .opAppend, .opAdd, .opAddInplace, .opAddConst, .opSubtract, .opSubConst,
  .opMultiply, .opMulConst, .opDivide, .opDivConst, .opNot, .opNegate, .opLength, .opPrint,
  .opPop, .opGetGlobal, .opDefineGlobal, .opSetGlobal, .opDeleteGlobal, .opGetLocal,
  .opSetLocal, .opAddSetLocal, .opSubSetLocal, .opMulSetLocal, .opDivSetLocal, .opModSetLocal,
  .opIncLocal, .opSubLocalConst, .opMulLocalConst, .opDivLocalConst, .opModLocalConst,
  .opGetUpvalue, .opSetUpvalue, .opCloseUpvalue, .opGetTable, .opGetMetaTable, .opSetTable,
  .opDeleteTable, .opNewTable, .opDup, .opJump, .opJumpIfFalse, .opJumpIfTrue, .opLoop, .opCall,
  .opCall0, .opCall1, .opCall2, .opCallNamed, .opCallExpand, .opClosure, .opReturn, .opTrue,
  .opFalse, .opNil, .opEqual, .opGreater, .opLess, .opHas, .opIn, .opPower, .opIntDiv,
  .opModulo, .opIadd, .opIsub, .opImul, .opIdiv, .opImod, .opFadd, .opFsub, .opFmul, .opFdiv,
  .opFmod, .opModConst, .opGc, .opSetMetatable, .opReturnN, .opAdjustStack, .opUnpack, .opTry,
  .opEndTry, .opEndFinally, .opImport, .opImportStar, .opThrow, .opBuildString, .opIterPrep,
  .opIterPrepIpairs, .opRange, .opForPrep, .opForLoop, .opSlice]

/-- The byte that `emit_byte` writes for an opcode. -/
def OpCode.code (op : OpCode) : UInt8 := UInt8.ofNat op.ctorIdx

/-- The opcode that a byte stands for in the `switch` of `vm_run`; a byte past the
last enumerator has no case. -/
def OpCode.ofCode (b : UInt8) : Option OpCode := OpCode.all[b.toNat]?

@[simp] theorem OpCode.ofCode_code (op : OpCode) : OpCode.ofCode op.code = some op := by
  cases op <;> rfl

end ToiLang
