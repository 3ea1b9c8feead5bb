import ToiLang.Opcode

namespace ToiLang

/-- The bits of a C `double`. -/
abbrev Double := UInt64

abbrev Bytes := List UInt8

/-- The bytes of a token or a message that the C source spells as a literal. -/
def ascii (s : String) : Bytes := s.toList.map fun c => UInt8.ofNat c.toNat

/-- A literal by its characters, which the kernel evaluates faster than the string. -/
theorem ascii_ofList (cs : List Char) :
    ascii (String.ofList cs) = cs.map fun c => UInt8.ofNat c.toNat := by
  rw [ascii, String.toList_ofList]

/-- A run-time value. Objects are their heap addresses; a string is its bytes, and a
closure also carries its function object and its upvalue objects, which never change. -/
inductive Value
  | number (x : Double)
  | nil
  | bool (b : Bool)
  | string (s : Bytes)
  | table (a : Nat)
  | function (f : Nat)
  | native (a : Nat)
  | closure (a f : Nat) (upvalues : List Nat)
  | thread (a : Nat)
  | userdata (a : Nat)
  | boundMethod (a : Nat) (receiver method : Value)
  deriving DecidableEq, Repr

def Value.isNumber : Value → Bool
  | number _ => true
  | _ => false

def Value.isTable : Value → Bool
  | table _ => true
  | _ => false

inductive TypeHint
  | any | int | float | bool | str | table
  deriving DecidableEq, Repr

/-- An opcode with the operand bytes that follow it. -/
structure Instr where
  op : OpCode
  args : List UInt8
  deriving DecidableEq, Repr

def Instr.size (i : Instr) : Nat := 1 + i.args.length

def Instr.encode (i : Instr) : Bytes := i.op.code :: i.args

@[simp] theorem Instr.encode_length (i : Instr) : i.encode.length = i.size := by
  simp [encode, size, Nat.add_comm]

theorem Instr.size_pos (i : Instr) : 0 < i.size := by
  unfold size
  omega

/-- The instruction's bytes in program order. -/
def encode (is : List Instr) : Bytes := is.flatMap Instr.encode

def codeSize (is : List Instr) : Nat := (is.map Instr.size).sum

@[simp] theorem encode_nil : encode [] = [] := rfl
@[simp] theorem encode_cons (i : Instr) (is : List Instr) :
    encode (i :: is) = i.encode ++ encode is := rfl
@[simp] theorem encode_append (xs ys : List Instr) :
    encode (xs ++ ys) = encode xs ++ encode ys := by simp [encode]

@[simp] theorem codeSize_nil : codeSize [] = 0 := rfl
@[simp] theorem codeSize_cons (i : Instr) (is : List Instr) :
    codeSize (i :: is) = i.size + codeSize is := by simp [codeSize]
@[simp] theorem codeSize_append (xs ys : List Instr) :
    codeSize (xs ++ ys) = codeSize xs + codeSize ys := by simp [codeSize]

@[simp] theorem encode_length (is : List Instr) : (encode is).length = codeSize is := by
  induction is with
  | nil => rfl
  | cons i is ih => simp [ih]

structure Chunk where
  code : Bytes
  constants : List Value
  deriving DecidableEq, Repr

/-- The byte at an offset, as the C code reads `code[offset]`. -/
def Chunk.byte (c : Chunk) (offset : Nat) : UInt8 := c.code.getD offset 0

def Chunk.bytes (c : Chunk) (offset n : Nat) : List UInt8 :=
  (List.range n).map fun i => c.byte (offset + i)

/-- `(uint16_t)(code[offset] << 8) | code[offset + 1]`. -/
def Chunk.short (c : Chunk) (offset : Nat) : Nat :=
  (c.byte offset).toNat * 256 + (c.byte (offset + 1)).toNat

/-- The two bytes that a jump operand is written as. -/
def shortBytes (n : Nat) : List UInt8 := [UInt8.ofNat (n / 256), UInt8.ofNat n]

end ToiLang
