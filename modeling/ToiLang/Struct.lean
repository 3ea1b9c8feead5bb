import ToiLang.Conversion
import ToiLang.Ctype
import ToiLang.LittleEndian

namespace ToiLang.Struct

/-- What `next_token` gives: the end of the format, an error, or a repeat count and a code. -/
inductive Token
  | done
  | error (message : String)
  | code (rep : Nat) (c : UInt8) (rest : Bytes)

/-- `parse_repeat`; `none` is "Repeat count too large." -/
def parseRepeat (rep : Nat) : Bytes → Option (Nat × Bytes)
  | [] => some (rep, [])
  | c :: s =>
    if 48 ≤ c ∧ c ≤ 57 then
      if 100000000 < rep then none else parseRepeat (rep * 10 + (c.toNat - 48)) s
    else some (rep, c :: s)

def nextToken (fmt : Bytes) : Token :=
  match fmt.dropWhile isSpace with
  | [] => .done
  | c :: s =>
    match parseRepeat 0 (c :: s) with
    | none => .error "Repeat count too large."
    | some (_, []) => .error "Expected format code."
    | some (rep, c :: rest) => .code rep c rest

theorem parseRepeat_length {rep rep' : Nat} {s rest : Bytes} (h : parseRepeat rep s = some (rep', rest)) :
    rest.length ≤ s.length := by
  induction s generalizing rep with
  | nil =>
    cases Option.some.inj h
    exact Nat.le_refl 0
  | cons c s ih =>
    unfold parseRepeat at h
    split_ifs at h
    · have := ih h
      simp only [List.length_cons]
      omega
    · cases Option.some.inj h
      exact Nat.le_refl _

theorem nextToken_length {fmt rest : Bytes} {rep : Nat} {c : UInt8} (h : nextToken fmt = .code rep c rest) :
    rest.length < fmt.length := by
  unfold nextToken at h
  have hdrop := (List.dropWhile_sublist isSpace (l := fmt)).length_le
  split at h
  · cases h
  · next d s hs =>
    rw [hs] at hdrop
    split at h
    · cases h
    · cases h
    · next hrep =>
      have hlen := parseRepeat_length hrep
      cases h
      simp only [List.length_cons] at hlen hdrop
      omega

/-- What the calls of `next_token` give, one after the other. -/
inductive Format
  | done
  | error (message : String)
  | code (rep : Nat) (c : UInt8) (rest : Format)
  deriving DecidableEq

def tokens (fmt : Bytes) : Format :=
  match _h : nextToken fmt with
  | .done => .done
  | .error message => .error message
  | .code rep c rest => .code rep c (tokens rest)
termination_by fmt.length
decreasing_by exact nextToken_length ‹_›

/-- The byte-order mark, and the format behind it. -/
def byteOrder (fmt : Bytes) : Bool × Bytes :=
  match fmt.dropWhile isSpace with
  | 60 :: rest => (true, rest)
  | 62 :: rest => (false, rest)
  | rest => (true, rest)

def parsedFormat (fmt : Bytes) : Format := tokens (byteOrder fmt).2

/-- The codes that take an argument for each repetition. -/
inductive Item
  | int (size : Nat) (minv maxv : Int) (expects : String)
  | uint (size : Nat) (maxv : Nat) (expects : String)
  | float
  | double

def Item.size : Item → Nat
  | int size _ _ _ => size
  | uint size _ _ => size
  | float => 4
  | double => 8

def Item.expects : Item → String
  | int _ _ _ expects => expects
  | uint _ _ expects => expects
  | _ => "number"

def item (code : UInt8) : Option Item :=
  if code = 98 then some (.int 1 (-128) 127 "int8")
  else if code = 66 then some (.uint 1 255 "uint8")
  else if code = 104 then some (.int 2 (-32768) 32767 "int16")
  else if code = 72 then some (.uint 2 65535 "uint16")
  else if code = 105 then some (.int 4 (-2147483648) 2147483647 "int32")
  else if code = 73 then some (.uint 4 4294967295 "uint32")
  else if code = 113 then some (.int 8 (-9223372036854775808) 9223372036854775807 "int64")
  else if code = 81 then some (.uint 8 18446744073709551615 "uint64")
  else if code = 102 then some .float
  else if code = 100 then some .double
  else none

/-- The repetitions that the loops make: no count and a count of zero are one. -/
def repetitions (rep : Nat) : Nat := if 0 < rep then rep else 1

section Pack

variable (C : Conversions) (little : Bool)

def parseIntArg (minv maxv : Int) : Value → Option Int
  | .number x =>
    if ¬x.IsFinite then none
    else if ¬(Double.ofInt64 (C.int64 x)).eq x then none
    else if C.int64 x < minv ∨ maxv < C.int64 x then none
    else some (C.int64 x)
  | _ => none

def parseUintArg (maxv : Nat) : Value → Option Nat
  | .number x =>
    if ¬x.IsFinite ∨ x.lt 0 then none
    else if ¬(Double.ofUint64 (C.uint64 x)).eq x then none
    else if maxv < C.uint64 x then none
    else some (C.uint64 x)
  | _ => none

def writeInt (u size : Nat) : Bytes := if little then leBytes size u else (leBytes size u).reverse

/-- The bytes of an argument; `none` is the error that it is not what the code expects. -/
def packItem (it : Item) (v : Value) : Option Bytes :=
  match it with
  | .int size minv maxv _ =>
    (parseIntArg C minv maxv v).map fun i => writeInt little (i % 256 ^ size).toNat size
  | .uint size maxv _ => (parseUintArg C maxv v).map fun u => writeInt little u size
  | .float =>
    match v with
    | .number x => some (writeInt little x.toSingle.toNat 4)
    | _ => none
  | .double =>
    match v with
    | .number x => some (writeInt little x.toNat 8)
    | _ => none

def codeText (c : UInt8) : String := String.singleton (Char.ofNat c.toNat)

/-- The arguments of one code; the result has the bytes and the arguments that are left. -/
def packItems (c : UInt8) : Nat → List Value → Except String (Bytes × List Value)
  | 0, args => .ok ([], args)
  | _ + 1, [] => .error "struct.pack: not enough arguments."
  | n + 1, v :: args =>
    match item c with
    | none => .error ("struct.pack: unsupported format '" ++ codeText c ++ "'.")
    | some it =>
      match packItem C little it v with
      | none => .error ("struct.pack: '" ++ codeText c ++ "' expects " ++ it.expects ++ ".")
      | some bytes => (packItems c n args).map fun r => (bytes ++ r.1, r.2)

/-- The argument of `s`, cut to the count or filled up with zeros. -/
def padded (count : Nat) (s : Bytes) : Bytes := s.take count ++ List.replicate (count - s.length) 0

def packFormat : Format → List Value → Except String (Bytes × List Value)
  | .done, args => .ok ([], args)
  | .error message, _ => .error ("struct.pack: " ++ message)
  | .code rep c rest, args =>
    let count := repetitions rep
    if c = 120 then (packFormat rest args).map fun r => (List.replicate count 0 ++ r.1, r.2)
    else if c = 115 then
      match args with
      | [] => .error ("struct.pack: missing argument for '" ++ toString count ++ "s'.")
      | .string s :: args => (packFormat rest args).map fun r => (padded count s ++ r.1, r.2)
      | _ :: _ => .error ("struct.pack: '" ++ toString count ++ "s' expects string argument.")
    else
      match packItems C little c count args with
      | .error message => .error message
      | .ok (bytes, args) => (packFormat rest args).map fun r => (bytes ++ r.1, r.2)

end Pack

/-- The largest length of a string: it is an `int`, and the allocation is one byte longer. -/
def maxLength : Nat := 2147483646

/-- `copy_string(out.data, (int)out.len)`; `none` where the length is negative or too large. -/
def copyOut (out : Bytes) : Option Bytes :=
  if out.length % 2 ^ 32 ≤ maxLength then some (out.take (out.length % 2 ^ 32)) else none

/-- `struct.pack` of a format and the arguments behind it; `none` is undefined. -/
def structPack (C : Conversions) (fmt : Bytes) (args : List Value) : Option (Except String Bytes) :=
  match packFormat C (byteOrder fmt).1 (parsedFormat fmt) args with
  | .error message => some (.error message)
  | .ok (out, []) => (copyOut out).map .ok
  | .ok (_, _ :: _) => some (.error "struct.pack: too many arguments.")

section Unpack

variable (little : Bool) (bytes : Bytes)

/-- The bytes that a read touches; `none` where it goes past the end. -/
def readBytes (start n : Nat) : Option Bytes :=
  if start + n ≤ bytes.length then some ((bytes.drop start).take n) else none

def readUint (bs : Bytes) : Nat := if little then leValue bs.length bs else beValue bs

/-- The integer of a size that has these bits. -/
def signed (size u : Nat) : Int := if u < 256 ^ size / 2 then u else u - 256 ^ size

def unpackItem (it : Item) (bs : Bytes) : Value :=
  match it with
  | .int size _ _ _ => .number (Double.ofInt64 (signed size (readUint little bs)))
  | .uint _ _ _ => .number (Double.ofUint64 (readUint little bs))
  | .float => .number (Double.ofSingle (UInt32.ofNat (readUint little bs)))
  | .double => .number (UInt64.ofNat (readUint little bs))

def tooShort : String := "struct.unpack: buffer too short."

/-- The values of one code; the result has them and the place behind their bytes. -/
def unpackItems (c : UInt8) : Nat → Nat → Option (Except String (List Value × Nat))
  | 0, start => some (.ok ([], start))
  | n + 1, start =>
    match item c with
    | none => some (.error ("struct.unpack: unsupported format '" ++ codeText c ++ "'."))
    | some it =>
      if bytes.length < start + it.size then some (.error tooShort)
      else do
        let bs ← readBytes bytes start it.size
        let r ← unpackItems c n (start + it.size)
        pure (r.map fun r => (unpackItem little it bs :: r.1, r.2))

def unpackFormat : Format → Nat → Option (Except String (List Value × Nat))
  | .done, start => some (.ok ([], start))
  | .error message, _ => some (.error ("struct.unpack: " ++ message))
  | .code rep c rest, start =>
    let count := repetitions rep
    if c = 120 then
      if bytes.length < start + count then some (.error tooShort)
      else unpackFormat rest (start + count)
    else if c = 115 then
      if bytes.length < start + count then some (.error tooShort)
      else do
        let s ← readBytes bytes start count
        let r ← unpackFormat rest (start + count)
        pure (r.map fun r => (.string s :: r.1, r.2))
    else do
      match ← unpackItems little bytes c count start with
      | .error message => pure (.error message)
      | .ok (vs, start) =>
        let r ← unpackFormat rest start
        pure (r.map fun r => (vs ++ r.1, r.2))

end Unpack

def startOffset (C : Conversions) (offset : Option Double) : Int := (offset.map C.int).getD 1

/-- `struct.unpack`, without or with an offset; `none` is a read past the end. -/
def structUnpack (C : Conversions) (fmt bytes : Bytes) (offset : Option Double) :
    Option (Except String (List Value)) :=
  if startOffset C offset < 1 then some (.error "struct.unpack: offset must be >= 1.")
  else
    (unpackFormat (byteOrder fmt).1 bytes (parsedFormat fmt) (startOffset C offset - 1).toNat).map fun r =>
      r.map Prod.fst

end ToiLang.Struct
