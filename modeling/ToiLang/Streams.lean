import ToiLang.Conversion
import ToiLang.Modulo
import ToiLang.Strings.Compare

namespace ToiLang

namespace Streams

/-! Memory buffers and files: `io.buffer` and its operations, those of a file over the functions of C's library,
and the bytes with a position that both stand for. -/

/-- What an operation returns: one value, the two of `__next`, or its error; undefined is what C leaves so. -/
inductive Result
  | nil
  | ok
  | self
  | text (s : Bytes)
  | number (x : Double)
  | line (number : Double) (s : Bytes)
  | noLine
  | error (message : String)
  | undefined
  deriving DecidableEq

inductive Whence
  | set
  | cur
  | end
  deriving DecidableEq

/-- The arguments of `seek` behind the file. -/
inductive SeekArgs
  | none
  | whence (s : Bytes)
  | offset (x : Double)
  | both (s : Bytes) (x : Double)

inductive Op
  | write (s : Bytes)
  | read
  | readN (n : Double)
  | readline
  | next (control : Option Double)
  | seek (args : SeekArgs)
  | tell
  | close

/-- `(int)x` and `(long)x` -/
def castInt (C : Conversions) (x : Double) : Int := (C.int x).bmod (2 ^ 32)
def castLong (C : Conversions) (x : Double) : Int := (C.int64 x).bmod (2 ^ 64)

/-- `copy_string(p, (int)n)` of `n` bytes. -/
def copied (s : Bytes) : Result := if s.length < 2 ^ 31 then .text s else .undefined

def copiedLine (number : Double) (s : Bytes) : Result :=
  if s.length < 2 ^ 31 then .line number s else .undefined

/-- The argument of `read(n)`, unless it is an error. -/
def readCount (C : Conversions) (n : Double) : Option Nat :=
  if Double.eq (Double.ofInt64 (castInt C n)) n = false ∨ castInt C n < 0 then none
  else some (castInt C n).toNat

def readCountError : String := "file.read(n) expects non-negative integer n."

/-- `number_to_long_checked` -/
def numberToLongChecked (C : Conversions) (x : Double) (what : String) : Except String Int :=
  if x.lt int64Min || int64Max.lt x then .error (what ++ " is out of range for this platform.")
  else if Double.eq (Double.ofInt64 (castLong C x)) x = false then .error (what ++ " must be an integer.")
  else .ok (castLong C x)

def parseSeekWhence (s : Bytes) : Except String Whence :=
  let whence := beforeZero s
  if whence = ascii "set" ∨ whence = ascii "start" then .ok .set
  else if whence = ascii "cur" ∨ whence = ascii "current" then .ok .cur
  else if whence = ascii "end" then .ok .end
  else .error "file.seek() whence must be 'set', 'cur', or 'end'."

/-- `parse_seek_args`, with what reads an offset. -/
def parseSeekArgsBy (number : Double → Except String Int) : SeekArgs → Except String (Whence × Int)
  | .none => .ok (.set, 0)
  | .whence s =>
    match parseSeekWhence s with
    | .error e => .error e
    | .ok w => .ok (w, 0)
  | .offset x =>
    match number x with
    | .error e => .error e
    | .ok i => .ok (.set, i)
  | .both s x =>
    match parseSeekWhence s with
    | .error e => .error e
    | .ok w =>
      match number x with
      | .error e => .error e
      | .ok i => .ok (w, i)

def parseSeekArgs (C : Conversions) : SeekArgs → Except String (Whence × Int) :=
  parseSeekArgsBy fun x => numberToLongChecked C x "file.seek offset"

/-- The number of the line that `__next` returns; `plusOne` is the addition of 1. -/
def lineNumber (plusOne : Double → Double) : Option Double → Double
  | none => 0x3FF0000000000000
  | some x => plusOne x

/-- Bytes written at a position: they overwrite or extend, and a gap in front of them is zeros. -/
def overwrite (bytes : Bytes) (pos : Nat) (s : Bytes) : Bytes :=
  (bytes ++ List.replicate (pos - bytes.length) 0).take pos ++ s ++ bytes.drop (pos + s.length)

/-- The bytes in front of the next line break. -/
def lineOf (s : Bytes) : Bytes := s.takeWhile (· ≠ 10)

/-! ### Bytes with a position -/

/-- The bytes of a file or a buffer and the position in them; with `append` all is written at the end. -/
structure Stream where
  bytes : Bytes
  pos : Nat
  append : Bool

namespace Stream

def rest (f : Stream) : Bytes := f.bytes.drop f.pos

/-- The position that something is written at. -/
def writePos (f : Stream) : Nat := if f.append then f.bytes.length else f.pos

def write (f : Stream) (s : Bytes) : Stream :=
  if s = [] then f
  else { f with bytes := overwrite f.bytes f.writePos s, pos := f.writePos + s.length }

/-- `n` bytes less to read. -/
def advance (f : Stream) (n : Nat) : Stream := { f with pos := f.pos + n }

/-- The position behind the next line. -/
def skipLine (f : Stream) : Stream :=
  f.advance ((lineOf f.rest).length + if (lineOf f.rest).length < f.rest.length then 1 else 0)

def base (f : Stream) : Whence → Nat
  | .set => 0
  | .cur => f.pos
  | .end => f.bytes.length

/-- The integer that an offset is; one that is none, or that no `long` can be near to, is an error. -/
def exactOffset (x : Double) (what : String) : Except String Int :=
  if x.lt int64Min || int64Max.lt x then .error (what ++ " is out of range for this platform.")
  else if x.IsFinite ∧ x.truncate * Double.scale = x.multiple then .ok x.truncate
  else .error (what ++ " must be an integer.")

def exactSeekArgs : SeekArgs → Except String (Whence × Int) :=
  parseSeekArgsBy fun x => exactOffset x "file.seek offset"

/-- The number of bytes that an argument asks for, if it is an `int`. -/
def exactCount (x : Double) : Option Nat :=
  if x.IsFinite ∧ x.truncate * Double.scale = x.multiple ∧ 0 ≤ x.truncate ∧ x.truncate < 2 ^ 31 then
    some x.truncate.toNat
  else none

def readN (f : Stream) (x : Double) : Option Stream × Result :=
  match exactCount x with
  | none => (some f, .error readCountError)
  | some 0 => (some f, .text [])
  | some n =>
    if f.rest = [] then (some f, .nil) else (some (f.advance (f.rest.take n).length), .text (f.rest.take n))

def seek (f : Stream) (args : SeekArgs) : Option Stream × Result :=
  match exactSeekArgs args with
  | .error e => (some f, .error e)
  | .ok (w, i) =>
    if (f.base w : Int) + i < 0 then (some f, .nil)
    else (some { f with pos := (f.base w + i).toNat }, .number (Double.ofUint64 (f.base w + i).toNat))

/-- An operation on bytes with a position. -/
def exec (plusOne : Double → Double) (f : Stream) : Op → Option Stream × Result
  | .write s => (some (f.write s), .self)
  | .read => if f.rest = [] then (some f, .nil) else (some (f.advance f.rest.length), .text f.rest)
  | .readN x => f.readN x
  | .readline => if f.rest = [] then (some f, .nil) else (some f.skipLine, .text (lineOf f.rest))
  | .next control =>
    if f.rest = [] then (some f, .noLine)
    else (some f.skipLine, .line (lineNumber plusOne control) (lineOf f.rest))
  | .seek args => f.seek args
  | .tell => (some f, .number (Double.ofUint64 f.pos))
  | .close => (none, .ok)

end Stream

/-- The results of what is closed. -/
def closedResult : Op → Result
  | .next _ => .noLine
  | .close => .ok
  | _ => .nil

/-- The operations on bytes with a position, until they are closed. -/
def referenceExec (plusOne : Double → Double) (op : Op) : Option Stream → Option Stream × Result
  | none => (none, closedResult op)
  | some f => f.exec plusOne op

/-! ### `io.buffer` -/

inductive Mode
  | r
  | w
  | a
  deriving DecidableEq

/-- `parse_buffer_mode` -/
def parseBufferMode : Bytes → Option Mode
  | 114 :: _ => some .r
  | 119 :: _ => some .w
  | 97 :: _ => some .a
  | _ => none

/-- `BufferData`, with `len` the length of `data`. -/
structure BufferData where
  data : Bytes
  cap : Nat
  pos : Nat
  appendMode : Bool
  closed : Bool

/-- The loop of `buffer_ensure_capacity`; 64 turns are enough. -/
def growLoop (needed : Nat) : Nat → Nat → Nat
  | 0, cap => cap
  | fuel + 1, cap =>
    if cap < needed then
      if cap > (2 ^ 64 - 1) / 2 then needed else growLoop needed fuel (cap * 2)
    else cap

def newCapacity (cap needed : Nat) : Nat := growLoop needed 64 (if cap = 0 then 32 else cap)

/-- `buffer_ensure_capacity`, with the sizes that `realloc` has memory for. -/
def BufferData.ensureCapacity (grows : Nat → Bool) (b : BufferData) (needed : Nat) : Option BufferData :=
  if needed ≤ b.cap then some b
  else if grows (newCapacity b.cap needed) then some { b with cap := newCapacity b.cap needed }
  else none

/-- `io.buffer(initial, mode)` -/
def ioBuffer (grows : Nat → Bool) (initial mode : Bytes) : Except String BufferData :=
  match parseBufferMode mode with
  | none => .error "io.buffer() mode must start with 'r', 'w', or 'a'."
  | some mode =>
    let empty : BufferData := ⟨[], 0, 0, mode = .a, false⟩
    if mode ≠ .w ∧ 0 < initial.length then
      match empty.ensureCapacity grows initial.length with
      | none => .error "Out of memory in io.buffer()."
      | some b => .ok { b with data := initial, pos := if mode = .a then initial.length else 0 }
    else .ok empty

def BufferData.rest (b : BufferData) : Bytes := b.data.drop b.pos

/-- `buffer_read` -/
def bufferRead (b : BufferData) : BufferData × Result :=
  if b.pos ≥ b.data.length then (b, .nil) else ({ b with pos := b.data.length }, copied b.rest)

def bufferReadN (C : Conversions) (b : BufferData) (x : Double) : BufferData × Result :=
  match readCount C x with
  | none => (b, .error readCountError)
  | some nbytes =>
    if nbytes = 0 then (b, .text [])
    else if b.pos ≥ b.data.length then (b, .nil)
    else
      let remaining := b.data.length - b.pos
      let n := if nbytes > remaining then remaining else nbytes
      ({ b with pos := b.pos + n }, copied (b.rest.take n))

/-- The loop `while (end < len && data[end] != '\\n') end++`, as the number of its turns. -/
def scanLine : Bytes → Nat
  | [] => 0
  | c :: s => if c = 10 then 0 else scanLine s + 1

/-- The position behind the line break, if there is one at `end`. -/
def behindBreak (data : Bytes) (last : Nat) : Nat :=
  if last < data.length ∧ data[last]? = some 10 then last + 1 else last

def bufferReadline (b : BufferData) : BufferData × Result :=
  if b.pos ≥ b.data.length then (b, .nil)
  else
    let last := b.pos + scanLine b.rest
    ({ b with pos := behindBreak b.data last }, copied (b.rest.take (last - b.pos)))

def bufferNext (plusOne : Double → Double) (b : BufferData) (control : Option Double) : BufferData × Result :=
  if b.pos ≥ b.data.length then (b, .noLine)
  else
    let last := b.pos + scanLine b.rest
    ({ b with pos := behindBreak b.data last },
      copiedLine (lineNumber plusOne control) (b.rest.take (last - b.pos)))

/-- `buffer_write`; the sum is a `size_t`. -/
def bufferWrite (grows : Nat → Bool) (b : BufferData) (s : Bytes) : BufferData × Result :=
  if s.length = 0 then (b, .self)
  else
    let b := if b.appendMode then { b with pos := b.data.length } else b
    let endPos := (b.pos + s.length) % 2 ^ 64
    match b.ensureCapacity grows endPos with
    | none => (b, .error "Out of memory in file.write().")
    | some b =>
      let data := if b.pos > b.data.length then b.data ++ List.replicate (b.pos - b.data.length) 0 else b.data
      if b.pos + s.length ≤ b.cap then
        ({ b with data := data.take b.pos ++ s ++ data.drop (b.pos + s.length), pos := endPos }, .self)
      else (b, .undefined)

/-- A `long long`, where it does not overflow. -/
def longLong (i : Int) : Option Int := if -2 ^ 63 ≤ i ∧ i < 2 ^ 63 then some i else none

/-- The `long long` that a seek starts from. -/
def BufferData.base (b : BufferData) : Whence → Int
  | .set => 0
  | .cur => (b.pos : Int).bmod (2 ^ 64)
  | .end => (b.data.length : Int).bmod (2 ^ 64)

/-- `buffer_seek` -/
def bufferSeek (C : Conversions) (b : BufferData) (args : SeekArgs) : BufferData × Result :=
  match parseSeekArgs C args with
  | .error e => (b, .error e)
  | .ok (w, offset) =>
    match longLong (b.base w + offset) with
    | none => (b, .undefined)
    | some target =>
      if target < 0 then (b, .nil)
      else ({ b with pos := target.toNat }, .number (Double.ofUint64 target.toNat))

/-- The operations of a buffer. -/
def bufferExec (C : Conversions) (plusOne : Double → Double) (grows : Nat → Bool) (op : Op) (b : BufferData) :
    BufferData × Result :=
  match op with
  | .close => ({ b with closed := true, pos := 0 }, .ok)
  | op =>
    if b.closed then (b, closedResult op)
    else
      match op with
      | .write s => bufferWrite grows b s
      | .read => bufferRead b
      | .readN x => bufferReadN C b x
      | .readline => bufferReadline b
      | .next control => bufferNext plusOne b control
      | .seek args => bufferSeek C b args
      | .tell => (b, .number (Double.ofUint64 b.pos))
      | .close => (b, .ok)

/-! ### Files -/

/-- A file with some bytes opened for reading and writing; where `start` is the first position of one that is opened
for appending. -/
def fopen (start : Nat) (initial : Bytes) : Mode → Stream
  | .r => ⟨initial, 0, false⟩
  | .w => ⟨[], 0, false⟩
  | .a => ⟨initial, start, true⟩

/-- `fread` of at most `n` bytes. -/
def fread (f : Stream) (n : Nat) : Stream × Bytes := (f.advance (f.rest.take n).length, f.rest.take n)

/-- `fputs`: a C string ends at its first zero byte. What would end behind the largest offset is not written. -/
def fputs (f : Stream) (s : Bytes) : Stream :=
  if f.writePos + (beforeZero s).length < 2 ^ 63 then f.write (beforeZero s) else f

/-- `fseek`, which fails where the position is negative or no `long`. -/
def fseek (f : Stream) (offset : Int) (w : Whence) : Option Stream :=
  if 0 ≤ (f.base w : Int) + offset ∧ (f.base w : Int) + offset < 2 ^ 63 then
    some { f with pos := (f.base w + offset).toNat }
  else none

/-- The loop of `file_read`, with the bytes that have been read; `fuel` is more than the pieces there are. -/
def readLoop : Nat → Stream → Bytes → Stream × Bytes
  | 0, f, buffer => (f, buffer)
  | fuel + 1, f, buffer =>
    let (f, piece) := fread f 4096
    if piece.length < 4096 then (f, buffer ++ piece) else readLoop fuel f (buffer ++ piece)

def fileRead (f : Stream) : Stream × Result :=
  let (f, buffer) := readLoop (f.rest.length + 1) f []
  if buffer.length = 0 then (f, .nil) else (f, copied buffer)

def fileReadN (C : Conversions) (f : Stream) (x : Double) : Stream × Result :=
  match readCount C x with
  | none => (f, .error readCountError)
  | some nbytes =>
    if nbytes = 0 then (f, .text [])
    else
      let (f, buffer) := fread f nbytes
      if buffer.length = 0 then (f, .nil) else (f, copied buffer)

/-- The loop over `fgetc` on what is left to read: the line, the bytes that were read, and whether the end was met. -/
def fgetcLoop : Bytes → Bytes → Nat → Bytes × Nat × Bool
  | [], buffer, n => (buffer, n, true)
  | c :: s, buffer, n => if c = 10 then (buffer, n + 1, false) else fgetcLoop s (buffer ++ [c]) (n + 1)

def fileReadline (f : Stream) : Stream × Result :=
  let (buffer, n, eof) := fgetcLoop f.rest [] 0
  if eof && buffer.length = 0 then (f.advance n, .nil) else (f.advance n, copied buffer)

def fileNext (plusOne : Double → Double) (f : Stream) (control : Option Double) : Stream × Result :=
  let (buffer, n, eof) := fgetcLoop f.rest [] 0
  if eof && buffer.length = 0 then (f.advance n, .noLine)
  else (f.advance n, copiedLine (lineNumber plusOne control) buffer)

def fileSeek (C : Conversions) (f : Stream) (args : SeekArgs) : Stream × Result :=
  match parseSeekArgs C args with
  | .error e => (f, .error e)
  | .ok (w, offset) =>
    match fseek f offset w with
    | none => (f, .nil)
    | some f => (f, .number (Double.ofInt64 f.pos))

/-- The operations of an open file. -/
def fileOpen (C : Conversions) (plusOne : Double → Double) (f : Stream) : Op → Option Stream × Result
  | .write s => (some (fputs f s), .self)
  | .read => let (f, r) := fileRead f; (some f, r)
  | .readN x => let (f, r) := fileReadN C f x; (some f, r)
  | .readline => let (f, r) := fileReadline f; (some f, r)
  | .next control => let (f, r) := fileNext plusOne f control; (some f, r)
  | .seek args => let (f, r) := fileSeek C f args; (some f, r)
  | .tell => (some f, .number (Double.ofInt64 f.pos))
  | .close => (none, .ok)

def fileExec (C : Conversions) (plusOne : Double → Double) (op : Op) : Option Stream → Option Stream × Result
  | none => (none, closedResult op)
  | some f => fileOpen C plusOne f op

/-! ### Agreement -/

/-- What a buffer stands for. -/
def BufferData.view (b : BufferData) : Option Stream :=
  if b.closed then none else some ⟨b.data, b.pos, b.appendMode⟩

/-- What is in a buffer is in its memory, and all sizes are those of a `long long`. -/
structure BufferData.Sound (b : BufferData) : Prop where
  room : b.data.length ≤ b.cap
  capacity : b.cap < 2 ^ 63
  position : b.pos < 2 ^ 63

/-- The buffer and the file stand for the same bytes and position. -/
structure Agree (b : BufferData) (f r : Option Stream) : Prop extends b.Sound where
  buffer : b.view = r
  file : f = r

/-- When an operation is right: what is written has no zero byte and finds room, no string that is read is too long
for an `int`, and no position is sought that no `long` is. -/
def Op.Clear (grows : Nat → Bool) (b : BufferData) (f : Stream) : Op → Prop
  | .write s => 0 ∉ s ∧ (s = [] ∨ f.writePos + s.length ≤ b.cap ∨
      grows (newCapacity b.cap (f.writePos + s.length)) = true)
  | .read => f.rest.length < 2 ^ 31
  | .readline | .next _ => (lineOf f.rest).length < 2 ^ 31
  | .seek args => ∀ w i, Stream.exactSeekArgs args = .ok (w, i) → (f.base w : Int) + i < 2 ^ 63
  | _ => True

/-- A string is no longer than an `int`. -/
def Op.Valid : Op → Prop
  | .write s => s.length < 2 ^ 31
  | _ => True

section

variable {C : Conversions} {plusOne : Double → Double} {grows : Nat → Bool}

theorem castInt_bounds (x : Double) : -2 ^ 31 ≤ castInt C x ∧ castInt C x < 2 ^ 31 := by
  have hlow := Int.le_bmod (x := C.int x) (m := 2 ^ 32) (by decide)
  have hhigh := Int.bmod_lt (x := C.int x) (m := 2 ^ 32) (by decide)
  unfold castInt
  omega

theorem castLong_bounds (x : Double) : -2 ^ 63 ≤ castLong C x ∧ castLong C x < 2 ^ 63 := by
  have hlow := Int.le_bmod (x := C.int64 x) (m := 2 ^ 64) (by decide)
  have hhigh := Int.bmod_lt (x := C.int64 x) (m := 2 ^ 64) (by decide)
  unfold castLong
  omega

theorem castInt_eq {x : Double} (hf : x.IsFinite) (hlow : -2 ^ 31 ≤ x.truncate) (hhigh : x.truncate < 2 ^ 31) :
    castInt C x = x.truncate := by
  unfold castInt Conversions.int
  rw [if_pos ⟨hf, hlow, hhigh⟩]
  exact Int.bmod_eq_of_le (by omega) (by omega)

theorem castLong_eq {x : Double} (hf : x.IsFinite) (hlow : -2 ^ 63 ≤ x.truncate) (hhigh : x.truncate < 2 ^ 63) :
    castLong C x = x.truncate := by
  unfold castLong Conversions.int64
  rw [if_pos ⟨hf, hlow, hhigh⟩]
  exact Int.bmod_eq_of_le (by omega) (by omega)

theorem finite_of_eq {x y : Double} (hy : y.IsFinite) (h : Double.eq y x = true) : x.IsFinite := by
  unfold Double.eq at h
  simp only [Bool.and_eq_true, Bool.not_eq_true', decide_eq_true_eq] at h
  obtain ⟨⟨-, hnan⟩, horder⟩ := h
  unfold Double.isNaN at hnan
  have hle := of_decide_eq_false hnan
  have hfin := hy
  unfold Double.IsFinite Double.exponent at hfin ⊢
  have hbits : x.toNat % 2 ^ 63 = y.toNat % 2 ^ 63 := by
    unfold Double.order at horder
    split at horder <;> split at horder <;> omega
  omega

/-- A number equals an integer that is a number just when it is that integer. -/
theorem eq_ofInt64_iff {x : Double} {i : Int} (hi : Double.Fits i.natAbs) (hlow : -2 ^ 63 ≤ i) (hhigh : i < 2 ^ 63) :
    Double.eq (Double.ofInt64 i) x = true ↔ x.IsFinite ∧ x.multiple = i * Double.scale := by
  have hlog := log2_lt_of_int64 hlow hhigh.le
  have hfin := (Double.ofInt64_spec hi hlog).1
  constructor
  · intro h
    have hx := finite_of_eq hfin h
    rw [Double.eq_iff_multiple hfin hx, Double.multiple_ofInt64 hi hlog] at h
    exact ⟨hx, h.symm⟩
  · rintro ⟨hx, hm⟩
    rw [Double.eq_iff_multiple hfin hx, Double.multiple_ofInt64 hi hlog, hm]

theorem fits_small {i : Int} (hlow : -2 ^ 31 ≤ i) (hhigh : i < 2 ^ 31) : Double.Fits i.natAbs :=
  ⟨0, one_dvd _, by omega⟩

theorem fits_truncate (x : Double) : Double.Fits x.truncate.natAbs := by
  refine Double.fits_integer x ?_
  rw [Double.truncate_eq, Int.natAbs_tdiv, Double.natAbs_multiple, Int.natAbs_natCast]
  rfl

theorem truncate_of_multiple {x : Double} {i : Int} (h : x.multiple = i * Double.scale) : x.truncate = i := by
  rw [Double.truncate_eq, h, Int.mul_tdiv_cancel _ scale_ne_zero]

/-- The argument of `read` is the number of bytes that it says. -/
theorem readCount_eq (x : Double) : readCount C x = Stream.exactCount x := by
  obtain ⟨hlow, hhigh⟩ := castInt_bounds (C := C) x
  have heq := eq_ofInt64_iff (x := x) (fits_small hlow hhigh) (by omega) (by omega)
  unfold readCount Stream.exactCount
  by_cases h : x.IsFinite ∧ x.truncate * Double.scale = x.multiple ∧ 0 ≤ x.truncate ∧ x.truncate < 2 ^ 31
  · obtain ⟨hf, hm, h0, hlt⟩ := h
    have hcast : castInt C x = x.truncate := castInt_eq hf (by omega) hlt
    have htrue := heq.mpr ⟨hf, by rw [hcast, hm]⟩
    rw [if_neg (by rw [htrue, hcast]; simp only [Bool.true_eq_false, false_or]; omega), hcast,
      if_pos ⟨hf, hm, h0, hlt⟩]
  · rw [if_neg h]
    refine if_pos ?_
    by_contra hno
    rw [not_or, Bool.not_eq_false, Int.not_lt] at hno
    obtain ⟨hf, hm⟩ := heq.mp hno.1
    have ht := truncate_of_multiple hm
    exact h ⟨hf, by rw [ht, hm], by omega, by omega⟩

/-- An infinity is out of range. -/
theorem finite_of_inRange {x : Double} (hnan : x.isNaN = false)
    (hrange : ¬ (x.lt int64Min = true ∨ int64Max.lt x = true)) : x.IsFinite := by
  intro he
  have hle := of_decide_eq_false hnan
  have hbits : x.toNat % 2 ^ 63 = 0x7FF0000000000000 := by
    unfold Double.exponent at he
    omega
  have hmin : int64Min.order = -0x43E0000000000000 := by decide
  have hmax : int64Max.order = 0x43E0000000000000 := by decide
  refine hrange ?_
  unfold Double.lt
  rw [hnan, hmin, hmax, show int64Min.isNaN = false by decide, show int64Max.isNaN = false by decide]
  simp only [Bool.not_false, Bool.true_and, decide_eq_true_eq]
  unfold Double.order
  split
  · rw [hbits]
    exact Or.inl (by decide)
  · rw [hbits]
    exact Or.inr (by decide)

/-- What `number_to_long_checked` makes of an offset that is an integer. -/
theorem numberToLongChecked_cases (x : Double) (what : String) :
    (∃ e, Stream.exactOffset x what = .error e ∧ numberToLongChecked C x what = .error e) ∨
    (∃ i, (-2 ^ 63 ≤ i ∧ i < 2 ^ 63) ∧ Stream.exactOffset x what = .ok i ∧ numberToLongChecked C x what = .ok i) ∨
    (Stream.exactOffset x what = .ok (2 ^ 63) ∧
      ∀ i, numberToLongChecked C x what = .ok i → -2 ^ 63 ≤ i ∧ i < 2 ^ 63) := by
  unfold Stream.exactOffset numberToLongChecked
  by_cases hrange : x.lt int64Min = true ∨ int64Max.lt x = true
  · have hor : (x.lt int64Min || int64Max.lt x) = true := by simpa using hrange
    exact Or.inl ⟨_, if_pos hor, if_pos hor⟩
  · have hor : ¬ (x.lt int64Min || int64Max.lt x) = true := by simpa using hrange
    rw [if_neg hor, if_neg hor]
    by_cases hnan : x.isNaN = true
    · have hinf : ¬ x.IsFinite := fun hf => by
        rw [Double.isNaN_of_finite hf] at hnan
        exact Bool.noConfusion hnan
      have hfalse : Double.eq (Double.ofInt64 (castLong C x)) x = false := by
        unfold Double.eq
        rw [hnan, Bool.not_true, Bool.and_false, Bool.false_and]
      exact Or.inl ⟨_, if_neg fun h => hinf h.1, if_pos hfalse⟩
    · have hf := finite_of_inRange (Bool.eq_false_iff.mpr hnan) hrange
      rw [Double.lt_iff_multiple hf int64Min_finite, Double.lt_iff_multiple int64Max_finite hf, multiple_int64Min,
        multiple_int64Max] at hrange
      obtain ⟨hlow, hhigh, hequal⟩ := tdiv_bounds Double.scale_pos (Double.truncate_eq x) (by omega) (by omega)
      by_cases ht : x.truncate = 2 ^ 63
      · refine Or.inr (Or.inr ⟨?_, fun i h => ?_⟩)
        · rw [if_pos ⟨hf, by rw [ht, hequal.mp ht]⟩, ht]
        · split at h
          · cases h
          · cases h
            exact castLong_bounds x
      · have hcast : castLong C x = x.truncate := castLong_eq hf hlow (by omega)
        have heq := eq_ofInt64_iff (x := x) (fits_truncate x) hlow (by omega)
        rw [hcast]
        by_cases hint : x.truncate * Double.scale = x.multiple
        · have htrue := heq.mpr ⟨hf, hint.symm⟩
          exact Or.inr (Or.inl ⟨x.truncate, ⟨hlow, by omega⟩, if_pos ⟨hf, hint⟩, if_neg (by rw [htrue]; decide)⟩)
        · refine Or.inl ⟨_, if_neg fun h => hint h.2, if_pos ?_⟩
          exact Bool.eq_false_iff.mpr fun h => hint (heq.mp h).2.symm

/-- The arguments of `seek` are read alike, but for 2 to the power of 63. -/
theorem parseSeekArgs_cases (args : SeekArgs) :
    (∃ e, Stream.exactSeekArgs args = .error e ∧ parseSeekArgs C args = .error e) ∨
    (∃ w i, (-2 ^ 63 ≤ i ∧ i < 2 ^ 63) ∧ Stream.exactSeekArgs args = .ok (w, i) ∧
      parseSeekArgs C args = .ok (w, i)) ∨
    (∃ w, Stream.exactSeekArgs args = .ok (w, 2 ^ 63) ∧
      ∀ w' i, parseSeekArgs C args = .ok (w', i) → w' = w ∧ -2 ^ 63 ≤ i ∧ i < 2 ^ 63) := by
  have hnumber (x : Double) := numberToLongChecked_cases (C := C) x "file.seek offset"
  unfold Stream.exactSeekArgs parseSeekArgs
  cases args with
  | none => exact Or.inr (Or.inl ⟨.set, 0, by decide, rfl, rfl⟩)
  | whence s =>
    simp only [parseSeekArgsBy]
    cases parseSeekWhence s with
    | error e => exact Or.inl ⟨e, rfl, rfl⟩
    | ok w => exact Or.inr (Or.inl ⟨w, 0, by decide, rfl, rfl⟩)
  | offset x =>
    simp only [parseSeekArgsBy]
    rcases hnumber x with ⟨e, hr, hc⟩ | ⟨i, hi, hr, hc⟩ | ⟨hr, hc⟩
    · rw [hr, hc]
      exact Or.inl ⟨e, rfl, rfl⟩
    · rw [hr, hc]
      exact Or.inr (Or.inl ⟨.set, i, hi, rfl, rfl⟩)
    · rw [hr]
      refine Or.inr (Or.inr ⟨.set, rfl, fun w' i h => ?_⟩)
      cases hn : numberToLongChecked C x "file.seek offset" <;> rw [hn] at h <;> cases h
      exact ⟨rfl, hc i hn⟩
  | both s x =>
    simp only [parseSeekArgsBy]
    cases parseSeekWhence s with
    | error e => exact Or.inl ⟨e, rfl, rfl⟩
    | ok w =>
      rcases hnumber x with ⟨e, hr, hc⟩ | ⟨i, hi, hr, hc⟩ | ⟨hr, hc⟩
      · simp only [hr, hc]
        exact Or.inl ⟨e, rfl, rfl⟩
      · simp only [hr, hc]
        exact Or.inr (Or.inl ⟨w, i, hi, rfl, rfl⟩)
      · simp only [hr]
        refine Or.inr (Or.inr ⟨w, rfl, fun w' i h => ?_⟩)
        cases hn : numberToLongChecked C x "file.seek offset" <;> simp only [hn] at h <;> cases h
        exact ⟨rfl, hc i hn⟩

/-! The loops. -/

theorem growLoop_ge {needed : Nat} (fuel cap : Nat) (h : needed < cap * 2 ^ fuel) :
    needed ≤ growLoop needed fuel cap := by
  induction fuel generalizing cap with
  | zero =>
    rw [Nat.pow_zero, Nat.mul_one] at h
    exact h.le
  | succ fuel ih =>
    unfold growLoop
    split
    · split
      · exact Nat.le_refl _
      · refine ih (cap * 2) ?_
        rwa [Nat.mul_assoc, ← Nat.pow_succ']
    · omega

theorem newCapacity_ge {cap needed : Nat} (h : needed < 2 ^ 64) : needed ≤ newCapacity cap needed := by
  refine growLoop_ge 64 _ ?_
  have hone : 1 ≤ if cap = 0 then 32 else cap := by split <;> omega
  have hmul := Nat.mul_le_mul_right (2 ^ 64) hone
  omega

theorem scanLine_eq (s : Bytes) : scanLine s = (lineOf s).length := by
  induction s with
  | nil => rfl
  | cons c s ih =>
    unfold scanLine lineOf
    by_cases hc : c = 10
    · rw [if_pos hc, List.takeWhile_cons_of_neg (by simp [hc])]
      rfl
    · rw [if_neg hc, List.takeWhile_cons_of_pos (by simp [hc]), List.length_cons, ih]
      rfl

theorem lineOf_length_le (s : Bytes) : (lineOf s).length ≤ s.length := (List.takeWhile_sublist _).length_le

theorem take_lineOf (s : Bytes) : s.take (lineOf s).length = lineOf s := by
  have h := List.takeWhile_prefix (l := s) (fun c => decide (c ≠ 10))
  exact (List.prefix_iff_eq_take.mp h).symm

/-- Behind a line that is not the last one there is a line break. -/
theorem getElem?_lineOf {s : Bytes} (h : (lineOf s).length < s.length) : s[(lineOf s).length]? = some 10 := by
  induction s with
  | nil => exact absurd h (by decide)
  | cons c s ih =>
    by_cases hc : c = 10
    · have hnil : lineOf (c :: s) = [] := List.takeWhile_cons_of_neg (by simp [hc])
      rw [hnil, hc]
      rfl
    · have hcons : lineOf (c :: s) = c :: lineOf s := List.takeWhile_cons_of_pos (by simp [hc])
      rw [hcons] at h ⊢
      exact ih (by simpa using h)

theorem fgetcLoop_eq (s buffer : Bytes) (n : Nat) :
    fgetcLoop s buffer n = (buffer ++ lineOf s,
      n + (lineOf s).length + (if (lineOf s).length < s.length then 1 else 0),
      decide (¬ (lineOf s).length < s.length)) := by
  induction s generalizing buffer n with
  | nil => simp [fgetcLoop, lineOf]
  | cons c s ih =>
    unfold fgetcLoop
    by_cases hc : c = 10
    · have hnil : lineOf (c :: s) = [] := List.takeWhile_cons_of_neg (by simp [hc])
      rw [if_pos hc, hnil]
      simp
    · have hcons : lineOf (c :: s) = c :: lineOf s := List.takeWhile_cons_of_pos (by simp [hc])
      rw [if_neg hc, ih, hcons]
      simp only [List.append_assoc, List.singleton_append, List.length_cons, Nat.add_lt_add_iff_right]
      congr 2
      omega

theorem Stream.rest_advance (f : Stream) (n : Nat) : (f.advance n).rest = f.rest.drop n := by
  unfold Stream.rest Stream.advance
  rw [List.drop_drop]

theorem Stream.advance_advance (f : Stream) (m n : Nat) : (f.advance m).advance n = f.advance (m + n) := by
  unfold Stream.advance
  rw [Nat.add_assoc]

theorem readLoop_eq (fuel : Nat) (f : Stream) (buffer : Bytes) (h : f.rest.length < fuel) :
    readLoop fuel f buffer = (f.advance f.rest.length, buffer ++ f.rest) := by
  induction fuel generalizing f buffer with
  | zero => exact absurd h (Nat.not_lt_zero _)
  | succ fuel ih =>
    unfold readLoop fread
    dsimp only
    split
    next hlt =>
      have htake : f.rest.take 4096 = f.rest := by
        rw [List.length_take] at hlt
        exact List.take_of_length_le (by omega)
      rw [htake]
    next hge =>
      rw [List.length_take] at hge
      have hlen : (f.rest.take 4096).length = 4096 := by
        rw [List.length_take]
        omega
      have hrest := f.rest_advance 4096
      have hsum : 4096 + (f.rest.length - 4096) = f.rest.length := by omega
      rw [hlen, ih (f.advance 4096) _ (by rw [hrest, List.length_drop]; omega), hrest, List.append_assoc,
        List.take_append_drop, List.length_drop, Stream.advance_advance, hsum]

/-! One operation after the other. -/

theorem rest_eq_nil_iff {b : BufferData} {f : Stream} (hb : b.data = f.bytes) (hp : b.pos = f.pos) : b.pos ≥ b.data.length ↔ f.rest = [] := by
  rw [Stream.rest, List.drop_eq_nil_iff, hb, hp]

theorem view_open {b : BufferData} {f : Stream} (h : b.view = some f) :
    b.closed = false ∧ b.data = f.bytes ∧ b.pos = f.pos ∧ b.appendMode = f.append := by
  unfold BufferData.view at h
  split at h
  next => cases h
  next hc =>
    cases h
    exact ⟨Bool.eq_false_iff.mpr hc, rfl, rfl, rfl⟩

theorem view_of_open {b : BufferData} (h : b.closed = false) : b.view = some ⟨b.data, b.pos, b.appendMode⟩ := by
  unfold BufferData.view
  rw [h]
  rfl

theorem fileRead_eq (f : Stream) :
    fileRead f = if f.rest = [] then (f, .nil) else (f.advance f.rest.length, copied f.rest) := by
  unfold fileRead
  rw [readLoop_eq _ _ _ (Nat.lt_succ_self _)]
  simp only [List.nil_append, List.length_eq_zero_iff]
  split
  next h => rw [h]; rfl
  next => rfl

theorem skipLine_eq (f : Stream) :
    f.advance (0 + (lineOf f.rest).length + if (lineOf f.rest).length < f.rest.length then 1 else 0) = f.skipLine := by
  rw [Nat.zero_add]
  rfl

theorem lineOf_eof {s : Bytes} :
    (decide (¬ (lineOf s).length < s.length) && decide ((lineOf s).length = 0)) = decide (s = []) := by
  cases s with
  | nil => rfl
  | cons c s =>
    rw [decide_eq_false (List.cons_ne_nil c s), ← Bool.decide_and]
    refine decide_eq_false ?_
    rintro ⟨h₁, h₂⟩
    rw [h₂] at h₁
    exact h₁ (Nat.succ_pos _)

theorem fileReadline_eq (f : Stream) :
    fileReadline f = if f.rest = [] then (f, .nil) else (f.skipLine, copied (lineOf f.rest)) := by
  unfold fileReadline
  rw [fgetcLoop_eq]
  simp only [List.nil_append, skipLine_eq, lineOf_eof, decide_eq_true_eq]
  split
  next h =>
    rw [← skipLine_eq, h]
    rfl
  next => rfl

theorem fileNext_eq (f : Stream) (control : Option Double) :
    fileNext plusOne f control = if f.rest = [] then (f, .noLine)
      else (f.skipLine, copiedLine (lineNumber plusOne control) (lineOf f.rest)) := by
  unfold fileNext
  rw [fgetcLoop_eq]
  simp only [List.nil_append, skipLine_eq, lineOf_eof, decide_eq_true_eq]
  split
  next h =>
    rw [← skipLine_eq, h]
    rfl
  next => rfl

theorem fileReadN_eq (f : Stream) (x : Double) :
    fileReadN C f x =
      match Stream.exactCount x with
      | none => (f, .error readCountError)
      | some 0 => (f, .text [])
      | some n =>
        if f.rest = [] then (f, .nil) else (f.advance (f.rest.take n).length, copied (f.rest.take n)) := by
  unfold fileReadN
  rw [readCount_eq]
  cases Stream.exactCount x with
  | none => rfl
  | some n =>
    cases n with
    | zero => rfl
    | succ n =>
      dsimp only
      rw [if_neg (Nat.succ_ne_zero n)]
      simp only [fread, List.length_eq_zero_iff, List.take_eq_nil_iff, Nat.succ_ne_zero, false_or]
      split
      next hr =>
        rw [hr]
        rfl
      next => rfl

theorem bufferReadN_eq {b : BufferData} {f : Stream} (hb : b.data = f.bytes) (hp : b.pos = f.pos) (x : Double) :
    bufferReadN C b x =
      match Stream.exactCount x with
      | none => (b, .error readCountError)
      | some 0 => (b, .text [])
      | some n =>
        if f.rest = [] then (b, .nil)
        else ({ b with pos := f.pos + (f.rest.take n).length }, copied (f.rest.take n)) := by
  have hrest : b.rest = f.rest := by
    unfold BufferData.rest Stream.rest
    rw [hb, hp]
  have hlen : f.rest.length = b.data.length - b.pos := by
    unfold Stream.rest
    rw [List.length_drop, hb, hp]
  unfold bufferReadN
  rw [readCount_eq]
  cases Stream.exactCount x with
  | none => rfl
  | some n =>
    cases n with
    | zero => rfl
    | succ n =>
      dsimp only
      rw [if_neg (Nat.succ_ne_zero n)]
      simp only [rest_eq_nil_iff hb hp]
      split
      next => rfl
      next =>
        have htake : f.rest.take (if n + 1 > b.data.length - b.pos then b.data.length - b.pos else n + 1) =
            f.rest.take (n + 1) := by
          split
          · rw [List.take_of_length_le (by omega), List.take_of_length_le (by omega)]
          · rfl
        have hmin : (if n + 1 > b.data.length - b.pos then b.data.length - b.pos else n + 1) =
            (f.rest.take (n + 1)).length := by
          rw [List.length_take]
          split <;> omega
        rw [hrest, htake, hmin, hp]

/-- The line and the position behind it, as the buffer finds them. -/
theorem bufferLine_eq {b : BufferData} {f : Stream} (hb : b.data = f.bytes) (hp : b.pos = f.pos) :
    b.rest.take (b.pos + scanLine b.rest - b.pos) = lineOf f.rest ∧
      behindBreak b.data (b.pos + scanLine b.rest) = f.skipLine.pos := by
  have hrest : b.rest = f.rest := by
    unfold BufferData.rest Stream.rest
    rw [hb, hp]
  rw [scanLine_eq, hrest, Nat.add_sub_cancel_left, take_lineOf]
  refine ⟨rfl, ?_⟩
  unfold behindBreak Stream.skipLine Stream.advance
  have hle := lineOf_length_le f.rest
  have hlen : f.rest.length = f.bytes.length - f.pos := List.length_drop
  rw [hb, hp]
  by_cases hlt : (lineOf f.rest).length < f.rest.length
  · have hget := getElem?_lineOf hlt
    rw [Stream.rest, List.getElem?_drop, ← Stream.rest] at hget
    rw [if_pos ⟨by omega, hget⟩, if_pos hlt]
    rfl
  · rw [if_neg hlt]
    refine if_neg fun h => ?_
    omega

theorem copied_eq_iff {s : Bytes} : copied s = .text s ↔ s.length < 2 ^ 31 := by
  unfold copied
  split
  next h => exact ⟨fun _ => h, fun _ => rfl⟩
  next h => exact ⟨fun he => Result.noConfusion he, fun hs => absurd hs h⟩

theorem copiedLine_eq_iff {x : Double} {s : Bytes} : copiedLine x s = .line x s ↔ s.length < 2 ^ 31 := by
  unfold copiedLine
  split
  next h => exact ⟨fun _ => h, fun _ => rfl⟩
  next h => exact ⟨fun he => Result.noConfusion he, fun hs => absurd hs h⟩

theorem length_overwrite (bytes : Bytes) (pos : Nat) (s : Bytes) :
    (overwrite bytes pos s).length = max bytes.length (pos + s.length) := by
  unfold overwrite
  rw [List.length_append, List.length_append, List.length_take, List.length_append, List.length_replicate,
    List.length_drop]
  omega

theorem Stream.writePos_cases (f : Stream) : f.writePos = f.bytes.length ∨ f.writePos = f.pos := by
  unfold writePos
  split
  · exact Or.inl rfl
  · exact Or.inr rfl

/-- A C string that is written for one with a zero byte leaves another position or other bytes. -/
theorem fputs_ne {f : Stream} {s : Bytes} (h : 0 ∈ s) : fputs f s ≠ f.write s := by
  have hs : s ≠ [] := List.ne_nil_of_mem h
  have hpos : 0 < s.length := List.length_pos_iff.mpr hs
  have hshort : (beforeZero s).length < s.length := by
    have hsub := (List.takeWhile_sublist (l := s) (fun c => decide (c ≠ 0)))
    refine lt_of_le_of_ne hsub.length_le fun he => ?_
    have heq := hsub.eq_of_length he
    have hall := List.takeWhile_eq_self_iff.mp heq 0 h
    exact absurd hall (by decide)
  have hwrite : f.write s = { f with bytes := overwrite f.bytes f.writePos s, pos := f.writePos + s.length } :=
    if_neg hs
  have hne : f ≠ f.write s := by
    intro he
    rw [hwrite] at he
    have hp : f.pos = f.writePos + s.length := congrArg Stream.pos he
    have hb : f.bytes = overwrite f.bytes f.writePos s := congrArg Stream.bytes he
    have hlen := congrArg List.length hb
    rw [length_overwrite] at hlen
    rcases f.writePos_cases with hw | hw <;> omega
  unfold fputs
  split
  next =>
    by_cases hp : beforeZero s = []
    · rw [hp]
      exact hne
    · intro he
      rw [hwrite, Stream.write, if_neg hp] at he
      have := congrArg Stream.pos he
      dsimp only at this
      omega
  next => exact hne

end

end Streams

end ToiLang
