import ToiLang.Growth
import ToiLang.Strings.Buffers

namespace ToiLang

namespace Json

open Http (intText)
open Strings (concatElements)

/-! The encoder of `json.c`. -/

structure StringBuilder where
  capacity : Nat
  buffer : Bytes

def sbInit : StringBuilder := ⟨256, []⟩

/-- `sb_append`; none where an `int` does not hold the doubled capacity. -/
def sbAppend (sb : StringBuilder) (str : Bytes) : Option StringBuilder :=
  (growCapacity (sb.buffer.length + str.length + 1) 32 sb.capacity).map fun capacity =>
    ⟨capacity, sb.buffer ++ str⟩

/-- `%x` of a digit. -/
def hexText (n : UInt8) : UInt8 := if n < 10 then 48 + n else 87 + n

/-- What `encode_string` appends for a character. -/
def encodeChar (c : UInt8) : Bytes :=
  if c = 34 then [92, 34]
  else if c = 92 then [92, 92]
  else if c = 8 then [92, 98]
  else if c = 12 then [92, 102]
  else if c = 10 then [92, 110]
  else if c = 13 then [92, 114]
  else if c = 9 then [92, 116]
  else if c < 32 then [92, 117, 48, 48, hexText (c / 16), hexText (c % 16)]
  else [c]

/-- What `encode_string` appends. -/
def encodeString (str : Bytes) : List Bytes := [34] :: (str.map encodeChar ++ [[34]])

def encodeNumber (num : Double) : Bytes :=
  if ¬ num.IsFinite then ascii "null"
  else if num.IsInteger ∧ num.numerator < 10 ^ 15 * num.denominator then num.formatF0
  else num.formatG17

/-- The turns of a loop with a comma in front of all but the `first`. -/
def commas : Bool → List (List Bytes) → List Bytes
  | _, [] => []
  | first, turn :: turns => (if first then turn else [44] :: turn) ++ commas false turns

def hasStringKeys (t : Table) : Bool := t.entries.any fun entry => entry.key.isSome && entry.value ≠ .nil

/-- The keys and values of the loop over the entries. -/
def liveEntries (t : Table) : List (Bytes × Value) :=
  t.entries.filterMap fun entry =>
    if entry.value = .nil then none else entry.key.map fun key => (key, entry.value)

/-- `encode_table` at a depth up to 100, with what `encode_value` appends. -/
def encodeTable (encode : Value → List Bytes) (t : Table) : List Bytes :=
  let elements := concatElements t
  if 0 < elements.length ∧ ¬ hasStringKeys t then [91] :: (commas true (elements.map encode) ++ [[93]])
  else
    let members := (liveEntries t).map fun entry => encodeString entry.1 ++ [58] :: encode entry.2
    let mixed := elements.zipIdx.map fun element =>
      (34 :: (intText (element.2 + 1) ++ [34])) :: [58] :: encode element.1
    [123] :: (commas true (members ++ mixed) ++ [[125]])

/-- What `encode_value` appends; `room` is 101 less the depth. -/
def encodeValue (tables : Nat → Table) (room : Nat) (v : Value) : List Bytes :=
  match v with
  | .bool b => [ascii (if b then "true" else "false")]
  | .number num => [encodeNumber num]
  | .string str => encodeString str
  | .table a =>
    match room with
    | 0 => [ascii "null"]
    | room + 1 => encodeTable (encodeValue tables room) (tables a)
  | _ => [ascii "null"]

/-- `json.encode` -/
def jsonEncode (tables : Nat → Table) (v : Value) : Option Bytes :=
  ((encodeValue tables 101 v).foldlM sbAppend sbInit).map StringBuilder.buffer

/-! ### The builder -/

/-- The capacity is a power of two that an `int` holds, and has room for the text and its NUL. -/
structure StringBuilder.Sound (sb : StringBuilder) : Prop where
  power : ∃ k ≤ 27, sb.capacity = 2 ^ (k + 3)
  room : sb.buffer.length < sb.capacity

theorem sbInit_sound : sbInit.Sound := ⟨⟨5, by decide, rfl⟩, by decide⟩

theorem StringBuilder.Sound.bounded {sb : StringBuilder} (h : sb.Sound) : sb.buffer.length ≤ 2 ^ 30 - 1 := by
  obtain ⟨k, hk, hcapacity⟩ := h.power
  have hroom := h.room
  have hle : 2 ^ (k + 3) ≤ 2 ^ 30 := Nat.pow_le_pow_right (by decide) (by omega)
  omega

theorem sbAppend_fits {sb : StringBuilder} (h : sb.Sound) {str : Bytes}
    (hfits : sb.buffer.length + str.length ≤ 2 ^ 30 - 1) :
    ∃ sb', sbAppend sb str = some sb' ∧ sb'.buffer = sb.buffer ++ str ∧ sb'.Sound := by
  obtain ⟨k, hk, hcapacity⟩ := h.power
  obtain ⟨j, hj, hneeded, hgrow⟩ := (@growCapacity_spec (sb.buffer.length + str.length + 1) 32 k (by omega)
    (by omega)).1 (by omega) hk
  unfold sbAppend
  rw [hcapacity, hgrow]
  refine ⟨_, rfl, rfl, ⟨j, hj, rfl⟩, ?_⟩
  dsimp only
  rw [List.length_append]
  omega

theorem sbAppend_full {sb : StringBuilder} (h : sb.Sound) {str : Bytes}
    (hfull : 2 ^ 30 - 1 < sb.buffer.length + str.length) : sbAppend sb str = none := by
  obtain ⟨k, hk, hcapacity⟩ := h.power
  unfold sbAppend
  rw [hcapacity, (@growCapacity_spec _ 32 k (by omega) (by omega)).2 (by omega)]
  rfl

/-- `json.encode` gives the whole text up to the largest size of a buffer, and does not come back otherwise. -/
theorem jsonEncode_eq (tables : Nat → Table) (v : Value) : jsonEncode tables v =
    if (encodeValue tables 101 v).flatten.length < 2 ^ 30 then some (encodeValue tables 101 v).flatten else none := by
  have hwrite := foldlM_write sbInit_sound (fun _ h => h.bounded) (fun _ _ h => sbAppend_fits h)
    (fun _ _ h => sbAppend_full h) (encodeValue tables 101 v)
  unfold jsonEncode
  rw [hwrite]
  exact if_congr (by dsimp only [sbInit]; rw [List.nil_append]; omega) rfl rfl

end Json

end ToiLang
