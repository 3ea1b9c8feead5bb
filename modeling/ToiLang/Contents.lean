import ToiLang.Alike
import ToiLang.Strtod
import ToiLang.TableAccess

namespace ToiLang

/-- `number_key_string` with the text of `%.17g`. -/
def numberKeyString (num : Double) : Bytes := 0x1F :: 110 :: num.normalize.formatG17

/-- The number that a key of the hash part stands for. -/
def numberKey? (s : Bytes) : Option Double :=
  match s with
  | 0x1F :: 110 :: text =>
    if numberKeyString (strtod text).1 = s then some (strtod text).1 else none
  | _ => none

theorem normalize_normalize (x : Double) : x.normalize.normalize = x.normalize := by
  unfold Double.normalize
  split
  next => rfl
  next => rfl

theorem int?_of_formatG17 {x y : Double} (h : x.formatG17 = y.formatG17) : x.int? = y.int? := by
  obtain ⟨a, ha, -, hx, -⟩ := formatG17_strtod x
  obtain ⟨b, hb, -, hy, -⟩ := formatG17_strtod y
  rw [h, hb] at ha
  cases ha
  exact hx.symm.trans hy

/-- The text of a number is read as a number of that text. -/
theorem strtod_numberKeyString (x : Double) :
    ∃ y, strtod x.normalize.formatG17 = (y, []) ∧ numberKeyString y = numberKeyString x := by
  obtain ⟨y, hread, htext, -, hzero⟩ := formatG17_strtod x.normalize
  have hy : y.normalize = y := by
    by_cases hz : y.isZero = true
    · rw [hzero hz, normalize_normalize]
    · exact if_neg hz
  refine ⟨y, hread, ?_⟩
  unfold numberKeyString
  rw [hy, htext]

theorem numberKey?_eq_some {s : Bytes} {x : Double} (h : numberKey? s = some x) :
    numberKeyString x = s := by
  unfold numberKey? at h
  split at h
  next text =>
    split at h
    next heq => rwa [Option.some.inj h] at heq
    next => cases h
  next => cases h

theorem numberKey?_numberKeyString (x : Double) :
    ∃ y, numberKey? (numberKeyString x) = some y ∧ numberKeyString y = numberKeyString x := by
  obtain ⟨y, hread, hkey⟩ := strtod_numberKeyString x
  refine ⟨y, ?_, hkey⟩
  unfold numberKey?
  change (if numberKeyString (strtod x.normalize.formatG17).1 = _ then _ else none) = _
  rw [hread]
  exact if_pos hkey

theorem place_of_numberKeyString {x y : Double} (h : numberKeyString x = numberKeyString y) :
    (KeyId.number x).place = (KeyId.number y).place := by
  have htext : x.normalize.formatG17 = y.normalize.formatG17 :=
    (List.cons.inj (List.cons.inj h).2).2
  have hint := int?_of_formatG17 htext
  rw [int?_normalize, int?_normalize] at hint
  unfold KeyId.place
  dsimp only
  rw [hint]

namespace Table

variable (hash : Bytes → UInt32)

def hashValue (t : Table) (s : Bytes) : Value := ((tableGet hash t s).getD none).getD .nil

/-- What a table holds for a key. An entry of the hash part whose key is the text of a number
belongs to that number. -/
def contents (t : Table) : KeyId → Value
  | .string s => if (numberKey? s).isSome then .nil else t.hashValue hash s
  | .number x =>
    if t.arrayValue (.number x) = .nil then t.hashValue hash (numberKeyString x)
    else t.arrayValue (.number x)

end Table

/-- What tells two keys apart: the kind and the text. -/
def KeyId.label : KeyId → Bool × Bytes
  | string s => (false, s)
  | number x => (true, numberKeyString x)

section Contents

variable {hash : Bytes → UInt32} {t t' : Table} {h : Bytes → Option Value}

@[simp] theorem contents_string (s : Bytes) : t.contents hash (.string s) =
    if (numberKey? s).isSome then .nil else t.hashValue hash s := rfl

@[simp] theorem contents_number (x : Double) : t.contents hash (.number x) =
    if t.arrayValue (.number x) = .nil then t.hashValue hash (numberKeyString x)
    else t.arrayValue (.number x) := rfl

theorem contents_congr {k k' : KeyId} (hk : k.label = k'.label) :
    t.contents hash k = t.contents hash k' := by
  cases k with
  | string s =>
    cases k' with
    | string s' =>
      cases hk
      rfl
    | number => cases hk
  | number x =>
    cases k' with
    | string => cases hk
    | number y =>
      have hkey : numberKeyString x = numberKeyString y := congrArg Prod.snd hk
      have hvalue : t.arrayValue (.number x) = t.arrayValue (.number y) := by
        unfold Table.arrayValue
        rw [place_of_numberKeyString hkey]
      rw [contents_number, contents_number, hvalue, hkey]

theorem hashValue_eq (hr : t.Represents hash h) (s : Bytes) :
    t.hashValue hash s = (h s).getD .nil := by
  unfold Table.hashValue
  rw [tableGet_eq hr]
  rfl

/-- A key whose entry in the hash part is no other key's. -/
def KeyId.Proper : KeyId → Prop
  | string s => numberKey? s = none
  | number _ => True

/-- A write to the hash part under a key that the array part has no value of. -/
theorem contents_hash_write (hr : t.Represents hash h) {k : KeyId} {v : Value} (hk : k.Proper)
    (hr' : t'.Represents hash (Function.update h k.label.2 (some v))) (harray : t'.array = t.array)
    (hnil : t.arrayValue k = .nil) (k' : KeyId) :
    t'.contents hash k' = if k'.label = k.label then v else t.contents hash k' := by
  have hvalue : t'.arrayValue = t.arrayValue := by
    funext j
    unfold Table.arrayValue Table.slot
    rw [harray]
  have hwrite (s : Bytes) : t'.hashValue hash s =
      if s = k.label.2 then v else t.hashValue hash s := by
    rw [hashValue_eq hr, hashValue_eq hr', Function.update_apply]
    split <;> rfl
  split
  next heq =>
    rw [contents_congr heq]
    cases k with
    | string s =>
      have hs : numberKey? s = none := hk
      rw [contents_string, hs, hwrite]
      exact if_pos rfl
    | number x =>
      rw [contents_number, hvalue, if_pos hnil, hwrite]
      exact if_pos rfl
  next hne =>
    cases k' with
    | string s' =>
      rw [contents_string, contents_string, hwrite]
      split
      next => rfl
      next hs' =>
        refine if_neg fun heq => ?_
        cases k with
        | string s => exact hne (by rw [KeyId.label, heq]; rfl)
        | number x =>
          obtain ⟨y, hy, -⟩ := numberKey?_numberKeyString x
          rw [heq] at hs'
          exact hs' (by rw [KeyId.label, hy]; rfl)
    | number x' =>
      rw [contents_number, contents_number, hvalue, hwrite]
      split
      next =>
        refine if_neg fun heq => ?_
        cases k with
        | string s =>
          obtain ⟨y, hy, -⟩ := numberKey?_numberKeyString x'
          have hs : numberKey? s = none := hk
          have hs' : numberKeyString x' = s := heq
          rw [← hs', hy] at hs
          cases hs
        | number x => exact hne (congrArg (Prod.mk true) heq)
      next => rfl

/-- A write of a value to the array part. -/
theorem contents_array_write (hr : t.Represents hash h) (hr' : t'.Represents hash h) {k : KeyId}
    {i : Nat} {v : Value} (hk : k.place = some i) (hv : v ≠ .nil)
    (hslot : ∀ j, t'.slot j = if j = i then v else t.slot j) (k' : KeyId) :
    t'.contents hash k' = if k'.label = k.label then v else t.contents hash k' := by
  have hvalue (j : KeyId) : t'.arrayValue j = Function.update t.arrayValue k v j :=
    arrayValue_update hk (fun j => by rw [hslot j, Function.update_apply]) j
  have hhash (s : Bytes) : t'.hashValue hash s = t.hashValue hash s := by
    rw [hashValue_eq hr, hashValue_eq hr']
  cases k with
  | string => cases hk
  | number x =>
    split
    next heq =>
      rw [contents_congr heq, contents_number, hvalue, Function.update_self, if_neg hv]
    next hne =>
      have hother : k' ≠ .number x := by
        rintro rfl
        exact hne rfl
      cases k' with
      | string s' => rw [contents_string, contents_string, hhash]
      | number x' => rw [contents_number, contents_number, hvalue, Function.update_of_ne hother, hhash]

end Contents

/-- The address of a table. -/
def Value.ref : Value → Option Nat
  | .table a => some a
  | _ => none

/-- The contents of the tables of a heap. -/
def contentsOf (hash : Bytes → UInt32) (tables : Nat → Table) (a : Nat) : KeyId → Value :=
  (tables a).contents hash

/-- Two values with the same keys and values at every level. -/
def SameContents (hash : Bytes → UInt32) (tables tables' : Nat → Table) : Value → Value → Prop :=
  Alike Value.ref (contentsOf hash tables) (contentsOf hash tables')

end ToiLang
