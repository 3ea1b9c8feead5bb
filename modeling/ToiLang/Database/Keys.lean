import ToiLang.BTree.Atom
import ToiLang.Conversion
import ToiLang.Decimal

namespace ToiLang

namespace Double

/-- The significant digits and the decimal exponent that they have after rounding. -/
def decimalDigits (precision : Nat) (x : Double) : Nat × Nat :=
  let i := x.decimalExponent
  let d := roundHalfEven (x.numerator * 10 ^ (323 + precision - i))
    (x.denominator * 10 ^ (i - (323 + precision)))
  if d = 10 ^ precision then (10 ^ (precision - 1), i + 1) else (d, i)

/-- `%.*g` of a finite magnitude. -/
def magnitudeDigits (precision : Nat) (x : Double) : Bytes :=
  if x.isZero then [48]
  else
    let i := (x.decimalDigits precision).2
    let ds := digits precision (x.decimalDigits precision).1
    if 324 ≤ i ∧ i < 324 + precision then
      withPoint (ds.take (i - 323)) (trimZeros (ds.drop (i - 323)))
    else if 320 ≤ i ∧ i < 324 then withPoint [48] (trimZeros (List.replicate (323 - i) 48 ++ ds))
    else withPoint (ds.take 1) (trimZeros (ds.drop 1)) ++ exponentText i

/-- The text that `%.14g` gives a number. -/
def formatG14 (x : Double) : Bytes :=
  (if x.negative then [45] else []) ++
    if x.isNaN then [110, 97, 110]
    else if x.exponent = 2047 then [105, 110, 102]
    else x.magnitudeDigits 14

end Double

namespace Database

/-- What a field of a row holds. -/
inductive FieldValue
  | nil
  | bool (b : Bool)
  | number (x : Double)
  | string (s : Bytes)
  deriving DecidableEq

namespace FieldValue

/-- The operator `==`. -/
def equal : FieldValue → FieldValue → Bool
  | nil, nil => true
  | bool a, bool b => a == b
  | number x, number y => Double.eq x y
  | string s, string t => s == t
  | _, _ => false

/-- The operator `>`, which is false of values that are not numbers. -/
def greater : FieldValue → FieldValue → Bool
  | number x, number y => Double.lt y x
  | _, _ => false

def less (a b : FieldValue) : Bool := greater b a

/-- The text that `str` gives a value inside a table. -/
def format : FieldValue → Bytes
  | nil => ascii "nil"
  | bool true => ascii "true"
  | bool false => ascii "false"
  | number x => x.formatG14
  | string s => ascii "\"" ++ s ++ ascii "\""

def str : FieldValue → Bytes
  | string s => s
  | v => v.format

/-- The key of a B-tree that the value can be. -/
def key? : FieldValue → Option BTreeAtom
  | number x => if x.isNaN then none else some (.number x)
  | string s => some (.string s)
  | _ => none

def ofKey : BTreeAtom → FieldValue
  | .number x => number x
  | .string s => string s

theorem key?_eq_some {v : FieldValue} {a : BTreeAtom} (h : v.key? = some a) : ofKey a = v := by
  cases v with
  | number x =>
    simp only [key?] at h
    split at h
    next => cases h
    next =>
      cases h
      rfl
  | string s =>
    cases h
    rfl
  | nil => cases h
  | bool b => cases h

end FieldValue

def sep : Bytes := [31]
def hi : Bytes := [255]

def encodeKeyPart : FieldValue → Bytes
  | .number x => ascii "n:" ++ x.formatG14
  | v => ascii "s:" ++ v.str

def secondaryKey (indexValue primaryValue : FieldValue) : Bytes :=
  encodeKeyPart indexValue ++ sep ++ encodeKeyPart primaryValue

def secondaryMin (indexValue : FieldValue) : Bytes := encodeKeyPart indexValue ++ sep
def secondaryMax (indexValue : FieldValue) : Bytes := encodeKeyPart indexValue ++ sep ++ hi

/-- `min <= key <= max` -/
def keyInRange (min max : Option Bytes) (key : BTreeAtom) : Bool :=
  !(min.any fun min => atomCompare key (.string min) = .lt) &&
    !(max.any fun max => atomCompare key (.string max) = .gt)

end Database

end ToiLang
