import ToiLang.Conversion
import ToiLang.Table

namespace ToiLang

/-! The operators that answer with a bool: the equality, the order, and `has` and `in`. -/

/-- What an operator pushes, or the method that it calls with its arguments, or its error. -/
inductive Answer
  | value (b : Bool)
  | call (method : Value) (args : List Value)
  | error (message : String)
  deriving DecidableEq, Repr

def Value.isObject : Value → Bool
  | .number _ | .nil | .bool _ => false
  | _ => true

/-- The metamethod of the first of two values, or else of the second. -/
def methodOf (method : Value → Value) (a b : Value) : Value := if method a = .nil then method b else method a

/-- `values_equal_simple_local`, and `value_equals_for_find`: an object is equal to itself, a string to
its content. -/
def valuesEqualSimple : Value → Value → Bool
  | .number x, .number y => Double.eq x y
  | a, b => decide (a = b)

/-- `string_contains_local` -/
def stringContains (haystack needle : Bytes) : Bool :=
  if needle.length = 0 then true
  else if needle.length > haystack.length then false
  else (List.range (haystack.length - needle.length + 1)).any fun i => needle.isPrefixOf (haystack.drop i)

/-- The loops of `has` and `in` over a table: up to `array_max`, and over the entries. -/
def tableContains (t : Table) (v : Value) : Bool :=
  ((t.array.take (min t.arrayMax t.arrayCapacity)).any fun x => x ≠ .nil && valuesEqualSimple x v) ||
    t.entries.any fun entry => entry.key.isSome && valuesEqualSimple entry.value v

/-- `has` and `in`, which differ in their errors only. `method` is `get_metamethod` of `__has`. -/
def containsOperator (needleError containerError : String) (method : Value → Value) (tables : Nat → Table)
    (container needle : Value) : Answer :=
  if methodOf method container needle ≠ .nil then .call (methodOf method container needle) [container, needle]
  else
    match container with
    | .string haystack =>
      match needle with
      | .string needle => .value (stringContains haystack needle)
      | _ => .error needleError
    | .table a => .value (tableContains (tables a) needle)
    | _ => .error containerError

def vmHandleOpHas : (Value → Value) → (Nat → Table) → Value → Value → Answer :=
  containsOperator "Right operand of 'has' must be a string." "Left operand of 'has' must be a string or table."

/-- The needle is the left operand. -/
def vmHandleOpIn (method : Value → Value) (tables : Nat → Table) (needle container : Value) : Answer :=
  containsOperator "Left operand of 'in' must be a string when right operand is a string."
    "Right operand of 'in' must be a string or table." method tables container needle

end ToiLang
