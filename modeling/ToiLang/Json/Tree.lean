import ToiLang.FreshTables
import ToiLang.Json.Encode

namespace ToiLang

namespace Json

open Http (intText)
open Strings (concatElements)

/-! What the texts of the encoder and the decoder mean. -/

inductive Tree
  | null
  | bool (b : Bool)
  | number (x : Double)
  | string (str : Bytes)
  | array (elements : List Tree)
  | object (members : List (Bytes × Tree))

/-- A tree whose numbers JSON has a text for. -/
inductive Tree.Finite : Tree → Prop
  | null : Finite .null
  | bool (b : Bool) : Finite (.bool b)
  | number {x : Double} (h : x.IsFinite) : Finite (.number x)
  | string (str : Bytes) : Finite (.string str)
  | array {elements : List Tree} (h : ∀ element ∈ elements, element.Finite) : Finite (.array elements)
  | object {members : List (Bytes × Tree)} (h : ∀ member ∈ members, member.2.Finite) : Finite (.object members)

def stringText (str : Bytes) : Bytes := 34 :: (str.flatMap encodeChar ++ [34])

def comma (first : Bool) : Bytes := if first then [] else [44]

mutual

/-- The text of a tree without blanks. -/
def Tree.text : Tree → Bytes
  | .null => ascii "null"
  | .bool b => ascii (if b then "true" else "false")
  | .number x => encodeNumber x
  | .string str => stringText str
  | .array elements => 91 :: (elementsText true elements ++ [93])
  | .object members => 123 :: (membersText true members ++ [125])

def elementsText : Bool → List Tree → Bytes
  | _, [] => []
  | first, element :: elements => comma first ++ element.text ++ elementsText false elements

def membersText : Bool → List (Bytes × Tree) → Bytes
  | _, [] => []
  | first, member :: members => comma first ++ memberText member ++ membersText false members

def memberText : Bytes × Tree → Bytes
  | (key, tree) => stringText key ++ 58 :: tree.text

end

/-! ### The tree that is encoded -/

/-- The tree of a table that is not too deep. -/
def tableTree (tree : Value → Tree) (t : Table) : Tree :=
  let elements := concatElements t
  if 0 < elements.length ∧ (liveEntries t).isEmpty then .array (elements.map tree)
  else
    .object ((liveEntries t).map (fun entry => (entry.1, tree entry.2)) ++
      elements.zipIdx.map fun element => (intText (element.2 + 1), tree element.1))

/-- The tree of a value, with null for what has no JSON text and for the tables that are too deep. -/
def treeOf (tables : Nat → Table) (room : Nat) (v : Value) : Tree :=
  match v with
  | .bool b => .bool b
  | .number num => if num.IsFinite then .number num else .null
  | .string str => .string str
  | .table a =>
    match room with
    | 0 => .null
    | room + 1 => tableTree (treeOf tables room) (tables a)
  | _ => .null

/-! ### The tables that stand for a tree -/

/-- The key that a table has for a member's key. -/
def entryKey (key : Bytes) : KeyId := ((numberKey? key).map KeyId.number).getD (.string key)

def Tree.isNull : Tree → Bool
  | .null => true
  | _ => false

/-- The element at a place is written: no earlier one at the places 8, 16, 32, … is null. -/
def Keeps (elements : List Tree) (i : Nat) : Prop :=
  ∀ k < i, 8 * 2 ^ k ≤ i → (elements.getD (8 * 2 ^ k - 1) .null).isNull = false

instance (elements : List Tree) (i : Nat) : Decidable (Keeps elements i) :=
  inferInstanceAs (Decidable (∀ k < i, _ → _))

/-- The element that a table gets at a place. -/
def elementAt (elements : List Tree) : Option Nat → Tree
  | some i => if Keeps elements i then elements.getD i .null else .null
  | none => .null

/-- The last member for a key. -/
def memberAt (members : List (Bytes × Tree)) (k : KeyId) : Tree :=
  members.foldl (fun found member => if k.label = (entryKey member.1).label then member.2 else found) .null

/-- What a tree holds for a key of the table that is made of it. -/
def Tree.at : Tree → KeyId → Tree
  | .array elements, k => elementAt elements k.place
  | .object members, k => memberAt members k
  | _, _ => .null

@[simp] theorem at_array (elements : List Tree) (k : KeyId) :
    (Tree.array elements).at k = elementAt elements k.place := rfl

@[simp] theorem at_object (members : List (Bytes × Tree)) (k : KeyId) :
    (Tree.object members).at k = memberAt members k := rfl

/-- A value that is made as a tree says, at every level. -/
inductive Stands (G : Nat → KeyId → Value) : Tree → Value → Prop
  | null : Stands G .null .nil
  | bool (b : Bool) : Stands G (.bool b) (.bool b)
  | number (x : Double) : Stands G (.number x) (.number x)
  | string (str : Bytes) : Stands G (.string str) (.string str)
  | array {elements : List Tree} {a : Nat} (h : ∀ k, Stands G ((Tree.array elements).at k) (G a k)) :
      Stands G (.array elements) (.table a)
  | object {members : List (Bytes × Tree)} {a : Nat} (h : ∀ k, Stands G ((Tree.object members).at k) (G a k)) :
      Stands G (.object members) (.table a)

section Stands

variable {F G : Nat → KeyId → Value} {tree : Tree} {v w : Value}

theorem stands_framed : Framed Stands := by
  intro G G' tree v lo hi h
  induction h with
  | null => exact fun _ _ _ => .null
  | bool b => exact fun _ _ _ => .bool b
  | number x => exact fun _ _ _ => .number x
  | string str => exact fun _ _ _ => .string str
  | array _ ih =>
    intro hw hup heq
    obtain ⟨hlo, hhi⟩ := hw _ rfl
    refine .array fun k => ?_
    rw [heq _ hlo hhi]
    refine ih k (fun c hc => ?_) hup heq
    have := hup _ hlo hhi k c hc
    omega
  | object _ ih =>
    intro hw hup heq
    obtain ⟨hlo, hhi⟩ := hw _ rfl
    refine .object fun k => ?_
    rw [heq _ hlo hhi]
    refine ih k (fun c hc => ?_) hup heq
    have := hup _ hlo hhi k c hc
    omega

theorem Stands.nil_iff (h : Stands G tree v) : v = .nil ↔ tree.isNull = true := by
  cases h <;> simp [Tree.isNull]

/-- Two values that stand for one tree have the same contents. -/
theorem Stands.alike (h : Stands F tree v) (h' : Stands G tree w) : Alike Value.ref F G v w := by
  induction h generalizing w with
  | null =>
    cases h'
    exact .leaf rfl
  | bool b =>
    cases h'
    exact .leaf rfl
  | number x =>
    cases h'
    exact .leaf rfl
  | string str =>
    cases h'
    exact .leaf rfl
  | array _ ih =>
    cases h' with
    | array h' => exact .node rfl rfl fun k => ih k (h' k)
  | object _ ih =>
    cases h' with
    | object h' => exact .node rfl rfl fun k => ih k (h' k)

/-- What has the same contents stands for the same tree. -/
theorem Stands.of_alike (h : Stands G tree w) (ha : Alike Value.ref F G v w) : Stands F tree v := by
  induction h generalizing v with
  | null =>
    rw [ha.eq_of_leaf_right rfl]
    exact .null
  | bool b =>
    rw [ha.eq_of_leaf_right rfl]
    exact .bool b
  | number x =>
    rw [ha.eq_of_leaf_right rfl]
    exact .number x
  | string str =>
    rw [ha.eq_of_leaf_right rfl]
    exact .string str
  | array _ ih =>
    cases ha with
    | leaf hv => cases hv
    | node hv hw h =>
      cases hw
      cases v with
      | table a =>
        cases hv
        exact .array fun k => ih k (h k)
      | _ => cases hv
  | object _ ih =>
    cases ha with
    | leaf hv => cases hv
    | node hv hw h =>
      cases hw
      cases v with
      | table a =>
        cases hv
        exact .object fun k => ih k (h k)
      | _ => cases hv

end Stands

end Json

end ToiLang
