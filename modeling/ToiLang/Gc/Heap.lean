import Mathlib.Tactic.SplitIfs
import ToiLang.Chunk
import ToiLang.Marking
import ToiLang.Transition

namespace ToiLang.Gc

/-- The address of an object. -/
abbrev Ref := Nat

inductive Value
  | nil
  | bool (b : Bool)
  | number (x : Double)
  | obj (r : Ref)
  deriving DecidableEq

def Value.refs : Value → List Ref
  | obj r => [r]
  | _ => []

structure Entry where
  key : Option Ref
  value : Value
  deriving DecidableEq

/-- What `mark_table` and `mark_roots` mark of the entries of a table: those with a key. -/
def entryRefs (entries : List Entry) : List Ref :=
  entries.flatMap fun e => match e.key with
    | some k => k :: e.value.refs
    | none => []

structure CallFrame where
  closure : Option Ref
  moduleCacheName : Value
  prevModuleName : Value
  prevModuleFile : Value
  prevModuleMain : Value
  deriving DecidableEq

def CallFrame.refs (f : CallFrame) : List Ref :=
  f.closure.toList ++ f.moduleCacheName.refs ++ f.prevModuleName.refs ++ f.prevModuleFile.refs ++
    f.prevModuleMain.refs

/-- Where an upvalue's value is: in a slot of a thread's stack, or in the upvalue. -/
inductive Location
  | stack (thread : Ref) (slot : Nat)
  | closed
  deriving DecidableEq

/-- The data of a userdata whose mark hook is `thread_handle_mark` or `channel_mark`, or that has none. -/
inductive UserdataData
  | null
  | unmarked
  | thread (closure : Option Ref) (args : List Value) (result : Value) (resultCount : Nat)
  | channel (values : List Value)
  deriving DecidableEq

def UserdataData.refs : UserdataData → List Ref
  | null | unmarked => []
  | thread closure args result resultCount =>
    closure.toList ++ args.flatMap Value.refs ++ if 0 < resultCount then result.refs else []
  | channel values => values.flatMap Value.refs

/-- The objects, with the fields that hold a value or a pointer to an object. A stack is the slots that
have been written, and the list of the open upvalues is that which their `next` pointers make. -/
inductive Obj
  | string (chars : Bytes)
  | table (entries : List Entry) (array : List Value) (metatable : Option Ref)
  | function (name doc : Option Ref) (constants : List Value) (globalIcNames : List (Option Ref))
    (globalIcValues : List Value) (getTableIcTables getTableIcKeys : List (Option Ref))
    (getTableIcValues defaults : List Value) (paramNames : List (Option Ref))
  | native (name : Option Ref)
  | upvalue (location : Location) (closed : Value)
  | closure (function : Option Ref) (upvalues : List (Option Ref))
  | thread (stack : List Value) (stackTop : Nat) (frames : List CallFrame) (openUpvalues : List Ref)
    (caller : Option Ref) (hasException : Bool) (exception lastError : Value)
  | userdata (data : UserdataData) (metatable : Option Ref)
  | boundMethod (receiver : Value) (method : Option Ref)
  deriving DecidableEq

/-- The objects that `mark_object` goes on to from an object. -/
def Obj.children : Obj → List Ref
  | string _ => []
  | table entries array metatable => entryRefs entries ++ array.flatMap Value.refs ++ metatable.toList
  | function name doc constants globalIcNames globalIcValues getTableIcTables getTableIcKeys
      getTableIcValues defaults paramNames =>
    name.toList ++ doc.toList ++ constants.flatMap Value.refs ++ globalIcNames.flatMap Option.toList ++
      globalIcValues.flatMap Value.refs ++ getTableIcTables.flatMap Option.toList ++
      getTableIcKeys.flatMap Option.toList ++ getTableIcValues.flatMap Value.refs ++
      defaults.flatMap Value.refs ++ paramNames.flatMap Option.toList
  | native name => name.toList
  | upvalue _ closed => closed.refs
  | closure fn upvalues => fn.toList ++ upvalues.flatMap Option.toList
  | thread stack stackTop frames openUpvalues caller hasException exception lastError =>
    (stack.take stackTop).flatMap Value.refs ++ (if hasException then exception.refs else []) ++
      lastError.refs ++ frames.flatMap CallFrame.refs ++ openUpvalues ++ caller.toList
  | userdata data metatable => data.refs ++ metatable.toList
  | boundMethod receiver method => receiver.refs ++ method.toList

/-- The slots of a thread's stack, also those above its top. -/
def Obj.stack : Obj → List Value
  | thread stack _ _ _ _ _ _ _ => stack
  | _ => []

/-- The slot that an open upvalue points at. -/
def Obj.slot? : Obj → Option (Ref × Nat)
  | upvalue (.stack T k) _ => some (T, k)
  | _ => none

/-- The objects in memory, with their mark bits and the list `objects` of all of them. -/
structure Heap where
  obj : Ref → Option Obj
  isMarked : Ref → Bool
  objects : List Ref

structure Roots where
  currentThread : Option Ref
  gcParkedThreads : List Ref
  rootedStrings : List (Option Ref)
  strUpperFn : Value
  strLowerFn : Value
  globals : List Entry
  modules : List Entry
  deriving DecidableEq

/-- The objects that `mark_roots` starts from. -/
def Roots.refs (R : Roots) : List Ref :=
  R.currentThread.toList ++ R.gcParkedThreads ++ R.rootedStrings.flatMap Option.toList ++
    R.strUpperFn.refs ++ R.strLowerFn.refs ++ entryRefs R.globals ++ entryRefs R.modules

structure VM where
  heap : Heap
  roots : Roots

namespace Heap

def children (h : Heap) (r : Ref) : List Ref := ((h.obj r).map Obj.children).getD []

/-- The value in a slot of a thread's stack. -/
def slotValue (h : Heap) (s : Ref × Nat) : Value := (((h.obj s.1).map Obj.stack).getD []).getD s.2 .nil

/-- What an open upvalue leads to besides its fields. -/
def slotRefs (h : Heap) (o : Obj) : List Ref := (o.slot?.map fun s => (h.slotValue s).refs).getD []

/-- The objects that the program gets to from an object: its fields, and what is in the slot that an
open upvalue points at. -/
def reads (h : Heap) (r : Ref) : List Ref :=
  h.children r ++ ((h.obj r).map h.slotRefs).getD []

/-- `mark_object`; the first argument bounds the depth of the calls. -/
def markObject (h : Heap) (n : Nat) (r : Ref) : Heap :=
  { h with isMarked := Marking.visit h.children n r h.isMarked }

def markRoots (h : Heap) (R : Roots) : Heap :=
  { h with isMarked := Marking.visitAll h.children h.objects.length R.refs h.isMarked }

/-- The loop of `sweep_objects` over the rest of the list. -/
def sweepList (h : Heap) : List Ref → Heap
  | [] => { h with objects := [] }
  | r :: rest =>
    if h.isMarked r then
      let h' := sweepList { h with isMarked := Function.update h.isMarked r false } rest
      { h' with objects := r :: h'.objects }
    else sweepList { h with obj := Function.update h.obj r none } rest

def sweepObjects (h : Heap) : Heap := h.sweepList h.objects

end Heap

def VM.collectGarbage (s : VM) : VM := { s with heap := (s.heap.markRoots s.roots).sweepObjects }

/-- The steps of a run, as far as the heap goes. What an object or a root is set to holds pointers to
objects that are there: that is what the program and the natives have in their hands. -/
inductive Op
  | allocate (r : Ref) (o : Obj)
  | store (r : Ref) (o : Obj)
  | setRoots (R : Roots)
  | collect

def Heap.Allocated (h : Heap) (r : Ref) : Prop := h.obj r ≠ none

instance (h : Heap) (r : Ref) : Decidable (h.Allocated r) := inferInstanceAs (Decidable (_ ≠ _))

/-- The pointers that an object is given: its fields, the thread of the slot that an open upvalue points
at, and what is in the slot. -/
def Heap.given (h : Heap) (o : Obj) : List Ref :=
  o.children ++ (o.slot?.map Prod.fst).toList ++ h.slotRefs o

/-- The slots of a stack are given pointers to objects that are there, or left as they are. -/
def Heap.StackStored (h : Heap) (old new : List Value) : Prop :=
  ∀ k < new.length, new.getD k .nil = old.getD k .nil ∨ ∀ y ∈ (new.getD k .nil).refs, h.Allocated y

instance (h : Heap) (old new : List Value) : Decidable (h.StackStored old new) :=
  inferInstanceAs (Decidable (∀ k < new.length, _))

/-- `allocate_object`, with the fields that the caller fills in. -/
def Heap.allocate (h : Heap) (r : Ref) (o : Obj) : Heap where
  obj := Function.update h.obj r (some o)
  isMarked := Function.update h.isMarked r false
  objects := r :: h.objects

def Heap.store (h : Heap) (r : Ref) (o : Obj) : Heap := { h with obj := Function.update h.obj r (some o) }

def step : Op → VM → Option VM
  | .allocate r o, s =>
    if ¬s.heap.Allocated r ∧ (∀ y ∈ s.heap.given o, s.heap.Allocated y) ∧ s.heap.StackStored [] o.stack then
      some { s with heap := s.heap.allocate r o }
    else none
  | .store r o, s =>
    if s.heap.Allocated r ∧ (∀ y ∈ s.heap.given o, s.heap.Allocated y) ∧
        s.heap.StackStored (((s.heap.obj r).map Obj.stack).getD []) o.stack then
      some { s with heap := s.heap.store r o }
    else none
  | .setRoots R, s => if ∀ y ∈ R.refs, s.heap.Allocated y then some { s with roots := R } else none
  | .collect, s => some s.collectGarbage

def newThread : Obj := .thread [] 0 [] [] none false .nil .nil

/-- The beginning of `init_vm`: the main thread is there and nothing else. -/
def initVm : VM where
  heap := { obj := fun r => if r = 0 then some newThread else none, isMarked := fun _ => false, objects := [0] }
  roots :=
    { currentThread := some 0, gcParkedThreads := [], rootedStrings := [], strUpperFn := .nil
      strLowerFn := .nil, globals := [], modules := [] }

end ToiLang.Gc
