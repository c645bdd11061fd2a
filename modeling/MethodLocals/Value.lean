import MethodLocals.ClassGraph
import MethodLocals.FieldType

/-! Abstract values: what is known about an entry of the stack or a local variable. Text and class
literals are told apart from other objects, and so are objects whose constructor has not run. -/

namespace MethodLocals

inductive Value where
  | top
  | int
  | float
  | long
  | double
  | null
  | textConstant (text : String)
  | classConstant (type : RefType)
  | object (type : RefType)
  | uninit (name : BinaryName)
  | uninitThis (name : BinaryName)
  deriving DecidableEq

/-- Answers which class two classes have in common. A class can be replaced by such an answer, and
that by the next one, at most `height` times before nothing changes any more. -/
structure Inheritance where
  commonType : BinaryName → BinaryName → Except MissingClass BinaryName
  height : Nat

/-- Every replacement goes up in the graph, so there are no more of them than classes. -/
def ClassGraph.inheritance (g : ClassGraph) : Inheritance := ⟨g.commonSuperclass, g.classes.length⟩

/-- The reference type that two flow into. Without inheritance, and where an array is involved, only
the class of all objects is left. -/
def RefType.merge (inheritance : Option Inheritance) (a b : RefType) :
    Except MissingClass RefType :=
  if a = b then .ok a
  else match inheritance, a, b with
    | some i, .object a, .object b => (i.commonType a b).map .object
    | _, _, _ => .ok .objectClass

namespace Value

def width : Value → Nat
  | long | double => 2
  | _ => 1

def ofKind : NumberKind → Value
  | .int => int
  | .long => long
  | .float => float
  | .double => double

/-- What is known about a value of a declared type. -/
def ofType : FieldType → Value
  | .base b => ofKind b.kind
  | .ref r => object r

def isReference : Value → Bool
  | null | textConstant _ | classConstant _ | object _ | uninit _ | uninitThis _ => true
  | top | int | float | long | double => false

/-- The type of a reference to an object whose constructor has run. -/
def referenceType : Value → Option RefType
  | textConstant _ => some .stringClass
  | classConstant _ => some .classClass
  | object r => some r
  | _ => none

def underConstruction : Value → Option BinaryName
  | uninit name | uninitThis name => some name
  | _ => none

/-- The most precise type for a variable that holds the value. -/
def variableType : Value → RefType
  | textConstant _ => .stringClass
  | classConstant _ => .classClass
  | object r => r
  | uninit name | uninitThis name => .object name
  | _ => .objectClass

/-- What is left of a value that may also be null. -/
def orNull (v : Value) : Value :=
  match v.referenceType with
  | some r => object r
  | none => top

/-- The value that two flow into where control meets. -/
def merge (inheritance : Option Inheritance) (v w : Value) : Except MissingClass Value :=
  if v = w then .ok v
  else match v, w with
    | null, w => .ok w.orNull
    | v, null => .ok v.orNull
    | v, w =>
      match v.referenceType, w.referenceType with
      | some a, some b => (RefType.merge inheritance a b).map object
      | _, _ => .ok top

@[simp] theorem merge_self (inheritance : Option Inheritance) (v : Value) :
    v.merge inheritance v = .ok v := by
  cases v <;> simp [merge]

@[simp] theorem width_ofType (t : FieldType) : (ofType t).width = t.width := by
  rcases t with b | r
  · cases b <;> rfl
  · rfl

end Value

end MethodLocals
