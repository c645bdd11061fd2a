import MethodLocals.AccessFlags
import MethodLocals.Instruction

/-! Methods, and the parts of a method that usages and errors refer to. -/

namespace MethodLocals

inductive Element where
  | definition
  | parameter (index : Nat)
  | instruction (index : Nat)
  deriving DecidableEq

def Element.render : Element → String
  | .definition => "method definition"
  | .parameter index => s!"parameter #{index}"
  | .instruction index => s!"instruction #{index}"

structure Parameter where
  name : String
  type : FieldType
  deriving DecidableEq

/-- All of a method but its body. The owner is the type of the receiver. -/
structure Header where
  owner : BinaryName
  name : String
  flags : MethodFlags
  parameters : List Parameter
  returns : Option FieldType
  deriving DecidableEq

structure Method where
  header : Header
  code : List Instruction
  deriving DecidableEq

namespace Header

def isStatic (h : Header) : Bool := h.flags.isStatic

def isConstructor (h : Header) : Bool := h.name = UnqualifiedName.init.text

end Header

/-- The name that bodies use for the receiver. -/
def receiverName : String := "this"

end MethodLocals
