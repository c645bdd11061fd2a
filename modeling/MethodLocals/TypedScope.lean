import MethodLocals.Instruction

/-! Typed scopes of variables. An assignment opens a scope, and every other access has to agree with
the scope that it lies in. -/

namespace MethodLocals

/-- An access disagrees with the type that the variable was last used with. -/
structure TypeConflict where
  access : Access
  existing : FieldType
  incoming : FieldType
  deriving DecidableEq

def TypeConflict.message (e : TypeConflict) : String :=
  s!"cannot {e.access.name} '{e.incoming.sortName}' ({e.incoming.category.name}) " ++
    s!"with prior '{e.existing.sortName}' ({e.existing.category.name}) value"

/-- May a variable last used with one type be accessed with another? An update needs an int, and a
read a value of its own category. -/
def Access.agrees (access : Access) (existing incoming : FieldType) : Bool :=
  match access with
  | .assign => true
  | .update => existing.category = .int
  | .read => existing.category = incoming.category

/-- The type that an access is recorded with; the first access of a variable is always allowed. -/
def Access.recordedType (access : Access) (existing : Option FieldType) (incoming : FieldType) :
    Except TypeConflict FieldType :=
  match existing with
  | none => .ok incoming
  | some existing =>
    if access.agrees existing incoming then .ok incoming
    else .error ⟨access, existing, incoming⟩

end MethodLocals
