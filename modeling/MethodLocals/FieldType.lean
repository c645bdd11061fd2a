import MethodLocals.Name

/-! Types of variables and fields. An array type stores what its innermost elements are and how
often that is wrapped, so that each type has one form. The count is a machine word, and starts over
when it is raised past the greatest one. -/

namespace MethodLocals

inductive BaseType where
  | byte | char | double | float | int | long | short | boolean
  deriving DecidableEq

/-- How a number is held in a variable or on the stack; everything narrower is held as an int. -/
inductive NumberKind where
  | int | long | float | double
  deriving DecidableEq

/-- What a variable can hold as far as loads and stores are concerned. -/
inductive TypeCategory where
  | int | float | long | double | reference
  deriving DecidableEq

/-- Two slots hold a long or a double, one slot anything else. -/
def NumberKind.width : NumberKind → Nat
  | .long | .double => 2
  | .int | .float => 1

def NumberKind.category : NumberKind → TypeCategory
  | .int => .int
  | .long => .long
  | .float => .float
  | .double => .double

def TypeCategory.name : TypeCategory → String
  | .int => "int"
  | .float => "float"
  | .long => "long"
  | .double => "double"
  | .reference => "reference"

def BaseType.kind : BaseType → NumberKind
  | .long => .long
  | .float => .float
  | .double => .double
  | .byte | .char | .int | .short | .boolean => .int

def BaseType.width (b : BaseType) : Nat := b.kind.width

/-- The keyword that stands for the type in source text. -/
def BaseType.keyword : BaseType → String
  | .byte => "byte"
  | .char => "char"
  | .double => "double"
  | .float => "float"
  | .int => "int"
  | .long => "long"
  | .short => "short"
  | .boolean => "boolean"

/-- What an array holds once all its dimensions are taken away. -/
inductive ElementType where
  | base (type : BaseType)
  | object (name : BinaryName)
  deriving DecidableEq

/-- A class or an array with `extra + 1` dimensions. -/
inductive RefType where
  | object (name : BinaryName)
  | array (extra : UInt64) (element : ElementType)
  deriving DecidableEq

inductive FieldType where
  | base (type : BaseType)
  | ref (type : RefType)
  deriving DecidableEq

def RefType.objectClass : RefType := .object .object

def RefType.stringClass : RefType := .object .string

def RefType.classClass : RefType := .object .classObject

def RefType.isArray : RefType → Bool
  | .object _ => false
  | .array _ _ => true

def RefType.dimensions : RefType → UInt64
  | .object _ => 0
  | .array extra _ => extra + 1

def RefType.arrayOf : FieldType → RefType
  | .base b => .array 0 (.base b)
  | .ref (.object name) => .array 0 (.object name)
  | .ref (.array extra element) => .array (extra + 1) element

def ElementType.toFieldType : ElementType → FieldType
  | .base b => .base b
  | .object name => .ref (.object name)

/-- The type wrapped into so many arrays, then into one array less, down to the type alone. -/
def ElementType.wrappings (element : ElementType) : Nat → List FieldType
  | 0 => [element.toFieldType]
  | n + 1 => .ref (.array (.ofNat n) element) :: element.wrappings n

/-- The type of an array's components, which has one dimension less; a class has none. -/
def RefType.component : RefType → Option FieldType
  | .object _ => none
  | .array extra element =>
    if extra = 0 then some element.toFieldType else some (.ref (.array (extra - 1) element))

theorem RefType.component_cases {r : RefType} {t : FieldType} (h : r.component = some t) :
    (∃ element, r = .array 0 element ∧ t = element.toFieldType) ∨
      ∃ extra element, extra ≠ 0 ∧ r = .array extra element ∧
        t = .ref (.array (extra - 1) element) := by
  rcases r with name | ⟨extra, element⟩
  · cases h
  · rw [component] at h
    split at h
    · rename_i hextra
      exact .inl ⟨element, by rw [hextra], (Option.some.inj h).symm⟩
    · rename_i hextra
      exact .inr ⟨extra, element, hextra, rfl, (Option.some.inj h).symm⟩

namespace FieldType

def int : FieldType := .base .int

def objectClass : FieldType := .ref .objectClass

def object (name : BinaryName) : FieldType := .ref (.object name)

def ofKind : NumberKind → FieldType
  | .int => .base .int
  | .long => .base .long
  | .float => .base .float
  | .double => .base .double

def width : FieldType → Nat
  | .base b => b.width
  | .ref _ => 1

def category : FieldType → TypeCategory
  | .base b => b.kind.category
  | .ref _ => .reference

def isPrimitive : FieldType → Bool
  | .base _ => true
  | .ref _ => false

def isArray : FieldType → Bool
  | .base _ => false
  | .ref r => r.isArray

def dimensions : FieldType → UInt64
  | .base _ => 0
  | .ref r => r.dimensions

def component : FieldType → Option FieldType
  | .base _ => none
  | .ref r => r.component

def wrap (t : FieldType) : Nat → FieldType
  | 0 => t
  | n + 1 => wrap (.ref (.arrayOf t)) n

/-- The word that messages use for the type. -/
def sortName : FieldType → String
  | .base b => b.keyword
  | .ref (.object _) => "object"
  | .ref (.array _ _) => "array"

def componentChain : FieldType → List FieldType
  | .base _ => []
  | .ref (.object _) => []
  | .ref (.array extra element) => element.wrappings extra.toNat

end FieldType

end MethodLocals
