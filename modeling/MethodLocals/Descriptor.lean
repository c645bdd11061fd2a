import MethodLocals.FieldType

/-! How types and method signatures are written. -/

namespace MethodLocals

/-- The parameter types of a method and what it returns; nothing for a method without a result. -/
structure MethodDescriptor where
  parameters : List FieldType
  returns : Option FieldType
  deriving DecidableEq

/-- Slots that values of these types take when they lie side by side. -/
def totalWidth (types : List FieldType) : Nat := types.foldr (·.width + ·) 0

def MethodDescriptor.parameterLength (d : MethodDescriptor) (hasReceiver : Bool) : Nat :=
  (if hasReceiver then 1 else 0) + totalWidth d.parameters

def BaseType.letter : BaseType → Char
  | .byte => 'B'
  | .char => 'C'
  | .double => 'D'
  | .float => 'F'
  | .int => 'I'
  | .long => 'J'
  | .short => 'S'
  | .boolean => 'Z'

def BaseType.ofLetter : Char → Option BaseType
  | 'B' => some .byte
  | 'C' => some .char
  | 'D' => some .double
  | 'F' => some .float
  | 'I' => some .int
  | 'J' => some .long
  | 'S' => some .short
  | 'Z' => some .boolean
  | _ => none

def BaseType.chars (b : BaseType) : List Char := [b.letter]

/-- A class is written between a capital L and a semicolon. -/
def BinaryName.chars (name : BinaryName) : List Char := 'L' :: name.text.toList ++ [';']

def ElementType.chars : ElementType → List Char
  | .base b => b.chars
  | .object name => name.chars

/-- An array is written as one opening bracket for each dimension before its innermost elements. -/
def RefType.chars : RefType → List Char
  | .object name => name.chars
  | .array extra element => List.replicate (extra.toNat + 1) '[' ++ element.chars

def FieldType.chars : FieldType → List Char
  | .base b => b.chars
  | .ref r => r.chars

/-- What a method returns; a V stands for no result. -/
def returnChars : Option FieldType → List Char
  | none => ['V']
  | some t => t.chars

def MethodDescriptor.chars (d : MethodDescriptor) : List Char :=
  '(' :: d.parameters.flatMap FieldType.chars ++ ')' :: returnChars d.returns

theorem BaseType.ofLetter_eq_some_iff {c : Char} {b : BaseType} :
    BaseType.ofLetter c = some b ↔ c = b.letter := by
  constructor
  · intro h
    unfold BaseType.ofLetter at h
    split at h <;> simp_all [BaseType.letter] <;> subst h <;> rfl
  · rintro rfl
    cases b <;> rfl

@[simp] theorem BaseType.ofLetter_letter (b : BaseType) : BaseType.ofLetter b.letter = some b :=
  BaseType.ofLetter_eq_some_iff.2 rfl

end MethodLocals
