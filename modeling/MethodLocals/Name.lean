/-! Names of classes and members. A member name is a nonempty text without the reserved characters;
a class name is one or more such texts joined by slashes. -/

namespace MethodLocals

inductive NameError where
  | emptyName
  | emptySegment
  | reserved (segment : String) (character : Char)
  deriving DecidableEq

def NameError.message : NameError → String
  | .emptyName => "Binary name is empty"
  | .emptySegment => "Unqualified name is empty"
  | .reserved segment c => s!"Unqualified name '{segment}' contains '{c}'"

/-- A dot, a semicolon, an opening bracket or a slash never stands in a member name. -/
def isReserved (c : Char) : Bool := c = '.' || c = ';' || c = '[' || c = '/'

/-- The first reserved character is the one reported. -/
def checkUnqualified (cs : List Char) : Except NameError Unit :=
  if cs = [] then .error .emptySegment
  else match cs.find? isReserved with
    | some c => .error (.reserved (String.ofList cs) c)
    | none => .ok ()

/-- The parts between slashes; there is always at least one, and joining them gives the text back. -/
def segments : List Char → List (List Char)
  | [] => [[]]
  | c :: cs =>
    if c = '/' then [] :: segments cs
    else match segments cs with
      | [] => [[c]]
      | segment :: rest => (c :: segment) :: rest

def checkSegments : List (List Char) → Except NameError Unit
  | [] => .ok ()
  | segment :: rest =>
    match checkUnqualified segment with
    | .ok () => checkSegments rest
    | .error e => .error e

/-- The first offending segment is the one reported. -/
def checkBinary (cs : List Char) : Except NameError Unit :=
  if cs = [] then .error .emptyName else checkSegments (segments cs)

/-- The name of a method or a field. -/
structure UnqualifiedName where
  text : String
  valid : checkUnqualified text.toList = .ok ()
  deriving DecidableEq

def UnqualifiedName.ofString (text : String) : Except NameError UnqualifiedName :=
  match h : checkUnqualified text.toList with
  | .ok () => .ok ⟨text, h⟩
  | .error e => .error e

def UnqualifiedName.init : UnqualifiedName := ⟨"<init>", rfl⟩

def UnqualifiedName.isInit (name : UnqualifiedName) : Bool := name = .init

/-- The name of a class or an interface, with slashes between its packages. -/
structure BinaryName where
  text : String
  valid : checkBinary text.toList = .ok ()
  deriving DecidableEq

def BinaryName.ofString (text : String) : Except NameError BinaryName :=
  match h : checkBinary text.toList with
  | .ok () => .ok ⟨text, h⟩
  | .error e => .error e

/-- Class names are ordered by the code points of their texts. -/
def BinaryName.le (a b : BinaryName) : Bool := a.text ≤ b.text

def BinaryName.sort (names : List BinaryName) : List BinaryName := names.mergeSort BinaryName.le

/-- The class every other class is assignable to. -/
def BinaryName.object : BinaryName := ⟨"java/lang/Object", rfl⟩

/-- The class of text literals. -/
def BinaryName.string : BinaryName := ⟨"java/lang/String", rfl⟩

/-- The class of class literals. -/
def BinaryName.classObject : BinaryName := ⟨"java/lang/Class", rfl⟩

end MethodLocals
