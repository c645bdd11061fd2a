import MethodLocals.Descriptor.Reader
import MethodLocals.Text.Lines
import MethodLocals.Text.Quoted
import MethodLocals.Resolution

/-! The slots that the receiver and the parameters of a method take, printed one to a row. -/

namespace MethodLocals

/-- A method whose slots are to be printed. Parameters without a given name are named by their
positions. -/
structure LayoutRequest where
  owner : String
  isStatic : Bool
  descriptor : String
  names : List String

inductive LayoutError where
  | owner (error : NameError)
  | descriptor (error : DescriptorError)
  | tooManyNames (given declared : Nat)
  | table (error : CompileError)
  deriving DecidableEq

namespace Layout

def defaultOwner : String := BinaryName.object.text

def defaultName (index : Nat) : String := s!"arg{index}"

/-- The parameters of these types, the first ones with the given names. -/
def nameParameters (types : List FieldType) (names : List String) : List Parameter :=
  types.zipIdx.map fun (type, i) => ⟨names[i]?.getD (defaultName i), type⟩

def header (owner : BinaryName) (isStatic : Bool) (descriptor : MethodDescriptor)
    (names : List String) : Header where
  owner := owner
  name := "method"
  flags := .ofList (MethodFlag.public :: if isStatic then [MethodFlag.static] else [])
  parameters := nameParameters descriptor.parameters names
  returns := descriptor.returns

def bind (h : Header) : Table × Outcome :=
  Table.andThen (Table.empty.bindReceiver h) (·.bindParameters h.parameters)

/-- The owner is checked first, then the descriptor, then the number of names. -/
def table (request : LayoutRequest) : Except LayoutError Table :=
  match BinaryName.ofString request.owner with
  | .error e => .error (.owner e)
  | .ok owner =>
    match (Descriptor.parse request.descriptor : Except DescriptorError MethodDescriptor) with
    | .error e => .error (.descriptor e)
    | .ok descriptor =>
      if descriptor.parameters.length < request.names.length then
        .error (.tooManyNames request.names.length descriptor.parameters.length)
      else
        let bound := bind (header owner request.isStatic descriptor request.names)
        match bound.2 with
        | .failed e => .error (.table e)
        | _ => .ok bound.1

def padLeft (width : Nat) (text : String) : String :=
  "".pushn ' ' (width - text.length) ++ text

def padRight (width : Nat) (text : String) : String :=
  text.pushn ' ' (width - text.length)

/-- Slot, name and type in columns, and a mark if the slot is wide. -/
def row (r : Record) : String :=
  padLeft 5 (toString r.slot) ++ "  " ++ padRight 24 r.name ++ " " ++ Descriptor.render r.last.type ++
    if r.wide then " (wide)" else ""

def rows (t : Table) : List String :=
  t.sorted.map row ++ [s!"max_locals = {t.maxLocals}"]

def render (request : LayoutRequest) : Except LayoutError (List String) :=
  (table request).map rows

/-- A row takes more than one line if a name in it holds the end of a line. -/
def lines (printed : List String) : List String := printed.flatMap linesOf

end Layout

/-- A value as a record: its kind and the texts of its fields. -/
def recordText (kind : String) (fields : List (String × String)) : String :=
  kind ++ " \x7b " ++ ", ".intercalate (fields.map fun (name, text) => name ++ ": " ++ text) ++
    " \x7d"

def SlotConflict.recordText : SlotConflict → String
  | .reservedTail slot => MethodLocals.recordText "ReservedWideSlot" [("slot", toString slot)]
  | .tooManyLocals slot width =>
    MethodLocals.recordText "TooManyLocals" [("slot", toString slot), ("width", toString width)]

def Element.recordText : Element → String
  | .definition => "Definition"
  | .parameter index => s!"Parameter({index})"
  | .instruction index => s!"Instruction({index})"

/-- Slots can only run out while receiver and parameters are bound, so no other fault is shown as
more than its message. -/
def CompileError.recordText (e : CompileError) : String :=
  match e.fault with
  | .allocation conflict =>
    MethodLocals.recordText "MethodCompileError" [("element", e.element.recordText),
      ("kind", s!"AllocationConflict({conflict.recordText})")]
  | _ => quote e.message

def DescriptorError.recordText (e : DescriptorError) : String :=
  MethodLocals.recordText "Custom"
    [("kind", if e.isTruncation then "UnexpectedEof" else "InvalidInput"),
      ("error", quote e.message)]

def LayoutError.report : LayoutError → String
  | .owner e => "Error: " ++ quote e.message
  | .descriptor e => "Error: " ++ e.recordText
  | .tooManyNames given declared =>
    "Error: " ++ quote s!"{given} names given for {declared} parameters"
  | .table e => "Error: " ++ e.recordText

end MethodLocals
