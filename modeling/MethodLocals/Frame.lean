import MethodLocals.Locals

/-! Frames: the local variables and the operand stack at a point of a method, and what can go wrong
when they are computed. -/

namespace MethodLocals

inductive FlowError where
  | emptyStack
  | invalidWidth (expected found : Nat)
  | heightMismatch (expected found : Nat)
  | unknownLabel (name : String)
  | duplicateLabel (name : String)
  | missingClass (error : MissingClass)
  | unexpandedExpression (text : String)
  | expansion (reason : String)
  /-- The frames still change after as many rounds as the inheritance allows. -/
  | unsettled
  deriving DecidableEq

def FlowError.message : FlowError → String
  | .emptyStack => "cannot pop from an empty stack"
  | .invalidWidth expected found =>
    s!"expected a value of width {expected} on the stack, but found width {found}"
  | .heightMismatch expected found => s!"cannot merge stacks of height {expected} and {found}"
  | .unknownLabel name => s!"jump to undeclared label '{name}'"
  | .duplicateLabel name => s!"label '{name}' is declared more than once"
  | .missingClass error => error.message
  | .unexpandedExpression text => s!"no expression expander to expand '{text}'"
  | .expansion reason => s!"failed to expand expression: {reason}"
  | .unsettled => "frames keep changing"

/-- Local variables and the operand stack, with the top of the stack first. -/
structure Frame where
  locals : Locals
  stack : List Value
  deriving DecidableEq

namespace Frame

def empty : Frame := ⟨.empty, []⟩

def get? (f : Frame) (name : String) : Option Value := f.locals.get? name

def set (f : Frame) (name : String) (value : Value) : Frame :=
  { f with locals := f.locals.set name value }

def push (f : Frame) (value : Value) : Frame := { f with stack := value :: f.stack }

/-- The topmost value and the frame without it. -/
def pop (f : Frame) : Except FlowError (Value × Frame) :=
  match f.stack with
  | [] => .error .emptyStack
  | value :: stack => .ok (value, { f with stack })

/-- A value taken from the stack has to have the width that the instruction asks for. -/
def checkWidth (width : Nat) (value : Value) : Except FlowError Value :=
  if value.width = width then .ok value else .error (.invalidWidth width value.width)

/-- Takes the topmost value, which is gone also if it does not have the width asked for. -/
def take (f : Frame) (width : Nat) : Except FlowError Value × Frame :=
  match f.stack with
  | [] => (.error .emptyStack, f)
  | value :: stack => (checkWidth width value, { f with stack })

def popWidth (f : Frame) (width : Nat) : Except FlowError (Value × Frame) :=
  let taken := f.take width
  taken.1.map (·, taken.2)

def replaceAll (f : Frame) (target replacement : Value) : Frame :=
  let replace := fun value => if value = target then replacement else value
  ⟨f.locals.map replace, f.stack.map replace⟩

/-- The stack where another one of the same height flows in, merged from the bottom upwards; what
lies below a failure stays merged. -/
def mergeStacks (inheritance : Option Inheritance) :
    List Value → List Value → List Value × Option MissingClass
  | v :: vs, w :: ws =>
    let below := mergeStacks inheritance vs ws
    match below.2 with
    | some e => (v :: below.1, some e)
    | none =>
      match v.merge inheritance w with
      | .error e => (v :: below.1, some e)
      | .ok merged => (merged :: below.1, none)
  | vs, _ => (vs, none)

/-- The frame where another one flows in, and what stopped the merge: stacks have to be of one
height, and are merged before the locals. -/
def mergeParts (inheritance : Option Inheritance) (f other : Frame) : Frame × Option FlowError :=
  if f.stack.length ≠ other.stack.length then
    (f, some (.heightMismatch f.stack.length other.stack.length))
  else
    let stack := mergeStacks inheritance f.stack other.stack
    match stack.2 with
    | some e => (⟨f.locals, stack.1⟩, some (.missingClass e))
    | none =>
      let locals := f.locals.merge inheritance other.locals
      (⟨locals.1, stack.1⟩, locals.2.map .missingClass)

/-- The frame where another one flows in, and whether that changed it. -/
def merge (inheritance : Option Inheritance) (f other : Frame) : Frame × Except FlowError Bool :=
  let merged := f.mergeParts inheritance other
  match merged.2 with
  | some e => (merged.1, .error e)
  | none => (merged.1, .ok (merged.1 ≠ f))

theorem get?_set (f : Frame) (other : String) (value : Value) (name : String) :
    (f.set other value).get? name = if name = other then some value else f.get? name :=
  f.locals.get?_set other name value

@[simp] theorem get?_empty (name : String) : empty.get? name = none := rfl

@[simp] theorem push_stack (f : Frame) (value : Value) :
    (f.push value).stack = value :: f.stack := rfl

@[simp] theorem push_locals (f : Frame) (value : Value) : (f.push value).locals = f.locals := rfl

@[simp] theorem set_stack (f : Frame) (name : String) (value : Value) :
    (f.set name value).stack = f.stack := rfl

@[simp] theorem pop_push (f : Frame) (value : Value) : (f.push value).pop = .ok (value, f) := rfl

end Frame

end MethodLocals
