import MethodLocals.Frame
import MethodLocals.Instruction

/-! What instructions do to a frame. Each instruction is a list of actions, and an expression stands
for the actions of the instructions that it expands to. -/

namespace MethodLocals

inductive Action where
  | push (value : Value)
  | pop (width : Nat)
  /-- Takes one value of width two, or two of width one. -/
  | popPair
  | dup
  | swap
  /-- Pushes a variable that holds a reference. -/
  | loadRef (name : String)
  | set (name : String) (value : Value)
  /-- Moves the topmost value into a variable. -/
  | storeTop (name : String)
  /-- Takes an array and pushes one of its elements. -/
  | element
  /-- Takes the receiver of a constructor, every copy of which is an object from here on. -/
  | construct
  | fail (error : FlowError)
  deriving DecidableEq

/-- Tells which instructions an expression stands for, or why there are none. Expressions inside of
an expansion are expanded in turn, at most `nesting` times. -/
structure Expander where
  expand : String → Except String (List Instruction)
  nesting : Nat

/-- An expander with one entry for each expression it knows. Expansions that do not contain
themselves cannot be nested more often than there are entries. -/
def Expander.ofEntries (entries : List (String × Except String (List Instruction))) : Expander where
  expand text :=
    match entries.lookup text with
    | some expansion => expansion
    | none => .error s!"cannot expand '{text}'"
  nesting := entries.length

def Constant.value : Constant → Value
  | .number kind => .ofKind kind
  | .text value => .textConstant value
  | .classLiteral type => .classConstant type

namespace Value

/-- An element taken out of an array; nothing is known of it unless it is a reference. -/
def elementOf (array : Value) : Value :=
  match array.referenceType.bind RefType.component with
  | some (.ref r) => object r
  | _ => top

end Value

/-- The result of a method goes onto the stack. -/
def returnActions : Option FieldType → List Action
  | none => []
  | some t => [.push (.ofType t)]

/-- The receiver lies below the arguments, and a static method has none. -/
def receiverActions (kind : InvokeKind) (name : UnqualifiedName) : List Action :=
  match kind with
  | .static => []
  | .special => if name.isInit then [.construct] else [.pop 1]
  | .virtual | .interface => [.pop 1]

/-- Arguments are taken from the last one to the first. -/
def invokeActions (kind : InvokeKind) (ref : MethodRef) : List Action :=
  ref.descriptor.parameters.reverse.map (.pop ·.width) ++ receiverActions kind ref.name ++
    returnActions ref.descriptor.returns

def fieldActions (access : FieldAccess) (t : FieldType) : List Action :=
  match access with
  | .getStatic => [.push (.ofType t)]
  | .putStatic => [.pop t.width]
  | .getField => [.pop 1, .push (.ofType t)]
  | .putField => [.pop t.width, .pop 1]

def Instruction.ownActions : Instruction → List Action
  | label _ | nop | goto _ | returnVoid | expression _ => []
  | pushNull => [.push .null]
  | push kind => [.push (.ofKind kind)]
  | ldc constant => [.push constant.value]
  | load kind _ => [.push (.ofKind kind)]
  | loadRef name => [.loadRef name]
  | store kind name => [.pop kind.width, .set name (.ofKind kind)]
  | storeRef name => [.storeTop name]
  | increment name => [.set name .int]
  | pop | throw | monitor _ | returnRef => [.pop 1]
  | pop2 => [.popPair]
  | dup => [.dup]
  | swap => [.swap]
  | arithmetic op => [.pop op.kind.width, .pop op.kind.width, .push (.ofKind op.kind)]
  | convert conversion => [.pop conversion.source.width, .push (.ofKind conversion.target)]
  | new name => [.push (.uninit name)]
  | newArray element => [.pop 1, .push (.object (.arrayOf (.base element)))]
  | newRefArray element => [.pop 1, .push (.object (.arrayOf (.ref element)))]
  | arrayLength | instanceOf _ => [.pop 1, .push .int]
  | loadElement => [.pop 1, .element]
  | storeElement => [.pop 1, .pop 1, .pop 1]
  | checkCast type => [.pop 1, .push (.object type)]
  | field access ref => fieldActions access ref.type
  | invoke kind ref => invokeActions kind ref
  | branch condition _ => List.replicate condition.operands (.pop 1)
  | returnNumber kind => [.pop kind.width]

def Instruction.actionsWithin (expander : Option Expander) : Nat → Instruction → List Action
  | depth, expression text =>
    match expander with
    | none => [.fail (.unexpandedExpression text)]
    | some e =>
      match e.expand text, depth with
      | .error reason, _ => [.fail (.expansion reason)]
      | .ok _, 0 => [.fail (.expansion s!"expansion of '{text}' does not end")]
      | .ok body, depth + 1 => body.flatMap (actionsWithin expander depth)
  | _, instruction => instruction.ownActions

/-- The actions of an instruction. Labels and jumps inside of an expansion only act on the stack. -/
def Instruction.actions (expander : Option Expander) (instruction : Instruction) : List Action :=
  instruction.actionsWithin expander (expander.elim 0 Expander.nesting)

/-- A reference as it is loaded from a variable; nothing is known of anything else. -/
def Frame.loaded (f : Frame) (name : String) : Value :=
  match f.get? name with
  | some value => if value.isReference then value else .top
  | none => .top

def Frame.construct (f : Frame) (receiver : Value) : Frame :=
  match receiver.underConstruction with
  | some name => f.replaceAll receiver (.object (.object name))
  | none => f

def Action.run (f : Frame) : Action → Except FlowError Frame
  | push value => .ok (f.push value)
  | pop width => (f.popWidth width).map (·.2)
  | popPair =>
    match f.pop with
    | .error e => .error e
    | .ok (value, f) => if value.width = 1 then (f.popWidth 1).map (·.2) else .ok f
  | dup => (f.popWidth 1).map fun (value, f) => (f.push value).push value
  | swap =>
    match f.popWidth 1 with
    | .error e => .error e
    | .ok (first, f) => (f.popWidth 1).map fun (second, f) => (f.push first).push second
  | loadRef name => .ok (f.push (f.loaded name))
  | set name value => .ok (f.set name value)
  | storeTop name => (f.popWidth 1).map fun (value, f) => f.set name value
  | element => (f.popWidth 1).map fun (array, f) => f.push array.elementOf
  | construct => (f.popWidth 1).map fun (receiver, f) => f.construct receiver
  | fail error => .error error

def Frame.runAll (f : Frame) : List Action → Except FlowError Frame
  | [] => .ok f
  | action :: rest =>
    match action.run f with
    | .error e => .error e
    | .ok f => f.runAll rest

def Frame.execute (f : Frame) (expander : Option Expander) (instruction : Instruction) :
    Except FlowError Frame :=
  f.runAll (instruction.actions expander)

theorem Frame.runAll_append (f : Frame) (xs ys : List Action) :
    f.runAll (xs ++ ys) = match f.runAll xs with
      | .error e => .error e
      | .ok g => g.runAll ys := by
  induction xs generalizing f with
  | nil => rfl
  | cons action rest ih =>
    simp only [List.cons_append, runAll]
    cases action.run f with
    | error e => rfl
    | ok g => exact ih g

end MethodLocals
