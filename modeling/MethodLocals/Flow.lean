import MethodLocals.Action
import MethodLocals.Method

/-! Control flow inside of a method body, and the frame on entry. -/

namespace MethodLocals

def labelIndex (code : List Instruction) (name : String) : Option Nat :=
  code.findIdx? (·.declaredLabel = some name)

/-- The first instruction that declares a label again, `start` being the index of the first
instruction of `code` and `seen` the labels declared before it. -/
def duplicateLabelFrom (start : Nat) (seen : List String) :
    List Instruction → Option (Nat × String)
  | [] => none
  | instruction :: rest =>
    match instruction.declaredLabel with
    | none => duplicateLabelFrom (start + 1) seen rest
    | some name =>
      if name ∈ seen then some (start, name)
      else duplicateLabelFrom (start + 1) (name :: seen) rest

def duplicateLabel (code : List Instruction) : Option (Nat × String) :=
  duplicateLabelFrom 0 [] code

def jumpSuccessors (code : List Instruction) (instruction : Instruction) :
    Except FlowError (List Nat) :=
  match instruction.jumpTarget with
  | none => .ok []
  | some name =>
    match labelIndex code name with
    | some target => .ok [target]
    | none => .error (.unknownLabel name)

/-- The instructions that can run right after the one at `index`: the target of a jump, then the
next instruction. -/
def successors (code : List Instruction) (index : Nat) (instruction : Instruction) :
    Except FlowError (List Nat) :=
  (jumpSuccessors code instruction).map
    (· ++ if instruction.fallsThrough ∧ index + 1 < code.length then [index + 1] else [])

/-- What is known of the receiver on entry; a constructor has yet to initialize it. -/
def Header.receiverValue (h : Header) : Option Value :=
  if h.isStatic then none
  else if h.isConstructor then some (.uninitThis h.owner)
  else some (.object (.object h.owner))

/-- The frame on entry: the receiver, then the parameters, the last one of a name winning. -/
def Header.entryFrame (h : Header) : Frame :=
  let receiver := match h.receiverValue with
    | some value => Frame.empty.set receiverName value
    | none => Frame.empty
  h.parameters.foldl (fun frame p => frame.set p.name (.ofType p.type)) receiver

end MethodLocals
