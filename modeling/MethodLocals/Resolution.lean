import MethodLocals.Analysis
import MethodLocals.Table

/-! The passes that resolve the variables of a method: the receiver, the parameters, every access in
the code, and at last the types of references. Each pass works through a list of steps and stops at
the first one that fails; the steps before it stay done. -/

namespace MethodLocals

inductive Pass where
  | receiver | parameters | code | references
  deriving DecidableEq

namespace Pass

def before : Pass → Stage
  | receiver => .empty
  | parameters => .receiverBound
  | code => .parametersBound
  | references => .syntacticallyResolved

def after : Pass → Stage
  | receiver => .receiverBound
  | parameters => .parametersBound
  | code => .syntacticallyResolved
  | references => .refined

def orderMessage : Pass → String
  | receiver => "receiver bound twice"
  | parameters => "parameters must be bound right after the receiver"
  | code => "code must be visited right after parameters are bound"
  | references => "refinement needs the syntactic pass to have run"

end Pass

/-- How a pass ended. A pass out of order does nothing. -/
inductive Outcome where
  | done
  | failed (error : CompileError)
  | outOfOrder (pass : Pass)
  deriving DecidableEq

/-- The type that an analysis found for a reference variable after an instruction. -/
def Analysis.refinedType (a : Analysis) (index : Nat) (name : String) : FieldType :=
  match a.local? index name with
  | some value => .ref value.variableType
  | none => .objectClass

namespace Table

/-- Takes steps one after the other and stops before the first one that fails. -/
def steps {α : Type} (step : Table → α → Except CompileError Table) (t : Table) :
    List α → Table × Option CompileError
  | [] => (t, none)
  | item :: rest =>
    match step t item with
    | .error e => (t, some e)
    | .ok t => t.steps step rest

theorem steps_append {α : Type} (step : Table → α → Except CompileError Table) (t : Table)
    (xs ys : List α) :
    t.steps step (xs ++ ys) = match t.steps step xs with
      | (t, some e) => (t, some e)
      | (t, none) => t.steps step ys := by
  induction xs generalizing t with
  | nil => rfl
  | cons x rest ih =>
    simp only [List.cons_append, steps]
    cases step t x with
    | error e => rfl
    | ok t => exact ih t

def runPass {α : Type} (pass : Pass) (step : Table → α → Except CompileError Table)
    (t : Table) (items : List α) : Table × Outcome :=
  if t.stage ≠ pass.before then (t, .outOfOrder pass)
  else
    let result := t.steps step items
    match result.2 with
    | some e => (result.1, .failed e)
    | none => ({ result.1 with stage := pass.after }, .done)

/-- The use of slot zero by a receiver. -/
def receiverUses (h : Header) : List Use :=
  if h.isStatic then [] else [⟨0, receiverName, .object h.owner, .definition, false⟩]

def bindReceiver (t : Table) (h : Header) : Table × Outcome :=
  t.runPass .receiver use (receiverUses h)

/-- A parameter gets the next free slot, whether its name is bound already or not. -/
def bindParameter (t : Table) (item : Parameter × Nat) : Except CompileError Table :=
  t.use ⟨t.slots.next, item.1.name, item.1.type, .parameter item.2, false⟩

def bindParameters (t : Table) (parameters : List Parameter) : Table × Outcome :=
  t.runPass .parameters bindParameter parameters.zipIdx

/-- A name not bound yet gets the next free slot; otherwise the access has to agree with the type
that the variable was last used with. -/
def resolveAccess (t : Table) (item : Nat × VariableRef) : Except CompileError Table :=
  let (index, ref) := item
  let source := Element.instruction index
  match t.named? ref.name with
  | none => t.use ⟨t.slots.next, ref.name, ref.type, source, false⟩
  | some r =>
    match ref.access.recordedType (some r.last.type) ref.type with
    | .ok type => t.use ⟨r.slot, ref.name, type, source, false⟩
    | .error conflict => .error ⟨source, .typeConflict r.slot ref.name conflict⟩

def resolveCode (t : Table) (code : List Instruction) : Table × Outcome :=
  t.runPass .code resolveAccess (variableRefs code)

def refineAccess (analysis : Analysis) (t : Table) (item : Nat × VariableRef) :
    Except CompileError Table :=
  let (index, ref) := item
  t.use ⟨t.slotFor ref.name, ref.name, analysis.refinedType index ref.name,
    .instruction index, true⟩

/-- The accesses whose types are refined; numbers keep the types that their instructions imply. -/
def referenceAccesses (code : List Instruction) : List (Nat × VariableRef) :=
  (variableRefs code).filter fun item => !item.2.type.isPrimitive

def refine (t : Table) (code : List Instruction) (analysis : Analysis) : Table × Outcome :=
  t.runPass .references (refineAccess analysis) (referenceAccesses code)

/-- Analyses a method and refines its references. A failing analysis is reported whatever the stage
of the table is. -/
def resolveReferences (t : Table) (analyze : FrameSource) (m : Method) : Table × Outcome :=
  match analyze m with
  | .error e => (t, .failed ⟨e.element, .analysis e.reason⟩)
  | .ok analysis => t.refine m.code analysis

/-- Goes on to the next pass if the one before is done. -/
def andThen (result : Table × Outcome) (next : Table → Table × Outcome) : Table × Outcome :=
  match result.2 with
  | .done => next result.1
  | _ => result

/-- The table of a method after all passes, or up to the first one that failed. -/
def resolve (analyze : FrameSource) (m : Method) : Table × Outcome :=
  andThen (andThen (andThen (empty.bindReceiver m.header)
    (·.bindParameters m.header.parameters)) (·.resolveCode m.code))
    (·.resolveReferences analyze m)

end Table

end MethodLocals
