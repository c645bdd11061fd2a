import MethodLocals.Flow

/-! Data-flow analysis of a method body. Each instruction has an entry frame into which the frames
after its predecessors are merged, and instructions whose entry frame has changed are simulated
again until none is left. -/

namespace MethodLocals

/-- The frame after each instruction; none for an instruction that control never reaches. -/
structure Analysis where
  frames : List (Option Frame)
  deriving DecidableEq

def Analysis.frame? (a : Analysis) (index : Nat) : Option Frame := a.frames[index]?.join

/-- What was known of a variable right after an instruction. -/
def Analysis.local? (a : Analysis) (index : Nat) (name : String) : Option Value :=
  (a.frame? index).bind (·.get? name)

structure AnalysisError where
  element : Element
  reason : FlowError
  deriving DecidableEq

def AnalysisError.message (e : AnalysisError) : String :=
  s!"{e.element.render}: {e.reason.message}"

/-- Anything that finds the frames of a method. -/
abbrev FrameSource := Method → Except AnalysisError Analysis

/-- How far an analysis has come: the instructions still to be simulated, the next one first, which
instructions are among them, and for each instruction the frame it is entered with and the frame
that it left when it was last simulated. -/
structure Progress where
  pending : List Nat
  queued : List Bool
  entries : List (Option Frame)
  results : List (Option Frame)
  deriving DecidableEq

namespace Progress

/-- Only the first instruction is entered at the start. -/
def start (m : Method) : Progress where
  pending := if m.code = [] then [] else [0]
  queued := (List.replicate m.code.length false).set 0 true
  entries := (List.replicate m.code.length none).set 0 (some m.header.entryFrame)
  results := List.replicate m.code.length none

def entryFrame? (p : Progress) (index : Nat) : Option Frame := p.entries[index]?.join

def isQueued (p : Progress) (index : Nat) : Bool := p.queued[index]?.getD false

/-- Takes the instruction `index`, which is the next one, off the pending ones. -/
def dequeue (p : Progress) (index : Nat) (rest : List Nat) : Progress :=
  { p with pending := rest, queued := p.queued.set index false }

/-- Puts an instruction before the other pending ones unless it is one of them. -/
def enqueue (p : Progress) (index : Nat) : Progress :=
  if p.isQueued index then p
  else { p with pending := index :: p.pending, queued := p.queued.set index true }

def setEntry (p : Progress) (index : Nat) (frame : Frame) : Progress :=
  { p with entries := p.entries.set index (some frame) }

def setResult (p : Progress) (index : Nat) (frame : Frame) : Progress :=
  { p with results := p.results.set index (some frame) }

/-- Lets a frame flow into an instruction, which is simulated again if that changed its entry. -/
def receive (inheritance : Option Inheritance) (frame : Frame) (p : Progress) (index : Nat) :
    Except AnalysisError Progress :=
  match p.entryFrame? index with
  | none => .ok ((p.setEntry index frame).enqueue index)
  | some held =>
    let merged := held.merge inheritance frame
    match merged.2 with
    | .error e => .error ⟨.instruction index, e⟩
    | .ok true => .ok ((p.setEntry index merged.1).enqueue index)
    | .ok false => .ok p

def receiveAll (inheritance : Option Inheritance) (frame : Frame) (p : Progress) :
    List Nat → Except AnalysisError Progress
  | [] => .ok p
  | index :: rest =>
    match p.receive inheritance frame index with
    | .error e => .error e
    | .ok p => p.receiveAll inheritance frame rest

end Progress

/-- Simulates methods. Without inheritance, different classes have only the class of all objects in
common; without an expander, an expression that control reaches is an error. -/
structure Analyzer where
  inheritance : Option Inheritance
  expander : Option Expander

namespace Analyzer

def simulate (a : Analyzer) (code : List Instruction) (index : Nat) (instruction : Instruction)
    (entry : Frame) : Except FlowError (Frame × List Nat) :=
  match entry.execute a.expander instruction with
  | .error e => .error e
  | .ok frame => (successors code index instruction).map (frame, ·)

def visit (a : Analyzer) (code : List Instruction) (index : Nat) (p : Progress) :
    Except AnalysisError Progress :=
  match p.entryFrame? index, code[index]? with
  | some entry, some instruction =>
    match a.simulate code index instruction entry with
    | .error e => .error ⟨.instruction index, e⟩
    | .ok (frame, next) =>
      (p.receiveAll a.inheritance frame next).map (·.setResult index frame)
  | _, _ => .ok p

def run (a : Analyzer) (code : List Instruction) :
    Nat → Progress → Except AnalysisError Progress
  | rounds, p =>
    match p.pending, rounds with
    | [], _ => .ok p
    | _ :: _, 0 => .error ⟨.definition, .unsettled⟩
    | index :: rest, rounds + 1 =>
      match a.visit code index (p.dequeue index rest) with
      | .error e => .error e
      | .ok p => run a code rounds p

/-- A bound on the number of simulations. An entry frame appears once, gains each variable at most
once, and each of its values goes up a bounded number of times; variables and stack entries all come
from parameters and actions. -/
def budget (a : Analyzer) (m : Method) : Nat :=
  let actions := (m.code.flatMap (·.actions a.expander)).length
  let height := a.inheritance.elim 0 Inheritance.height + 3
  1 + m.code.length * (1 + (m.header.parameters.length + 1 + 2 * actions) * (height + 1))

/-- The frames of a method, given up after a number of simulations. Labels are checked before
anything is simulated. -/
def analyzeWithin (a : Analyzer) (rounds : Nat) (m : Method) : Except AnalysisError Analysis :=
  match duplicateLabel m.code with
  | some (index, name) => .error ⟨.instruction index, .duplicateLabel name⟩
  | none => (a.run m.code rounds (Progress.start m)).map fun p => ⟨p.results⟩

def analyze (a : Analyzer) (m : Method) : Except AnalysisError Analysis :=
  a.analyzeWithin (a.budget m) m

end Analyzer

end MethodLocals
