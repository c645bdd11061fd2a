import MethodLocals.Proofs.Fixpoint
import MethodLocals.Proofs.FrameOrder
import MethodLocals.Proofs.KnownClasses

/-! The frames that an analysis ends with, in the order that an order of classes gives frames. -/

namespace MethodLocals

def TypeOrder.frameOrder {inheritance : Option Inheritance} (o : TypeOrder inheritance) :
    FrameOrder inheritance where
  Le := o.FrameLe
  Known := o.KnownFrame
  refl := .refl o
  trans := .trans
  le_of_merges := le_of_merges

namespace Analyzer

variable {a : Analyzer} {o : TypeOrder a.inheritance} {m : Method}

/-- A fixpoint in which frames mention known classes only, and go up in their order. -/
abbrev Solution (a : Analyzer) (o : TypeOrder a.inheritance) (m : Method) (result : Analysis)
    (entry : Nat → Frame) : Prop := a.Fixpoint o.frameOrder m result entry

theorem exists_solution (hknows : o.KnowsMethod a.expander m) {rounds : Nat} {result : Analysis}
    (h : a.analyzeWithin rounds m = .ok result) : ∃ entry, a.Solution o m result entry := by
  have hknowsFrames : o.frameOrder.KnowsMethod a.expander m :=
    ⟨hknows.entryFrame, fun hi hf hexecute => hknows.execute hi hf hexecute⟩
  exact exists_fixpoint hknowsFrames h

end Analyzer

end MethodLocals
