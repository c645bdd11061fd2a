import MethodLocals.Proofs.Solution

/-! The frames of a method solve the equations of its data flow: each entry frame has taken in the
frames of all instructions that control can come from, and nothing would change any more. -/

namespace MethodLocals

namespace Analyzer

variable {a : Analyzer} {o : TypeOrder a.inheritance} {m : Method}

/-- The frames after the instructions, with the frames that they are entered with, solve the
equations of the data flow: whatever flows into an entry frame leaves it as it is. -/
structure Postfixpoint (a : Analyzer) (m : Method) (result : Analysis) (entry : Nat → Frame) :
    Prop where
  length_eq : result.frames.length = m.code.length
  present_iff : ∀ i, (∃ out, result.frame? i = some out) ↔ Reachable m.code i
  executed : ∀ i instruction, Reachable m.code i → m.code[i]? = some instruction →
    ∃ targets out, successors m.code i instruction = .ok targets ∧
      (entry i).execute a.expander instruction = .ok out ∧ result.frame? i = some out ∧
      ∀ s ∈ targets, (entry s).merge a.inheritance out = (entry s, .ok false)
  start : m.code ≠ [] →
    (entry 0).merge a.inheritance m.header.entryFrame = (entry 0, .ok false)

theorem Solution.postfixpoint {result : Analysis} {entry : Nat → Frame}
    (h : a.Solution o m result entry) (hknows : o.KnowsMethod a.expander m) :
    a.Postfixpoint m result entry where
  length_eq := h.length_eq
  present_iff := h.present_iff
  executed i instruction hreach hcode := by
    obtain ⟨targets, out, htargets, hexecute, hresult, hle⟩ :=
      h.executed i instruction hreach hcode
    refine ⟨targets, out, htargets, hexecute, hresult, fun s hs => ?_⟩
    have hreach' := hreach.tail ⟨instruction, targets, hcode, htargets, hs⟩
    have hout := hknows.execute (List.mem_of_getElem? hcode) (h.known i hreach) hexecute
    exact TypeOrder.merge_of_frameLe (h.known s hreach') hout (hle s hs)
  start hne := by
    have hreach := Reachable.zero (List.length_pos_iff.2 hne)
    exact TypeOrder.merge_of_frameLe (h.known 0 hreach) hknows.entryFrame (h.start hne)

/-- There is no inheritance, or it is that of a well-formed graph in which all classes are known
that the method names, and those of literals. -/
inductive Covers : Analyzer → Method → Prop
  | none (expander : Option Expander) (m : Method) : Covers ⟨.none, expander⟩ m
  | graph {g : ClassGraph} {expander : Option Expander} {m : Method} (hg : g.WellFormed)
    (hstring : g.Knows .string) (hclass : g.Knows .classObject)
    (hmentioned : ∀ name, m.Mentions expander name → g.Knows name) :
    Covers ⟨some g.inheritance, expander⟩ m

theorem Covers.exists_typeOrder {a : Analyzer} (h : a.Covers m) :
    ∃ o : TypeOrder a.inheritance, o.KnowsMethod a.expander m := by
  cases h with
  | none => exact ⟨.flat, trivial, trivial, fun _ _ => trivial⟩
  | graph hg hstring hclass hmentioned => exact ⟨hg.typeOrder, hstring, hclass, hmentioned⟩

/-- A successful analysis covers exactly the instructions that control can reach, and solves the
equations of their data flow. -/
theorem postfixpoint_of_analyze {a : Analyzer} {m : Method} (hcovers : a.Covers m) {rounds : Nat}
    {result : Analysis} (h : a.analyzeWithin rounds m = .ok result) :
    ∃ entry, a.Postfixpoint m result entry := by
  obtain ⟨o, hknows⟩ := hcovers.exists_typeOrder
  obtain ⟨entry, hsolution⟩ := exists_solution hknows h
  exact ⟨entry, hsolution.postfixpoint hknows⟩

def literalGraph : ClassGraph :=
  ⟨[⟨.object, none, [], .ofList []⟩, ⟨.string, some .object, [], .ofList []⟩,
    ⟨.classObject, some .object, [], .ofList []⟩]⟩

/-- A variable that is null at first holds a text at the end of each turn of a loop. -/
def refilled : Method where
  header := ⟨.object, "run", .ofBits _ 8, [], none⟩
  code := [.pushNull, .storeRef "x", .label "again", .ldc (.text "y"), .storeRef "x", .push .int,
    .branch (.zero .eq) "again", .returnVoid]

theorem literalGraph_wellFormed : literalGraph.WellFormed := by
  refine .of_fits (.of_rank (literalGraph.classes.map ClassInfo.name).idxOf ?_ ?_) ?_ ?_
  · decide
  · decide
  · decide
  · decide

theorem literalGraph_covers : Covers ⟨some literalGraph.inheritance, none⟩ refilled := by
  refine .graph literalGraph_wellFormed ⟨_, rfl⟩ ⟨_, rfl⟩ ?_
  rintro name (hname | ⟨i, hi, hname⟩)
  · obtain rfl := List.mem_singleton.1 hname
    exact ⟨_, rfl⟩
  · cases hname with
    | own h =>
      have hnone : ∀ i ∈ refilled.code, i.classNames = [] := by decide
      rw [hnone i hi] at h
      cases h
    | expansion he => cases he

theorem refilled_postfixpoint :
    ∃ result entry, analyze ⟨some literalGraph.inheritance, none⟩ refilled = .ok result ∧
      Postfixpoint ⟨some literalGraph.inheritance, none⟩ refilled result entry := by
  have hok : (analyze ⟨some literalGraph.inheritance, none⟩ refilled).isOk = true := by decide
  cases h : analyze ⟨some literalGraph.inheritance, none⟩ refilled with
  | error e =>
    rw [h] at hok
    cases hok
  | ok result =>
    obtain ⟨entry, hpost⟩ := postfixpoint_of_analyze literalGraph_covers h
    exact ⟨result, entry, rfl, hpost⟩

end Analyzer

end MethodLocals
