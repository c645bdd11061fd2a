import MethodLocals.Flow
import Mathlib.Data.List.Basic
import Mathlib.Logic.Relation

/-! Which instructions control can reach, what labels mean, and what holds of the frame on entry. -/

namespace MethodLocals

variable {code : List Instruction}

/-- Control can go from one instruction right to another: to the target of a jump, or to the next
instruction. -/
def Flows (code : List Instruction) (index next : Nat) : Prop :=
  ∃ instruction targets, code[index]? = some instruction ∧
    successors code index instruction = .ok targets ∧ next ∈ targets

def Reachable (code : List Instruction) (index : Nat) : Prop :=
  0 < code.length ∧ Relation.ReflTransGen (Flows code) 0 index

theorem Reachable.zero (h : 0 < code.length) : Reachable code 0 := ⟨h, .refl⟩

theorem Reachable.tail {i j : Nat} (h : Reachable code i) (hflow : Flows code i j) :
    Reachable code j := ⟨h.1, h.2.tail hflow⟩

theorem jumpSuccessors_lt {instruction : Instruction} {targets : List Nat}
    (h : jumpSuccessors code instruction = .ok targets) : ∀ i ∈ targets, i < code.length := by
  unfold jumpSuccessors at h
  split at h
  · obtain rfl := Except.ok.inj h
    simp
  · split at h
    · rename_i target htarget
      obtain rfl := Except.ok.inj h
      intro i hi
      obtain rfl := List.mem_singleton.1 hi
      exact (List.findIdx?_eq_some_iff_getElem.1 htarget).1
    · cases h

theorem successors_lt {index : Nat} {instruction : Instruction} {targets : List Nat}
    (h : successors code index instruction = .ok targets) : ∀ i ∈ targets, i < code.length := by
  unfold successors at h
  cases hjump : jumpSuccessors code instruction with
  | error e => rw [hjump] at h; cases h
  | ok jumps =>
    rw [hjump] at h
    obtain rfl := Except.ok.inj h
    intro i hi
    rcases List.mem_append.1 hi with hi | hi
    · exact jumpSuccessors_lt hjump i hi
    · split at hi
      · rename_i hfall
        obtain rfl := List.mem_singleton.1 hi
        exact hfall.2
      · cases hi

theorem Flows.lt {i j : Nat} (h : Flows code i j) : j < code.length := by
  obtain ⟨instruction, targets, -, htargets, hmem⟩ := h
  exact successors_lt htargets j hmem

theorem Reachable.lt {i : Nat} (h : Reachable code i) : i < code.length := by
  rcases Relation.ReflTransGen.cases_tail h.2 with rfl | ⟨j, -, hflow⟩
  · exact h.1
  · exact hflow.lt

theorem Instruction.declaredLabel_eq_some_iff {i : Instruction} {name : String} :
    i.declaredLabel = some name ↔ i = .label name := by
  cases i <;> simp [declaredLabel]

section Labels

variable {rename : String → String} (hinj : rename.Injective) {code' : List Instruction}
  (hlabels : code'.map Instruction.declaredLabel = code.map fun i => i.declaredLabel.map rename)

include hinj hlabels

theorem labelIndex_rename (name : String) :
    labelIndex code' (rename name) = labelIndex code name := by
  have hfind : labelIndex code' (rename name) =
      (code'.map Instruction.declaredLabel).findIdx? (· = some (rename name)) := by
    rw [List.findIdx?_map]
    rfl
  rw [hfind, hlabels, List.findIdx?_map]
  refine congrArg (List.findIdx? · code) (funext fun i => ?_)
  cases hlabel : i.declaredLabel with
  | none => simp [hlabel]
  | some other => simp [hlabel, hinj.eq_iff]

theorem duplicateLabelFrom_rename (start : Nat) (seen : List String) :
    duplicateLabelFrom start (seen.map rename) code' =
      (duplicateLabelFrom start seen code).map fun (index, name) => (index, rename name) := by
  induction code generalizing code' start seen with
  | nil =>
    obtain rfl := List.map_eq_nil_iff.1 hlabels
    rfl
  | cons i rest ih =>
    cases code' with
    | nil => cases hlabels
    | cons i' rest' =>
      obtain ⟨hfirst, hrest⟩ := List.cons.inj hlabels
      dsimp only at hfirst
      rw [duplicateLabelFrom, duplicateLabelFrom, hfirst]
      cases i.declaredLabel with
      | none => exact ih hrest (start + 1) seen
      | some name =>
        simp only [Option.map_some, List.mem_map_of_injective hinj]
        split
        · rfl
        · exact ih hrest (start + 1) (name :: seen)

theorem duplicateLabel_rename :
    duplicateLabel code' =
      (duplicateLabel code).map fun (index, name) => (index, rename name) :=
  duplicateLabelFrom_rename hinj hlabels 0 []

end Labels

/-- What setting the receiver and the parameters keeps holds of the frame on entry. -/
theorem Header.entryFrame_induction {h : Header} (Inv : Frame → Prop) (hempty : Inv .empty)
    (hreceiver : ∀ v f, h.receiverValue = some v → Inv f → Inv (f.set receiverName v))
    (hparameter : ∀ p ∈ h.parameters, ∀ f, Inv f → Inv (f.set p.name (.ofType p.type))) :
    Inv h.entryFrame := by
  have hfold : ∀ (ps : List Parameter) (f : Frame), (∀ p ∈ ps, p ∈ h.parameters) → Inv f →
      Inv (ps.foldl (fun frame p => frame.set p.name (.ofType p.type)) f) := by
    intro ps
    induction ps with
    | nil => exact fun f _ hf => hf
    | cons p ps ih =>
      intro f hps hf
      rw [List.forall_mem_cons] at hps
      exact ih _ hps.2 (hparameter p hps.1 f hf)
  unfold entryFrame
  apply hfold _ _ (fun _ hp => hp)
  split
  · rename_i v hv
    exact hreceiver v .empty hv hempty
  · exact hempty

end MethodLocals
