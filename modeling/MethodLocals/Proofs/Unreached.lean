import MethodLocals.Proofs.PairedRuns
import MethodLocals.Proofs.Settling

/-! Instructions that control never reaches. An analysis looks at the labels that they declare and
counts them, and at nothing else of them. -/

namespace MethodLocals

/-- The methods differ only in instructions that control does not reach in the first one, and in
none of their labels. -/
structure Method.SameReached (m n : Method) : Prop where
  header : n.header = m.header
  length_eq : n.code.length = m.code.length
  labels : ∀ (i : Nat) (name : String),
    n.code[i]? = some (Instruction.label name) ↔ m.code[i]? = some (Instruction.label name)
  reached : ∀ i, Reachable m.code i → n.code[i]? = m.code[i]?

def flowTargets (code : List Instruction) (index : Nat) : List Nat :=
  match code[index]? with
  | none => []
  | some instruction =>
    match successors code index instruction with
    | .ok targets => targets
    | .error _ => []

theorem mem_flowTargets_of_flows {code : List Instruction} {i j : Nat} (h : Flows code i j) :
    j ∈ flowTargets code i := by
  obtain ⟨instruction, targets, hcode, htargets, hmem⟩ := h
  rw [flowTargets, hcode]
  dsimp only
  rwa [htargets]

/-- What contains the first instruction and everything that control can go to from its members
contains everything that control reaches. -/
theorem Reachable.mem_of_closed {code : List Instruction} {closed : List Nat}
    (hzero : 0 ∈ closed) (hclosed : ∀ i ∈ closed, ∀ j ∈ flowTargets code i, j ∈ closed) {i : Nat}
    (h : Reachable code i) : i ∈ closed := by
  obtain ⟨-, hpath⟩ := h
  induction hpath with
  | refl => exact hzero
  | tail _ hflow ih => exact hclosed _ ih _ (mem_flowTargets_of_flows hflow)

namespace Method.SameReached

variable {m n : Method}

theorem declaredLabel_eq (h : m.SameReached n) :
    n.code.map Instruction.declaredLabel = m.code.map fun i => i.declaredLabel.map id := by
  refine List.ext_getElem (by simp [h.length_eq]) fun i hi hj => ?_
  have hn : i < n.code.length := by simpa using hi
  have hm : i < m.code.length := by simpa using hj
  have hlabel (name : String) :
      n.code[i] = Instruction.label name ↔ m.code[i] = Instruction.label name := by
    have hlabels := h.labels i name
    rwa [List.getElem?_eq_getElem hn, List.getElem?_eq_getElem hm, Option.some.injEq,
      Option.some.injEq] at hlabels
  rw [List.getElem_map, List.getElem_map, Option.map_id_apply]
  ext name
  rw [Instruction.declaredLabel_eq_some_iff, Instruction.declaredLabel_eq_some_iff, hlabel]

theorem successors_eq (h : m.SameReached n) (i : Nat) (x : Instruction) :
    successors n.code i x = successors m.code i x := by
  have hlabel := labelIndex_rename Function.injective_id h.declaredLabel_eq
  have hjump : jumpSuccessors n.code x = jumpSuccessors m.code x := by
    unfold jumpSuccessors
    simp only [show ∀ name, labelIndex n.code name = labelIndex m.code name from hlabel]
  rw [successors, successors, hjump, h.length_eq]

/-- Labels are where they were, and instructions that control reaches are the same. So single steps
are the same. -/
theorem lockstep (h : m.SameReached n) (a : Analyzer) : a.Lockstep False Eq Eq a m n where
  length_eq := h.length_eq
  unsettled := rfl
  duplicate := by
    rw [duplicateLabel_rename Function.injective_id h.declaredLabel_eq]
    cases duplicateLabel m.code with
    | none => exact .none
    | some found => exact .some ⟨rfl, rfl⟩
  entry := by rw [h.header]
  simulate {i x y f g} hreach hx hy hfg := by
    obtain rfl := hfg
    obtain rfl : x = y := Option.some.inj (hx.symm.trans ((h.reached i hreach).symm.trans hy))
    have hsame : a.simulate n.code i x f = a.simulate m.code i x f := by
      unfold Analyzer.simulate
      rw [h.successors_eq]
    rw [hsame]
    exact .refl (fun _ => rfl) (fun _ => ⟨rfl, rfl⟩) _
  merge hf hf' := by
    obtain rfl := hf
    obtain rfl := hf'
    exact .refl (fun _ => rfl) (fun _ => ⟨rfl, rfl⟩) _

end Method.SameReached

theorem eq_of_alike {x y : Except AnalysisError Analysis}
    (h : Alike False (AnalysisError.Alike Eq) (Analysis.Paired Eq) x y) : y = x := by
  cases h with
  | ok hpaired => rw [hpaired.eq]
  | @error e e' he =>
    obtain ⟨element, reason⟩ := e
    obtain ⟨element', reason'⟩ := e'
    obtain ⟨helement, hreason⟩ := he
    dsimp only at helement hreason
    rw [helement, hreason]
  | excuse hexcused => exact hexcused.elim

namespace Analyzer

variable {a : Analyzer} {m n : Method}

theorem frame?_eq_none_of_not_reachable {rounds : Nat} {result : Analysis}
    (h : a.analyzeWithin rounds m = .ok result) {i : Nat} (hreach : ¬ Reachable m.code i) :
    result.frame? i = none := by
  obtain ⟨p, hrun, hframes⟩ := exists_run_of_analyzeWithin h
  have hend : p.Kept m.code ∧ True ∧ p.pending = [] :=
    run_induction (fun _ _ _ _ => trivial) (Progress.start_kept m) trivial hrun
  have hresult : p.result? i = none := by
    by_contra hne
    exact hreach (hend.1.reachable i (hend.1.simulated i hne))
  rwa [Analysis.frame?, hframes]

/-- What stands at places that control does not reach has no influence on the frames, or on the
error and the element it is about. Only the bound on the simulations depends on it, which is never
met where merges go up. -/
theorem analyze_eq_of_sameReached (h : m.SameReached n) (a : Analyzer) :
    (∀ rounds, a.analyzeWithin rounds n = a.analyzeWithin rounds m) ∧
      (a.analyze m ≠ .error ⟨.definition, .unsettled⟩ →
        a.analyze n ≠ .error ⟨.definition, .unsettled⟩ → a.analyze n = a.analyze m) ∧
      (Nonempty (TypeRank a.inheritance) → a.analyze n = a.analyze m) ∧
      ∀ rounds result, a.analyzeWithin rounds m = .ok result → ∀ i, ¬ Reachable m.code i →
        result.frame? i = none := by
  have hwithin (rounds : Nat) : a.analyzeWithin rounds n = a.analyzeWithin rounds m :=
    eq_of_alike ((h.lockstep a).analyzeWithin rounds)
  have hsettled (hm : a.analyze m ≠ .error ⟨.definition, .unsettled⟩)
      (hn : a.analyze n ≠ .error ⟨.definition, .unsettled⟩) : a.analyze n = a.analyze m := by
    have hleft := analyzeWithin_eq_of_le hm (Nat.le_max_left (a.budget m) (a.budget n))
    have hright := analyzeWithin_eq_of_le hn (Nat.le_max_right (a.budget m) (a.budget n))
    exact hright.symm.trans ((hwithin _).trans hleft)
  refine ⟨hwithin, hsettled, ?_, fun _ _ hresult i => frame?_eq_none_of_not_reachable hresult⟩
  rintro ⟨k⟩
  exact hsettled (analyze_ne_unsettled k m) (analyze_ne_unsettled k n)

/-- A loop with an instruction after its jump back, where control never gets. -/
def countingLoop (unreached : Instruction) : Method where
  header := ⟨.object, "count", .ofList [MethodFlag.static], [⟨"n", .int⟩], none⟩
  code := [.label "again", .load .int "n", .branch (.zero .eq) "end", .increment "n",
    .goto "again", unreached, .label "end", .returnVoid]

theorem reachable_countingLoop {i : Nat} (h : Reachable (countingLoop .pop).code i) :
    i ∈ [0, 1, 2, 3, 4, 6, 7] := h.mem_of_closed (by decide) (by decide)

theorem countingLoop_sameReached :
    (countingLoop .pop).SameReached (countingLoop (.expression "unknown")) where
  header := rfl
  length_eq := rfl
  labels i name := by rcases i with _ | _ | _ | _ | _ | _ | i <;> simp [countingLoop]
  reached i hreach := by
    have hmem := reachable_countingLoop hreach
    simp only [List.mem_cons, List.not_mem_nil, or_false] at hmem
    rcases hmem with rfl | rfl | rfl | rfl | rfl | rfl | rfl <;> rfl

/-- A pop with nothing to take and an expression without an expander. Either would be an error if
control reached it. -/
theorem countingLoop_analyzed : ∃ result : Analysis,
    analyze ⟨none, none⟩ (countingLoop .pop) = .ok result ∧
      analyze ⟨none, none⟩ (countingLoop (.expression "unknown")) = .ok result ∧
      result.frame? 5 = none := by
  obtain ⟨-, -, hsame, hnone⟩ := analyze_eq_of_sameReached countingLoop_sameReached ⟨none, none⟩
  have hreach : ¬ Reachable (countingLoop .pop).code 5 :=
    fun h => absurd (reachable_countingLoop h) (by decide)
  have hok : (analyze ⟨none, none⟩ (countingLoop .pop)).isOk = true := by decide
  cases h : analyze ⟨none, none⟩ (countingLoop .pop) with
  | error e =>
    rw [h] at hok
    cases hok
  | ok result => exact ⟨result, rfl, (hsame ⟨.flat⟩).trans h, hnone _ result h 5 hreach⟩

end Analyzer

end MethodLocals
