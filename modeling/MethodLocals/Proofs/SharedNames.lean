import MethodLocals.Proofs.Definedness
import MethodLocals.Proofs.History

/-! The variables of a table beside those of an analysis. The table has slots for the receiver, the
parameters and everything that the code itself accesses. Frames have these variables as well, and
beyond them only what expressions stand for: expressions are expanded when frames are computed, and
no pass over the code looks into them. -/

namespace MethodLocals

def Method.HasVariable (m : Method) (name : String) : Prop :=
  m.header.Defines name ∨ ∃ i ∈ m.code, ∃ ref, i.variableRef = some ref ∧ ref.name = name

/-- An expression on the path stands for something that defines the variable. -/
def Method.ExpandsOn (m : Method) (expander : Option Expander) (path : List Nat) (name : String) :
    Prop :=
  ∃ j ∈ path, ∃ text, m.code[j]? = some (.expression text) ∧
    (Instruction.expression text).Defines expander name

/-- The table has slots for the variables of the method, and frames have other ones only where
expressions on the way define them. -/
structure Method.SharesNames (m : Method) (expander : Option Expander) (t : Table)
    (result : Analysis) : Prop where
  slot_iff : ∀ name, (t.slotOf? name).isSome = true ↔ m.HasVariable name
  unshared_iff : ∀ index frame name, result.frame? index = some frame → t.slotOf? name = none →
    ((frame.get? name).isSome = true ↔
      ∃ path, IsPath m.code (path ++ [index]) ∧ m.ExpandsOn expander (path ++ [index]) name)

variable {expander : Option Expander} {m : Method} {path : List Nat} {name : String}

theorem exists_mem_variableRefs_iff {code : List Instruction} (name : String) :
    (∃ item ∈ variableRefs code, item.2.name = name) ↔
      ∃ i ∈ code, ∃ ref, i.variableRef = some ref ∧ ref.name = name := by
  constructor
  · rintro ⟨⟨j, ref⟩, hitem, hname⟩
    obtain ⟨i, hi, href⟩ := Option.bind_eq_some_iff.1 (mem_variableRefs_iff.1 hitem)
    exact ⟨i, List.mem_of_getElem? hi, ref, href, hname⟩
  · rintro ⟨i, hi, ref, href, hname⟩
    obtain ⟨j, hj⟩ := List.mem_iff_getElem?.1 hi
    exact ⟨(j, ref), mem_variableRefs_iff.2 (Option.bind_eq_some_iff.2 ⟨i, hj, href⟩), hname⟩

theorem exists_name_iff_of_mentions {us : List Use} {ms : List Mention}
    (h : us.map Use.mention = ms) (name : String) :
    (∃ u ∈ us, u.name = name) ↔ ∃ b ∈ ms, b.name = name := by
  simp only [← h, List.mem_map, exists_exists_and_eq_and]
  rfl

/-- Instructions other than expressions define only what they access. -/
theorem Instruction.Defines.accesses_or_expression {i : Instruction} (h : i.Defines expander name) :
    (∃ ref, i.variableRef = some ref ∧ ref.name = name) ∨ ∃ text, i = .expression text := by
  cases h with
  | own hsets =>
    unfold setsVariable at hsets
    split at hsets
    · rename_i ref href
      exact .inl ⟨ref, href, (of_decide_eq_true hsets).1⟩
    · cases hsets
  | expanded => exact .inr ⟨_, rfl⟩

theorem Method.DefinesOn.hasVariable_or_expandsOn (h : m.DefinesOn expander path name) :
    m.HasVariable name ∨ m.ExpandsOn expander path name := by
  rcases h with hheader | ⟨j, hj, i, hcode, hdefines⟩
  · exact .inl (.inl hheader)
  · rcases hdefines.accesses_or_expression with href | ⟨text, rfl⟩
    · exact .inl (.inr ⟨i, List.mem_of_getElem? hcode, href⟩)
    · exact .inr ⟨j, hj, text, hcode, hdefines⟩

theorem Method.ExpandsOn.definesOn (h : m.ExpandsOn expander path name) :
    m.DefinesOn expander path name := by
  obtain ⟨j, hj, text, hcode, hdefines⟩ := h
  exact .inr ⟨j, hj, _, hcode, hdefines⟩

namespace Table

variable {us : List Use} {t : Table}

theorem Built.isSome_slotOf?_iff (h : Built us t) (name : String) :
    (t.slotOf? name).isSome = true ↔ ∃ u ∈ us, u.name = name := by
  rw [h.slotOf?_eq, Option.isSome_map, List.find?_isSome]
  simp only [List.mem_reverse, decide_eq_true_eq]

theorem isSome_slotOf?_of_resolve {analyze : FrameSource} (h : resolve analyze m = (t, .done))
    (name : String) : (t.slotOf? name).isSome = true ↔ m.HasVariable name := by
  obtain ⟨t₁, t₂, t₃, analysis, hreceiver, hparameters, hcode, -, hrefine⟩ :=
    exists_passes_of_resolve h
  obtain ⟨bs, hbs, hbound⟩ := exists_uses_of_bind hreceiver hparameters
  obtain ⟨cs, hcs, hcoded⟩ := hbound.resolveCode hcode
  obtain ⟨rs, hrs, hlaid⟩ := hcoded.refine hrefine
  have hbound : (∃ u ∈ bs, u.name = name) ↔ m.header.Defines name :=
    (exists_name_iff_of_mentions hbs name).trans (m.header.defines_iff name).symm
  have haccessed : (∃ u ∈ cs, u.name = name) ↔ ∃ item ∈ variableRefs m.code, item.2.name = name := by
    rw [exists_name_iff_of_mentions hcs]
    simp only [List.mem_map, exists_exists_and_eq_and]
    rfl
  have hrefined : (∃ u ∈ rs, u.name = name) → ∃ item ∈ variableRefs m.code, item.2.name = name := by
    rw [exists_name_iff_of_mentions hrs]
    rintro ⟨b, hb, hname⟩
    obtain ⟨item, hitem, rfl⟩ := List.mem_map.1 hb
    exact ⟨item, (List.mem_filter.1 hitem).1, hname⟩
  rw [hlaid.built.isSome_slotOf?_iff, Method.HasVariable, ← exists_mem_variableRefs_iff]
  simp only [List.mem_append, or_and_right, exists_or, hbound, haccessed]
  exact or_iff_left_of_imp fun hu => .inr (hrefined hu)

end Table

namespace Analyzer

variable {a : Analyzer} {result : Analysis} {t : Table}

theorem isSome_get?_iff_of_analyze {rounds index : Nat} {frame : Frame}
    (h : a.analyzeWithin rounds m = .ok result) (hframe : result.frame? index = some frame) :
    (frame.get? name).isSome = true ↔ ∃ path, IsPath m.code (path ++ [index]) ∧
      m.DefinesOn a.expander (path ++ [index]) name := by
  obtain ⟨entry, hfixpoint⟩ :=
    exists_fixpoint (o := presenceOrder a.inheritance) ⟨trivial, fun _ _ _ => trivial⟩ h
  have hreach := (hfixpoint.present_iff index).1 ⟨frame, hframe⟩
  constructor
  · have hyields := yields_of_analyzeWithin (entryDefined_start hreach.1)
      (fun hf hg hmerges => hf.merges hg hmerges) (fun hyields => hyields.entryDefined) h hframe
    exact hyields.exists_path
  · rintro ⟨path, hpath, hdefines⟩
    obtain ⟨-, out, -, hexecute, hout, -⟩ :=
      hfixpoint.executed index _ hreach (List.getElem?_eq_getElem hreach.lt)
    obtain rfl := Option.some.inj (hout.symm.trans hframe)
    rw [Instruction.isSome_get?_execute hexecute]
    exact ((Method.definesOn_concat (List.getElem?_eq_getElem hreach.lt)).1 hdefines).imp_left
      (hfixpoint.isSome_of_definesOn hpath)

/-- After a resolution that succeeds, the table has a slot for each variable of the method, and the
frames that it was refined with have no other ones but those that expressions define. -/
theorem sharesNames_of_resolve (h : Table.resolve a.analyze m = (t, .done)) :
    ∃ result, a.analyze m = .ok result ∧ m.SharesNames a.expander t result := by
  obtain ⟨-, -, -, result, -, -, -, hanalyze, -⟩ := Table.exists_passes_of_resolve h
  have hslot := Table.isSome_slotOf?_of_resolve h
  refine ⟨result, hanalyze, hslot, fun index frame name hframe hnone => ?_⟩
  have hunnamed : ¬ m.HasVariable name := by simp [← hslot, hnone]
  rw [isSome_get?_iff_of_analyze hanalyze hframe]
  refine exists_congr fun path => and_congr_right fun _ => ⟨fun hdefines => ?_, (·.definesOn)⟩
  exact hdefines.hasVariable_or_expandsOn.resolve_left hunnamed

theorem definedInBranch_resolved : ∃ t result,
    Table.resolve (analyze ⟨none, some assignment⟩) definedInBranch = (t, .done) ∧
      definedInBranch.SharesNames (some assignment) t result := by
  have hdone : (Table.resolve (analyze ⟨none, some assignment⟩) definedInBranch).2 = .done := by
    decide
  obtain ⟨result, -, hshares⟩ := sharesNames_of_resolve (Prod.ext rfl hdone)
  exact ⟨_, result, Prod.ext rfl hdone, hshares⟩

/-- The variable that the expression defines is in the last frames and has no slot. -/
theorem not_forall_names_have_slots :
    ¬ ∀ (a : Analyzer) (m : Method) (t : Table) (result : Analysis) (index : Nat) (frame : Frame)
      (name : String), Table.resolve a.analyze m = (t, .done) → a.analyze m = .ok result →
      result.frame? index = some frame → (frame.get? name).isSome = true →
      (t.slotOf? name).isSome = true := by
  intro hall
  have hdone : (Table.resolve (analyze ⟨none, some assignment⟩) definedInBranch).2 = .done := by
    decide
  have hlocal : (analyze ⟨none, some assignment⟩ definedInBranch).toOption.bind (·.local? 3 "y") =
      some .top := by decide
  have hslot : (Table.resolve (analyze ⟨none, some assignment⟩) definedInBranch).1.slotOf? "y" =
      none := by decide
  obtain ⟨-, -, -, result, -, -, -, hanalyze, -⟩ :=
    Table.exists_passes_of_resolve (Prod.ext rfl hdone)
  rw [hanalyze] at hlocal
  change result.local? 3 "y" = some .top at hlocal
  obtain ⟨frame, hframe, hname⟩ := Option.bind_eq_some_iff.1 hlocal
  have hsome := hall _ _ _ result 3 frame "y" (Prod.ext rfl hdone) hanalyze hframe (by simp [hname])
  rw [hslot] at hsome
  cases hsome

end Analyzer

end MethodLocals
