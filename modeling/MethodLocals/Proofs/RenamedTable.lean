import MethodLocals.Proofs.Passes
import MethodLocals.Proofs.Renaming
import Mathlib.Logic.Equiv.Basic

/-! The table of a renamed method. All passes go in the same steps, so the table is the same one
under the new names, and a pass that fails does so at the same element. -/

namespace MethodLocals

def Record.rename (ρ : Renaming) (r : Record) : Record := { r with name := ρ.variableName r.name }

def Use.rename (ρ : Renaming) (u : Use) : Use := { u with name := ρ.variableName u.name }

def VariableRef.rename (ρ : Renaming) (ref : VariableRef) : VariableRef :=
  { ref with name := ρ.variableName ref.name }

/-- Names are changed in the records and the bindings. Slots, types, usages and the order of the
records stay. -/
def Table.rename (ρ : Renaming) (t : Table) : Table where
  records := t.records.map (Record.rename ρ)
  bindings := t.bindings.map fun (name, slot) => (ρ.variableName name, slot)
  slots := t.slots
  stage := t.stage

/-- The same fault under the new names, but for the class that is missing. -/
inductive CompileFault.Renamed (ρ : Renaming) : CompileFault → CompileFault → Prop
  | allocation (conflict : SlotConflict) : Renamed ρ (.allocation conflict) (.allocation conflict)
  | typeConflict (slot : Nat) (name : String) (conflict : TypeConflict) :
    Renamed ρ (.typeConflict slot name conflict) (.typeConflict slot (ρ.variableName name) conflict)
  | analysis {reason reason' : FlowError} (h : reason.Renamed ρ reason') :
    Renamed ρ (.analysis reason) (.analysis reason')

structure CompileError.Renamed (ρ : Renaming) (e e' : CompileError) : Prop where
  element : e'.element = e.element
  fault : e.fault.Renamed ρ e'.fault

inductive Outcome.Renamed (ρ : Renaming) : Outcome → Outcome → Prop
  | done : Renamed ρ .done .done
  | failed {e e' : CompileError} (h : e.Renamed ρ e') : Renamed ρ (.failed e) (.failed e')
  | outOfOrder (pass : Pass) : Renamed ρ (.outOfOrder pass) (.outOfOrder pass)

variable {ρ : Renaming}

theorem variableRefs_rename (code : List Instruction) :
    variableRefs (code.map (Instruction.rename ρ)) =
      (variableRefs code).map fun (i, ref) => (i, ref.rename ρ) := by
  have href : ∀ i : Instruction, (i.rename ρ).variableRef = i.variableRef.map (·.rename ρ) := by
    intro i
    cases i <;> rfl
  unfold variableRefs
  rw [List.zipIdx_map, List.filterMap_map, List.map_filterMap]
  refine congrArg (List.filterMap · code.zipIdx) (funext fun item => ?_)
  simp [href, Function.comp_def]

theorem referenceAccesses_rename (code : List Instruction) :
    Table.referenceAccesses (code.map (Instruction.rename ρ)) =
      (Table.referenceAccesses code).map fun (i, ref) => (i, ref.rename ρ) := by
  rw [Table.referenceAccesses, variableRefs_rename, List.filter_map]
  rfl

namespace Table

theorem place_rename (u : Use) (records : List Record) :
    place (u.rename ρ) (records.map (Record.rename ρ)) =
      (place u records).map (Record.rename ρ) := by
  induction records with
  | nil => rfl
  | cons r rest ih =>
    simp only [List.map_cons, place]
    by_cases hslot : r.slot = u.slot
    · rw [if_pos hslot, if_pos (show (r.rename ρ).slot = (u.rename ρ).slot from hslot)]
      rfl
    · rw [if_neg hslot, if_neg (show ¬ (r.rename ρ).slot = (u.rename ρ).slot from hslot), ih,
        List.map_cons]

theorem bind_rename (name : String) (slot : Nat) (bindings : List (String × Nat)) :
    bind (ρ.variableName name) slot (bindings.map fun (name, slot) => (ρ.variableName name, slot)) =
      (bind name slot bindings).map fun (name, slot) => (ρ.variableName name, slot) := by
  unfold bind
  rw [List.filter_map, List.map_cons]
  simp [Function.comp_def, ρ.variableName_injective.eq_iff]

@[simp] theorem record?_rename (t : Table) (slot : Nat) :
    (t.rename ρ).record? slot = (t.record? slot).map (Record.rename ρ) := by
  rw [record?, rename, List.find?_map]
  rfl

@[simp] theorem slotOf?_rename (t : Table) (name : String) :
    (t.rename ρ).slotOf? (ρ.variableName name) = t.slotOf? name := by
  unfold slotOf? rename
  dsimp only
  induction t.bindings with
  | nil => rfl
  | cons entry rest ih =>
    obtain ⟨other, held⟩ := entry
    have hbeq : (ρ.variableName name == ρ.variableName other) = (name == other) := by
      rw [Bool.eq_iff_iff, beq_iff_eq, beq_iff_eq, ρ.variableName_injective.eq_iff]
    simp only [List.map_cons, List.lookup_cons, ih, hbeq]

@[simp] theorem named?_rename (t : Table) (name : String) :
    (t.rename ρ).named? (ρ.variableName name) = (t.named? name).map (Record.rename ρ) := by
  unfold named?
  rw [slotOf?_rename, Option.map_bind]
  exact congrArg (Option.bind _) (funext t.record?_rename)

@[simp] theorem slotFor_rename (t : Table) (name : String) :
    (t.rename ρ).slotFor (ρ.variableName name) = t.slotFor name := by
  unfold slotFor
  rw [named?_rename]
  cases t.named? name <;> rfl

def StepsAlike (ρ : Renaming) : Except CompileError Table → Except CompileError Table → Prop :=
  Alike False (CompileError.Renamed ρ) fun t t' => t' = t.rename ρ

theorem use_rename (t : Table) (u : Use) :
    StepsAlike ρ (t.use u) ((t.rename ρ).use (u.rename ρ)) := by
  unfold use
  rw [show (t.rename ρ).slots.reserve (u.rename ρ).slot (u.rename ρ).type.width =
    t.slots.reserve u.slot u.type.width from rfl]
  cases t.slots.reserve u.slot u.type.width with
  | error conflict => exact .error ⟨rfl, .allocation conflict⟩
  | ok slots =>
    have hrecords := place_rename (ρ := ρ) u t.records
    have hbindings := bind_rename (ρ := ρ) u.name u.slot t.bindings
    refine .ok ?_
    simp only [rename, ← hrecords, ← hbindings]
    rfl

theorem bindParameter_rename (t : Table) (item : Parameter × Nat) :
    StepsAlike ρ (t.bindParameter item)
      ((t.rename ρ).bindParameter (item.1.rename ρ, item.2)) := t.use_rename _

theorem resolveAccess_rename (t : Table) (item : Nat × VariableRef) :
    StepsAlike ρ (t.resolveAccess item)
      ((t.rename ρ).resolveAccess (item.1, item.2.rename ρ)) := by
  obtain ⟨index, ref⟩ := item
  simp only [resolveAccess, VariableRef.rename, named?_rename]
  cases t.named? ref.name with
  | none => exact t.use_rename _
  | some r =>
    dsimp only [Option.map_some, Record.rename]
    cases ref.access.recordedType (some r.last.type) ref.type with
    | ok type => exact t.use_rename _
    | error conflict => exact .error ⟨rfl, .typeConflict r.slot ref.name conflict⟩

theorem refinedType_rename {analysis analysis' : Analysis}
    (h : analysis.Paired (Frame.Renamed ρ) analysis') (index : Nat) (name : String) :
    analysis'.refinedType index (ρ.variableName name) = analysis.refinedType index name := by
  have hframe := h.frame? index
  unfold Analysis.refinedType Analysis.local?
  generalize analysis.frame? index = left at hframe
  generalize analysis'.frame? index = right at hframe
  cases hframe with
  | none => rfl
  | some hfg => simp only [Option.bind_some, hfg.get?]

theorem refineAccess_rename {analysis analysis' : Analysis}
    (h : analysis.Paired (Frame.Renamed ρ) analysis') (t : Table) (item : Nat × VariableRef) :
    StepsAlike ρ (t.refineAccess analysis item)
      ((t.rename ρ).refineAccess analysis' (item.1, item.2.rename ρ)) := by
  obtain ⟨index, ref⟩ := item
  simp only [refineAccess, VariableRef.rename, slotFor_rename, refinedType_rename h]
  exact t.use_rename _

structure ResultRenamed (ρ : Renaming) (x y : Table × Outcome) : Prop where
  table : y.1 = x.1.rename ρ
  outcome : x.2.Renamed ρ y.2

theorem runPass_rename {α β : Type} {step : Table → α → Except CompileError Table}
    {step' : Table → β → Except CompileError Table} {new : α → β}
    (hstep : ∀ t item, StepsAlike ρ (step t item) (step' (t.rename ρ) (new item))) (pass : Pass)
    (t : Table) (items : List α) :
    ResultRenamed ρ (t.runPass pass step items)
      ((t.rename ρ).runPass pass step' (items.map new)) := by
  have hsteps : ∀ t : Table, ((t.rename ρ).steps step' (items.map new)).1 =
        (t.steps step items).1.rename ρ ∧
      Option.Rel (CompileError.Renamed ρ) (t.steps step items).2
        ((t.rename ρ).steps step' (items.map new)).2 := by
    induction items with
    | nil => exact fun t => ⟨rfl, .none⟩
    | cons item rest ih =>
      intro t
      have hitem := hstep t item
      rw [List.map_cons, steps, steps]
      generalize step t item = left at hitem
      generalize step' (t.rename ρ) (new item) = right at hitem
      cases hitem with
      | error he => exact ⟨rfl, .some he⟩
      | excuse hexcused => exact hexcused.elim
      | @ok next _ hnext =>
        obtain rfl := hnext
        exact ih next
  obtain ⟨htable, herror⟩ := hsteps t
  unfold runPass
  rw [show (t.rename ρ).stage = t.stage from rfl]
  split
  · exact ⟨rfl, .outOfOrder pass⟩
  · dsimp only
    rw [htable]
    generalize (t.steps step items).2 = left at herror
    generalize ((t.rename ρ).steps step' (items.map new)).2 = right at herror
    cases herror with
    | none => exact ⟨rfl, .done⟩
    | some he => exact ⟨rfl, .failed he⟩

theorem bindReceiver_rename (t : Table) (h : Header) :
    ResultRenamed ρ (t.bindReceiver h) ((t.rename ρ).bindReceiver (h.rename ρ)) := by
  have huses : receiverUses (h.rename ρ) = (receiverUses h).map (Use.rename ρ) := by
    unfold receiverUses
    rw [show (h.rename ρ).isStatic = h.isStatic from rfl]
    split
    · rfl
    · simp [Use.rename, ρ.variableName_receiver, Header.rename]
  unfold bindReceiver
  rw [huses]
  exact runPass_rename (fun t u => t.use_rename u) .receiver t _

theorem bindParameters_rename (t : Table) (parameters : List Parameter) :
    ResultRenamed ρ (t.bindParameters parameters)
      ((t.rename ρ).bindParameters (parameters.map (Parameter.rename ρ))) := by
  unfold bindParameters
  rw [List.zipIdx_map]
  exact runPass_rename (fun t item => t.bindParameter_rename item) .parameters t _

theorem resolveCode_rename (t : Table) (code : List Instruction) :
    ResultRenamed ρ (t.resolveCode code)
      ((t.rename ρ).resolveCode (code.map (Instruction.rename ρ))) := by
  unfold resolveCode
  rw [variableRefs_rename]
  exact runPass_rename (fun t item => t.resolveAccess_rename item) .code t _

theorem resolveReferences_rename (t : Table) (a : Analyzer) (m : Method) :
    ResultRenamed ρ (t.resolveReferences a.analyze m)
      ((t.rename ρ).resolveReferences (a.rename ρ).analyze (m.rename ρ)) := by
  have hanalyze := a.analyze_rename (ρ := ρ) m
  unfold resolveReferences
  generalize a.analyze m = left at hanalyze
  generalize (a.rename ρ).analyze (m.rename ρ) = right at hanalyze
  cases hanalyze with
  | error he => exact ⟨rfl, .failed ⟨he.1, .analysis he.2⟩⟩
  | excuse hexcused => exact hexcused.elim
  | ok hpaired =>
    unfold refine
    dsimp only
    rw [Method.rename, referenceAccesses_rename]
    exact runPass_rename (fun t item => t.refineAccess_rename hpaired item) .references t _

theorem andThen_rename {x y : Table × Outcome} (h : ResultRenamed ρ x y)
    {next next' : Table → Table × Outcome}
    (hnext : ∀ t, ResultRenamed ρ (next t) (next' (t.rename ρ))) :
    ResultRenamed ρ (andThen x next) (andThen y next') := by
  obtain ⟨t, outcome⟩ := x
  obtain ⟨_, outcome'⟩ := y
  obtain ⟨rfl, houtcome⟩ := h
  cases houtcome with
  | done => exact hnext t
  | failed he => exact ⟨rfl, .failed he⟩
  | outOfOrder pass => exact ⟨rfl, .outOfOrder pass⟩

theorem resultRenamed_resolve (ρ : Renaming) (a : Analyzer) (m : Method) :
    ResultRenamed ρ (resolve a.analyze m) (resolve (a.rename ρ).analyze (m.rename ρ)) := by
  unfold resolve
  refine andThen_rename (andThen_rename (andThen_rename ?_ fun t => ?_) fun t => ?_) fun t => ?_
  · exact empty.bindReceiver_rename m.header
  · exact t.bindParameters_rename m.header.parameters
  · exact t.resolveCode_rename m.code
  · exact t.resolveReferences_rename a m

/-- Resolution does not depend on names. Under other names for variables and labels it succeeds for
the same methods, with the same records under the new names in the same order, and fails for the
others at the same element, for the same reason but for the class that is missing. -/
theorem resolve_rename (ρ : Renaming) (a : Analyzer) (m : Method) :
    (resolve (a.rename ρ).analyze (m.rename ρ)).1 = (resolve a.analyze m).1.rename ρ ∧
      ((resolve (a.rename ρ).analyze (m.rename ρ)).2 = .done ↔ (resolve a.analyze m).2 = .done) ∧
      ∀ e, (resolve a.analyze m).2 = .failed e →
        ∃ e', (resolve (a.rename ρ).analyze (m.rename ρ)).2 = .failed e' ∧
          e'.element = e.element ∧ e.fault.Renamed ρ e'.fault := by
  obtain ⟨htable, houtcome⟩ := resultRenamed_resolve ρ a m
  refine ⟨htable, ?_⟩
  generalize (resolve a.analyze m).2 = left at houtcome
  generalize (resolve (a.rename ρ).analyze (m.rename ρ)).2 = right at houtcome
  cases houtcome with
  | done => simp
  | outOfOrder pass => simp
  | @failed e e' he =>
    refine ⟨by simp, ?_⟩
    rintro _ ⟨⟩
    exact ⟨e', rfl, he.element, he.fault⟩

def exchanged : Renaming where
  variableName := Equiv.swap "a" "b"
  labelName := id
  variableName_injective := (Equiv.swap "a" "b").injective
  labelName_injective := Function.injective_id
  variableName_receiver := by decide

/-- On one of two ways to the label the values of two variables are exchanged. -/
def exchangesValues : Method where
  header := ⟨.object, "run", .ofList [MethodFlag.static],
    [⟨"n", .int⟩, ⟨"a", .object .string⟩, ⟨"b", .object .classObject⟩], none⟩
  code := [.load .int "n", .branch (.zero .eq) "end", .loadRef "a", .loadRef "b", .storeRef "a",
    .storeRef "b", .label "end", .returnVoid]

/-- Both variables need a class that is missing. The one that comes first by name is reported. -/
example :
    (resolve (Analyzer.analyze ⟨some ClassGraph.empty.inheritance, none⟩) exchangesValues).2 =
      .failed ⟨.instruction 6, .analysis (.missingClass ⟨.classObject⟩)⟩ ∧
    (resolve (Analyzer.analyze ⟨some ClassGraph.empty.inheritance, none⟩)
        (exchangesValues.rename exchanged)).2 =
      .failed ⟨.instruction 6, .analysis (.missingClass ⟨.string⟩)⟩ := by
  decide +kernel

end Table

end MethodLocals
