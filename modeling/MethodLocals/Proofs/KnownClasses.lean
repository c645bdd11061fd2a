import MethodLocals.Proofs.ControlFlow
import MethodLocals.Proofs.Execution
import MethodLocals.Proofs.FrameOrder

/-! The classes that a method mentions. Simulations bring up no other classes, so the classes of all
values are known if these are. -/

namespace MethodLocals

def MethodDescriptor.classNames (d : MethodDescriptor) : List BinaryName :=
  d.parameters.flatMap FieldType.classNames ++ d.returns.elim [] FieldType.classNames

def Instruction.classNames : Instruction → List BinaryName
  | ldc (.classLiteral type) | newRefArray type | checkCast type | instanceOf type =>
    type.classNames
  | new name => [name]
  | field _ ref => ref.owner :: ref.type.classNames
  | invoke _ ref => ref.owner :: ref.descriptor.classNames
  | _ => []

/-- An instruction names a class itself, or in what it expands to. -/
inductive Instruction.Mentions (expander : Option Expander) : Instruction → BinaryName → Prop
  | own {i : Instruction} {name : BinaryName} (h : name ∈ i.classNames) : Mentions expander i name
  | expansion {e : Expander} {text : String} {body : List Instruction} {i : Instruction}
    {name : BinaryName} (he : expander = some e) (hexpand : e.expand text = .ok body)
    (hi : i ∈ body) (hname : Mentions expander i name) : Mentions expander (.expression text) name

def Header.classNames (h : Header) : List BinaryName :=
  h.owner :: h.parameters.flatMap (·.type.classNames) ++ h.returns.elim [] FieldType.classNames

/-- A class is named in the header of a method, in its body or in an expansion. -/
def Method.Mentions (m : Method) (expander : Option Expander) (name : BinaryName) : Prop :=
  name ∈ m.header.classNames ∨ ∃ i ∈ m.code, i.Mentions expander name

def Action.classNames : Action → List BinaryName
  | push v | set _ v => v.classNames
  | _ => []

theorem Action.mem_classNames {action : Action} {v : Value} {name : BinaryName}
    (hv : v ∈ action.values) (hname : name ∈ v.classNames) : name ∈ action.classNames := by
  cases action with
  | push | set =>
    obtain rfl := List.mem_singleton.1 hv
    exact hname
  | _ => cases hv

@[simp] theorem Value.classNames_ofKind (kind : NumberKind) :
    (Value.ofKind kind).classNames = [] := by
  cases kind <;> rfl

@[simp] theorem Value.classNames_ofType (t : FieldType) :
    (Value.ofType t).classNames = t.classNames := by
  cases t with
  | base b => exact classNames_ofKind b.kind
  | ref r => rfl

theorem RefType.classNames_arrayOf (t : FieldType) :
    (RefType.arrayOf t).classNames = t.classNames := by
  rcases t with b | (name | ⟨extra, b | name⟩) <;> rfl

theorem RefType.classNames_component {r s : RefType} (h : r.component = some (.ref s)) :
    s.classNames = r.classNames := by
  rcases component_cases h with ⟨element, rfl, ht⟩ | ⟨extra, element, -, rfl, ht⟩
  · cases element <;> cases ht
    rfl
  · cases ht
    cases element <;> rfl

theorem classNames_fieldActions {access : FieldAccess} {t : FieldType} {action : Action}
    (h : action ∈ fieldActions access t) : action.classNames ⊆ t.classNames := by
  rcases Action.of_mem_fieldActions h with ⟨width, rfl⟩ | rfl <;> simp [Action.classNames]

theorem classNames_invokeActions {kind : InvokeKind} {ref : MethodRef} {action : Action}
    (h : action ∈ invokeActions kind ref) : action.classNames ⊆ ref.descriptor.classNames := by
  rcases Action.of_mem_invokeActions h with ⟨width, rfl⟩ | rfl | ⟨t, hreturns, rfl⟩
  · exact List.nil_subset _
  · exact List.nil_subset _
  · intro name hname
    rw [MethodDescriptor.classNames, hreturns]
    exact List.mem_append_right _ (by simpa [Action.classNames] using hname)

/-- The values that an instruction brings up are of classes that it names, or literals. -/
theorem Instruction.classNames_ownActions {i : Instruction} {action : Action}
    (h : action ∈ i.ownActions) {name : BinaryName} (hname : name ∈ action.classNames) :
    name ∈ i.classNames ∨ name = .string ∨ name = .classObject := by
  cases i
  case ldc constant =>
    obtain rfl := List.mem_singleton.1 h
    cases constant with
    | number kind => simp [Action.classNames, Constant.value] at hname
    | text value => exact .inr (.inl (List.mem_singleton.1 hname))
    | classLiteral type => exact .inr (.inr (List.mem_singleton.1 hname))
  case field access ref => exact .inl (List.mem_cons_of_mem _ (classNames_fieldActions h hname))
  case invoke kind ref => exact .inl (List.mem_cons_of_mem _ (classNames_invokeActions h hname))
  case newRefArray element =>
    rcases List.mem_pair.1 h with rfl | rfl
    · cases hname
    · refine .inl ?_
      have hnames := RefType.classNames_arrayOf (.ref element)
      rw [Action.classNames, Value.classNames, hnames] at hname
      exact hname
  case branch condition target =>
    obtain rfl := List.eq_of_mem_replicate h
    cases hname
  all_goals
    simp only [ownActions, List.mem_cons, List.not_mem_nil, or_false] at h <;>
      rcases h with rfl | rfl | rfl <;>
      first
        | exact .inl hname
        | cases hname
        | simp [Action.classNames] at hname

variable {expander : Option Expander} {inheritance : Option Inheritance}
  {o : TypeOrder inheritance}

theorem Instruction.classNames_actionsWithin {depth : Nat} {i : Instruction} {action : Action}
    (h : action ∈ i.actionsWithin expander depth) {name : BinaryName}
    (hname : name ∈ action.classNames) :
    i.Mentions expander name ∨ name = .string ∨ name = .classObject := by
  induction depth generalizing i with
  | zero =>
    rcases mem_actionsWithin h with h | ⟨e, -, rfl⟩ | ⟨e, text, body, below, j, hdepth, -⟩
    · exact (classNames_ownActions h hname).imp .own id
    · cases hname
    · cases hdepth
  | succ depth ih =>
    rcases mem_actionsWithin h with h | ⟨e, -, rfl⟩ |
      ⟨e, text, body, below, j, hdepth, rfl, he, hexpand, hj, hmem⟩
    · exact (classNames_ownActions h hname).imp .own id
    · cases hname
    · obtain rfl := Nat.succ.inj hdepth
      exact (ih hmem).imp (.expansion he hexpand hj) id

namespace TypeOrder

/-- Everything that a method mentions is known, and so are the classes of literals. -/
structure KnowsMethod (o : TypeOrder inheritance) (expander : Option Expander) (m : Method) :
    Prop where
  known_string : o.Known .string
  known_classObject : o.Known .classObject
  mentioned : ∀ name, m.Mentions expander name → o.Known name

theorem knownValue_top (o : TypeOrder inheritance) : o.KnownValue .top := by
  intro name hmem
  cases hmem

theorem knownFrame_iff_each {f : Frame} : o.KnownFrame f ↔ f.Each o.KnownValue :=
  ⟨fun h => ⟨h.stack, h.locals⟩, fun h => ⟨h.stack, h.locals⟩⟩

theorem knownValue_elementOf {v : Value} (hv : o.KnownValue v) : o.KnownValue v.elementOf := by
  unfold Value.elementOf
  split
  · rename_i r hr
    obtain ⟨s, hs, hcomponent⟩ := Option.bind_eq_some_iff.1 hr
    have hknown := knownRef_of_referenceType hv hs
    rw [KnownRef, ← RefType.classNames_component hcomponent] at hknown
    exact hknown
  · exact o.knownValue_top

theorem knownValue_afterConstructor {v w : Value} (hv : o.KnownValue v) (hw : o.KnownValue w) :
    o.KnownValue (v.afterConstructor w) := by
  unfold Value.afterConstructor
  split
  · rename_i name hname
    split
    · cases v <;> simp only [Value.underConstruction, Option.some.injEq, reduceCtorEq] at hname <;>
        exact hname ▸ hv
    · exact hw
  · exact hw

theorem hereditary_knownValue (o : TypeOrder inheritance) : Value.Hereditary o.KnownValue where
  top := o.knownValue_top
  elementOf _ := knownValue_elementOf
  afterConstructor _ _ := knownValue_afterConstructor

theorem KnowsMethod.execute {m : Method} (h : o.KnowsMethod expander m) {i : Instruction}
    (hi : i ∈ m.code) {f g : Frame} (hf : o.KnownFrame f)
    (hexecute : f.execute expander i = .ok g) : o.KnownFrame g := by
  rw [knownFrame_iff_each] at hf ⊢
  refine Frame.runAll_induction (fun {f' g' action} hmem hinv hdoes => ?_) hf hexecute
  refine hinv.does o.hereditary_knownValue (fun v hv name hname => ?_) hdoes
  rcases i.classNames_actionsWithin hmem (Action.mem_classNames hv hname) with
    hmentions | rfl | rfl
  · exact h.mentioned name (.inr ⟨i, hi, hmentions⟩)
  · exact h.known_string
  · exact h.known_classObject

theorem KnowsMethod.entryFrame {m : Method} (h : o.KnowsMethod expander m) :
    o.KnownFrame m.header.entryFrame := by
  have howner : o.Known m.header.owner :=
    h.mentioned _ (.inl (List.mem_append_left _ List.mem_cons_self))
  rw [knownFrame_iff_each]
  refine Header.entryFrame_induction (Frame.Each _) Frame.Each.empty ?_ ?_
  · intro v f hv hf
    apply hf.set
    intro name hname
    unfold Header.receiverValue at hv
    split at hv
    · cases hv
    · split at hv <;> obtain rfl := Option.some.inj hv <;>
        exact List.mem_singleton.1 hname ▸ howner
  · intro p hp f hf
    apply hf.set
    intro name hname
    rw [Value.classNames_ofType] at hname
    refine h.mentioned name (.inl (List.mem_append_left _ (List.mem_cons_of_mem _ ?_)))
    exact List.mem_flatMap.2 ⟨p, hp, hname⟩

end TypeOrder

end MethodLocals
