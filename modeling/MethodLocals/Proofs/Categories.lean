import MethodLocals.Proofs.EntryBindings
import MethodLocals.Proofs.Execution
import MethodLocals.Proofs.Fixpoint

/-! The categories of what variables hold. Merging only forgets them, an instruction changes that of
the variable that it sets and of no other one, and a method is entered with those of its bindings. -/

namespace MethodLocals

/-- The loads that can take the value out of a variable. -/
def Value.category : Value → Option TypeCategory
  | top => none
  | int => some .int
  | float => some .float
  | long => some .long
  | double => some .double
  | null | textConstant _ | classConstant _ | object _ | uninit _ | uninitThis _ =>
    some .reference

def Frame.category? (f : Frame) (name : String) : Option TypeCategory :=
  (f.get? name).bind Value.category

def Instruction.setsVariable (i : Instruction) (name : String) : Bool :=
  match i.variableRef with
  | some ref => ref.name = name ∧ ref.access ≠ .read
  | none => false

variable {inheritance : Option Inheritance} {expander : Option Expander} {v w u : Value}
  {f g : Frame} {action : Action} {i : Instruction} {name : String} {c : TypeCategory}

namespace Value

theorem category_eq_none_iff : v.category = none ↔ v = .top := by
  cases v <;> simp [category]

theorem category_of_isReference (h : v.isReference = true) : v.category = some .reference := by
  cases v <;> first | rfl | cases h

theorem isReference_of_referenceType {r : RefType} (h : v.referenceType = some r) :
    v.isReference = true := by
  cases v <;> first | rfl | cases h

@[simp] theorem category_ofKind (kind : NumberKind) : (ofKind kind).category = some kind.category := by
  cases kind <;> rfl

@[simp] theorem category_ofType (t : FieldType) : (ofType t).category = some t.category := by
  rcases t with b | r
  · exact category_ofKind b.kind
  · rfl

/-- Only values of one category merge into one of which something is known. -/
theorem category_of_merge (h : v.merge inheritance w = .ok u) (hc : u.category = some c) :
    v.category = some c ∧ w.category = some c := by
  have hnull : ∀ {x : Value}, x.orNull.category = some c →
      Value.null.category = some c ∧ x.category = some c := by
    intro x hx
    unfold orNull at hx
    split at hx
    · rename_i r hr
      rw [category_of_isReference (isReference_of_referenceType hr)]
      exact ⟨hx, hx⟩
    · cases hx
  unfold merge at h
  split at h
  · rename_i hvw
    obtain rfl := Except.ok.inj h
    exact ⟨hc, hvw ▸ hc⟩
  · split at h
    · obtain rfl := Except.ok.inj h
      exact hnull hc
    · obtain rfl := Except.ok.inj h
      exact (hnull hc).symm
    · split at h
      · rename_i a b ha hb
        rw [category_of_isReference (isReference_of_referenceType ha),
          category_of_isReference (isReference_of_referenceType hb)]
        cases hab : RefType.merge inheritance a b with
        | error e => rw [hab] at h; cases h
        | ok r =>
          rw [hab] at h
          obtain rfl := Except.ok.inj h
          exact ⟨hc, hc⟩
      · obtain rfl := Except.ok.inj h
        cases hc

end Value

/-- A frame lies below another one in which less is known of the categories of variables. -/
def categoryOrder (inheritance : Option Inheritance) : FrameOrder inheritance where
  Le f g := ∀ name c, g.category? name = some c → f.category? name = some c
  Known _ := True
  refl _ _ _ h := h
  trans hfg hgh name c h := hfg name c (hgh name c h)
  le_of_merges := by
    intro f g r _ _ hmerges
    have hjoins : ∀ name c, r.category? name = some c →
        f.category? name = some c ∧ g.category? name = some c := by
      intro name c hc
      have hjoin := hmerges.locals name
      unfold Frame.category? at hc ⊢
      generalize f.get? name = x at hjoin ⊢
      generalize g.get? name = y at hjoin ⊢
      generalize r.get? name = z at hjoin hc
      cases hjoin with
      | both h => exact Value.category_of_merge h hc
      | left | right | neither => cases hc
    exact ⟨trivial, fun name c hc => (hjoins name c hc).1, fun name c hc => (hjoins name c hc).2⟩

theorem Frame.category?_set (f : Frame) (other : String) (v : Value) (name : String) :
    (f.set other v).category? name = if name = other then v.category else f.category? name := by
  rw [category?, get?_set]
  split <;> rfl

def Action.setsLocal (name : String) : Action → Bool
  | set other _ | storeTop other => other = name
  | _ => false

theorem Value.category_afterConstructor (receiver v : Value) :
    (receiver.afterConstructor v).category = v.category := by
  refine afterConstructor_eq_of_class category (fun c hc => ?_) v
  cases receiver <;> first | rfl | cases hc

theorem Frame.category?_construct (f : Frame) (receiver : Value) (name : String) :
    (f.construct receiver).category? name = f.category? name := by
  rw [category?, get?_construct, Option.bind_map, category?]
  exact congrArg _ (funext receiver.category_afterConstructor)

theorem Action.category?_of_does (h : action.Does f g) (hsets : action.setsLocal name = false) :
    g.category? name = f.category? name := by
  have hset : ∀ {f : Frame} {other : String} {v : Value}, decide (other = name) = false →
      (f.set other v).category? name = f.category? name := by
    intro f other v hne
    rw [Frame.category?_set, if_neg fun e => of_decide_eq_false hne e.symm]
  cases h with
  | push | pop | popWide | popTwo | dup | swap | loadRef | element => rfl
  | set => exact hset hsets
  | storeTop => exact hset hsets
  | construct => exact Frame.category?_construct _ _ _

namespace Instruction

theorem not_setsLocal_of_mem_invokeActions {kind : InvokeKind} {ref : MethodRef}
    (h : action ∈ invokeActions kind ref) : action.setsLocal name = false := by
  rcases Action.of_mem_invokeActions h with ⟨width, rfl⟩ | rfl | ⟨t, -, rfl⟩ <;> rfl

/-- Only the accesses of an instruction other than reads set variables. -/
theorem not_setsLocal_of_mem_ownActions (hsets : i.setsVariable name = false) :
    ∀ action ∈ i.ownActions, action.setsLocal name = false := by
  cases i with
  | invoke kind ref => exact fun action h => not_setsLocal_of_mem_invokeActions h
  | field access ref => cases access <;> simp [ownActions, fieldActions, Action.setsLocal]
  | branch condition target =>
    intro action h
    rw [List.eq_of_mem_replicate h]
    rfl
  | store kind x | storeRef x | increment x =>
    simpa [ownActions, Action.setsLocal, setsVariable, variableRef] using hsets
  | _ => simp [ownActions, Action.setsLocal]

theorem category?_execute (hplain : ∀ text, i ≠ .expression text)
    (h : f.execute expander i = .ok g) (hsets : i.setsVariable name = false) :
    g.category? name = f.category? name := by
  rw [execute_of_ne_expression hplain] at h
  refine @Frame.runAll_induction (fun g => g.category? name = f.category? name) _ ?_ f g rfl h
  intro f' g' action hmem hinv hdoes
  exact (Action.category?_of_does hdoes (not_setsLocal_of_mem_ownActions hsets _ hmem)).trans hinv

theorem category?_of_number {ref : VariableRef} (href : i.variableRef = some ref)
    (haccess : ref.access ≠ .read) (hnumber : ref.type.isPrimitive = true)
    (h : f.execute expander i = .ok g) : g.category? ref.name = some ref.type.category := by
  have hlast : ∀ (actions : List Action) {x : String} {v : Value} {f g : Frame},
      f.runAll (actions ++ [.set x v]) = .ok g → g.category? x = v.category := by
    intro actions x v f g h
    rw [Frame.runAll_append] at h
    split at h
    · cases h
    · obtain rfl := Except.ok.inj h
      rw [Frame.category?_set, if_pos rfl]
  have hplain : ∀ text, i ≠ .expression text := by
    rintro text rfl
    cases href
  rw [execute_of_ne_expression hplain] at h
  cases i with
  | store kind x =>
    obtain rfl := Option.some.inj href
    rw [hlast [.pop kind.width] h]
    cases kind <;> rfl
  | increment x =>
    obtain rfl := Option.some.inj href
    exact hlast [] h
  | storeRef x =>
    obtain rfl := Option.some.inj href
    cases hnumber
  | load | loadRef =>
    obtain rfl := Option.some.inj href
    exact absurd rfl haccess
  | _ => cases href

end Instruction

theorem Header.category?_entryFrame (h : Header) (name : String) :
    h.entryFrame.category? name = (h.binding? name).map (·.type.category) := by
  rw [Frame.category?, h.get?_entryFrame]
  cases hbinding : h.binding? name with
  | none => rfl
  | some u =>
    rw [Option.map_some, Option.bind_some, Option.map_some]
    rcases of_binding?_eq_some hbinding with ⟨k, p, -, -, rfl⟩ | ⟨-, hinstance, -, rfl⟩
    · exact Value.category_ofType p.type
    · rw [enteredValue_receiver hinstance]
      split <;> rfl

end MethodLocals
