import Mathlib.Data.List.Induction
import MethodLocals.Flow
import MethodLocals.Proofs.Naming

/-! The receiver and the parameters where a method is entered. The table binds them to slots one
after the other, and the frame on entry holds a value for each of their names. Both let a parameter
shadow everything under its name before it, the receiver included. -/

namespace MethodLocals

/-- The method has its receiver to initialize, and the name stands for it: no parameter goes by the
name of the receiver. -/
def Header.Initializes (h : Header) (name : String) : Prop :=
  name = receiverName ∧ h.isStatic = false ∧ h.isConstructor = true ∧
    ∀ p ∈ h.parameters, p.name ≠ receiverName

instance (h : Header) (name : String) : Decidable (h.Initializes name) :=
  inferInstanceAs (Decidable (_ ∧ _))

/-- The table has the variables that the frame on entry has, and what the frame knows of each of them
is the type that the table recorded last, or that it is still to be initialized. -/
structure Header.BindsAlike (h : Header) (t : Table) : Prop where
  bound_iff : ∀ name, (t.slotOf? name).isSome = true ↔ (h.entryFrame.get? name).isSome = true
  declared : ∀ name, (t.slotOf? name).isSome = true → ¬ h.Initializes name →
    ∃ r, t.named? name = some r ∧ h.entryFrame.get? name = some (.ofType r.last.type)
  uninitialized : ∀ name, (t.slotOf? name).isSome = true → h.Initializes name →
    ∃ r, t.named? name = some r ∧ h.entryFrame.get? name = some (.uninitThis h.owner) ∧
      r.last.type = .object h.owner

namespace Header

variable {h : Header} {name : String} {u : Usage}

def enteredValue (h : Header) (binding : Usage) : Value :=
  if binding.source = .definition then h.receiverValue.getD (.ofType binding.type)
  else .ofType binding.type

theorem isSome_binding?_iff (h : Header) (name : String) :
    (h.binding? name).isSome = true ↔ ∃ b ∈ h.bindings, b.name = name := by
  simp only [binding?, Option.isSome_map, List.find?_isSome, List.mem_reverse, decide_eq_true_eq]

/-- The binding that counts is that of a parameter, or that of the receiver if no parameter goes by
its name. -/
theorem of_binding?_eq_some (hbinding : h.binding? name = some u) :
    (∃ k p, h.parameters[k]? = some p ∧ p.name = name ∧ u = ⟨.parameter k, p.type⟩) ∨
      name = receiverName ∧ h.isStatic = false ∧ (∀ p ∈ h.parameters, p.name ≠ receiverName) ∧
        u = ⟨.definition, .object h.owner⟩ := by
  rw [binding?, bindings, List.reverse_append, List.find?_append, Option.map_or] at hbinding
  cases hlast : (h.parameters.zipIdx.map parameterMention).reverse.find? (·.name = name) with
  | some b =>
    have hname : b.name = name := by simpa using List.find?_some hlast
    obtain ⟨⟨p, k⟩, hitem, rfl⟩ :=
      List.mem_map.1 (List.mem_reverse.1 (List.mem_of_find?_eq_some hlast))
    rw [hlast, Option.map_some, Option.some_or] at hbinding
    exact .inl ⟨k, p, List.mk_mem_zipIdx_iff_getElem?.1 hitem, hname,
      (Option.some.inj hbinding).symm⟩
  | none =>
    have hunshadowed : ∀ p ∈ h.parameters, p.name ≠ name := by
      intro p hp hname
      obtain ⟨k, hk⟩ := List.mem_iff_getElem?.1 hp
      have hitem : parameterMention (p, k) ∈ h.parameters.zipIdx.map parameterMention :=
        List.mem_map_of_mem (List.mk_mem_zipIdx_iff_getElem?.2 hk)
      exact List.find?_eq_none.1 hlast _ (List.mem_reverse.2 hitem) (decide_eq_true hname)
    rw [hlast, Option.map_none, Option.none_or, receiverMentions] at hbinding
    split at hbinding
    · cases hbinding
    · rename_i hinstance
      rw [List.reverse_singleton, List.find?_singleton] at hbinding
      split at hbinding
      · rename_i hname
        obtain rfl := of_decide_eq_true hname
        exact .inr ⟨rfl, Bool.eq_false_iff.2 hinstance, hunshadowed,
          (Option.some.inj hbinding).symm⟩
      · cases hbinding

theorem get?_receiver (h : Header) (name : String) :
    (match h.receiverValue with
      | some value => Frame.empty.set receiverName value
      | none => Frame.empty).get? name =
        (h.receiverMentions.reverse.find? (·.name = name)).map fun m =>
          h.enteredValue m.usage := by
  rw [receiverMentions]
  by_cases hstatic : h.isStatic = true
  · rw [receiverValue, if_pos hstatic, if_pos hstatic]
    rfl
  · obtain ⟨v, hv⟩ : ∃ v, h.receiverValue = some v := by
      rw [receiverValue, if_neg hstatic]
      split <;> exact ⟨_, rfl⟩
    rw [if_neg hstatic, List.reverse_singleton, List.find?_singleton, hv]
    dsimp only
    rw [Frame.get?_set]
    by_cases hname : name = receiverName
    · simp [hname, enteredValue, hv]
    · simp [hname, Ne.symm hname]

theorem get?_entryFrame (h : Header) (name : String) :
    h.entryFrame.get? name = (h.binding? name).map h.enteredValue := by
  rw [entryFrame, binding?, bindings, Option.map_map]
  change _ = Option.map (fun m : Mention => h.enteredValue m.usage) _
  induction h.parameters using List.reverseRecOn with
  | nil =>
    rw [List.zipIdx_nil, List.map_nil, List.append_nil]
    exact h.get?_receiver name
  | append_singleton parameters p ih =>
    rw [List.foldl_append, List.foldl_cons, List.foldl_nil, Frame.get?_set, ih,
      List.zipIdx_append, List.map_append, ← List.append_assoc, List.reverse_append]
    by_cases hname : name = p.name
    · simp [hname, parameterMention, enteredValue]
    · simp [hname, Ne.symm hname, parameterMention]

theorem enteredValue_receiver (hinstance : h.isStatic = false) :
    h.enteredValue ⟨.definition, .object h.owner⟩ =
      if h.isConstructor then .uninitThis h.owner else .ofType (.object h.owner) := by
  rw [enteredValue, if_pos rfl, receiverValue, hinstance]
  cases h.isConstructor <;> rfl

theorem enteredValue_of_not_initializes (hbinding : h.binding? name = some u)
    (hnot : ¬ h.Initializes name) : h.enteredValue u = .ofType u.type := by
  rcases of_binding?_eq_some hbinding with
    ⟨k, p, -, -, rfl⟩ | ⟨hname, hinstance, hunshadowed, rfl⟩
  · rfl
  · rw [enteredValue_receiver hinstance]
    split
    · exact absurd ⟨hname, hinstance, ‹_›, hunshadowed⟩ hnot
    · rfl

theorem enteredValue_of_initializes (hbinding : h.binding? name = some u)
    (hreceiver : h.Initializes name) :
    h.enteredValue u = .uninitThis h.owner ∧ u.type = .object h.owner := by
  obtain ⟨rfl, hinstance, hconstructor, hunshadowed⟩ := hreceiver
  rcases of_binding?_eq_some hbinding with ⟨k, p, hp, hname, -⟩ | ⟨-, -, -, rfl⟩
  · exact absurd hname (hunshadowed p (List.mem_of_getElem? hp))
  · rw [enteredValue_receiver hinstance, if_pos hconstructor]
    exact ⟨rfl, rfl⟩

end Header

namespace Table

variable {h : Header} {us : List Use} {t t₁ : Table}

/-- Where only the receiver and the parameters are bound, the record of a name ends with the binding
that counts. -/
theorem Laid.last_named_of_bindings (hlaid : Laid us t) (hus : us.map Use.mention = h.bindings)
    (name : String) : (t.named? name).map Record.last = h.binding? name := by
  rw [hlaid.last_named, usage_last_of_bindings hus]

/-- The receiver and the parameters are bound in the table as they are on entry to the method. -/
theorem bindsAlike_of_bind (hreceiver : empty.bindReceiver h = (t₁, .done))
    (hparameters : t₁.bindParameters h.parameters = (t, .done)) : h.BindsAlike t := by
  obtain ⟨us, hus, hlaid⟩ := exists_uses_of_bind hreceiver hparameters
  have hrecord : ∀ name, (t.slotOf? name).isSome = true →
      ∃ r, t.named? name = some r ∧ h.binding? name = some r.last := by
    intro name hbound
    obtain ⟨slot, hslot⟩ := Option.isSome_iff_exists.1 hbound
    obtain ⟨r, hr, -⟩ := hlaid.exists_named hslot
    have hlast := hlaid.last_named_of_bindings hus name
    rw [hr] at hlast
    exact ⟨r, hr, hlast.symm⟩
  refine ⟨fun name => ?_, fun name hbound hnot => ?_, fun name hbound hinit => ?_⟩
  · rw [h.get?_entryFrame, Option.isSome_map, ← hlaid.last_named_of_bindings hus,
      Option.isSome_map, hlaid.built.isSome_named?]
  · obtain ⟨r, hr, hbinding⟩ := hrecord name hbound
    refine ⟨r, hr, ?_⟩
    rw [h.get?_entryFrame, hbinding, Option.map_some,
      Header.enteredValue_of_not_initializes hbinding hnot]
  · obtain ⟨r, hr, hbinding⟩ := hrecord name hbound
    obtain ⟨hvalue, htype⟩ := Header.enteredValue_of_initializes hbinding hinit
    exact ⟨r, hr, by rw [h.get?_entryFrame, hbinding, Option.map_some, hvalue], htype⟩

def twoOfOneName : Header :=
  ⟨.object, UnqualifiedName.init.text, .ofBits _ 0, [⟨"x", .base .long⟩, ⟨"x", .int⟩], none⟩

theorem twoOfOneName_bindsAlike : ∃ t₁ t, empty.bindReceiver twoOfOneName = (t₁, .done) ∧
    t₁.bindParameters twoOfOneName.parameters = (t, .done) ∧ t.slotOf? "x" = some 3 ∧
      twoOfOneName.Initializes receiverName ∧ twoOfOneName.BindsAlike t := by
  have hreceiver : (empty.bindReceiver twoOfOneName).2 = .done := by decide
  have hparameters : ((empty.bindReceiver twoOfOneName).1.bindParameters
      twoOfOneName.parameters).2 = .done := by decide
  exact ⟨_, _, Prod.ext rfl hreceiver, Prod.ext rfl hparameters, by decide, by decide,
    bindsAlike_of_bind (Prod.ext rfl hreceiver) (Prod.ext rfl hparameters)⟩

/-- A parameter takes the place of the receiver that a constructor has to initialize. -/
example : let h := { twoOfOneName with parameters := [⟨receiverName, .int⟩] }
    h.entryFrame.get? receiverName = some .int ∧
      ((empty.bindReceiver h).1.bindParameters h.parameters).1.slotOf? receiverName = some 1 := by
  decide

end Table

end MethodLocals
