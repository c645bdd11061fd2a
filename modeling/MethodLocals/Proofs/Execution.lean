import MethodLocals.Action

/-! What actions do to a frame when they go well. -/

namespace MethodLocals

namespace Value

/-- What becomes of a value when the constructor of a receiver has run. -/
def afterConstructor (receiver value : Value) : Value :=
  match receiver.underConstruction with
  | some name => if value = receiver then .object (.object name) else value
  | none => value

theorem afterConstructor_of_underConstruction {receiver : Value} {c : BinaryName}
    (h : receiver.underConstruction = some c) :
    receiver.afterConstructor = fun v => if v = receiver then .object (.object c) else v := by
  funext v
  rw [afterConstructor, h]

theorem afterConstructor_of_none {receiver : Value} (h : receiver.underConstruction = none) :
    receiver.afterConstructor = id := by
  funext v
  rw [afterConstructor, h]
  rfl

/-- What receivers under construction have in common with the objects that they become, a constructor
leaves to all values. -/
theorem afterConstructor_eq_of_class {α : Type} (look : Value → α) {receiver : Value}
    (h : ∀ c, receiver.underConstruction = some c →
      look (.object (.object c)) = look receiver) (v : Value) :
    look (receiver.afterConstructor v) = look v := by
  unfold afterConstructor
  split
  · rename_i c hc
    split
    · rename_i heq
      rw [heq, h c hc]
    · rfl
  · rfl

end Value

namespace Frame

/-- A constructor call changes all values of the frame alike. -/
theorem construct_eq (f : Frame) (receiver : Value) : f.construct receiver =
    ⟨f.locals.map receiver.afterConstructor, f.stack.map receiver.afterConstructor⟩ := by
  unfold construct
  split
  · rename_i c hc
    rw [Value.afterConstructor_of_underConstruction hc, replaceAll]
  · rename_i hc
    have hlocals : f.locals.map id = f.locals :=
      Locals.eq_of_get?_eq fun name => by rw [Locals.get?_map, Option.map_id, id]
    rw [Value.afterConstructor_of_none hc, hlocals, List.map_id]

theorem get?_construct (f : Frame) (receiver : Value) (name : String) :
    (f.construct receiver).get? name = (f.get? name).map receiver.afterConstructor := by
  rw [construct_eq, get?, Locals.get?_map, get?]

theorem stack_construct (f : Frame) (receiver : Value) :
    (f.construct receiver).stack = f.stack.map receiver.afterConstructor := by
  rw [construct_eq]

/-- Taking a value of some width goes well exactly if the topmost value has it. -/
theorem popWidth_of_stack {f : Frame} {v : Value} {rest : List Value}
    (hf : f.stack = v :: rest) (width : Nat) :
    f.popWidth width = if v.width = width then .ok (v, ⟨f.locals, rest⟩)
      else .error (.invalidWidth width v.width) := by
  rw [popWidth, take, hf]
  dsimp only
  unfold checkWidth
  split <;> rfl

theorem popWidth_eq_ok {f : Frame} {width : Nat} {taken : Value × Frame}
    (h : f.popWidth width = .ok taken) :
    ∃ v rest, f.stack = v :: rest ∧ v.width = width ∧ taken = (v, ⟨f.locals, rest⟩) := by
  cases hf : f.stack with
  | nil =>
    rw [popWidth, take, hf] at h
    cases h
  | cons v rest =>
    rw [popWidth_of_stack hf] at h
    split at h
    · rename_i hwidth
      exact ⟨v, rest, rfl, hwidth, (Except.ok.inj h).symm⟩
    · cases h

end Frame

inductive Action.Does (f : Frame) : Action → Frame → Prop
  | push (v : Value) : Does f (.push v) (f.push v)
  | pop {v : Value} {rest : List Value} (hf : f.stack = v :: rest) :
    Does f (.pop v.width) ⟨f.locals, rest⟩
  | popWide {v : Value} {rest : List Value} (hf : f.stack = v :: rest) (hv : v.width ≠ 1) :
    Does f .popPair ⟨f.locals, rest⟩
  | popTwo {v w : Value} {rest : List Value} (hf : f.stack = v :: w :: rest) (hv : v.width = 1)
    (hw : w.width = 1) : Does f .popPair ⟨f.locals, rest⟩
  | dup {v : Value} {rest : List Value} (hf : f.stack = v :: rest) (hv : v.width = 1) :
    Does f .dup ⟨f.locals, v :: v :: rest⟩
  | swap {v w : Value} {rest : List Value} (hf : f.stack = v :: w :: rest) (hv : v.width = 1)
    (hw : w.width = 1) : Does f .swap ⟨f.locals, w :: v :: rest⟩
  | loadRef (name : String) : Does f (.loadRef name) (f.push (f.loaded name))
  | set (name : String) (v : Value) : Does f (.set name v) (f.set name v)
  | storeTop {v : Value} {rest : List Value} (name : String) (hf : f.stack = v :: rest)
    (hv : v.width = 1) : Does f (.storeTop name) ⟨f.locals.set name v, rest⟩
  | element {v : Value} {rest : List Value} (hf : f.stack = v :: rest) (hv : v.width = 1) :
    Does f .element ⟨f.locals, v.elementOf :: rest⟩
  | construct {v : Value} {rest : List Value} (hf : f.stack = v :: rest) (hv : v.width = 1) :
    Does f .construct (Frame.construct ⟨f.locals, rest⟩ v)

theorem Action.does_of_run {f g : Frame} {action : Action} (h : action.run f = .ok g) :
    action.Does f g := by
  have hpop : ∀ {width : Nat} {next : Value × Frame → Frame} {g : Frame},
      (f.popWidth width).map next = .ok g → ∃ v rest,
        f.stack = v :: rest ∧ v.width = width ∧ g = next (v, ⟨f.locals, rest⟩) := by
    intro width next g h
    cases hf : f.popWidth width with
    | error e => rw [hf] at h; cases h
    | ok taken =>
      obtain ⟨v, rest, hstack, hwidth, rfl⟩ := Frame.popWidth_eq_ok hf
      rw [hf] at h
      exact ⟨v, rest, hstack, hwidth, (Except.ok.inj h).symm⟩
  cases action with
  | push v =>
    obtain rfl := Except.ok.inj h
    exact .push v
  | pop width =>
    obtain ⟨v, rest, hf, rfl, rfl⟩ := hpop h
    exact .pop hf
  | popPair =>
    rw [run, Frame.pop] at h
    cases hf : f.stack with
    | nil => simp [hf] at h
    | cons v rest =>
      simp only [hf] at h
      split at h
      · rename_i hv
        cases hw : Frame.popWidth ⟨f.locals, rest⟩ 1 with
        | error e => rw [hw] at h; cases h
        | ok taken =>
          obtain ⟨w, rest', hrest, hwidth, rfl⟩ := Frame.popWidth_eq_ok hw
          obtain rfl : rest = w :: rest' := hrest
          rw [hw] at h
          obtain rfl := Except.ok.inj h
          exact .popTwo hf hv hwidth
      · rename_i hv
        obtain rfl := Except.ok.inj h
        exact .popWide hf hv
  | dup =>
    obtain ⟨v, rest, hf, hv, rfl⟩ := hpop h
    exact .dup hf hv
  | swap =>
    unfold run at h
    cases hf : f.popWidth 1 with
    | error e => simp [hf] at h
    | ok taken =>
      obtain ⟨v, rest, hstack, hv, rfl⟩ := Frame.popWidth_eq_ok hf
      simp only [hf] at h
      cases hw : Frame.popWidth ⟨f.locals, rest⟩ 1 with
      | error e => rw [hw] at h; cases h
      | ok taken =>
        obtain ⟨w, rest', hrest, hwidth, rfl⟩ := Frame.popWidth_eq_ok hw
        obtain rfl : rest = w :: rest' := hrest
        rw [hw] at h
        obtain rfl := Except.ok.inj h
        exact .swap hstack hv hwidth
  | loadRef name =>
    obtain rfl := Except.ok.inj h
    exact .loadRef name
  | set name v =>
    obtain rfl := Except.ok.inj h
    exact .set name v
  | storeTop name =>
    obtain ⟨v, rest, hf, hv, rfl⟩ := hpop h
    exact .storeTop name hf hv
  | element =>
    obtain ⟨v, rest, hf, hv, rfl⟩ := hpop h
    exact .element hf hv
  | construct =>
    obtain ⟨v, rest, hf, hv, rfl⟩ := hpop h
    exact .construct hf hv
  | fail e => cases h

theorem Action.run_of_does {f g : Frame} {action : Action} (h : action.Does f g) :
    action.run f = .ok g := by
  cases h with
  | push | loadRef | set => rfl
  | pop hf => simp [run, Frame.popWidth_of_stack hf, Except.map]
  | popWide hf hv => simp [run, Frame.pop, hf, hv]
  | popTwo hf hv hw =>
    simp [run, Frame.pop, hf, hv, Frame.popWidth_of_stack (f := ⟨f.locals, _⟩) rfl, hw, Except.map]
  | dup hf hv | storeTop _ hf hv | element hf hv | construct hf hv =>
    simp [run, Frame.popWidth_of_stack hf, hv, Except.map, Frame.push, Frame.set]
  | swap hf hv hw =>
    simp [run, Frame.popWidth_of_stack hf, hv, hw,
      Frame.popWidth_of_stack (f := ⟨f.locals, _⟩) rfl, Except.map, Frame.push]

namespace Frame

theorem runAll_cons_eq_ok_iff {f g : Frame} {action : Action} {rest : List Action} :
    f.runAll (action :: rest) = .ok g ↔ ∃ f', action.Does f f' ∧ f'.runAll rest = .ok g := by
  rw [runAll]
  constructor
  · intro h
    split at h
    · cases h
    · rename_i f' hrun
      exact ⟨f', Action.does_of_run hrun, h⟩
  · rintro ⟨f', hdoes, h⟩
    rw [Action.run_of_does hdoes]
    exact h

theorem runAll_append_eq_ok_iff {f g : Frame} {xs ys : List Action} :
    f.runAll (xs ++ ys) = .ok g ↔ ∃ f', f.runAll xs = .ok f' ∧ f'.runAll ys = .ok g := by
  rw [runAll_append]
  cases f.runAll xs <;> simp

end Frame

theorem Frame.runAll_induction {Inv : Frame → Prop} {actions : List Action}
    (hstep : ∀ {f g action}, action ∈ actions → Inv f → action.Does f g → Inv g) {f g : Frame}
    (hinv : Inv f) (h : f.runAll actions = .ok g) : Inv g := by
  induction actions generalizing f with
  | nil =>
    obtain rfl := Except.ok.inj h
    exact hinv
  | cons action rest ih =>
    obtain ⟨f', hdoes, hrest⟩ := runAll_cons_eq_ok_iff.1 h
    have hfirst := hstep List.mem_cons_self hinv hdoes
    exact ih (fun hmem => hstep (List.mem_cons_of_mem action hmem)) hfirst hrest

def Action.values : Action → List Value
  | push v | set _ v => [v]
  | _ => []

/-- An access of a field takes values, and puts that of the field onto the stack if it reads it. -/
theorem Action.of_mem_fieldActions {access : FieldAccess} {t : FieldType} {action : Action}
    (h : action ∈ fieldActions access t) :
    (∃ width, action = .pop width) ∨ action = .push (.ofType t) := by
  cases access <;> simp only [fieldActions, List.mem_cons, List.not_mem_nil, or_false] at h <;>
    rcases h with rfl | rfl <;> simp

/-- A call takes values, one of them by the action of a constructor, and puts the result onto the
stack. -/
theorem Action.of_mem_invokeActions {kind : InvokeKind} {ref : MethodRef} {action : Action}
    (h : action ∈ invokeActions kind ref) :
    (∃ width, action = .pop width) ∨ action = .construct ∨
      ∃ t, ref.descriptor.returns = some t ∧ action = .push (.ofType t) := by
  rw [invokeActions, List.append_assoc, List.mem_append, List.mem_append] at h
  rcases h with harguments | hreceiver | hreturn
  · obtain ⟨t, -, rfl⟩ := List.mem_map.1 harguments
    exact .inl ⟨_, rfl⟩
  · unfold receiverActions at hreceiver
    split at hreceiver
    · cases hreceiver
    · split at hreceiver
      · exact .inr (.inl (List.mem_singleton.1 hreceiver))
      · exact .inl ⟨1, List.mem_singleton.1 hreceiver⟩
    · exact .inl ⟨1, List.mem_singleton.1 hreceiver⟩
    · exact .inl ⟨1, List.mem_singleton.1 hreceiver⟩
  · unfold returnActions at hreturn
    split at hreturn
    · cases hreturn
    · rename_i t hreturns
      exact .inr (.inr ⟨t, hreturns, List.mem_singleton.1 hreturn⟩)

structure Frame.Each (P : Value → Prop) (f : Frame) : Prop where
  stack : ∀ v ∈ f.stack, P v
  locals : ∀ name v, f.get? name = some v → P v

/-- What actions make of values that satisfy the predicate satisfies it as well. -/
structure Value.Hereditary (P : Value → Prop) : Prop where
  top : P .top
  elementOf : ∀ v, P v → P v.elementOf
  afterConstructor : ∀ receiver v, P receiver → P v → P (receiver.afterConstructor v)

namespace Frame.Each

variable {P Q : Value → Prop} {f g : Frame} {action : Action} {v : Value}

theorem empty : Each P .empty := ⟨by simp [Frame.empty], fun _ _ hv => by cases hv⟩

theorem mono (h : f.Each P) (hPQ : ∀ v, P v → Q v) : f.Each Q :=
  ⟨fun v hv => hPQ v (h.stack v hv), fun name v hv => hPQ v (h.locals name v hv)⟩

theorem pop {rest : List Value} (h : f.Each P) (hf : f.stack = v :: rest) :
    P v ∧ Each P ⟨f.locals, rest⟩ := by
  have hstack := h.stack
  rw [hf, List.forall_mem_cons] at hstack
  exact ⟨hstack.1, hstack.2, h.locals⟩

theorem push (h : f.Each P) (hv : P v) : (f.push v).Each P :=
  ⟨List.forall_mem_cons.2 ⟨hv, h.stack⟩, h.locals⟩

theorem set (h : f.Each P) (name : String) (hv : P v) : (f.set name v).Each P where
  stack := h.stack
  locals other w hw := by
    rw [Frame.get?_set] at hw
    split at hw
    · exact Option.some.inj hw ▸ hv
    · exact h.locals other w hw

theorem loaded (h : f.Each P) (htop : P .top) (name : String) : P (f.loaded name) := by
  unfold Frame.loaded
  split
  · rename_i v hv
    split
    · exact h.locals name v hv
    · exact htop
  · exact htop

theorem construct (h : f.Each P) (hP : Value.Hereditary P) (hv : P v) :
    (f.construct v).Each P := by
  constructor
  · intro w hw
    rw [stack_construct] at hw
    obtain ⟨u, hu, rfl⟩ := List.mem_map.1 hw
    exact hP.afterConstructor v u hv (h.stack u hu)
  · intro name w hw
    rw [get?_construct, Option.map_eq_some_iff] at hw
    obtain ⟨u, hu, rfl⟩ := hw
    exact hP.afterConstructor v u hv (h.locals name u hu)

/-- Actions that bring up values of the kind leave no others. -/
theorem does (h : f.Each P) (hP : Value.Hereditary P) (hvalues : ∀ v ∈ action.values, P v)
    (hdoes : action.Does f g) : g.Each P := by
  cases hdoes with
  | push v => exact h.push (hvalues v List.mem_cons_self)
  | pop hf => exact (h.pop hf).2
  | popWide hf => exact (h.pop hf).2
  | popTwo hf => exact ((h.pop hf).2.pop rfl).2
  | dup hf =>
    obtain ⟨hv, hrest⟩ := h.pop hf
    exact (hrest.push hv).push hv
  | swap hf =>
    obtain ⟨hv, hrest⟩ := h.pop hf
    obtain ⟨hw, hrest⟩ := hrest.pop rfl
    exact (hrest.push hv).push hw
  | loadRef name => exact h.push (h.loaded hP.top name)
  | set name v => exact h.set name (hvalues v List.mem_cons_self)
  | storeTop name hf =>
    obtain ⟨hv, hrest⟩ := h.pop hf
    exact hrest.set name hv
  | element hf =>
    obtain ⟨hv, hrest⟩ := h.pop hf
    exact hrest.push (hP.elementOf _ hv)
  | construct hf =>
    obtain ⟨hv, hrest⟩ := h.pop hf
    exact hrest.construct hP hv

end Frame.Each

namespace Instruction

variable {expander : Option Expander}

/-- Only the actions of expressions depend on the expander. -/
theorem actionsWithin_of_ne_expression {i : Instruction} (h : ∀ text, i ≠ expression text)
    (depth : Nat) : i.actionsWithin expander depth = i.ownActions := by
  cases i with
  | expression text => exact absurd rfl (h text)
  | _ => unfold actionsWithin; rfl

theorem execute_of_ne_expression {i : Instruction} (h : ∀ text, i ≠ expression text) (f : Frame) :
    f.execute expander i = f.runAll i.ownActions := by
  rw [Frame.execute, actions, actionsWithin_of_ne_expression h]

inductive ExpansionFails : FlowError → Prop
  | missing (text : String) : ExpansionFails (.unexpandedExpression text)
  | failed (reason : String) : ExpansionFails (.expansion reason)

/-- An action of an instruction is its own, or the failure of an expansion, or it comes from an
instruction that an expression expands to. -/
theorem mem_actionsWithin {depth : Nat} {i : Instruction} {action : Action}
    (h : action ∈ i.actionsWithin expander depth) :
    action ∈ i.ownActions ∨ (∃ e, ExpansionFails e ∧ action = .fail e) ∨
      ∃ e text body below j, depth = below + 1 ∧ i = expression text ∧ expander = some e ∧
        e.expand text = .ok body ∧ j ∈ body ∧ action ∈ j.actionsWithin expander below := by
  by_cases hi : ∃ text, i = expression text
  · obtain ⟨text, rfl⟩ := hi
    unfold actionsWithin at h
    cases hexpander : expander with
    | none =>
      simp only [hexpander, List.mem_singleton] at h
      exact .inr (.inl ⟨_, .missing text, h⟩)
    | some e =>
      simp only [hexpander] at h
      cases hexpand : e.expand text with
      | error reason =>
        simp only [hexpand, List.mem_singleton] at h
        exact .inr (.inl ⟨_, .failed reason, h⟩)
      | ok body =>
        cases depth with
        | zero =>
          simp only [hexpand, List.mem_singleton] at h
          exact .inr (.inl ⟨_, .failed _, h⟩)
        | succ below =>
          simp only [hexpand, List.mem_flatMap] at h
          obtain ⟨j, hj, hmem⟩ := h
          exact .inr (.inr ⟨e, text, body, below, j, rfl, rfl, rfl, hexpand, hj, hmem⟩)
  · rw [actionsWithin_of_ne_expression fun text heq => hi ⟨text, heq⟩] at h
    exact .inl h

end Instruction

end MethodLocals
