import MethodLocals.Proofs.Definedness

/-! Executing an instruction is local to the top of the stack. Values further down stay where they
are, and so do variables that are not set, unless a constructor is called: then each copy of its
receiver, wherever it is kept, becomes an object. -/

namespace MethodLocals

def Frame.onto (f : Frame) (below : List Value) : Frame := ⟨f.locals, f.stack ++ below⟩

def Value.afterConstructors (receivers : List Value) (value : Value) : Value :=
  receivers.foldl (fun value receiver => receiver.afterConstructor value) value

/-- The receiver of a constructor call, which lies below the arguments, if its constructor has not
run before. -/
def Frame.receiver? (f : Frame) : Instruction → Option Value
  | .invoke .special ref =>
    if ref.name.isInit then
      f.stack[ref.descriptor.parameters.length]?.filter (·.underConstruction.isSome)
    else none
  | _ => none

/-- The instructions that are executed for an instruction, with expressions nested `depth` times at
most. An expression that is not expanded stays. -/
def Instruction.executedWithin (expander : Option Expander) : Nat → Instruction → List Instruction
  | depth, expression text =>
    match expander with
    | none => [expression text]
    | some e =>
      match e.expand text, depth with
      | .error _, _ => [expression text]
      | .ok _, 0 => [expression text]
      | .ok body, depth + 1 => body.flatMap (executedWithin expander depth)
  | _, instruction => [instruction]

def Instruction.executed (expander : Option Expander) (i : Instruction) : List Instruction :=
  i.executedWithin expander (expander.elim 0 Expander.nesting)

def Frame.executeAll (expander : Option Expander) (f : Frame) :
    List Instruction → Except FlowError Frame
  | [] => .ok f
  | i :: rest =>
    match f.execute expander i with
    | .error e => .error e
    | .ok f => f.executeAll expander rest

def Frame.receivers (expander : Option Expander) (f : Frame) : List Instruction → List Value
  | [] => []
  | i :: rest =>
    match f.execute expander i with
    | .error _ => []
    | .ok g => (f.receiver? i).toList ++ g.receivers expander rest

/-- A run leads from the frame `f` to the frame `g`, and initializes receivers on its way. It does the
same on other values, and a variable that it does not set keeps its value up to the receivers. -/
structure Frame.ActsLocally (run : Frame → Except FlowError Frame) (Sets : String → Prop)
    (receivers : List Value) (f g : Frame) : Prop where
  onto : ∀ below, run (f.onto below) = .ok (g.onto (below.map (Value.afterConstructors receivers)))
  kept : ∀ name, ¬ Sets name → g.get? name = (f.get? name).map (Value.afterConstructors receivers)

/-- A constructor call makes an object of the receiver everywhere, and nothing of anything else. -/
structure Frame.Constructs (run : Frame → Except FlowError Frame) (receiver : Value) (f g : Frame) :
    Prop where
  replaced : ∃ name, receiver.underConstruction = some name ∧
    (∀ below, run (f.onto below) = .ok (g.onto
      (below.map fun v => if v = receiver then .object (.object name) else v))) ∧
    ∀ x, g.get? x = (f.get? x).map fun v => if v = receiver then .object (.object name) else v
  gone : ∀ below h, run (f.onto below) = .ok h → receiver ∉ h.stack ∧ ∀ x, h.get? x ≠ some receiver

/-- A run of instructions goes from `f` to `g` through the step of one of them. -/
structure Frame.StepsLocally (expander : Option Expander) (before : List Instruction)
    (j : Instruction) (after : List Instruction) (f f₁ f₂ g : Frame) : Prop where
  reached : f.executeAll expander before = .ok f₁
  executed : f₁.execute expander j = .ok f₂
  left : f₂.executeAll expander after = .ok g
  acts : ActsLocally (·.execute expander j) (j.Defines expander) (f₁.receiver? j).toList f₁ f₂
  constructs : ∀ receiver, f₁.receiver? j = some receiver →
    Constructs (·.execute expander j) receiver f₁ f₂

structure Frame.ExecutesLocally (expander : Option Expander) (i : Instruction) (f g : Frame) :
    Prop where
  acts : ActsLocally (·.execute expander i) (i.Defines expander)
    (f.receivers expander (i.executed expander)) f g
  /-- Other values under the stack change no constructor call. -/
  receivers_onto : ∀ below, (f.onto below).receivers expander (i.executed expander) =
    f.receivers expander (i.executed expander)
  /-- Unless a constructor is called for an object under construction, nothing else changes. -/
  unchanged : f.receivers expander (i.executed expander) = [] →
    (∀ below, (f.onto below).execute expander i = .ok (g.onto below)) ∧
      ∀ name, ¬ i.Defines expander name → g.get? name = f.get? name
  /-- No expression is left among the instructions that are executed, and each acts locally. -/
  steps : ∀ before j after, i.executed expander = before ++ j :: after →
    (∀ text, j ≠ .expression text) ∧ ∃ f₁ f₂, StepsLocally expander before j after f f₁ f₂ g

variable {expander : Option Expander} {f g : Frame} {action : Action} {actions : List Action}
  {i j : Instruction} {is : List Instruction} {name : String} {receiver : Value}

namespace Value

@[simp] theorem afterConstructors_nil : afterConstructors [] = id := rfl

theorem afterConstructors_append (rs rs' : List Value) :
    afterConstructors (rs ++ rs') = afterConstructors rs' ∘ afterConstructors rs := by
  funext v
  exact List.foldl_append

/-- An object whose constructor has run is no longer under construction. -/
theorem afterConstructor_ne (h : receiver.underConstruction.isSome = true) (v : Value) :
    receiver.afterConstructor v ≠ receiver := by
  obtain ⟨c, hc⟩ := Option.isSome_iff_exists.1 h
  rw [afterConstructor_of_underConstruction hc]
  dsimp only
  split
  · rintro rfl
    cases hc
  · assumption

/-- A receiver that is not under construction changes nothing. -/
theorem afterConstructors_filter (receiver : Value) :
    afterConstructors ((some receiver).filter (·.underConstruction.isSome)).toList =
      receiver.afterConstructor := by
  funext v
  cases hc : receiver.underConstruction with
  | none => simp [Option.filter, hc, afterConstructors, afterConstructor]
  | some c => simp [Option.filter, hc, afterConstructors]

theorem underConstruction_ofType (t : FieldType) : (ofType t).underConstruction = none := by
  rcases t with b | r
  · cases b <;> rfl
  · rfl

end Value

theorem Action.Does.onto (h : action.Does f g) (hother : action ≠ .construct)
    (below : List Value) : action.Does (f.onto below) (g.onto below) := by
  have hstack : ∀ {vs}, f.stack = vs → (f.onto below).stack = vs ++ below := by
    rintro _ rfl
    rfl
  cases h with
  | push v => exact .push v
  | pop hf => exact .pop (hstack hf)
  | popWide hf hv => exact .popWide (hstack hf) hv
  | popTwo hf hv hw => exact .popTwo (hstack hf) hv hw
  | dup hf hv => exact .dup (hstack hf) hv
  | swap hf hv hw => exact .swap (hstack hf) hv hw
  | loadRef name => exact .loadRef name
  | set name v => exact .set name v
  | storeTop name hf hv => exact .storeTop name (hstack hf) hv
  | element hf hv => exact .element (hstack hf) hv
  | construct => exact absurd rfl hother

theorem Action.get?_of_does (h : action.Does f g) (hother : action ≠ .construct)
    (hsets : action.setsLocal name = false) : g.get? name = f.get? name := by
  have hne : ∀ {x}, decide (x = name) = false → name ≠ x :=
    fun hx e => of_decide_eq_false hx e.symm
  cases h with
  | push | pop | popWide | popTwo | dup | swap | loadRef | element => rfl
  | set => rw [Frame.get?_set, if_neg (hne hsets)]
  | storeTop => rw [Frame.get?, Locals.get?_set, if_neg (hne hsets), Frame.get?]
  | construct => exact absurd rfl hother

namespace Frame

theorem runAll_onto (hother : .construct ∉ actions) (h : f.runAll actions = .ok g)
    (below : List Value) : (f.onto below).runAll actions = .ok (g.onto below) := by
  induction actions generalizing f with
  | nil =>
    obtain rfl := Except.ok.inj h
    rfl
  | cons action rest ih =>
    rw [List.mem_cons, not_or] at hother
    obtain ⟨f', hdoes, hrest⟩ := runAll_cons_eq_ok_iff.1 h
    exact runAll_cons_eq_ok_iff.2
      ⟨f'.onto below, hdoes.onto (Ne.symm hother.1) below, ih hother.2 hrest⟩

theorem get?_runAll (hother : .construct ∉ actions)
    (hsets : ∀ action ∈ actions, action.setsLocal name = false) (h : f.runAll actions = .ok g) :
    g.get? name = f.get? name := by
  refine @runAll_induction (fun g => g.get? name = f.get? name) _ ?_ f g rfl h
  intro f' g' action hmem hinv hdoes
  have hne : action ≠ .construct := by
    rintro rfl
    exact hother hmem
  exact (Action.get?_of_does hdoes hne (hsets action hmem)).trans hinv

theorem runAll_pops {ts : List FieldType} (h : f.runAll (ts.map (.pop ·.width)) = .ok g) :
    g = ⟨f.locals, f.stack.drop ts.length⟩ := by
  induction ts generalizing f with
  | nil => exact (Except.ok.inj h).symm
  | cons t ts ih =>
    rw [List.map_cons] at h
    generalize t.width = width at h
    obtain ⟨f', hdoes, hrest⟩ := runAll_cons_eq_ok_iff.1 h
    cases hdoes with
    | pop hf =>
      rw [ih hrest, hf]
      rfl

theorem runAll_construct_eq_ok_iff : f.runAll [.construct] = .ok g ↔
    ∃ receiver rest, f.stack = receiver :: rest ∧ receiver.width = 1 ∧
      g = ⟨f.locals.map receiver.afterConstructor, rest.map receiver.afterConstructor⟩ := by
  rw [runAll_cons_eq_ok_iff]
  constructor
  · rintro ⟨f', hdoes, hrest⟩
    obtain rfl := Except.ok.inj hrest
    cases hdoes with
    | @construct receiver rest hf hv => exact ⟨receiver, rest, hf, hv, construct_eq _ _⟩
  · rintro ⟨receiver, rest, hf, hv, rfl⟩
    rw [← construct_eq ⟨f.locals, rest⟩]
    exact ⟨_, .construct hf hv, rfl⟩

theorem runAll_returnActions (f : Frame) (returns : Option FieldType) :
    f.runAll (returnActions returns) = .ok ⟨f.locals, returns.toList.map .ofType ++ f.stack⟩ := by
  cases returns <;> rfl

/-- A constructor call takes the arguments and the receiver below them, and puts what it returns
onto a frame in which all copies of the receiver have changed. -/
theorem runAll_constructor_eq_ok_iff {ts : List FieldType} {returns : Option FieldType} :
    f.runAll (ts.map (.pop ·.width) ++ [.construct] ++ returnActions returns) = .ok g ↔
      ∃ receiver rest, f.runAll (ts.map (.pop ·.width)) = .ok ⟨f.locals, receiver :: rest⟩ ∧
        receiver.width = 1 ∧ g = ⟨f.locals.map receiver.afterConstructor,
          returns.toList.map .ofType ++ rest.map receiver.afterConstructor⟩ := by
  simp only [runAll_append_eq_ok_iff, runAll_returnActions, runAll_construct_eq_ok_iff,
    Except.ok.injEq]
  constructor
  · rintro ⟨_, ⟨f₁, hpops, receiver, rest, hf, hv, rfl⟩, rfl⟩
    obtain rfl := runAll_pops hpops
    dsimp only at hf
    rw [hf] at hpops
    exact ⟨receiver, rest, hpops, hv, rfl⟩
  · rintro ⟨receiver, rest, hpops, hv, rfl⟩
    exact ⟨_, ⟨_, hpops, receiver, rest, rfl, hv, rfl⟩, rfl⟩

/-- A constructor call finds its receiver below the arguments, and changes the values under it and in
variables alike. What it returns is not under construction. -/
theorem execute_constructor {ref : MethodRef} (hinit : ref.name.isInit = true)
    (h : f.execute expander (.invoke .special ref) = .ok g) :
    ∃ receiver, f.stack[ref.descriptor.parameters.length]? = some receiver ∧
      (∀ below, (f.onto below).execute expander (.invoke .special ref) =
        .ok (g.onto (below.map receiver.afterConstructor))) ∧
      (∀ x, g.get? x = (f.get? x).map receiver.afterConstructor) ∧
      (receiver.underConstruction.isSome = true → receiver ∉ g.stack) := by
  have hactions : (Instruction.invoke .special ref).ownActions =
      ref.descriptor.parameters.reverse.map (.pop ·.width) ++ [.construct] ++
        returnActions ref.descriptor.returns := by
    simp [Instruction.ownActions, invokeActions, receiverActions, hinit]
  have hplain : ∀ text, Instruction.invoke .special ref ≠ .expression text := by simp
  simp only [Instruction.execute_of_ne_expression hplain, hactions,
    runAll_constructor_eq_ok_iff] at h ⊢
  obtain ⟨receiver, rest, hpops, hwidth, rfl⟩ := h
  refine ⟨receiver, ?_, fun below => ?_, fun x => Locals.get?_map _ _ _, fun hunder => ?_⟩
  -- each argument is one entry of the stack, however wide it is
  · have hdrop : receiver :: rest = f.stack.drop ref.descriptor.parameters.length := by
      simpa using congrArg stack (runAll_pops hpops)
    rw [← List.head?_drop, ← hdrop]
    rfl
  · have hpopsOnto := runAll_onto (by simp) hpops below
    refine ⟨receiver, rest ++ below, hpopsOnto, hwidth, ?_⟩
    simp [onto]
  · rw [List.mem_append, not_or]
    constructor
    · intro hmem
      obtain ⟨t, -, rfl⟩ := List.mem_map.1 hmem
      rw [Value.underConstruction_ofType] at hunder
      cases hunder
    · intro hmem
      obtain ⟨v, -, hv⟩ := List.mem_map.1 hmem
      exact Value.afterConstructor_ne hunder v hv

end Frame

theorem Instruction.construct_not_mem_ownActions
    (h : ∀ ref, i = .invoke .special ref → ref.name.isInit = false) :
    .construct ∉ i.ownActions := by
  cases i with
  | invoke kind ref =>
    have hreturn : .construct ∉ returnActions ref.descriptor.returns := by
      cases ref.descriptor.returns <;> simp [returnActions]
    cases kind with
    | special => simp [ownActions, invokeActions, receiverActions, h ref rfl, hreturn]
    | _ => simp [ownActions, invokeActions, receiverActions, hreturn]
  | field access ref => cases access <;> simp [ownActions, fieldActions]
  | _ => simp [ownActions]

namespace Frame

/-- Only the calls of constructors have to be looked at on their own. -/
theorem calls_constructor_or_not (i : Instruction) :
    (∃ ref, i = .invoke .special ref ∧ ref.name.isInit = true) ∨
      (∀ ref, i = .invoke .special ref → ref.name.isInit = false) := by
  by_cases hcall : ∃ ref, i = .invoke .special ref ∧ ref.name.isInit = true
  · exact .inl hcall
  · exact .inr fun ref href => Bool.eq_false_iff.2 fun hinit => hcall ⟨ref, href, hinit⟩

theorem receiver?_eq_none (h : ∀ ref, i = .invoke .special ref → ref.name.isInit = false)
    (f : Frame) : f.receiver? i = none := by
  unfold receiver?
  split
  · rename_i ref
    rw [if_neg (by simp [h ref rfl])]
  · rfl

theorem receiver?_constructor {ref : MethodRef} (hinit : ref.name.isInit = true)
    (hstack : f.stack[ref.descriptor.parameters.length]? = some receiver) :
    f.receiver? (.invoke .special ref) =
      (some receiver).filter (·.underConstruction.isSome) := by
  rw [receiver?, if_pos hinit, hstack]

theorem constructs_of_receiver? (h : f.execute expander i = .ok g)
    (hreceiver : f.receiver? i = some receiver) :
    Constructs (·.execute expander i) receiver f g := by
  rcases calls_constructor_or_not i with ⟨ref, rfl, hinit⟩ | hother
  · obtain ⟨r, hstack, honto, hkept, hgone⟩ := execute_constructor hinit h
    rw [receiver?_constructor hinit hstack, Option.filter_eq_some_iff] at hreceiver
    obtain ⟨heq, hunder⟩ := hreceiver
    obtain rfl := Option.some.inj heq
    obtain ⟨c, hc⟩ := Option.isSome_iff_exists.1 hunder
    have hafter := Value.afterConstructor_of_underConstruction hc
    refine ⟨⟨c, hc, fun below => ?_, fun x => ?_⟩, fun below g' hg' => ⟨?_, fun x hx => ?_⟩⟩
    · rw [← hafter]
      exact honto below
    · rw [← hafter]
      exact hkept x
    · obtain rfl := Except.ok.inj ((honto below).symm.trans hg')
      rw [onto, List.mem_append, not_or]
      refine ⟨hgone hunder, fun hmem => ?_⟩
      obtain ⟨v, -, hv⟩ := List.mem_map.1 hmem
      exact Value.afterConstructor_ne hunder v hv
    · obtain rfl := Except.ok.inj ((honto below).symm.trans hg')
      obtain ⟨v, -, hv⟩ := Option.map_eq_some_iff.1 ((hkept x).symm.trans hx)
      exact Value.afterConstructor_ne hunder v hv
  · rw [receiver?_eq_none hother] at hreceiver
    cases hreceiver

theorem actsLocally_of_ne_expression (hplain : ∀ text, i ≠ .expression text)
    (h : f.execute expander i = .ok g) :
    ActsLocally (·.execute expander i) (i.Defines expander) (f.receiver? i).toList f g := by
  rcases calls_constructor_or_not i with ⟨ref, rfl, hinit⟩ | hother
  · obtain ⟨receiver, hstack, honto, hkept, -⟩ := execute_constructor hinit h
    rw [receiver?_constructor hinit hstack]
    refine ⟨fun below => ?_, fun x _ => ?_⟩
    · rw [Value.afterConstructors_filter]
      exact honto below
    · rw [Value.afterConstructors_filter]
      exact hkept x
  · have hnot := Instruction.construct_not_mem_ownActions hother
    rw [receiver?_eq_none hother]
    rw [Instruction.execute_of_ne_expression hplain] at h
    refine ⟨fun below => ?_, fun x hx => ?_⟩
    · rw [Instruction.execute_of_ne_expression hplain]
      simpa using runAll_onto hnot h below
    · have hsets : i.setsVariable x = false := Bool.eq_false_iff.2 fun hsets => hx (.own hsets)
      simpa using get?_runAll hnot (Instruction.not_setsLocal_of_mem_ownActions hsets) h

end Frame

namespace Instruction

theorem executedWithin_of_ne_expression (h : ∀ text, i ≠ expression text) (depth : Nat) :
    i.executedWithin expander depth = [i] := by
  cases i with
  | expression text => exact absurd rfl (h text)
  | _ => unfold executedWithin; rfl

theorem executedWithin_ok {e : Expander} {text : String} {body : List Instruction}
    (h : e.expand text = .ok body) (depth : Nat) :
    (expression text).executedWithin (some e) (depth + 1) =
      body.flatMap (·.executedWithin (some e) depth) := by
  rw [executedWithin.eq_def]
  simp only [h]

/-- Unless an expansion fails, no expression is left, and the actions are those of the instructions
that are executed. -/
theorem actionsWithin_eq_flatMap {depth : Nat}
    (hfail : ∀ error, .fail error ∉ i.actionsWithin expander depth) :
    (∀ j ∈ i.executedWithin expander depth, ∀ text, j ≠ expression text) ∧
      i.actionsWithin expander depth =
        (i.executedWithin expander depth).flatMap Instruction.ownActions := by
  induction depth generalizing i with
  | zero =>
    have hplain : ∀ text, i ≠ expression text := by
      rintro text rfl
      obtain ⟨_, _, _, -, -, hdepth⟩ := exists_expansion hfail
      cases hdepth
    rw [executedWithin_of_ne_expression hplain, actionsWithin_of_ne_expression hplain]
    simpa using hplain
  | succ depth ih =>
    by_cases hi : ∃ text, i = expression text
    · obtain ⟨text, rfl⟩ := hi
      obtain ⟨e, body, below, rfl, hbody, -⟩ := exists_expansion hfail
      rw [actionsWithin_ok hbody] at hfail ⊢
      rw [executedWithin_ok hbody]
      have hparts : ∀ j ∈ body, _ := fun j hj =>
        ih (i := j) fun error herror => hfail error (List.mem_flatMap.2 ⟨j, hj, herror⟩)
      constructor
      · intro j hj
        obtain ⟨k, hk, hjk⟩ := List.mem_flatMap.1 hj
        exact (hparts k hk).1 j hjk
      · rw [List.flatMap_assoc, List.flatMap_def, List.flatMap_def]
        exact congrArg _ (List.map_congr_left fun j hj => (hparts j hj).2)
    · have hplain : ∀ text, i ≠ expression text := fun text heq => hi ⟨text, heq⟩
      rw [executedWithin_of_ne_expression hplain, actionsWithin_of_ne_expression hplain]
      simpa using hplain

/-- An executed instruction is the instruction itself, or it is executed for one that an expression
expands to. -/
theorem mem_executedWithin {depth : Nat} (hj : j ∈ i.executedWithin expander depth) :
    j = i ∨ ∃ e text body below k, depth = below + 1 ∧ i = expression text ∧ expander = some e ∧
      e.expand text = .ok body ∧ k ∈ body ∧ j ∈ k.executedWithin expander below := by
  by_cases hi : ∃ text, i = expression text
  · obtain ⟨text, rfl⟩ := hi
    unfold executedWithin at hj
    cases hexpander : expander with
    | none => exact .inl (by simpa [hexpander] using hj)
    | some e =>
      simp only [hexpander] at hj
      cases hexpand : e.expand text with
      | error reason => exact .inl (by simpa [hexpand] using hj)
      | ok body =>
        cases depth with
        | zero => exact .inl (by simpa [hexpand] using hj)
        | succ below =>
          simp only [hexpand, List.mem_flatMap] at hj
          obtain ⟨k, hk, hjk⟩ := hj
          exact .inr ⟨e, text, body, below, k, rfl, rfl, rfl, hexpand, hk, hjk⟩
  · rw [executedWithin_of_ne_expression fun text heq => hi ⟨text, heq⟩] at hj
    exact .inl (List.mem_singleton.1 hj)

theorem Defines.of_mem_executedWithin {depth : Nat} (h : j.Defines expander name)
    (hj : j ∈ i.executedWithin expander depth) : i.Defines expander name := by
  induction depth using Nat.strongRecOn generalizing i with
  | _ depth ih =>
    rcases mem_executedWithin hj with rfl |
      ⟨e, text, body, below, k, rfl, rfl, hexpander, hbody, hk, hjk⟩
    · exact h
    · exact .expanded hexpander hbody hk (ih below (Nat.lt_succ_self below) hjk)

end Instruction

namespace Frame

theorem executeAll_eq_runAll (hplain : ∀ j ∈ is, ∀ text, j ≠ .expression text) (f : Frame) :
    f.executeAll expander is = f.runAll (is.flatMap Instruction.ownActions) := by
  induction is generalizing f with
  | nil => rfl
  | cons j rest ih =>
    rw [List.forall_mem_cons] at hplain
    rw [executeAll, List.flatMap_cons, runAll_append, Instruction.execute_of_ne_expression hplain.1]
    cases f.runAll j.ownActions with
    | error e => rfl
    | ok g => exact ih hplain.2 g

/-- An instruction that goes well has only instructions other than expressions executed for it. -/
theorem ne_expression_of_mem_executed (h : f.execute expander i = .ok g) :
    ∀ j ∈ i.executed expander, ∀ text, j ≠ .expression text :=
  (Instruction.actionsWithin_eq_flatMap (not_mem_of_runAll h)).1

theorem execute_eq_executeAll (h : f.execute expander i = .ok g) (f' : Frame) :
    f'.execute expander i = f'.executeAll expander (i.executed expander) := by
  rw [executeAll_eq_runAll (ne_expression_of_mem_executed h), execute, Instruction.actions]
  exact congrArg _ (Instruction.actionsWithin_eq_flatMap (not_mem_of_runAll h)).2

theorem executeAll_append_eq_ok_iff {js : List Instruction} :
    f.executeAll expander (is ++ js) = .ok g ↔
      ∃ f', f.executeAll expander is = .ok f' ∧ f'.executeAll expander js = .ok g := by
  induction is generalizing f with
  | nil => simp [executeAll]
  | cons i rest ih =>
    rw [List.cons_append, executeAll, executeAll]
    cases f.execute expander i with
    | error e => simp
    | ok f' => exact ih

theorem executeAll_cons_eq_ok_iff : f.executeAll expander (i :: is) = .ok g ↔
    ∃ f', f.execute expander i = .ok f' ∧ f'.executeAll expander is = .ok g := by
  rw [executeAll]
  cases f.execute expander i <;> simp

theorem receiver?_onto (h : f.execute expander i = .ok g) (below : List Value) :
    (f.onto below).receiver? i = f.receiver? i := by
  rcases calls_constructor_or_not i with ⟨ref, rfl, hinit⟩ | hother
  · obtain ⟨receiver, hstack, -⟩ := execute_constructor hinit h
    have honto : (f.onto below).stack[ref.descriptor.parameters.length]? = some receiver := by
      rw [onto, List.getElem?_append_left (List.getElem?_eq_some_iff.1 hstack).1, hstack]
    rw [receiver?_constructor hinit hstack, receiver?_constructor hinit honto]
  · rw [receiver?_eq_none hother, receiver?_eq_none hother]

theorem receivers_cons (h : f.execute expander i = .ok g) : f.receivers expander (i :: is) =
    (f.receiver? i).toList ++ g.receivers expander is := by
  rw [receivers, h]

/-- Where each instruction of a run acts locally, the run does, and so does it on other values. -/
theorem actsLocally_executeAll (hplain : ∀ j ∈ is, ∀ text, j ≠ .expression text)
    (h : f.executeAll expander is = .ok g) :
    ActsLocally (·.executeAll expander is) (fun name => ∃ j ∈ is, j.Defines expander name)
        (f.receivers expander is) f g ∧
      ∀ below, (f.onto below).receivers expander is = f.receivers expander is := by
  induction is generalizing f with
  | nil =>
    obtain rfl := Except.ok.inj h
    exact ⟨⟨fun below => by simp [executeAll, receivers], fun name _ => by simp [receivers]⟩,
      fun _ => rfl⟩
  | cons j rest ih =>
    rw [List.forall_mem_cons] at hplain
    obtain ⟨f', hfirst, hrest⟩ := executeAll_cons_eq_ok_iff.1 h
    have hlocal := actsLocally_of_ne_expression hplain.1 hfirst
    obtain ⟨htail, hreceivers⟩ := ih hplain.2 hrest
    rw [receivers_cons hfirst]
    refine ⟨⟨fun below => ?_, fun name hname => ?_⟩, fun below => ?_⟩
    · rw [executeAll_cons_eq_ok_iff, Value.afterConstructors_append, ← List.map_map]
      exact ⟨_, hlocal.onto below, htail.onto _⟩
    · rw [Value.afterConstructors_append, ← Option.map_map, ← hlocal.kept name fun hj => ?_]
      · exact htail.kept name fun ⟨k, hk, hdefines⟩ =>
          hname ⟨k, List.mem_cons_of_mem j hk, hdefines⟩
      · exact hname ⟨j, List.mem_cons_self, hj⟩
    · rw [receivers_cons (hlocal.onto below), receiver?_onto hfirst, hreceivers]

/-- Execution is local to the top of the stack and to the variables that are set, up to the receivers
of constructor calls. -/
theorem executesLocally_of_execute (h : f.execute expander i = .ok g) :
    f.ExecutesLocally expander i g := by
  have hplain := ne_expression_of_mem_executed h
  have hall := execute_eq_executeAll h
  have hrun := (hall f).symm.trans h
  obtain ⟨hlocal, hreceivers⟩ := actsLocally_executeAll hplain hrun
  have hacts : ActsLocally (·.execute expander i) (i.Defines expander)
      (f.receivers expander (i.executed expander)) f g := by
    refine ⟨fun below => (hall _).trans (hlocal.onto below), fun name hname => ?_⟩
    exact hlocal.kept name fun ⟨j, hj, hdefines⟩ => hname (hdefines.of_mem_executedWithin hj)
  refine ⟨hacts, hreceivers, fun hnone => ⟨fun below => ?_, fun name hname => ?_⟩, ?_⟩
  · simpa [hnone] using hacts.onto below
  · simpa [hnone] using hacts.kept name hname
  · intro before j after hsplit
    rw [hsplit] at hrun hplain
    obtain ⟨f₁, hbefore, hrest⟩ := executeAll_append_eq_ok_iff.1 hrun
    obtain ⟨f₂, hstep, hafter⟩ := executeAll_cons_eq_ok_iff.1 hrest
    have hj : ∀ text, j ≠ .expression text := hplain j (by simp)
    exact ⟨hj, f₁, f₂, hbefore, hstep, hafter, actsLocally_of_ne_expression hj hstep,
      fun receiver => constructs_of_receiver? hstep⟩

/-- An expression that makes a new object, and keeps it before its constructor is called. -/
def freshObject : Expander :=
  .ofEntries [("fresh", .ok [.new .object, .dup, .storeRef "kept",
    .invoke .special ⟨.object, .init, ⟨[], none⟩⟩])]

def unfinishedObject : Frame := ⟨Locals.empty.set "older" (.uninit .object), [.int]⟩

theorem freshObject_executed : ∃ g,
    unfinishedObject.execute (some freshObject) (.expression "fresh") = .ok g ∧
      unfinishedObject.receivers (some freshObject)
        (Instruction.executed (some freshObject) (.expression "fresh")) = [.uninit .object] ∧
      g.get? "kept" = some (.object .objectClass) ∧ g.get? "older" = some (.object .objectClass) ∧
      unfinishedObject.ExecutesLocally (some freshObject) (.expression "fresh") g := by
  have hrun : unfinishedObject.execute (some freshObject) (.expression "fresh") =
      .ok ⟨(Locals.empty.set "older" (.object .objectClass)).set "kept" (.object .objectClass),
        [.int]⟩ := by decide +kernel
  refine ⟨_, hrun, ?_, ?_, ?_, executesLocally_of_execute hrun⟩
  all_goals decide +kernel

end Frame

end MethodLocals
