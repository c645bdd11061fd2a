import MethodLocals.Proofs.Expansion
import MethodLocals.Proofs.PairedRuns

/-! Methods under other names. Variables and labels are renamed all over a method and the expansions
of its expressions. The analysis then finds the same values under the new names, or fails at the same
instruction. -/

namespace MethodLocals

/-- New names for variables and for labels, different ones for different names. The receiver keeps
the name that bodies use for it. -/
structure Renaming where
  variableName : String → String
  labelName : String → String
  variableName_injective : variableName.Injective
  labelName_injective : labelName.Injective
  variableName_receiver : variableName receiverName = receiverName

namespace Instruction

def rename (ρ : Renaming) : Instruction → Instruction
  | label name => label (ρ.labelName name)
  | load kind x => load kind (ρ.variableName x)
  | loadRef x => loadRef (ρ.variableName x)
  | store kind x => store kind (ρ.variableName x)
  | storeRef x => storeRef (ρ.variableName x)
  | increment x => increment (ρ.variableName x)
  | branch condition target => branch condition (ρ.labelName target)
  | goto target => goto (ρ.labelName target)
  | instruction => instruction

end Instruction

def Parameter.rename (ρ : Renaming) (p : Parameter) : Parameter :=
  { p with name := ρ.variableName p.name }

def Header.rename (ρ : Renaming) (h : Header) : Header :=
  { h with parameters := h.parameters.map (Parameter.rename ρ) }

def Method.rename (ρ : Renaming) (m : Method) : Method :=
  ⟨m.header.rename ρ, m.code.map (Instruction.rename ρ)⟩

/-- Expressions are the same texts, but the instructions they stand for are renamed. -/
def Expander.rename (ρ : Renaming) (e : Expander) : Expander :=
  { e with expand := fun text => (e.expand text).map (List.map (Instruction.rename ρ)) }

def Analyzer.rename (ρ : Renaming) (a : Analyzer) : Analyzer :=
  { a with expander := a.expander.map (Expander.rename ρ) }

def FlowError.rename (ρ : Renaming) : FlowError → FlowError
  | unknownLabel name => unknownLabel (ρ.labelName name)
  | duplicateLabel name => duplicateLabel (ρ.labelName name)
  | e => e

/-- The same error under the new names. Only the missing class can be another one: variables are
merged in the order of their names, and that is not kept. -/
def FlowError.Renamed (ρ : Renaming) (e e' : FlowError) : Prop :=
  e' = e.rename ρ ∨ ∃ c c', e = .missingClass c ∧ e' = .missingClass c'

namespace Action

def rename (ρ : Renaming) : Action → Action
  | loadRef name => loadRef (ρ.variableName name)
  | set name value => set (ρ.variableName name) value
  | storeTop name => storeTop (ρ.variableName name)
  | fail error => fail (error.rename ρ)
  | action => action

end Action

variable {ρ : Renaming}

namespace Instruction

@[simp] theorem declaredLabel_rename (i : Instruction) :
    (i.rename ρ).declaredLabel = i.declaredLabel.map ρ.labelName := by
  cases i <;> rfl

@[simp] theorem jumpTarget_rename (i : Instruction) :
    (i.rename ρ).jumpTarget = i.jumpTarget.map ρ.labelName := by
  cases i <;> rfl

@[simp] theorem fallsThrough_rename (i : Instruction) :
    (i.rename ρ).fallsThrough = i.fallsThrough := by
  cases i <;> rfl

theorem ownActions_rename (i : Instruction) :
    (i.rename ρ).ownActions = i.ownActions.map (Action.rename ρ) := by
  cases i with
  | field access ref => cases access <;> rfl
  | branch condition target => simp [rename, ownActions, Action.rename]
  | invoke kind ref =>
    have hreceiver : (receiverActions kind ref.name).map (Action.rename ρ) =
        receiverActions kind ref.name := by
      cases kind with
      | special =>
        simp only [receiverActions]
        split <;> rfl
      | virtual | static | interface => rfl
    have hreturn : (returnActions ref.descriptor.returns).map (Action.rename ρ) =
        returnActions ref.descriptor.returns := by
      cases ref.descriptor.returns <;> rfl
    simp [rename, ownActions, invokeActions, Action.rename, Function.comp_def, hreceiver, hreturn]
  | _ => rfl

theorem rename_eq_expression_iff {i : Instruction} {text : String} :
    i.rename ρ = expression text ↔ i = expression text := by
  cases i <;> simp [rename]

theorem actionsWithin_rename (expander : Option Expander) (depth : Nat) (i : Instruction) :
    (i.rename ρ).actionsWithin (expander.map (Expander.rename ρ)) depth =
      (i.actionsWithin expander depth).map (Action.rename ρ) := by
  by_cases hi : ∃ text, i = expression text
  · obtain ⟨text, rfl⟩ := hi
    rw [show (expression text).rename ρ = expression text from rfl]
    cases expander with
    | none => simp [actionsWithin_none, Action.rename, FlowError.rename]
    | some e =>
      rw [Option.map_some]
      have hrenamed : (e.rename ρ).expand text =
          (e.expand text).map (List.map (Instruction.rename ρ)) := rfl
      cases hexpand : e.expand text with
      | error reason =>
        rw [hexpand] at hrenamed
        rw [actionsWithin_error hexpand, actionsWithin_error hrenamed]
        rfl
      | ok body =>
        rw [hexpand] at hrenamed
        cases depth with
        | zero =>
          rw [actionsWithin.eq_def, actionsWithin.eq_def]
          simp only [hexpand, hrenamed]
          rfl
        | succ depth =>
          rw [actionsWithin_ok hexpand, actionsWithin_ok hrenamed, List.flatMap_map,
            List.map_flatMap]
          exact congrArg (List.flatMap · body)
            (funext fun j => actionsWithin_rename (some e) depth j)
  · have hown : ∀ text, i ≠ expression text := fun text heq => hi ⟨text, heq⟩
    have hown' : ∀ text, i.rename ρ ≠ expression text :=
      fun text heq => hown text (rename_eq_expression_iff.1 heq)
    rw [actionsWithin_of_ne_expression hown, actionsWithin_of_ne_expression hown',
      ownActions_rename]
termination_by depth

theorem actions_rename (expander : Option Expander) (i : Instruction) :
    (i.rename ρ).actions (expander.map (Expander.rename ρ)) =
      (i.actions expander).map (Action.rename ρ) := by
  have hnesting : (expander.map (Expander.rename ρ)).elim 0 Expander.nesting =
      expander.elim 0 Expander.nesting := by
    cases expander <;> rfl
  rw [actions, actions, hnesting, actionsWithin_rename]

end Instruction

namespace Frame

/-- The frame holds the same values under the new names, and nothing under any other name. -/
structure Renamed (ρ : Renaming) (f g : Frame) : Prop where
  stack : g.stack = f.stack
  get? : ∀ name, g.get? (ρ.variableName name) = f.get? name
  unnamed : ∀ name, (∀ old, ρ.variableName old ≠ name) → g.get? name = none

variable {f g f' g' : Frame}

namespace Renamed

theorem exists_name (h : f.Renamed ρ g) {name : String} {v : Value} (hv : g.get? name = some v) :
    ∃ old, name = ρ.variableName old ∧ f.get? old = some v := by
  by_contra hnot
  have hunnamed : ∀ old, ρ.variableName old ≠ name := by
    rintro old rfl
    exact hnot ⟨old, rfl, by rw [← h.get?, hv]⟩
  rw [h.unnamed name hunnamed] at hv
  cases hv

theorem eq_iff (h : f.Renamed ρ g) (h' : f'.Renamed ρ g') : g' = g ↔ f' = f := by
  have hext : ∀ {x y : Frame}, x.stack = y.stack → (∀ name, x.get? name = y.get? name) → x = y := by
    rintro ⟨l, s⟩ ⟨l', s'⟩ hstack hget
    obtain rfl : l = l' := Locals.eq_of_get?_eq hget
    exact congrArg _ hstack
  constructor
  · rintro rfl
    apply hext
    · rw [← h'.stack, h.stack]
    · intro name
      rw [← h'.get?, h.get?]
  · rintro rfl
    apply hext
    · rw [h'.stack, h.stack]
    · intro name
      by_cases hname : ∃ old, ρ.variableName old = name
      · obtain ⟨old, rfl⟩ := hname
        rw [h'.get?, h.get?]
      · have hunnamed : ∀ old, ρ.variableName old ≠ name := fun old heq => hname ⟨old, heq⟩
        rw [h'.unnamed name hunnamed, h.unnamed name hunnamed]

theorem withStack (h : f.Renamed ρ g) (stack : List Value) :
    Frame.Renamed ρ ⟨f.locals, stack⟩ ⟨g.locals, stack⟩ := ⟨rfl, h.get?, h.unnamed⟩

theorem push (h : f.Renamed ρ g) (v : Value) : (f.push v).Renamed ρ (g.push v) := by
  unfold Frame.push
  rw [h.stack]
  exact h.withStack _

theorem set (h : f.Renamed ρ g) (name : String) (v : Value) :
    (f.set name v).Renamed ρ (g.set (ρ.variableName name) v) where
  stack := h.stack
  get? other := by
    simp only [Frame.get?_set, ρ.variableName_injective.eq_iff, h.get? other]
  unnamed other hother := by
    rw [Frame.get?_set, if_neg (Ne.symm (hother name)), h.unnamed other hother]

theorem replaceAll (h : f.Renamed ρ g) (target replacement : Value) :
    (f.replaceAll target replacement).Renamed ρ (g.replaceAll target replacement) := by
  have hget : ∀ (x : Frame) (name : String), (x.replaceAll target replacement).get? name =
      (x.get? name).map fun value => if value = target then replacement else value :=
    fun x name => Locals.get?_map _ x.locals name
  refine ⟨?_, fun name => ?_, fun name hname => ?_⟩
  · simp only [Frame.replaceAll, h.stack]
  · rw [hget, hget, h.get?]
  · rw [hget, h.unnamed name hname, Option.map_none]

theorem construct (h : f.Renamed ρ g) (receiver : Value) :
    (f.construct receiver).Renamed ρ (g.construct receiver) := by
  unfold Frame.construct
  split
  · exact h.replaceAll _ _
  · exact h

theorem loaded (h : f.Renamed ρ g) (name : String) :
    g.loaded (ρ.variableName name) = f.loaded name := by
  rw [Frame.loaded, Frame.loaded, h.get?]

theorem popWidth (h : f.Renamed ρ g) (width : Nat) :
    Alike False (FlowError.Renamed ρ) (fun u v => v.1 = u.1 ∧ u.2.Renamed ρ v.2) (f.popWidth width)
      (g.popWidth width) := by
  unfold Frame.popWidth Frame.take
  rw [h.stack]
  cases f.stack with
  | nil => exact .error (.inl rfl)
  | cons value rest =>
    unfold checkWidth
    dsimp only
    split
    · exact .ok ⟨rfl, h.withStack rest⟩
    · exact .error (.inl rfl)

theorem run (h : f.Renamed ρ g) (action : Action) :
    Alike False (FlowError.Renamed ρ) (Frame.Renamed ρ) (action.run f)
      ((action.rename ρ).run g) := by
  have htake := h.popWidth 1
  cases action with
  | push value => exact .ok (h.push value)
  | pop width => exact (h.popWidth width).map fun huv => huv.2
  | popPair =>
    simp only [Action.rename, Action.run, Frame.pop]
    rw [h.stack]
    cases f.stack with
    | nil => exact .error (.inl rfl)
    | cons value rest =>
      have hrest := h.withStack rest
      dsimp only
      split
      · exact (hrest.popWidth 1).map fun huv => huv.2
      · exact .ok hrest
  | dup =>
    refine htake.map ?_
    rintro ⟨_, f⟩ ⟨value, g⟩ ⟨rfl, hfg⟩
    exact (hfg.push value).push value
  | swap =>
    simp only [Action.rename, Action.run]
    generalize f.popWidth 1 = left at htake
    generalize g.popWidth 1 = right at htake
    cases htake with
    | error he => exact .error he
    | excuse hexcused => exact hexcused.elim
    | @ok u v huv =>
      obtain ⟨_, f₁⟩ := u
      obtain ⟨first, g₁⟩ := v
      obtain ⟨rfl, hfg⟩ := huv
      refine (hfg.popWidth 1).map ?_
      rintro ⟨_, f₂⟩ ⟨second, g₂⟩ ⟨rfl, hfg⟩
      exact (hfg.push first).push second
  | loadRef name =>
    refine .ok ?_
    rw [h.loaded]
    exact h.push _
  | set name value => exact .ok (h.set name value)
  | storeTop name =>
    refine htake.map ?_
    rintro ⟨_, f⟩ ⟨value, g⟩ ⟨rfl, hfg⟩
    exact hfg.set name value
  | element =>
    refine htake.map ?_
    rintro ⟨_, f⟩ ⟨array, g⟩ ⟨rfl, hfg⟩
    exact hfg.push _
  | construct =>
    refine htake.map ?_
    rintro ⟨_, f⟩ ⟨receiver, g⟩ ⟨rfl, hfg⟩
    exact hfg.construct receiver
  | fail error => exact .error (.inl rfl)

theorem runAll (h : f.Renamed ρ g) (actions : List Action) :
    Alike False (FlowError.Renamed ρ) (Frame.Renamed ρ) (f.runAll actions)
      (g.runAll (actions.map (Action.rename ρ))) := by
  induction actions generalizing f g with
  | nil => exact .ok h
  | cons action rest ih =>
    have hrun := h.run action
    rw [List.map_cons, Frame.runAll, Frame.runAll]
    generalize action.run f = left at hrun
    generalize (action.rename ρ).run g = right at hrun
    cases hrun with
    | ok hfg => exact ih hfg
    | error he => exact .error he
    | excuse hexcused => exact hexcused.elim

theorem execute (h : f.Renamed ρ g) (expander : Option Expander) (i : Instruction) :
    Alike False (FlowError.Renamed ρ) (Frame.Renamed ρ) (f.execute expander i)
      (g.execute (expander.map (Expander.rename ρ)) (i.rename ρ)) := by
  rw [Frame.execute, Frame.execute, Instruction.actions_rename]
  exact h.runAll _

end Renamed

section Merging

variable {inheritance : Option Inheritance}

namespace Renamed

theorem exists_merges (h : f.Renamed ρ g) (h' : f'.Renamed ρ g') :
    (∃ r, g.Merges inheritance g' r) ↔ ∃ r, f.Merges inheritance f' r := by
  rw [exists_merges_iff, exists_merges_iff, h.stack, h'.stack]
  refine and_congr_right fun _ => ⟨fun hall name v w hv hw => ?_, fun hall name v w hv hw => ?_⟩
  · exact hall (ρ.variableName name) v w (by rw [h.get?, hv]) (by rw [h'.get?, hw])
  · obtain ⟨old, rfl, hold⟩ := h.exists_name hv
    rw [h'.get?] at hw
    exact hall old v w hold hw

theorem merges (h : f.Renamed ρ g) (h' : f'.Renamed ρ g') {r s : Frame}
    (hr : f.Merges inheritance f' r) (hs : g.Merges inheritance g' s) : r.Renamed ρ s where
  stack := by
    have hstack := hs.stack
    rw [h.stack, h'.stack] at hstack
    exact hstack.unique hr.stack
  get? name := by
    have hjoins := hs.locals (ρ.variableName name)
    rw [h.get?, h'.get?] at hjoins
    exact hjoins.unique (hr.locals name)
  unnamed name hname := by
    have hjoins := hs.locals name
    rw [h.unnamed name hname, h'.unnamed name hname] at hjoins
    exact hjoins.unique .neither

theorem merge (h : f.Renamed ρ g) (h' : f'.Renamed ρ g') :
    Alike False (FlowError.Renamed ρ)
      (fun changed changed' => changed' = changed ∧
        (f.merge inheritance f').1.Renamed ρ (g.merge inheritance g').1)
      (f.merge inheritance f').2 (g.merge inheritance g').2 := by
  by_cases hlength : f.stack.length = f'.stack.length
  · have hlength' : g.stack.length = g'.stack.length := by rw [h.stack, h'.stack, hlength]
    by_cases hmerges : ∃ r, f.Merges inheritance f' r
    · obtain ⟨r, hr⟩ := hmerges
      obtain ⟨s, hs⟩ := (h.exists_merges h').2 ⟨r, hr⟩
      have hrs := h.merges h' hr hs
      rw [Frame.merge_eq_ok_iff.2 ⟨hr, rfl⟩, Frame.merge_eq_ok_iff.2 ⟨hs, rfl⟩]
      refine .ok ⟨?_, hrs⟩
      rw [decide_eq_decide]
      exact not_congr (h.eq_iff hrs)
    · -- Values are merged in the order of the names, so another class may be met first.
      obtain ⟨c, hc⟩ := merge_of_not_merges hlength hmerges
      obtain ⟨c', hc'⟩ := merge_of_not_merges hlength'
        fun hmerges' => hmerges ((h.exists_merges h').1 hmerges')
      rw [hc, hc']
      exact .error (.inr ⟨c, c', rfl, rfl⟩)
  · have hlength' : g.stack.length ≠ g'.stack.length := by rwa [h.stack, h'.stack]
    rw [merge_of_length_ne hlength, merge_of_length_ne hlength', h.stack, h'.stack]
    exact .error (.inl rfl)

end Renamed

end Merging

end Frame

theorem Header.entryFrame_rename (h : Header) :
    h.entryFrame.Renamed ρ (h.rename ρ).entryFrame := by
  have hempty : Frame.empty.Renamed ρ Frame.empty := ⟨rfl, fun _ => rfl, fun _ _ => rfl⟩
  have hreceiver : (h.rename ρ).receiverValue = h.receiverValue := rfl
  have hparameters : ∀ {f g : Frame} (ps : List Parameter), f.Renamed ρ g →
      (ps.foldl (fun frame p => frame.set p.name (.ofType p.type)) f).Renamed ρ
        ((ps.map (Parameter.rename ρ)).foldl
          (fun frame p => frame.set p.name (.ofType p.type)) g) := by
    intro f g ps
    induction ps generalizing f g with
    | nil => exact id
    | cons p ps ih => exact fun hfg => ih (hfg.set p.name _)
  unfold entryFrame
  rw [hreceiver]
  apply hparameters
  split
  · rename_i value _
    have hset := hempty.set receiverName value
    rwa [ρ.variableName_receiver] at hset
  · exact hempty

namespace Method

variable {m : Method}

theorem declaredLabel_rename (m : Method) :
    (m.rename ρ).code.map Instruction.declaredLabel =
      m.code.map fun i => i.declaredLabel.map ρ.labelName := by
  rw [rename, List.map_map]
  exact List.map_congr_left fun i _ => i.declaredLabel_rename

theorem successors_rename (m : Method) (index : Nat) (i : Instruction) :
    Alike False (FlowError.Renamed ρ) Eq (successors m.code index i)
      (successors (m.rename ρ).code index (i.rename ρ)) := by
  have hlength : (m.rename ρ).code.length = m.code.length := by simp [rename]
  have hjump : Alike False (FlowError.Renamed ρ) Eq (jumpSuccessors m.code i)
      (jumpSuccessors (m.rename ρ).code (i.rename ρ)) := by
    unfold jumpSuccessors
    rw [i.jumpTarget_rename]
    cases i.jumpTarget with
    | none => exact .ok rfl
    | some name =>
      dsimp only [Option.map_some]
      rw [labelIndex_rename ρ.labelName_injective m.declaredLabel_rename]
      cases labelIndex m.code name with
      | none => exact .error (.inl rfl)
      | some target => exact .ok rfl
  unfold successors
  rw [i.fallsThrough_rename, hlength]
  exact hjump.map fun huv => by rw [huv]

/-- Analysing a method and the renamed one goes in the same steps. -/
theorem lockstep_rename (m : Method) (a : Analyzer) :
    Analyzer.Lockstep False (FlowError.Renamed ρ) (Frame.Renamed ρ) a (a.rename ρ) m
      (m.rename ρ) where
  length_eq := by simp [rename]
  unsettled := .inl rfl
  duplicate := by
    rw [duplicateLabel_rename ρ.labelName_injective m.declaredLabel_rename]
    cases duplicateLabel m.code with
    | none => exact .none
    | some found => exact .some ⟨rfl, .inl rfl⟩
  entry := m.header.entryFrame_rename
  simulate {index i j f g} _ hi hj hfg := by
    have hrenamed : (m.rename ρ).code[index]? = some (i.rename ρ) := by simp [rename, hi]
    obtain rfl := Option.some.inj (hrenamed.symm.trans hj)
    have hexecute := hfg.execute a.expander i
    unfold Analyzer.simulate Analyzer.rename
    dsimp only
    generalize f.execute a.expander i = left at hexecute
    generalize g.execute (a.expander.map (Expander.rename ρ)) (i.rename ρ) = right at hexecute
    cases hexecute with
    | error he => exact .error he
    | excuse hexcused => exact hexcused.elim
    | ok hframe => exact (m.successors_rename index i).map fun huv => ⟨hframe, huv.symm⟩
  merge hf hf' := hf.merge hf'

end Method

namespace Analyzer

theorem budget_rename (a : Analyzer) (m : Method) :
    (a.rename ρ).budget (m.rename ρ) = a.budget m := by
  have hactions : ((m.rename ρ).code.flatMap (·.actions (a.rename ρ).expander)).length =
      (m.code.flatMap (·.actions a.expander)).length := by
    simp only [Method.rename, Analyzer.rename, List.flatMap_map, Instruction.actions_rename]
    rw [← List.map_flatMap, List.length_map]
  unfold budget
  rw [hactions]
  simp [Method.rename, Header.rename, Analyzer.rename]

theorem analyze_rename (a : Analyzer) (m : Method) :
    Alike False (AnalysisError.Alike (FlowError.Renamed ρ)) (Analysis.Paired (Frame.Renamed ρ))
      (a.analyze m) ((a.rename ρ).analyze (m.rename ρ)) := by
  unfold analyze
  rw [budget_rename]
  exact (m.lockstep_rename a).analyzeWithin _

end Analyzer

end MethodLocals
