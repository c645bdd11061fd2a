import MethodLocals.Proofs.Expansion
import MethodLocals.Proofs.LoadAgreement

/-! Which variables an analysis has entries for. A variable has one after an instruction exactly if
some path to the instruction defines it, and if anything is known of it every path does. -/

namespace MethodLocals

/-- The instruction stores to the variable or increments it, or something that it expands to does. -/
inductive Instruction.Defines (expander : Option Expander) (name : String) : Instruction → Prop
  | own {i : Instruction} (h : i.setsVariable name = true) : Defines expander name i
  | expanded {e : Expander} {text : String} {body : List Instruction} {i : Instruction}
    (hexpander : expander = some e) (hbody : e.expand text = .ok body) (hi : i ∈ body)
    (h : Defines expander name i) : Defines expander name (expression text)

def Header.Defines (h : Header) (name : String) : Prop :=
  (h.isStatic = false ∧ name = receiverName) ∨ ∃ p ∈ h.parameters, p.name = name

def Method.DefinesOn (m : Method) (expander : Option Expander) (path : List Nat) (name : String) :
    Prop :=
  m.header.Defines name ∨ ∃ j ∈ path, ∃ i, m.code[j]? = some i ∧ i.Defines expander name

variable {inheritance : Option Inheritance} {expander : Option Expander} {f g : Frame}
  {action : Action} {actions : List Action} {i : Instruction} {name : String}

theorem Frame.isSome_get?_set (f : Frame) (other : String) (v : Value) (name : String) :
    ((f.set other v).get? name).isSome = true ↔
      (f.get? name).isSome = true ∨ other = name := by
  rw [get?_set]
  by_cases hname : name = other
  · simp [hname]
  · simp [hname, Ne.symm hname]

theorem Action.isSome_get?_of_does (h : action.Does f g) : (g.get? name).isSome = true ↔
    (f.get? name).isSome = true ∨ action.setsLocal name = true := by
  cases h with
  | push | pop | popWide | popTwo | dup | swap | loadRef | element =>
    simp [setsLocal, Frame.get?, Frame.push]
  | set other v => simp [setsLocal, Frame.isSome_get?_set]
  | @storeTop v rest other hf hv =>
    rw [setsLocal, decide_eq_true_iff]
    exact Frame.isSome_get?_set ⟨f.locals, rest⟩ other v name
  | construct =>
    rw [Frame.get?_construct, Option.isSome_map]
    simp [setsLocal, Frame.get?]

namespace Frame

theorem isSome_get?_runAll (h : f.runAll actions = .ok g) : (g.get? name).isSome = true ↔
    (f.get? name).isSome = true ∨ ∃ action ∈ actions, action.setsLocal name = true := by
  induction actions generalizing f with
  | nil =>
    obtain rfl := Except.ok.inj h
    simp
  | cons action rest ih =>
    obtain ⟨f', hdoes, hrest⟩ := runAll_cons_eq_ok_iff.1 h
    rw [ih hrest, Action.isSome_get?_of_does hdoes, or_assoc]
    simp

theorem not_mem_of_runAll (h : f.runAll actions = .ok g) (e : FlowError) :
    Action.fail e ∉ actions := by
  induction actions generalizing f with
  | nil => exact List.not_mem_nil
  | cons action rest ih =>
    obtain ⟨f', hdoes, hrest⟩ := runAll_cons_eq_ok_iff.1 h
    rw [List.mem_cons, not_or]
    refine ⟨?_, ih hrest⟩
    rintro rfl
    cases hdoes

end Frame

namespace Instruction

theorem exists_mem_ownActions_of_setsVariable (h : i.setsVariable name = true) :
    ∃ action ∈ i.ownActions, action.setsLocal name = true := by
  cases i with
  | store kind x | storeRef x | increment x =>
    simpa [ownActions, Action.setsLocal, setsVariable, variableRef] using h
  | _ => simp [setsVariable, variableRef] at h

theorem defines_of_setsLocal {depth : Nat} (hmem : action ∈ i.actionsWithin expander depth)
    (hsets : action.setsLocal name = true) : i.Defines expander name := by
  induction depth using Nat.strongRecOn generalizing i with
  | _ depth ih =>
    rcases mem_actionsWithin hmem with hown | ⟨e, -, rfl⟩ |
      ⟨e, text, body, below, j, rfl, rfl, hexpander, hbody, hj, hbelow⟩
    · refine .own (Bool.of_not_eq_false fun hnot => ?_)
      rw [not_setsLocal_of_mem_ownActions hnot action hown] at hsets
      cases hsets
    · cases hsets
    · exact .expanded hexpander hbody hj (ih below (Nat.lt_succ_self below) hbelow)

/-- Unless an expansion fails, an instruction that defines a variable has an action that sets it. -/
theorem Defines.exists_setsLocal {depth : Nat} (h : i.Defines expander name)
    (hfail : ∀ e, .fail e ∉ i.actionsWithin expander depth) :
    ∃ action ∈ i.actionsWithin expander depth, action.setsLocal name = true := by
  induction h generalizing depth with
  | @own i h =>
    have hplain : ∀ text, i ≠ expression text := by
      rintro text rfl
      cases h
    rw [actionsWithin_of_ne_expression hplain]
    exact exists_mem_ownActions_of_setsVariable h
  | @expanded e text body j hexpander hbody hj _ ih =>
    obtain ⟨_, _, depth, -, -, rfl⟩ := exists_expansion hfail
    subst hexpander
    rw [actionsWithin_ok hbody] at hfail ⊢
    obtain ⟨action, hmem, hsets⟩ := ih fun e he => hfail e (List.mem_flatMap.2 ⟨j, hj, he⟩)
    exact ⟨action, List.mem_flatMap.2 ⟨j, hj, hmem⟩, hsets⟩

theorem isSome_get?_execute (h : f.execute expander i = .ok g) : (g.get? name).isSome = true ↔
    (f.get? name).isSome = true ∨ i.Defines expander name := by
  rw [Frame.isSome_get?_runAll h]
  refine or_congr_right ⟨?_, fun hdefines => hdefines.exists_setsLocal (Frame.not_mem_of_runAll h)⟩
  rintro ⟨action, hmem, hsets⟩
  exact defines_of_setsLocal hmem hsets

theorem category?_execute_of_not_defines (h : f.execute expander i = .ok g)
    (hnot : ¬ i.Defines expander name) : g.category? name = f.category? name := by
  refine @Frame.runAll_induction (fun g => g.category? name = f.category? name) _ ?_ f g rfl h
  intro f' g' action hmem hinv hdoes
  have hsets : action.setsLocal name = false :=
    Bool.eq_false_iff.2 fun hsets => hnot (defines_of_setsLocal hmem hsets)
  exact (Action.category?_of_does hdoes hsets).trans hinv

end Instruction

theorem Joins.isSome_iff {x y z : Option Value} (h : Joins inheritance x y z) :
    z.isSome = true ↔ x.isSome = true ∨ y.isSome = true := by
  cases h <;> simp

theorem Frame.Merges.isSome_get?_iff {r : Frame} (h : f.Merges inheritance g r) (name : String) :
    (r.get? name).isSome = true ↔ (f.get? name).isSome = true ∨ (g.get? name).isSome = true :=
  (h.locals name).isSome_iff

/-- A frame lies below another one that has all of its variables. -/
def presenceOrder (inheritance : Option Inheritance) : FrameOrder inheritance where
  Le f g := ∀ name, (f.get? name).isSome = true → (g.get? name).isSome = true
  Known _ := True
  refl _ _ h := h
  trans hfg hgh name h := hgh name (hfg name h)
  le_of_merges _ _ hmerges := ⟨trivial, fun name h => (hmerges.isSome_get?_iff name).2 (.inl h),
    fun name h => (hmerges.isSome_get?_iff name).2 (.inr h)⟩

theorem Header.defines_iff (h : Header) (name : String) :
    h.Defines name ↔ ∃ b ∈ h.bindings, b.name = name := by
  have hparameters : (∃ b ∈ h.parameters.zipIdx.map parameterMention, b.name = name) ↔
      ∃ p ∈ h.parameters, p.name = name := by
    conv_rhs => rw [← List.zipIdx_map_fst 0 h.parameters]
    simp only [List.mem_map, exists_exists_and_eq_and]
    rfl
  simp only [bindings, Defines, List.mem_append, or_and_right, exists_or, hparameters]
  refine or_congr_left ?_
  rw [receiverMentions]
  cases h.isStatic <;> simp [eq_comm]

theorem Header.isSome_get?_entryFrame (h : Header) (name : String) :
    (h.entryFrame.get? name).isSome = true ↔ h.Defines name := by
  rw [h.get?_entryFrame, Option.isSome_map, h.isSome_binding?_iff, h.defines_iff]

namespace Method

variable {m : Method} {path : List Nat} {j : Nat}

theorem definesOn_nil : m.DefinesOn expander [] name ↔ m.header.Defines name := by
  simp [DefinesOn]

theorem definesOn_concat (hcode : m.code[j]? = some i) : m.DefinesOn expander (path ++ [j]) name ↔
    m.DefinesOn expander path name ∨ i.Defines expander name := by
  simp only [DefinesOn, List.mem_append, List.mem_singleton, or_and_right, exists_or,
    exists_eq_left, hcode, Option.some.injEq, exists_eq_left', or_assoc]

end Method

namespace Analyzer

variable {a : Analyzer} {m : Method} {result : Analysis} {entry : Nat → Frame} {path : List Nat}
  {k : Nat} {out : Frame}

structure TracksDefinitions (expander : Option Expander) (m : Method) (index : Nat) (frame : Frame) :
    Prop where
  /-- A variable has an entry exactly if some path that ends with the instruction defines it. -/
  present_iff : ∀ name, (frame.get? name).isSome = true ↔
    ∃ path, IsPath m.code (path ++ [index]) ∧ m.DefinesOn expander (path ++ [index]) name
  /-- Something is known of a variable only if all such paths define it. -/
  defined_of_known : ∀ name v, frame.get? name = some v → v ≠ .top →
    ∀ path, IsPath m.code (path ++ [index]) → m.DefinesOn expander (path ++ [index]) name

theorem Fixpoint.isSome_of_definesOn (h : a.Fixpoint (presenceOrder a.inheritance) m result entry)
    (hpath : IsPath m.code (path ++ [k])) (hdefines : m.DefinesOn a.expander path name) :
    ((entry k).get? name).isSome = true := by
  induction path using List.reverseRecOn generalizing k with
  | nil =>
    obtain ⟨hpos, hhead, -⟩ := hpath
    obtain rfl : k = 0 := Option.some.inj hhead
    rw [Method.definesOn_nil, ← Header.isSome_get?_entryFrame] at hdefines
    exact h.start (List.length_pos_iff.1 hpos) name hdefines
  | append_singleton path j ih =>
    obtain ⟨hbefore, instruction, targets, hcode, htargets, hmem⟩ := isPath_concat_iff.1 hpath
    obtain ⟨targets', out, htargets', hexecute, -, hbelow⟩ :=
      h.executed j instruction hbefore.reachable hcode
    obtain rfl := Except.ok.inj (htargets.symm.trans htargets')
    refine hbelow k hmem name ((Instruction.isSome_get?_execute hexecute).2 ?_)
    exact ((Method.definesOn_concat hcode).1 hdefines).imp_left (ih hbefore)

/-- A fixpoint knows something only of the variables that every path to the instruction has
defined. -/
theorem Fixpoint.definesOn_of_category?
    (h : a.Fixpoint (categoryOrder a.inheritance) m result entry) {c : TypeCategory}
    (hpath : IsPath m.code (path ++ [k])) (hc : (entry k).category? name = some c) :
    m.DefinesOn a.expander path name := by
  induction path using List.reverseRecOn generalizing k with
  | nil =>
    obtain ⟨hpos, hhead, -⟩ := hpath
    obtain rfl : k = 0 := Option.some.inj hhead
    obtain ⟨v, hv, -⟩ :=
      Option.bind_eq_some_iff.1 (h.start (List.length_pos_iff.1 hpos) name c hc)
    rw [Method.definesOn_nil, ← Header.isSome_get?_entryFrame, hv]
    rfl
  | append_singleton path j ih =>
    obtain ⟨hbefore, instruction, targets, hcode, htargets, hmem⟩ := isPath_concat_iff.1 hpath
    obtain ⟨targets', out, htargets', hexecute, -, hbelow⟩ :=
      h.executed j instruction hbefore.reachable hcode
    obtain rfl := Except.ok.inj (htargets.symm.trans htargets')
    rw [Method.definesOn_concat hcode]
    by_cases hdefines : instruction.Defines a.expander name
    · exact .inr hdefines
    · have hout := hbelow k hmem name c hc
      rw [Instruction.category?_execute_of_not_defines hexecute hdefines] at hout
      exact .inl (ih hbefore hout)

theorem reachable_of_frame? {rounds : Nat} (h : a.analyzeWithin rounds m = .ok result)
    (hframe : result.frame? k = some out) : Reachable m.code k := by
  obtain ⟨entry, hfixpoint⟩ :=
    exists_fixpoint (o := presenceOrder a.inheritance) ⟨trivial, fun _ _ _ => trivial⟩ h
  exact (hfixpoint.present_iff k).1 ⟨out, hframe⟩

/-- Control comes to the instruction, and for every variable of the frame it does so on a path that
defines the variable. -/
structure EntryDefined (expander : Option Expander) (m : Method) (index : Nat) (frame : Frame) :
    Prop where
  reachable : Reachable m.code index
  exists_path : ∀ name, (frame.get? name).isSome = true →
    ∃ path, IsPath m.code (path ++ [index]) ∧ m.DefinesOn expander path name

theorem entryDefined_start (hpos : 0 < m.code.length) :
    EntryDefined expander m 0 m.header.entryFrame where
  reachable := .zero hpos
  exists_path name hname :=
    ⟨[], ⟨hpos, rfl, .singleton 0⟩,
      Method.definesOn_nil.2 ((m.header.isSome_get?_entryFrame name).1 hname)⟩

theorem EntryDefined.merges {r : Frame} (hf : EntryDefined expander m k f)
    (hg : EntryDefined expander m k g) (h : f.Merges inheritance g r) :
    EntryDefined expander m k r where
  reachable := hf.reachable
  exists_path name hname :=
    ((h.isSome_get?_iff name).1 hname).elim (hf.exists_path name) (hg.exists_path name)

theorem Yields.exists_path (h : a.Yields m.code (EntryDefined a.expander m) k out)
    (hname : (out.get? name).isSome = true) :
    ∃ path, IsPath m.code (path ++ [k]) ∧ m.DefinesOn a.expander (path ++ [k]) name := by
  obtain ⟨e, instruction, hentry, hcode, hexecute⟩ := h
  rcases (Instruction.isSome_get?_execute hexecute).1 hname with hname | hdefines
  · obtain ⟨path, hpath, hdefines⟩ := hentry.exists_path name hname
    exact ⟨path, hpath, (Method.definesOn_concat hcode).2 (.inl hdefines)⟩
  · obtain ⟨path, hpath⟩ := hentry.reachable.exists_isPath
    exact ⟨path, hpath, (Method.definesOn_concat hcode).2 (.inr hdefines)⟩

theorem Yields.entryDefined (h : a.Yields m.code (EntryDefined a.expander m) k out) {s : Nat}
    (hflow : Flows m.code k s) : EntryDefined a.expander m s out where
  reachable := by
    obtain ⟨e, instruction, hentry, -⟩ := h
    exact hentry.reachable.tail hflow
  exists_path name hname := by
    obtain ⟨path, hpath, hdefines⟩ := h.exists_path hname
    exact ⟨path ++ [k], isPath_concat_iff.2 ⟨hpath, hflow⟩, hdefines⟩

/-- After an analysis that succeeds, a variable has an entry at an instruction exactly if some path up
to and including the instruction defines it, and nothing is known of it unless every path does. -/
theorem tracksDefinitions_of_analyze {rounds : Nat} (h : a.analyzeWithin rounds m = .ok result)
    (hreach : Reachable m.code k) :
    ∃ frame, result.frame? k = some frame ∧ TracksDefinitions a.expander m k frame := by
  obtain ⟨entry, hpresence⟩ :=
    exists_fixpoint (o := presenceOrder a.inheritance) ⟨trivial, fun _ _ _ => trivial⟩ h
  obtain ⟨entry', hcategory⟩ :=
    exists_fixpoint (o := categoryOrder a.inheritance) ⟨trivial, fun _ _ _ => trivial⟩ h
  obtain ⟨instruction, hcode⟩ : ∃ instruction, m.code[k]? = some instruction :=
    ⟨_, List.getElem?_eq_getElem hreach.lt⟩
  obtain ⟨-, out, -, hexecute, hout, -⟩ := hpresence.executed k instruction hreach hcode
  obtain ⟨-, out', -, hexecute', hout', -⟩ := hcategory.executed k instruction hreach hcode
  obtain rfl := Option.some.inj (hout.symm.trans hout')
  refine ⟨out, hout, fun name => ⟨fun hname => ?_, ?_⟩, fun name v hv htop path hpath => ?_⟩
  · have hyields := yields_of_analyzeWithin (entryDefined_start hreach.1)
      (fun hf hg hmerges => hf.merges hg hmerges) (fun hyields => hyields.entryDefined) h hout
    exact hyields.exists_path hname
  · rintro ⟨path, hpath, hdefines⟩
    refine (Instruction.isSome_get?_execute hexecute).2 ?_
    exact ((Method.definesOn_concat hcode).1 hdefines).imp_left
      (hpresence.isSome_of_definesOn hpath)
  · rw [Method.definesOn_concat hcode]
    by_cases hdefines : instruction.Defines a.expander name
    · exact .inr hdefines
    · obtain ⟨c, hc⟩ := Option.ne_none_iff_exists'.1 (mt Value.category_eq_none_iff.1 htop)
      have hknown : out.category? name = some c := by rw [Frame.category?, hv, Option.bind_some, hc]
      rw [Instruction.category?_execute_of_not_defines hexecute' hdefines] at hknown
      exact .inl (hcategory.definesOn_of_category? hpath hknown)

def assignment : Expander := .ofEntries [("y = 1", .ok [.push .int, .store .int "y"])]

/-- One of two ways to the label defines the variable `y`, in an expression. -/
def definedInBranch : Method where
  header := ⟨.object, "run", .ofBits _ 8, [⟨"n", .int⟩], none⟩
  code := [.load .int "n", .branch (.zero .eq) "end", .expression "y = 1", .label "end",
    .returnVoid]

theorem definedInBranch_tracked : ∃ result frame,
    analyze ⟨none, some assignment⟩ definedInBranch = .ok result ∧
      Reachable definedInBranch.code 3 ∧ result.frame? 3 = some frame ∧
      TracksDefinitions (some assignment) definedInBranch 3 frame := by
  have hok : (analyze ⟨none, some assignment⟩ definedInBranch).isOk = true := by decide
  have hflow : Flows definedInBranch.code 1 3 := ⟨_, [3, 2], rfl, rfl, by decide⟩
  have hreach : Reachable definedInBranch.code 3 :=
    ((Reachable.zero (by decide)).tail ⟨_, [1], rfl, rfl, by decide⟩).tail hflow
  cases h : analyze ⟨none, some assignment⟩ definedInBranch with
  | error e =>
    rw [h] at hok
    cases hok
  | ok result =>
    obtain ⟨frame, hframe, htracks⟩ := tracksDefinitions_of_analyze h hreach
    exact ⟨result, frame, rfl, hreach, hframe, htracks⟩

end Analyzer

end MethodLocals
