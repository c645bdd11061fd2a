import MethodLocals.Proofs.Locality

/-! Where literals and objects under construction come from. Frames keep them apart from other values
of their types. Merging only lets those through that both sides have, and an instruction moves them or
replaces them by objects, unless it is the one that brings them up. So a frame that holds such a value
is reached on a path that has executed that instruction, or the value is the receiver that a
constructor is entered with. -/

namespace MethodLocals

namespace Value

/-- Is more known of the value than its type? -/
def isTracked : Value → Bool
  | textConstant _ | classConstant _ | uninit _ | uninitThis _ => true
  | top | int | float | long | double | null | object _ => false

/-- The instruction that brings the value up, if more is known of it than its type and it is not
there on entry. -/
def source? : Value → Option Instruction
  | textConstant text => some (.ldc (.text text))
  | classConstant type => some (.ldc (.classLiteral type))
  | uninit name => some (.new name)
  | _ => none

end Value

def Frame.Holds (f : Frame) (v : Value) : Prop := v ∈ f.stack ∨ ∃ name, f.get? name = some v

def Method.ExecutesOn (m : Method) (expander : Option Expander) (path : List Nat)
    (i : Instruction) : Prop :=
  ∃ j ∈ path, ∃ k, m.code[j]? = some k ∧ i ∈ k.executed expander

/-- The value is the receiver on entry, or the path has executed the instruction that brings it
up. -/
def Method.AccountsFor (m : Method) (expander : Option Expander) (path : List Nat) (v : Value) :
    Prop :=
  m.header.receiverValue = some v ∨ ∃ i, m.ExecutesOn expander path i ∧ v.source? = some i

/-- A literal that a frame after an instruction holds is loaded on a path to it, the instruction
included, an object under construction is made on such a path, and a receiver under construction is
that of the constructor itself. -/
structure Analyzer.InventsNothing (expander : Option Expander) (m : Method) (index : Nat)
    (frame : Frame) : Prop where
  text : ∀ text, frame.Holds (.textConstant text) → ∃ path, IsPath m.code (path ++ [index]) ∧
    m.ExecutesOn expander (path ++ [index]) (.ldc (.text text))
  classLiteral : ∀ type, frame.Holds (.classConstant type) →
    ∃ path, IsPath m.code (path ++ [index]) ∧
      m.ExecutesOn expander (path ++ [index]) (.ldc (.classLiteral type))
  object : ∀ name, frame.Holds (.uninit name) → ∃ path, IsPath m.code (path ++ [index]) ∧
    m.ExecutesOn expander (path ++ [index]) (.new name)
  receiver : ∀ name, frame.Holds (.uninitThis name) →
    m.header.isStatic = false ∧ m.header.isConstructor = true ∧ name = m.header.owner

variable {inheritance : Option Inheritance} {expander : Option Expander} {P : Value → Prop}
  {v w u : Value} {f g r : Frame} {action : Action} {i : Instruction}

namespace Value

theorem isTracked_of_source? (h : v.source? = some i) : v.isTracked = true := by
  cases v <;> first | rfl | cases h

theorem isTracked_ofKind (kind : NumberKind) : (ofKind kind).isTracked = false := by
  cases kind <;> rfl

theorem isTracked_ofType (t : FieldType) : (ofType t).isTracked = false := by
  cases t with
  | base b => exact isTracked_ofKind b.kind
  | ref r => rfl

theorem isTracked_elementOf (v : Value) : v.elementOf.isTracked = false := by
  unfold elementOf
  split <;> rfl

theorem isTracked_orNull (v : Value) : v.orNull.isTracked = false := by
  unfold orNull
  split <;> rfl

theorem eq_of_merge_of_isTracked (h : v.merge inheritance w = .ok u) (hu : u.isTracked = true) :
    u = v ∧ u = w := by
  have hmerged := merged inheritance v w
  rw [h] at hmerged
  generalize hresult : Except.ok u = result at hmerged
  cases hmerged with
  | same heq =>
    obtain rfl := Except.ok.inj hresult
    exact ⟨rfl, heq⟩
  | nullLeft =>
    obtain rfl := Except.ok.inj hresult
    rw [isTracked_orNull] at hu
    cases hu
  | nullRight =>
    obtain rfl := Except.ok.inj hresult
    rw [isTracked_orNull] at hu
    cases hu
  | @references a b =>
    cases hab : RefType.merge inheritance a b with
    | error e => rw [hab] at hresult; cases hresult
    | ok c =>
      rw [hab] at hresult
      obtain rfl := Except.ok.inj hresult
      cases hu
  | nothing =>
    obtain rfl := Except.ok.inj hresult
    cases hu

/-- Actions turn values into objects and unknown values only, so whatever holds of the tracked ones
before an action holds of those after it. -/
theorem hereditary_of_isTracked (P : Value → Prop) :
    Hereditary fun v => v.isTracked = true → P v where
  top h := by cases h
  elementOf v _ h := by
    rw [isTracked_elementOf] at h
    cases h
  afterConstructor receiver v _ hv h := by
    unfold afterConstructor at h ⊢
    split at h
    · split at h
      · cases h
      · rename_i hne
        simpa [hne] using hv h
    · exact hv h

end Value

/-- Only the loading of a literal and the making of an object bring up a tracked value. -/
theorem Instruction.source?_of_mem_ownActions (h : action ∈ i.ownActions) (hv : v ∈ action.values)
    (htracked : v.isTracked = true) : v.source? = some i := by
  have huntracked : (∀ v ∈ action.values, v.isTracked = false) → v.source? = some i := by
    intro hall
    rw [hall v hv] at htracked
    cases htracked
  cases i with
  | ldc constant =>
    obtain rfl := List.mem_singleton.1 h
    obtain rfl := List.mem_singleton.1 hv
    cases constant with
    | number kind =>
      rw [Constant.value, Value.isTracked_ofKind] at htracked
      cases htracked
    | text => rfl
    | classLiteral => rfl
  | new name =>
    obtain rfl := List.mem_singleton.1 h
    obtain rfl := List.mem_singleton.1 hv
    rfl
  | field access ref =>
    apply huntracked
    rcases Action.of_mem_fieldActions h with ⟨width, rfl⟩ | rfl <;>
      simp [Action.values, Value.isTracked_ofType]
  | invoke kind ref =>
    apply huntracked
    rcases Action.of_mem_invokeActions h with ⟨width, rfl⟩ | rfl | ⟨t, -, rfl⟩ <;>
      simp [Action.values, Value.isTracked_ofType]
  | branch condition target =>
    obtain rfl := List.eq_of_mem_replicate h
    cases hv
  | _ =>
    apply huntracked
    simp only [ownActions, List.mem_cons, List.not_mem_nil, or_false] at h <;>
      rcases h with rfl | rfl | rfl <;>
      first
        | exact List.forall_mem_nil _
        | exact List.forall_mem_singleton.2 rfl
        | exact List.forall_mem_singleton.2 (Value.isTracked_ofKind _)

/-- The tracked values after an instruction were there before it, or were brought up by an instruction
that is executed for it. -/
theorem Instruction.each_execute (h : f.execute expander i = .ok g)
    (hf : f.Each fun v => v.isTracked = true → P v) :
    g.Each fun v => v.isTracked = true → P v ∨ ∃ j ∈ i.executed expander, v.source? = some j := by
  have hactions := (actionsWithin_eq_flatMap (Frame.not_mem_of_runAll h)).2
  refine Frame.runAll_induction (fun {f' g' action} hmem hinv hdoes => ?_)
    (hf.mono fun v hv htracked => .inl (hv htracked)) h
  refine hinv.does (Value.hereditary_of_isTracked _) (fun v hv htracked => .inr ?_) hdoes
  rw [actions, hactions] at hmem
  obtain ⟨j, hj, hown⟩ := List.mem_flatMap.1 hmem
  exact ⟨j, hj, source?_of_mem_ownActions hown hv htracked⟩

theorem StacksMerge.mem_of_isTracked {vs ws us : List Value} (h : StacksMerge inheritance vs ws us)
    (hu : u ∈ us) (htracked : u.isTracked = true) : u ∈ vs := by
  induction h with
  | nil => exact hu
  | cons hmerge _ ih =>
    rcases List.mem_cons.1 hu with rfl | hu
    · rw [(Value.eq_of_merge_of_isTracked hmerge htracked).1]
      exact List.mem_cons_self
    · exact List.mem_cons_of_mem _ (ih hu)

theorem Frame.Merges.each (h : f.Merges inheritance g r)
    (hf : f.Each fun v => v.isTracked = true → P v) :
    r.Each fun v => v.isTracked = true → P v where
  stack v hv htracked := hf.stack v (h.stack.mem_of_isTracked hv htracked) htracked
  locals name v hv htracked := by
    have hjoins := h.locals name
    rw [hv] at hjoins
    generalize hx : f.get? name = x at hjoins
    generalize g.get? name = y at hjoins
    cases hjoins with
    | both hmerge =>
      obtain rfl := (Value.eq_of_merge_of_isTracked hmerge htracked).1
      exact hf.locals name v hx htracked
    | left | right => cases htracked

theorem Frame.Each.of_holds (h : f.Each P) (hv : f.Holds v) : P v :=
  hv.elim (h.stack v) fun ⟨name, hname⟩ => h.locals name v hname

namespace Header

variable {h : Header}

theorem receiverValue_eq_uninitThis_iff {name : BinaryName} :
    h.receiverValue = some (.uninitThis name) ↔
      h.isStatic = false ∧ h.isConstructor = true ∧ name = h.owner := by
  unfold receiverValue
  cases h.isStatic <;> cases h.isConstructor <;> simp [eq_comm]

theorem source?_receiverValue (hv : h.receiverValue = some v) : v.source? = none := by
  unfold receiverValue at hv
  split at hv
  · cases hv
  · split at hv <;> obtain rfl := Option.some.inj hv <;> rfl

theorem each_entryFrame (h : Header) :
    h.entryFrame.Each fun v => v.isTracked = true → h.receiverValue = some v := by
  refine entryFrame_induction (Frame.Each _) .empty ?_ ?_
  · exact fun v f hv hf => hf.set receiverName fun _ => hv
  · intro p _ f hf
    refine hf.set p.name fun htracked => ?_
    rw [Value.isTracked_ofType] at htracked
    cases htracked

end Header

namespace Method

variable {m : Method} {path : List Nat} {k : Nat}

theorem executesOn_concat (hcode : m.code[k]? = some i) {j : Instruction} :
    m.ExecutesOn expander (path ++ [k]) j ↔
      m.ExecutesOn expander path j ∨ j ∈ i.executed expander := by
  simp [ExecutesOn, or_and_right, exists_or, hcode]

/-- A path accounts for what it does without its last instruction, and for what this brings up. -/
theorem accountsFor_concat (hcode : m.code[k]? = some i) :
    m.AccountsFor expander (path ++ [k]) v ↔ m.AccountsFor expander path v ∨
      ∃ j ∈ i.executed expander, v.source? = some j := by
  simp only [AccountsFor, executesOn_concat hcode, or_and_right, exists_or, or_assoc]

end Method

namespace Analyzer

variable {a : Analyzer} {m : Method} {result : Analysis} {k s : Nat} {out : Frame}

/-- Control comes to the instruction, and for every tracked value of the frame it does so on a path
that accounts for the value. -/
structure EntryAccounted (expander : Option Expander) (m : Method) (index : Nat) (frame : Frame) :
    Prop where
  reachable : Reachable m.code index
  exists_path : frame.Each fun v => v.isTracked = true →
    ∃ path, IsPath m.code (path ++ [index]) ∧ m.AccountsFor expander path v

theorem entryAccounted_start (hpos : 0 < m.code.length) :
    EntryAccounted expander m 0 m.header.entryFrame where
  reachable := .zero hpos
  exists_path := m.header.each_entryFrame.mono fun _ hv htracked =>
    ⟨[], ⟨hpos, rfl, .singleton 0⟩, .inl (hv htracked)⟩

theorem EntryAccounted.merges (hf : EntryAccounted expander m k f)
    (h : f.Merges inheritance g r) : EntryAccounted expander m k r where
  reachable := hf.reachable
  exists_path := h.each hf.exists_path

theorem Yields.each (h : a.Yields m.code (EntryAccounted a.expander m) k out) :
    out.Each fun v => v.isTracked = true →
      ∃ path, IsPath m.code (path ++ [k]) ∧ m.AccountsFor a.expander (path ++ [k]) v := by
  obtain ⟨e, i, hentry, hcode, hexecute⟩ := h
  refine (i.each_execute hexecute hentry.exists_path).mono fun v hv htracked => ?_
  simp only [Method.accountsFor_concat hcode]
  rcases hv htracked with ⟨path, hpath, haccounts⟩ | hmade
  · exact ⟨path, hpath, .inl haccounts⟩
  · obtain ⟨path, hpath⟩ := hentry.reachable.exists_isPath
    exact ⟨path, hpath, .inr hmade⟩

theorem Yields.entryAccounted (h : a.Yields m.code (EntryAccounted a.expander m) k out)
    (hflow : Flows m.code k s) : EntryAccounted a.expander m s out where
  reachable := by
    obtain ⟨e, i, hentry, -⟩ := h
    exact hentry.reachable.tail hflow
  exists_path := h.each.mono fun v hv htracked => by
    obtain ⟨path, hpath, haccounts⟩ := hv htracked
    exact ⟨path ++ [k], isPath_concat_iff.2 ⟨hpath, hflow⟩, haccounts⟩

/-- A tracked value of a frame is the receiver on entry, or it has its origin on a path to the
frame. -/
theorem exists_origin {rounds : Nat} (h : a.analyzeWithin rounds m = .ok result)
    (hframe : result.frame? k = some out) (hv : out.Holds v) (htracked : v.isTracked = true) :
    m.header.receiverValue = some v ∨ ∃ i, v.source? = some i ∧
      ∃ path, IsPath m.code (path ++ [k]) ∧ m.ExecutesOn a.expander (path ++ [k]) i := by
  have hpos := (reachable_of_frame? h hframe).1
  have hyields := yields_of_analyzeWithin (entryAccounted_start hpos)
    (fun hf _ hmerges => hf.merges hmerges) (fun hyields => hyields.entryAccounted) h hframe
  obtain ⟨path, hpath, hreceiver | ⟨i, hexecutes, hsource⟩⟩ := hyields.each.of_holds hv htracked
  · exact .inl hreceiver
  · exact .inr ⟨i, hsource, path, hpath, hexecutes⟩

/-- An analysis that succeeds makes up no literal and no object under construction. -/
theorem inventsNothing_of_analyze {rounds : Nat} (h : a.analyzeWithin rounds m = .ok result)
    (hframe : result.frame? k = some out) : InventsNothing a.expander m k out := by
  have hmade : ∀ {v : Value} {i : Instruction}, out.Holds v → v.source? = some i →
      ∃ path, IsPath m.code (path ++ [k]) ∧ m.ExecutesOn a.expander (path ++ [k]) i := by
    intro v i hv hsource
    rcases exists_origin h hframe hv (Value.isTracked_of_source? hsource) with
      hreceiver | ⟨j, hj, hpath⟩
    · rw [Header.source?_receiverValue hreceiver] at hsource
      cases hsource
    · obtain rfl := Option.some.inj (hj.symm.trans hsource)
      exact hpath
  refine ⟨fun _ hv => hmade hv rfl, fun _ hv => hmade hv rfl, fun _ hv => hmade hv rfl,
    fun name hv => ?_⟩
  rcases exists_origin h hframe hv rfl with hreceiver | ⟨i, hi, -⟩
  · exact Header.receiverValue_eq_uninitThis_iff.1 hreceiver
  · cases hi

def makeObject : Expander := .ofEntries [("make", .ok [.new .object])]

def keptInLoop : Method where
  header := ⟨.object, UnqualifiedName.init.text, .ofBits _ 0, [], none⟩
  code := [.label "again", .ldc (.text "kept"), .storeRef "text", .expression "make",
    .storeRef "object", .loadRef "this", .branch (.null true) "again", .returnVoid]

theorem keptInLoop_invents_nothing : ∃ result frame,
    analyze ⟨none, some makeObject⟩ keptInLoop = .ok result ∧ result.frame? 7 = some frame ∧
      frame.Holds (.textConstant "kept") ∧ frame.Holds (.uninit .object) ∧
      frame.Holds (.uninitThis .object) ∧
      InventsNothing (some makeObject) keptInLoop 7 frame := by
  have hsome : ((analyze ⟨none, some makeObject⟩ keptInLoop).toOption.bind (·.frame? 7)).isSome =
      true := by decide
  have hvalues : ∀ entry ∈ [("text", Value.textConstant "kept"), ("object", .uninit .object),
      ("this", .uninitThis .object)],
      (analyze ⟨none, some makeObject⟩ keptInLoop).toOption.bind (·.local? 7 entry.1) =
        some entry.2 := by decide
  cases h : analyze ⟨none, some makeObject⟩ keptInLoop with
  | error e =>
    rw [h] at hsome
    cases hsome
  | ok result =>
    rw [h] at hsome hvalues
    obtain ⟨frame, hframe⟩ := Option.isSome_iff_exists.1 hsome
    have hframe : result.frame? 7 = some frame := hframe
    have hholds : ∀ entry ∈ [("text", Value.textConstant "kept"), ("object", .uninit .object),
        ("this", .uninitThis .object)], frame.Holds entry.2 := by
      intro entry hentry
      have hlocal : result.local? 7 entry.1 = some entry.2 := hvalues entry hentry
      rw [Analysis.local?, hframe] at hlocal
      exact .inr ⟨entry.1, hlocal⟩
    exact ⟨result, frame, rfl, hframe, hholds ("text", _) (by simp), hholds ("object", _) (by simp),
      hholds ("this", _) (by simp), inventsNothing_of_analyze h hframe⟩

end Analyzer

end MethodLocals
