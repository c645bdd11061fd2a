import Mathlib.Tactic.ByContra
import MethodLocals.Proofs.Uses

/-! The uses that the passes over a method make. Each of them either opens a slot of its own, the
next free one, or returns to the slot that its name was last used with. -/

namespace MethodLocals

/-- A mention of a variable in a method. The receiver and the parameters bind their names. -/
structure Occurrence where
  name : String
  wide : Bool
  binds : Bool
  deriving DecidableEq

/-- A mention opens a variable if it binds its name anew or is the first one under its name. -/
def Occurrence.Opens (before : List Occurrence) (o : Occurrence) : Prop :=
  o.binds = true ∨ ∀ p ∈ before, p.name ≠ o.name

def VariableRef.occurrence (ref : VariableRef) : Occurrence :=
  ⟨ref.name, ref.type.width = 2, false⟩

def Parameter.occurrence (p : Parameter) : Occurrence := ⟨p.name, p.type.width = 2, true⟩

def Header.occurrences (h : Header) : List Occurrence :=
  (if h.isStatic then [] else [⟨receiverName, false, true⟩]) ++
    h.parameters.map Parameter.occurrence

def Method.occurrences (m : Method) : List Occurrence :=
  m.header.occurrences ++ (variableRefs m.code).map (·.2.occurrence)

/-- What a use records of a variable. The slot is left out. -/
structure Mention where
  name : String
  usage : Usage
  refining : Bool
  deriving DecidableEq

def Use.mention (u : Use) : Mention := ⟨u.name, u.usage, u.refining⟩

def Header.receiverMentions (h : Header) : List Mention :=
  if h.isStatic then [] else [⟨receiverName, ⟨.definition, .object h.owner⟩, false⟩]

def parameterMention (item : Parameter × Nat) : Mention :=
  ⟨item.1.name, ⟨.parameter item.2, item.1.type⟩, false⟩

def Header.bindings (h : Header) : List Mention :=
  h.receiverMentions ++ h.parameters.zipIdx.map parameterMention

def accessMention (item : Nat × VariableRef) : Mention :=
  ⟨item.2.name, ⟨.instruction item.1, item.2.type⟩, false⟩

def Mention.occurrence (m : Mention) : Occurrence where
  name := m.name
  wide := m.usage.type.width = 2
  binds := match m.usage.source with
    | .instruction _ => false
    | .definition | .parameter _ => true

def Use.occurrence (u : Use) : Occurrence := u.mention.occurrence

theorem Header.occurrences_eq (h : Header) : h.occurrences = h.bindings.map Mention.occurrence := by
  have hparameters : (h.parameters.zipIdx.map parameterMention).map Mention.occurrence =
      h.parameters.map Parameter.occurrence := by
    conv_rhs => rw [← List.zipIdx_map_fst 0 h.parameters, List.map_map]
    rw [List.map_map]
    rfl
  rw [occurrences, bindings, List.map_append, hparameters, receiverMentions]
  split <;> rfl

@[simp] theorem Use.occurrence_name (u : Use) : u.occurrence.name = u.name := rfl

@[simp] theorem Use.occurrence_wide (u : Use) : u.occurrence.wide = u.isWide := by
  rw [Bool.eq_iff_iff, u.isWide_iff]
  exact decide_eq_true_iff

inductive Use.Placed (u : Use) (before : List Use) : Prop
  | fresh : u.occurrence.Opens (before.map Use.occurrence) →
      (∀ v ∈ before, v.slot + v.type.width ≤ u.slot) →
      (u.slot ≠ 0 → ∃ v ∈ before, v.slot + v.type.width = u.slot) → Placed u before
  | again {v : Use} : u.occurrence.binds = false →
      before.reverse.find? (·.name = u.name) = some v → v.slot = u.slot → Placed u before

def Chosen (us : List Use) : Prop :=
  ∀ (i : Nat) (u : Use), us[i]? = some u → u.Placed (us.take i)

theorem chosen_nil : Chosen [] := by
  intro i u h
  simp at h

theorem Chosen.concat {us : List Use} {u : Use} (h : Chosen us) (hu : u.Placed us) :
    Chosen (us ++ [u]) := by
  intro i v hv
  rcases Nat.lt_trichotomy i us.length with hlt | rfl | hgt
  · rw [List.getElem?_append_left hlt] at hv
    rw [List.take_append_of_le_length (Nat.le_of_lt hlt)]
    exact h i v hv
  · simp only [List.getElem?_concat_length, Option.some.injEq] at hv
    simpa [hv] using hu
  · rw [List.getElem?_eq_none (by rw [List.length_append]; exact hgt)] at hv
    cases hv

theorem Access.eq_of_recordedType_eq_ok {access : Access} {existing : Option FieldType}
    {incoming type : FieldType} (h : access.recordedType existing incoming = .ok type) :
    type = incoming := by
  unfold recordedType at h
  split at h
  · exact (Except.ok.inj h).symm
  · split at h
    · exact (Except.ok.inj h).symm
    · cases h

namespace Table

/-- The uses were accepted one after the other, and each got its slot as the passes choose it. -/
structure Laid (us : List Use) (t : Table) : Prop where
  built : Built us t
  chosen : Chosen us

theorem laid_empty : Laid [] empty := ⟨.empty, chosen_nil⟩

namespace Laid

variable {us : List Use} {t t' : Table}

theorem withStage (h : Laid us t) (stage : Stage) : Laid us { t with stage } :=
  ⟨h.built.stage stage, h.chosen⟩

theorem use_next (h : Laid us t) {u : Use} (hs : u.slot = t.slots.next)
    (hopens : u.occurrence.Opens (us.map Use.occurrence)) (hu : t.use u = .ok t') :
    Laid (us ++ [u]) t' := by
  have ha := h.built.accounts
  refine ⟨h.built.use hu, h.chosen.concat (.fresh hopens ?_ ?_)⟩
  · intro v hv
    rw [hs]
    exact ha.le_next v.commit (List.mem_map_of_mem hv)
  · intro hne
    obtain ⟨c, hc, hnext⟩ := ha.next_mem (hs ▸ hne)
    obtain ⟨v, hv, rfl⟩ := List.mem_map.1 hc
    exact ⟨v, hv, hnext.trans hs.symm⟩

theorem use_named (h : Laid us t) {u : Use} {r : Record} (hr : t.named? u.name = some r)
    (hs : u.slot = r.slot) (hbinds : u.occurrence.binds = false) (hu : t.use u = .ok t') :
    Laid (us ++ [u]) t' := by
  have hslot := (slotOf?_of_named? hr).1
  rw [h.built.slotOf?_eq] at hslot
  obtain ⟨v, hv, hvr⟩ := Option.map_eq_some_iff.1 hslot
  exact ⟨h.built.use hu, h.chosen.concat (.again hbinds hv (hvr.trans hs.symm))⟩

/-- A pass adds a use for each of its items if each step does. -/
theorem steps {α β : Type} (step : Table → α → Except CompileError Table) (view : Use → β)
    (mention : α → β)
    (hstep : ∀ {us t t' item}, Laid us t → step t item = .ok t' →
      ∃ u, view u = mention item ∧ Laid (us ++ [u]) t')
    (h : Laid us t) {items : List α} (hrun : t.steps step items = (t', none)) :
    ∃ added, added.map view = items.map mention ∧ Laid (us ++ added) t' := by
  induction items generalizing us t with
  | nil =>
    cases hrun
    exact ⟨[], rfl, by simpa using h⟩
  | cons item rest ih =>
    unfold Table.steps at hrun
    cases hs : step t item with
    | error e => simp [hs] at hrun
    | ok next =>
      obtain ⟨u, hu, hnext⟩ := hstep h hs
      obtain ⟨added, hadded, hlaid⟩ := ih hnext (by simpa [hs] using hrun)
      exact ⟨u :: added, by simp [hu, hadded], by simpa using hlaid⟩

theorem bindReceiver {header : Header} (h : Laid [] t)
    (hrun : t.steps use (receiverUses header) = (t', none)) :
    ∃ us, us.map Use.mention = header.receiverMentions ∧ Laid us t' := by
  have hnext : t.slots.next = 0 := by
    by_contra hne
    obtain ⟨c, hc, -⟩ := h.built.accounts.next_mem hne
    simp at hc
  unfold receiverUses at hrun
  split at hrun
  · cases hrun
    exact ⟨[], by simp [Header.receiverMentions, *], h⟩
  · unfold Table.steps at hrun
    split at hrun
    · simp at hrun
    · rename_i next hu
      cases hrun
      exact ⟨_, by simp [Header.receiverMentions, *]; rfl, h.use_next hnext.symm (.inl rfl) hu⟩

theorem bindParameter {item : Parameter × Nat} (h : Laid us t)
    (hs : t.bindParameter item = .ok t') :
    ∃ u, u.mention = parameterMention item ∧ Laid (us ++ [u]) t' :=
  ⟨_, rfl, h.use_next rfl (.inl rfl) hs⟩

theorem resolveAccess {item : Nat × VariableRef} (h : Laid us t)
    (hs : t.resolveAccess item = .ok t') :
    ∃ u, u.mention = accessMention item ∧ Laid (us ++ [u]) t' := by
  obtain ⟨index, ref⟩ := item
  rw [Table.resolveAccess] at hs
  split at hs
  · rename_i hnone
    refine ⟨_, rfl, h.use_next rfl (.inr ?_) hs⟩
    have hne := h.built.name_ne_of_slotOf?_eq_none ((h.built.named?_eq_none_iff ref.name).1 hnone)
    simpa using hne
  · rename_i r hr
    split at hs
    · rename_i type htype
      rw [Access.eq_of_recordedType_eq_ok htype] at hs
      exact ⟨_, rfl, h.use_named hr rfl rfl hs⟩
    · cases hs

end Laid

/-- Refining returns to slots in use, and to none of them with a wide type. -/
def Returns (us : List Use) (u : Use) : Prop := u.isWide = false ∧ ∃ v ∈ us, v.slot = u.slot

theorem Built.refineAccess {us : List Use} {t t' : Table} {analysis : Analysis}
    {item : Nat × VariableRef} (h : Built us t) (hname : ∃ u ∈ us, u.name = item.2.name)
    (hs : t.refineAccess analysis item = .ok t') : ∃ u, Returns us u ∧ Built (us ++ [u]) t' := by
  obtain ⟨index, ref⟩ := item
  cases hr : t.named? ref.name with
  | none =>
    obtain ⟨u, hu, hun⟩ := hname
    rw [h.named?_eq_none_iff] at hr
    exact absurd hun (h.name_ne_of_slotOf?_eq_none hr u hu)
  | some r =>
    have hused := (h.exists_record_iff r.slot).1 ⟨r, (slotOf?_of_named? hr).2⟩
    have hfor : t.slotFor ref.name = r.slot := by rw [slotFor, hr]
    rw [Table.refineAccess, hfor] at hs
    refine ⟨_, ⟨?_, hused⟩, h.use hs⟩
    rw [Use.isWide, Analysis.refinedType]
    split <;> rfl

theorem Built.refine {us : List Use} {t t' : Table} {analysis : Analysis}
    {items : List (Nat × VariableRef)} (h : Built us t)
    (hnames : ∀ item ∈ items, ∃ u ∈ us, u.name = item.2.name)
    (hrun : t.steps (Table.refineAccess analysis) items = (t', none)) :
    ∃ added, (∀ u ∈ added, Returns us u) ∧ Built (us ++ added) t' := by
  induction items generalizing us t with
  | nil =>
    cases hrun
    exact ⟨[], by simp, by simpa using h⟩
  | cons item rest ih =>
    unfold Table.steps at hrun
    cases hs : t.refineAccess analysis item with
    | error e => simp [hs] at hrun
    | ok next =>
      obtain ⟨u, ⟨hwide, v, hv, hvu⟩, hnext⟩ := h.refineAccess (hnames item (by simp)) hs
      have hrest : ∀ item ∈ rest, ∃ u' ∈ us ++ [u], u'.name = item.2.name := by
        intro item hitem
        obtain ⟨w, hw, hwn⟩ := hnames item (List.mem_cons_of_mem _ hitem)
        exact ⟨w, List.mem_append_left _ hw, hwn⟩
      obtain ⟨added, hadded, hbuilt⟩ := ih hnext hrest (by simpa [hs] using hrun)
      refine ⟨u :: added, ?_, by simpa using hbuilt⟩
      intro w hw
      rcases List.mem_cons.1 hw with rfl | hw
      · exact ⟨hwide, v, hv, hvu⟩
      · obtain ⟨hww, x, hx, hxw⟩ := hadded w hw
        refine ⟨hww, ?_⟩
        rcases List.mem_append.1 hx with hx | hx
        · exact ⟨x, hx, hxw⟩
        · rw [List.mem_singleton.1 hx] at hxw
          exact ⟨v, hv, hvu.trans hxw⟩

/-- Steps that fail go well up to some item, whose step is the one that fails. -/
theorem exists_failed_step {α : Type} {step : Table → α → Except CompileError Table}
    {t t' : Table} {items : List α} {e : CompileError} (h : t.steps step items = (t', some e)) :
    ∃ before item after, items = before ++ item :: after ∧
      t.steps step before = (t', none) ∧ step t' item = .error e := by
  induction items generalizing t with
  | nil => simp [Table.steps] at h
  | cons item rest ih =>
    unfold Table.steps at h
    cases hs : step t item with
    | error e' =>
      simp only [hs, Prod.mk.injEq, Option.some.injEq] at h
      obtain ⟨rfl, rfl⟩ := h
      exact ⟨[], item, rest, rfl, rfl, hs⟩
    | ok next =>
      simp only [hs] at h
      obtain ⟨before, failing, after, rfl, hbefore, hfail⟩ := ih h
      exact ⟨item :: before, failing, after, rfl, by simp only [Table.steps, hs, hbefore], hfail⟩

/-- Steps that go well do so up to each item and for that item. -/
theorem exists_step_of_append {α : Type} {step : Table → α → Except CompileError Table}
    {t t' : Table} {before after : List α} {item : α}
    (h : t.steps step (before ++ item :: after) = (t', none)) :
    ∃ s next, t.steps step before = (s, none) ∧ step s item = .ok next ∧
      next.steps step after = (t', none) := by
  rw [steps_append] at h
  cases hbefore : t.steps step before with
  | mk s failure =>
    cases failure with
    | some e => simp [hbefore] at h
    | none =>
      simp only [hbefore, Table.steps] at h
      cases hs : step s item with
      | error e => simp [hs] at h
      | ok next => exact ⟨s, next, rfl, hs, by simpa only [hs] using h⟩

theorem runPass_of_stage {α : Type} (pass : Pass) (step : Table → α → Except CompileError Table)
    {t : Table} (hstage : t.stage = pass.before) (items : List α) :
    t.runPass pass step items = match t.steps step items with
      | (result, none) => ({ result with stage := pass.after }, .done)
      | (result, some e) => (result, .failed e) := by
  rw [runPass, if_neg (not_not_intro hstage)]
  cases t.steps step items with
  | mk result failure => cases failure <;> rfl

theorem runPass_eq_done {α : Type} {pass : Pass} {step : Table → α → Except CompileError Table}
    {t t' : Table} {items : List α} (h : t.runPass pass step items = (t', .done)) :
    ∃ result, t.steps step items = (result, none) ∧ t' = { result with stage := pass.after } := by
  unfold runPass at h
  split at h
  · simp at h
  · cases hs : t.steps step items with
    | mk result failure =>
      cases failure with
      | some e => simp [hs] at h
      | none =>
        simp only [hs, Prod.mk.injEq, and_true] at h
        exact ⟨result, rfl, h.symm⟩

theorem andThen_eq_done {result : Table × Outcome} {next : Table → Table × Outcome} {t : Table}
    (h : andThen result next = (t, .done)) :
    ∃ before, result = (before, .done) ∧ next before = (t, .done) := by
  obtain ⟨before, outcome⟩ := result
  cases outcome with
  | done => exact ⟨before, rfl, h⟩
  | failed e => simp [andThen] at h
  | outOfOrder pass => simp [andThen] at h

/-- A method is resolved by the four passes one after the other, the last one with the frames that
are found for it. -/
theorem exists_passes_of_resolve {analyze : FrameSource} {m : Method} {t : Table}
    (h : resolve analyze m = (t, .done)) :
    ∃ t₁ t₂ t₃ analysis, empty.bindReceiver m.header = (t₁, .done) ∧
      t₁.bindParameters m.header.parameters = (t₂, .done) ∧
      t₂.resolveCode m.code = (t₃, .done) ∧ analyze m = .ok analysis ∧
      t₃.refine m.code analysis = (t, .done) := by
  obtain ⟨t₃, hcode, hrefine⟩ := andThen_eq_done h
  obtain ⟨t₂, hparameters, hcode⟩ := andThen_eq_done hcode
  obtain ⟨t₁, hreceiver, hparameters⟩ := andThen_eq_done hparameters
  unfold resolveReferences at hrefine
  split at hrefine
  · cases congrArg Prod.snd hrefine
  · rename_i analysis hanalyze
    exact ⟨t₁, t₂, t₃, analysis, hreceiver, hparameters, hcode, hanalyze, hrefine⟩

theorem exists_uses_of_bind {h : Header} {t₁ t₂ : Table}
    (hreceiver : empty.bindReceiver h = (t₁, .done))
    (hparameters : t₁.bindParameters h.parameters = (t₂, .done)) :
    ∃ us, us.map Use.mention = h.bindings ∧ Laid us t₂ := by
  obtain ⟨r₁, hrun₁, rfl⟩ := runPass_eq_done hreceiver
  obtain ⟨us₁, hus₁, hlaid₁⟩ := laid_empty.bindReceiver hrun₁
  obtain ⟨r₂, hrun₂, rfl⟩ := runPass_eq_done hparameters
  obtain ⟨us₂, hus₂, hlaid₂⟩ := (hlaid₁.withStage _).steps Table.bindParameter Use.mention
    parameterMention (fun h hs => h.bindParameter hs) hrun₂
  exact ⟨us₁ ++ us₂, by rw [List.map_append, hus₁, hus₂]; rfl, hlaid₂.withStage _⟩

theorem Laid.resolveCode {us : List Use} {t t' : Table} (h : Laid us t) {code : List Instruction}
    (hcode : t.resolveCode code = (t', .done)) :
    ∃ added, added.map Use.mention = (variableRefs code).map accessMention ∧
      Laid (us ++ added) t' := by
  obtain ⟨result, hrun, rfl⟩ := runPass_eq_done hcode
  obtain ⟨added, hadded, hlaid⟩ := h.steps Table.resolveAccess Use.mention accessMention
    (fun h hs => h.resolveAccess hs) hrun
  exact ⟨added, hadded, hlaid.withStage _⟩

/-- Every mention of a variable in a method is a use of the table that its code is resolved into. -/
theorem exists_uses_of_code {m : Method} {t₁ t₂ t₃ : Table}
    (hreceiver : empty.bindReceiver m.header = (t₁, .done))
    (hparameters : t₁.bindParameters m.header.parameters = (t₂, .done))
    (hcode : t₂.resolveCode m.code = (t₃, .done)) :
    ∃ us, us.map Use.occurrence = m.occurrences ∧
      (∀ item ∈ variableRefs m.code, ∃ u ∈ us, u.name = item.2.name) ∧ Laid us t₃ := by
  obtain ⟨us₁, hus₁, hlaid₁⟩ := exists_uses_of_bind hreceiver hparameters
  obtain ⟨us₂, hus₂, hlaid⟩ := hlaid₁.resolveCode hcode
  refine ⟨us₁ ++ us₂, ?_, fun item hitem => ?_, hlaid⟩
  · have hview : ∀ us : List Use,
        us.map Use.occurrence = (us.map Use.mention).map Mention.occurrence := by
      intro us
      rw [List.map_map]
      rfl
    rw [hview, List.map_append, hus₁, hus₂, List.map_append, ← Header.occurrences_eq, List.map_map]
    rfl
  · have hmem : accessMention item ∈ us₂.map Use.mention := by
      rw [hus₂]
      exact List.mem_map_of_mem hitem
    obtain ⟨u, hu, huo⟩ := List.mem_map.1 hmem
    exact ⟨u, List.mem_append_right _ hu, congrArg Mention.name huo⟩

/-- The table of a method is built by one use for each mention of a variable, and then by uses that
refine references. -/
theorem exists_uses_of_resolve {analyze : FrameSource} {m : Method} {t : Table}
    (h : resolve analyze m = (t, .done)) :
    ∃ us added, us.map Use.occurrence = m.occurrences ∧ Chosen us ∧
      (∀ u ∈ added, Returns us u) ∧ Built (us ++ added) t := by
  obtain ⟨t₁, t₂, t₃, analysis, hreceiver, hparameters, hcode, -, hrefine⟩ :=
    exists_passes_of_resolve h
  obtain ⟨us, hus, hnames, hlaid⟩ := exists_uses_of_code hreceiver hparameters hcode
  obtain ⟨result, hrun, rfl⟩ := runPass_eq_done hrefine
  obtain ⟨added, hadded, hbuilt⟩ :=
    hlaid.built.refine (fun item hitem => hnames item (List.mem_filter.1 hitem).1) hrun
  exact ⟨us, added, hus, hlaid.chosen, hadded, hbuilt.stage _⟩

end Table

end MethodLocals
