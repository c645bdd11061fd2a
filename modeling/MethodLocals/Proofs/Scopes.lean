import Mathlib.Data.List.Basic
import Mathlib.Data.List.Induction
import MethodLocals.Proofs.Naming

/-! Typed scopes in the order of instructions. Accesses are checked against the type that a variable
was last used with; that type is always of the category under which the scope of the variable was
opened, so the check accepts an access exactly if it agrees with its scope. -/

namespace MethodLocals

variable {code : List Instruction} {i : Nat} {ref : VariableRef} {name : String}
  {accesses before after : List (Nat × VariableRef)} {item : Nat × VariableRef} {header : Header}

def accessAt? (code : List Instruction) (index : Nat) : Option VariableRef :=
  code[index]?.bind Instruction.variableRef

theorem mem_variableRefs_iff : (i, ref) ∈ variableRefs code ↔ accessAt? code i = some ref := by
  simp only [variableRefs, List.mem_filterMap, accessAt?, Option.bind_eq_some_iff,
    Option.map_eq_some_iff, Prod.mk.injEq, Prod.exists, List.mem_zipIdx_iff_getElem?]
  constructor
  · rintro ⟨instruction, j, hcode, _, href, rfl, rfl⟩
    exact ⟨instruction, hcode, href⟩
  · rintro ⟨instruction, hcode, href⟩
    exact ⟨instruction, i, hcode, ref, href, rfl, rfl⟩

theorem accessAt?_take {j : Nat} (h : j < i) : accessAt? (code.take i) j = accessAt? code j := by
  rw [accessAt?, accessAt?, List.getElem?_take_of_lt h]

theorem lt_of_accessAt?_take {j : Nat} (h : accessAt? (code.take i) j = some ref) : j < i := by
  obtain ⟨instruction, hcode, -⟩ := Option.bind_eq_some_iff.1 h
  have hlt := (List.getElem?_eq_some_iff.1 hcode).1
  rw [List.length_take] at hlt
  omega

theorem exists_variableRefs_eq (h : accessAt? code i = some ref) :
    ∃ after, variableRefs code = variableRefs (code.take i) ++ (i, ref) :: after ∧
      (i, ref) ∉ variableRefs (code.take i) ∧ ∀ item ∈ after, i < item.1 := by
  obtain ⟨instruction, hcode, href⟩ := Option.bind_eq_some_iff.1 h
  obtain ⟨hlt, hget⟩ := List.getElem?_eq_some_iff.1 hcode
  have hsplit : code = code.take i ++ instruction :: code.drop (i + 1) := by
    rw [← hget, List.getElem_cons_drop, List.take_append_drop]
  have hlength : (code.take i).length = i := List.length_take_of_le (Nat.le_of_lt hlt)
  refine ⟨((code.drop (i + 1)).zipIdx (i + 1)).filterMap
    fun item => item.1.variableRef.map (item.2, ·), ?_, ?_, ?_⟩
  · conv_lhs => rw [hsplit]
    simp only [variableRefs, List.zipIdx_append, hlength, List.zipIdx_cons,
      List.filterMap_append, List.filterMap_cons, Nat.zero_add, href, Option.map_some]
  · rw [mem_variableRefs_iff, accessAt?, List.getElem?_eq_none (Nat.le_of_eq hlength)]
    exact nofun
  · intro item hmem
    obtain ⟨⟨_, j⟩, hj, heq⟩ := List.mem_filterMap.1 hmem
    obtain ⟨_, -, rfl⟩ := Option.map_eq_some_iff.1 heq
    exact List.le_snd_of_mem_zipIdx hj

theorem eq_of_variableRefs_eq (h : variableRefs code = before ++ (i, ref) :: after) :
    before = variableRefs (code.take i) ∧ accessAt? code i = some ref := by
  have href : accessAt? code i = some ref := mem_variableRefs_iff.1 (by rw [h]; simp)
  obtain ⟨after', hsplit, hbefore, hafter⟩ := exists_variableRefs_eq href
  have hafter' : (i, ref) ∉ after' := fun hmem => Nat.lt_irrefl i (hafter _ hmem)
  rw [hsplit] at h
  exact ⟨((List.append_cons_inj_of_notMem hbefore hafter').1 h).1.symm, href⟩

def lastAssigned? (accesses : List (Nat × VariableRef)) (name : String) : Option FieldType :=
  (accesses.reverse.find? fun item => item.2.name = name ∧ item.2.access = .assign).map (·.2.type)

def firstAccessed? (accesses : List (Nat × VariableRef)) (name : String) : Option FieldType :=
  (accesses.find? (·.2.name = name)).map (·.2.type)

def lastAccessed? (accesses : List (Nat × VariableRef)) (name : String) : Option FieldType :=
  (accesses.reverse.find? (·.2.name = name)).map (·.2.type)

/-- The type that opens the scope in which a variable is after some accesses: that of its last
assignment; failing that, of its binding; failing that, of the first access. -/
def Header.scopeOpening (h : Header) (accesses : List (Nat × VariableRef)) (name : String) :
    Option FieldType :=
  (lastAssigned? accesses name).or
    (((h.binding? name).map Usage.type).or (firstAccessed? accesses name))

/-- The type that a variable was last used with, be it by its binding. -/
def Header.lastUsed (h : Header) (accesses : List (Nat × VariableRef)) (name : String) :
    Option FieldType :=
  (lastAccessed? accesses name).or ((h.binding? name).map Usage.type)

/-- A read disagrees with a scope of another category, and an update with any scope but an int. -/
def Access.Disagrees (access : Access) (opening implied : TypeCategory) : Prop :=
  match access with
  | .assign => False
  | .update => opening ≠ .int
  | .read => opening ≠ implied

def Header.Violates (h : Header) (code : List Instruction) (i : Nat) : Prop :=
  ∃ ref opening, accessAt? code i = some ref ∧
    h.scopeOpening (variableRefs (code.take i)) ref.name = some opening ∧
    ref.access.Disagrees opening.category ref.type.category

/-- A conflict that names the variable, its slot and the access at an instruction, the type that is
implied there, and a type of the category of the scope. -/
def Header.Reports (h : Header) (code : List Instruction) (t : Table) (i slot : Nat)
    (name : String) (conflict : TypeConflict) : Prop :=
  ∃ ref opening, accessAt? code i = some ref ∧ name = ref.name ∧ t.slotOf? name = some slot ∧
    conflict.access = ref.access ∧ conflict.incoming = ref.type ∧
    h.scopeOpening (variableRefs (code.take i)) name = some opening ∧
    conflict.existing.category = opening.category

def Outcome.ConflictsAt (outcome : Outcome) (i : Nat) : Prop :=
  ∃ slot name conflict, outcome = .failed ⟨.instruction i, .typeConflict slot name conflict⟩

def Outcome.LacksSlotAt (outcome : Outcome) (i : Nat) : Prop :=
  ∃ conflict, outcome = .failed ⟨.instruction i, .allocation conflict⟩

theorem Access.agrees_eq_false_iff {access : Access} {existing incoming : FieldType} :
    access.agrees existing incoming = false ↔
      access.Disagrees existing.category incoming.category := by
  cases access <;> simp [agrees, Disagrees]

theorem lastAssigned?_concat : lastAssigned? (accesses ++ [item]) name =
    if item.2.name = name ∧ item.2.access = .assign then some item.2.type
    else lastAssigned? accesses name := by
  simp only [lastAssigned?, List.reverse_append, List.reverse_singleton, List.singleton_append,
    List.find?_cons]
  split <;> simp_all

theorem firstAccessed?_concat : firstAccessed? (accesses ++ [item]) name =
    (firstAccessed? accesses name).or (if item.2.name = name then some item.2.type else none) := by
  simp only [firstAccessed?, List.find?_append, Option.map_or, List.find?_singleton]
  split <;> simp_all

theorem lastUsed_concat : header.lastUsed (accesses ++ [item]) name =
    if item.2.name = name then some item.2.type else header.lastUsed accesses name := by
  simp only [Header.lastUsed, lastAccessed?, List.reverse_append, List.reverse_singleton,
    List.singleton_append, List.find?_cons]
  split <;> simp_all

/-- Only an assignment opens a new scope; another access does if it is the first one. -/
theorem scopeOpening_concat : header.scopeOpening (accesses ++ [item]) name =
    if item.2.name = name then
      if item.2.access = .assign then some item.2.type
      else (header.scopeOpening accesses name).or (some item.2.type)
    else header.scopeOpening accesses name := by
  simp only [Header.scopeOpening, lastAssigned?_concat, firstAccessed?_concat]
  by_cases hname : item.2.name = name
  · by_cases hassign : item.2.access = .assign
    · simp [hname, hassign]
    · simp [hname, hassign]
  · simp [hname]

/-- A scope stays open until the next assignment. -/
theorem scopeOpening_append {opening : FieldType}
    (h : header.scopeOpening accesses name = some opening)
    (hassign : ∀ item ∈ after, item.2.name = name → item.2.access ≠ .assign) :
    header.scopeOpening (accesses ++ after) name = some opening := by
  induction after using List.reverseRecOn with
  | nil => rwa [List.append_nil]
  | append_singleton after item ih =>
    have ih := ih fun other hmem => hassign other (List.mem_append_left _ hmem)
    have hitem := hassign item (List.mem_append_right _ (List.mem_singleton.2 rfl))
    rw [← List.append_assoc, scopeOpening_concat]
    split
    · rename_i hname
      rw [if_neg (hitem hname), ih, Option.some_or]
    · exact ih

inductive Header.Accepts (h : Header) : List (Nat × VariableRef) → Prop
  | nil : h.Accepts []
  | concat {accesses : List (Nat × VariableRef)} {item : Nat × VariableRef}
    (haccepts : h.Accepts accesses)
    (hagrees : ∀ existing, h.lastUsed accesses item.2.name = some existing →
      item.2.access.agrees existing item.2.type = true) : h.Accepts (accesses ++ [item])

/-- Accesses that are accepted keep the category of the scope that they lie in. -/
theorem Header.Accepts.category_eq (h : header.Accepts accesses)
    (hupdates : ∀ item ∈ accesses, item.2.access = .update → item.2.type.category = .int)
    (name : String) : (header.lastUsed accesses name).map FieldType.category =
      (header.scopeOpening accesses name).map FieldType.category := by
  induction h with
  | nil => simp [lastUsed, scopeOpening, lastAccessed?, lastAssigned?, firstAccessed?]
  | @concat accesses item _ hagrees ih =>
    have ih := ih fun other hmem => hupdates other (List.mem_append_left _ hmem)
    rw [lastUsed_concat, scopeOpening_concat]
    by_cases hname : item.2.name = name
    · rw [if_pos hname, if_pos hname]
      split
      · rfl
      rename_i hassign
      cases hopening : header.scopeOpening accesses name with
      | none => rfl
      | some opening =>
        rw [hopening, Option.map_some, Option.map_eq_some_iff] at ih
        obtain ⟨existing, hexisting, hcategory⟩ := ih
        have hagree := hagrees existing (hname ▸ hexisting)
        rw [Option.some_or, Option.map_some, Option.map_some, ← hcategory]
        -- The access leaves the scope open, so its type has to be of the category found so far.
        cases haccess : item.2.access with
        | assign => exact absurd haccess hassign
        | update =>
          have hint := hupdates item (List.mem_append_right _ (List.mem_singleton.2 rfl)) haccess
          simp only [haccess, Access.agrees, decide_eq_true_eq] at hagree
          rw [hint, hagree]
        | read =>
          simp only [haccess, Access.agrees, decide_eq_true_eq] at hagree
          rw [hagree]
    · rw [if_neg hname, if_neg hname]
      exact ih

theorem category_of_update (h : accessAt? code i = some ref) (hupdate : ref.access = .update) :
    ref.type.category = .int := by
  obtain ⟨instruction, -, href⟩ := Option.bind_eq_some_iff.1 h
  cases instruction <;> simp only [Instruction.variableRef, reduceCtorEq] at href <;>
    obtain rfl := Option.some.inj href <;> first | rfl | cases hupdate

/-- A read agrees with its scope unless it violates it. -/
theorem category_of_scopeOpening (hviolates : ¬ header.Violates code i)
    (href : accessAt? code i = some ref) (hread : ref.access = .read) {opening : FieldType}
    (hopening : header.scopeOpening (variableRefs (code.take i)) ref.name = some opening) :
    opening.category = ref.type.category := by
  by_contra hne
  exact hviolates ⟨ref, opening, href, hopening, by rw [hread]; exact hne⟩

/-- No instruction from `j` on and before `i` assigns the variable. -/
def SameScope (code : List Instruction) (name : String) (j i : Nat) : Prop :=
  ∀ l ref, j ≤ l → l < i → accessAt? code l = some ref → ref.name = name → ref.access ≠ .assign

theorem SameScope.not_assign {j : Nat} (h : SameScope code name j i)
    (hitem : item ∈ variableRefs (code.take i)) (hj : j ≤ item.1) (hname : item.2.name = name) :
    item.2.access ≠ .assign := by
  have hat : accessAt? (code.take i) item.1 = some item.2 := mem_variableRefs_iff.1 hitem
  have hlt := lt_of_accessAt?_take hat
  exact h item.1 item.2 hj hlt ((accessAt?_take hlt).symm.trans hat) hname

theorem scopeOpening_of_binding {binding : Usage} (hbinding : header.binding? name = some binding)
    (hsame : SameScope code name 0 i) :
    header.scopeOpening (variableRefs (code.take i)) name = some binding.type := by
  have hopening : header.scopeOpening [] name = some binding.type := by
    simp [Header.scopeOpening, lastAssigned?, hbinding]
  exact scopeOpening_append hopening fun item hitem hname =>
    hsame.not_assign hitem (Nat.zero_le _) hname

/-- What sets a variable without disagreeing with its scope leaves it in a scope of its category. -/
theorem exists_scopeOpening_of_set {j : Nat} (hviolates : ¬ header.Violates code j)
    (href : accessAt? code j = some ref) (haccess : ref.access ≠ .read) (hji : j < i)
    (hsame : SameScope code ref.name (j + 1) i) :
    ∃ opening, header.scopeOpening (variableRefs (code.take i)) ref.name = some opening ∧
      opening.category = ref.type.category := by
  obtain ⟨after, hsplit, -, hafter⟩ := exists_variableRefs_eq ((accessAt?_take hji).trans href)
  rw [List.take_take, Nat.min_eq_left (Nat.le_of_lt hji)] at hsplit
  have hassign : ∀ item ∈ after, item.2.name = ref.name → item.2.access ≠ .assign :=
    fun item hitem => hsame.not_assign (by rw [hsplit]; simp [hitem]) (hafter item hitem)
  have hopening : ∃ opening,
      header.scopeOpening (variableRefs (code.take j) ++ [(j, ref)]) ref.name = some opening ∧
        opening.category = ref.type.category := by
    rw [scopeOpening_concat, if_pos rfl]
    split
    · exact ⟨ref.type, rfl, rfl⟩
    · rename_i hassign
      have hupdate : ref.access = .update := by
        cases h : ref.access with
        | assign => exact absurd h hassign
        | update => rfl
        | read => exact absurd h haccess
      cases hbefore : header.scopeOpening (variableRefs (code.take j)) ref.name with
      | none => exact ⟨ref.type, rfl, rfl⟩
      | some opening =>
        refine ⟨opening, rfl, ?_⟩
        rw [category_of_update href hupdate]
        by_contra hint
        exact hviolates ⟨ref, opening, href, hbefore, by rw [hupdate]; exact hint⟩
  obtain ⟨opening, hopening, hcategory⟩ := hopening
  refine ⟨opening, ?_, hcategory⟩
  rw [hsplit, ← List.singleton_append, ← List.append_assoc]
  exact scopeOpening_append hopening hassign

namespace Table

variable {us : List Use} {s t t' : Table} {r : Record} {e : CompileError}

/-- An access that disagrees with the last use of its variable is a conflict. -/
theorem resolveAccess_of_disagrees (hr : t.named? item.2.name = some r)
    (h : item.2.access.agrees r.last.type item.2.type = false) :
    t.resolveAccess item = .error ⟨.instruction item.1, .typeConflict r.slot item.2.name
      ⟨item.2.access, r.last.type, item.2.type⟩⟩ := by
  obtain ⟨index, ref⟩ := item
  simp only [resolveAccess, hr, Access.recordedType, h, Bool.false_eq_true, if_false]

/-- An access fails because its slot cannot be had, or because it disagrees with the last use. -/
theorem error_of_resolveAccess (h : t.resolveAccess item = .error e) :
    (∃ conflict, e = ⟨.instruction item.1, .allocation conflict⟩) ∨
      ∃ r, t.named? item.2.name = some r ∧
        item.2.access.agrees r.last.type item.2.type = false ∧
        e = ⟨.instruction item.1, .typeConflict r.slot item.2.name
          ⟨item.2.access, r.last.type, item.2.type⟩⟩ := by
  cases hr : t.named? item.2.name with
  | none =>
    simp only [resolveAccess, hr] at h
    exact .inl (error_of_use h)
  | some r =>
    cases hagrees : item.2.access.agrees r.last.type item.2.type with
    | false =>
      rw [resolveAccess_of_disagrees hr hagrees] at h
      exact .inr ⟨r, rfl, hagrees, (Except.error.inj h).symm⟩
    | true =>
      simp only [resolveAccess, hr, Access.recordedType, hagrees, if_true] at h
      exact .inl (error_of_use h)

theorem Laid.type_named (h : Laid us t)
    (hus : us.map Use.mention = header.bindings ++ accesses.map accessMention) (name : String) :
    (t.named? name).map (·.last.type) = header.lastUsed accesses name := by
  have hview : (us.reverse.find? (·.name = name)).map (·.usage.type) =
      ((us.map Use.mention).reverse.find? (·.name = name)).map (·.usage.type) := by
    rw [← List.map_reverse, List.find?_map, Option.map_map]
    rfl
  have hlast := congrArg (Option.map Usage.type) (h.last_named name)
  simp only [Option.map_map, Function.comp_def] at hlast
  rw [hlast, hview, hus, List.reverse_append, List.find?_append, Option.map_or, ← List.map_reverse,
    List.find?_map, Option.map_map, Header.lastUsed, lastAccessed?, Header.binding?,
    Option.map_map]
  rfl

theorem Laid.accepts (h : Laid us t) (hus : us.map Use.mention = header.bindings)
    (hrun : t.steps Table.resolveAccess accesses = (t', none)) :
    header.Accepts accesses ∧ ∀ name,
      (t'.named? name).map (·.last.type) = header.lastUsed accesses name := by
  have hlaid : ∀ {accesses t'}, t.steps Table.resolveAccess accesses = (t', none) → ∀ name,
      (t'.named? name).map (·.last.type) = header.lastUsed accesses name := by
    intro accesses t' hrun name
    obtain ⟨added, hadded, hlaid⟩ := h.steps Table.resolveAccess Use.mention accessMention
      (fun h hs => h.resolveAccess hs) hrun
    exact hlaid.type_named (by rw [List.map_append, hus, hadded]) name
  refine ⟨?_, hlaid hrun⟩
  induction accesses using List.reverseRecOn generalizing t' with
  | nil => exact .nil
  | append_singleton accesses item ih =>
    obtain ⟨s, next, hbefore, hstep, -⟩ := exists_step_of_append hrun
    refine .concat (ih hbefore) fun existing hexisting => ?_
    rw [← hlaid hbefore, Option.map_eq_some_iff] at hexisting
    obtain ⟨r, hr, rfl⟩ := hexisting
    by_contra hdisagrees
    rw [resolveAccess_of_disagrees hr (by simpa using hdisagrees)] at hstep
    cases hstep

theorem Laid.category_named (h : Laid us t) (hus : us.map Use.mention = header.bindings)
    (hrun : t.steps Table.resolveAccess (variableRefs (code.take i)) = (s, none))
    (name : String) : (s.named? name).map (·.last.type.category) =
      (header.scopeOpening (variableRefs (code.take i)) name).map FieldType.category := by
  obtain ⟨haccepts, hused⟩ := h.accepts hus hrun
  have hupdates : ∀ item ∈ variableRefs (code.take i), item.2.access = .update →
      item.2.type.category = .int :=
    fun item hitem => category_of_update (mem_variableRefs_iff.1 hitem)
  rw [← haccepts.category_eq hupdates name, ← hused name, Option.map_map]
  rfl

theorem Laid.violates_iff (h : Laid us t) (hus : us.map Use.mention = header.bindings)
    (hrun : t.steps Table.resolveAccess (variableRefs (code.take i)) = (s, none))
    (href : accessAt? code i = some ref) : header.Violates code i ↔
      ∃ r, s.named? ref.name = some r ∧ ref.access.agrees r.last.type ref.type = false := by
  have hcategory := h.category_named hus hrun ref.name
  constructor
  · rintro ⟨ref', opening, href', hopening, hdisagrees⟩
    obtain rfl := Option.some.inj (href.symm.trans href')
    rw [hopening, Option.map_some, Option.map_eq_some_iff] at hcategory
    obtain ⟨r, hr, heq⟩ := hcategory
    exact ⟨r, hr, Access.agrees_eq_false_iff.2 (heq ▸ hdisagrees)⟩
  · rintro ⟨r, hr, hagrees⟩
    rw [hr, Option.map_some, eq_comm, Option.map_eq_some_iff] at hcategory
    obtain ⟨opening, hopening, heq⟩ := hcategory
    exact ⟨ref, opening, href, hopening, heq ▸ Access.agrees_eq_false_iff.1 hagrees⟩

theorem Laid.not_violates (h : Laid us t) (hus : us.map Use.mention = header.bindings)
    (hrun : t.steps Table.resolveAccess accesses = (s, none))
    (hinitial : accesses <+: variableRefs code) (hmem : (i, ref) ∈ accesses) :
    ¬ header.Violates code i := by
  obtain ⟨rest, hrest⟩ := hinitial
  obtain ⟨before, after, rfl⟩ := List.append_of_mem hmem
  rw [List.append_assoc, List.cons_append] at hrest
  obtain ⟨rfl, href⟩ := eq_of_variableRefs_eq hrest.symm
  obtain ⟨s', next, hbefore, hstep, -⟩ := exists_step_of_append hrun
  rw [h.violates_iff hus hbefore href]
  rintro ⟨r, hr, hagrees⟩
  rw [resolveAccess_of_disagrees hr hagrees] at hstep
  cases hstep

/-- Code that cannot be resolved fails at some instruction after accesses that went well. -/
theorem exists_failing_access {before : Table} (hstage : before.stage = .parametersBound)
    (h : (before.resolveCode code).2 = .failed e) :
    ∃ i ref, accessAt? code i = some ref ∧
      variableRefs (code.take i) <+: variableRefs code ∧
      before.steps Table.resolveAccess (variableRefs (code.take i)) =
        ((before.resolveCode code).1, none) ∧
      (before.resolveCode code).1.resolveAccess (i, ref) = .error e := by
  rw [resolveCode, runPass_of_stage .code Table.resolveAccess hstage] at h ⊢
  cases hrun : before.steps Table.resolveAccess (variableRefs code) with
  | mk result failure =>
    rw [hrun] at h
    cases failure with
    | none => cases h
    | some e' =>
      obtain rfl : e' = e := by simpa using h
      obtain ⟨earlier, ⟨i, ref⟩, after, hsplit, hearlier, hstep⟩ := exists_failed_step hrun
      obtain ⟨rfl, href⟩ := eq_of_variableRefs_eq hsplit
      exact ⟨i, ref, href, ⟨_, hsplit.symm⟩, hearlier, hstep⟩

/-- The access that fails is a conflict if it violates its scope, and none before it does. -/
theorem Laid.violates_of_failed {before : Table} (h : Laid us before)
    (hus : us.map Use.mention = header.bindings) (hstage : before.stage = .parametersBound)
    (hfail : (before.resolveCode code).2 = .failed e) :
    ∃ i, (∀ j < i, ¬ header.Violates code j) ∧
      ((¬ header.Violates code i ∧ ∃ conflict, e = ⟨.instruction i, .allocation conflict⟩) ∨
        (header.Violates code i ∧ ∃ slot name conflict,
          e = ⟨.instruction i, .typeConflict slot name conflict⟩ ∧
          header.Reports code (before.resolveCode code).1 i slot name conflict)) := by
  obtain ⟨i, ref, href, hinitial, hearlier, hstep⟩ := exists_failing_access hstage hfail
  have hviolates := h.violates_iff hus hearlier href
  refine ⟨i, fun j hj hj' => ?_, ?_⟩
  · obtain ⟨ref', _, href', -⟩ := id hj'
    have hmem : (j, ref') ∈ variableRefs (code.take i) :=
      mem_variableRefs_iff.2 ((accessAt?_take hj).trans href')
    exact h.not_violates hus hearlier hinitial hmem hj'
  · rcases error_of_resolveAccess hstep with ⟨conflict, rfl⟩ | ⟨r, hr, hagrees, rfl⟩
    · refine .inl ⟨fun hv => ?_, conflict, rfl⟩
      obtain ⟨r, hr, hagrees⟩ := hviolates.1 hv
      rw [resolveAccess_of_disagrees hr hagrees] at hstep
      cases hstep
    · have hcategory := h.category_named hus hearlier ref.name
      rw [hr, Option.map_some, eq_comm, Option.map_eq_some_iff] at hcategory
      obtain ⟨opening, hopening, heq⟩ := hcategory
      exact .inr ⟨hviolates.2 ⟨r, hr, hagrees⟩, _, _, _, rfl, ref, opening, href, rfl,
        (slotOf?_of_named? hr).1, rfl, rfl, hopening, heq.symm⟩

theorem not_violates_of_resolveCode {t₁ t₂ : Table}
    (hreceiver : empty.bindReceiver header = (t₁, .done))
    (hparameters : t₁.bindParameters header.parameters = (t₂, .done))
    (hdone : (t₂.resolveCode code).2 = .done) (i : Nat) : ¬ header.Violates code i := by
  obtain ⟨us, hus, hlaid⟩ := exists_uses_of_bind hreceiver hparameters
  obtain ⟨result, hrun, -⟩ := runPass_eq_done (Prod.ext rfl hdone)
  intro hviolates
  obtain ⟨ref, _, href, -⟩ := id hviolates
  exact hlaid.not_violates hus hrun (List.prefix_refl _) (mem_variableRefs_iff.2 href) hviolates

/-- The code of a method is resolved only if no instruction violates the scope of its variable, and
the conflict that stops it is at the first one that does. -/
theorem resolveCode_enforces_scopes {t₁ t₂ : Table}
    (hreceiver : empty.bindReceiver header = (t₁, .done))
    (hparameters : t₁.bindParameters header.parameters = (t₂, .done)) (code : List Instruction) :
    ((t₂.resolveCode code).2 = .done → ∀ i, ¬ header.Violates code i) ∧
      (∀ i, (t₂.resolveCode code).2.ConflictsAt i ↔
        header.Violates code i ∧ (∀ j < i, ¬ header.Violates code j) ∧
          ∀ j < i, ¬ (t₂.resolveCode code).2.LacksSlotAt j) ∧
      ∀ i slot name conflict,
        (t₂.resolveCode code).2 = .failed ⟨.instruction i, .typeConflict slot name conflict⟩ →
          header.Reports code (t₂.resolveCode code).1 i slot name conflict := by
  obtain ⟨us, hus, hlaid⟩ := exists_uses_of_bind hreceiver hparameters
  have hstage : t₂.stage = .parametersBound := by
    obtain ⟨result, -, rfl⟩ := runPass_eq_done hparameters
    rfl
  have hdone : (t₂.resolveCode code).2 = .done → ∀ i, ¬ header.Violates code i :=
    not_violates_of_resolveCode hreceiver hparameters
  refine ⟨hdone, fun i => ⟨?_, ?_⟩, fun i slot name conflict hfail => ?_⟩
  · rintro ⟨slot, name, conflict, hfail⟩
    obtain ⟨k, hbefore, ⟨-, conflict', heq⟩ | ⟨hviolates, _, _, _, heq, -⟩⟩ :=
      hlaid.violates_of_failed hus hstage hfail
    · cases heq
    · cases heq
      refine ⟨hviolates, hbefore, fun j hj ⟨conflict', hlacks⟩ => ?_⟩
      rw [hfail] at hlacks
      cases hlacks
  · rintro ⟨hviolates, hbefore, hslots⟩
    cases houtcome : (t₂.resolveCode code).2 with
    | done => exact absurd hviolates (hdone houtcome i)
    | outOfOrder pass =>
      rw [resolveCode, runPass_of_stage .code Table.resolveAccess hstage] at houtcome
      split at houtcome <;> cases houtcome
    | failed e =>
      obtain ⟨k, hk, ⟨hviolates', conflict, rfl⟩ | ⟨hviolates', slot, name, conflict, rfl, -⟩⟩ :=
        hlaid.violates_of_failed hus hstage houtcome
      · -- The slot is looked for after the check, so nothing violates its scope up to here.
        rcases Nat.lt_trichotomy k i with hlt | rfl | hgt
        · exact absurd ⟨conflict, houtcome⟩ (hslots k hlt)
        · exact absurd hviolates hviolates'
        · exact absurd hviolates (hk i hgt)
      · rcases Nat.lt_trichotomy k i with hlt | rfl | hgt
        · exact absurd hviolates' (hbefore k hlt)
        · exact ⟨slot, name, conflict, rfl⟩
        · exact absurd hviolates (hk i hgt)
  · obtain ⟨k, -, ⟨-, conflict', heq⟩ | ⟨-, _, _, _, heq, hreports⟩⟩ :=
      hlaid.violates_of_failed hus hstage hfail
    · cases heq
    · cases heq
      exact hreports

def updatedLong : Method where
  header := ⟨.object, "run", .ofBits _ 8, [⟨"n", .base .long⟩], none⟩
  code := [.load .long "n", .pop2, .increment "n", .returnVoid]

theorem updatedLong_conflicts :
    (empty.bindReceiver updatedLong.header).2 = .done ∧
      ((empty.bindReceiver updatedLong.header).1.bindParameters
        updatedLong.header.parameters).2 = .done ∧
      updatedLong.header.Violates updatedLong.code 2 ∧
      ∀ j < 2, ¬ updatedLong.header.Violates updatedLong.code j := by
  have hreceiver : (empty.bindReceiver updatedLong.header).2 = .done := by decide
  have hparameters : ((empty.bindReceiver updatedLong.header).1.bindParameters
      updatedLong.header.parameters).2 = .done := by decide
  have henforced := resolveCode_enforces_scopes (Prod.ext rfl hreceiver) (Prod.ext rfl hparameters)
    updatedLong.code
  have hconflicts := (henforced.2.1 2).1 ⟨0, "n", ⟨.update, .base .long, .int⟩, by decide⟩
  exact ⟨hreceiver, hparameters, hconflicts.1, hconflicts.2.1⟩

end Table

end MethodLocals
