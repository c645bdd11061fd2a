import Mathlib.Data.List.Chain
import Mathlib.Data.List.Induction
import MethodLocals.Proofs.Categories
import MethodLocals.Proofs.PathSafety
import MethodLocals.Proofs.Scopes

/-! What loads find. An analysis that settles knows the category of a variable only where it was
left by whatever set the variable last, on every path. Accesses are checked in the order of
instructions, so a load agrees with the scope that it lies in, and with what it finds as far as
control comes to it from that scope. -/

namespace MethodLocals

variable {v w : Value} {name : String} {c : TypeCategory}

def lastSetting? (code : List Instruction) (name : String) (path : List Nat) : Option Nat :=
  path.reverse.find? fun j => code[j]?.any (·.setsVariable name)

/-- What the last instruction of a path that sets a variable left in it; the variable of a path
without one holds what it is entered with. -/
def Method.lastHeld (m : Method) (result : Analysis) (name : String) (path : List Nat) :
    Option Value :=
  match lastSetting? m.code name path with
  | some j => result.local? j name
  | none => m.header.entryFrame.get? name

section Paths

variable {code : List Instruction} {path : List Nat} {j k : Nat}

theorem isPath_concat_iff :
    IsPath code (path ++ [j] ++ [k]) ↔ IsPath code (path ++ [j]) ∧ Flows code j k := by
  have hhead : (path ++ [j] ++ [k]).head? = (path ++ [j]).head? := by
    cases path <;> rfl
  rw [IsPath, IsPath, hhead, List.append_assoc, List.singleton_append, List.isChain_split,
    List.isChain_pair, and_assoc, and_assoc]

theorem IsPath.reachable (h : IsPath code (path ++ [j])) : Reachable code j := by
  induction path using List.reverseRecOn generalizing j with
  | nil =>
    obtain ⟨hpos, hhead, -⟩ := h
    obtain rfl : j = 0 := Option.some.inj hhead
    exact .zero hpos
  | append_singleton path i ih =>
    obtain ⟨hbefore, hflow⟩ := isPath_concat_iff.1 h
    exact (ih hbefore).tail hflow

theorem Reachable.exists_isPath (h : Reachable code j) : ∃ path, IsPath code (path ++ [j]) := by
  obtain ⟨hpos, hflows⟩ := h
  induction hflows with
  | refl => exact ⟨[], hpos, rfl, .singleton 0⟩
  | tail _ hflow ih =>
    obtain ⟨path, hpath⟩ := ih
    exact ⟨_, isPath_concat_iff.2 ⟨hpath, hflow⟩⟩

theorem lastSetting?_concat : lastSetting? code name (path ++ [j]) =
    if code[j]?.any (·.setsVariable name) then some j else lastSetting? code name path := by
  rw [lastSetting?, List.reverse_append, List.reverse_singleton, List.singleton_append,
    List.find?_cons]
  split <;> simp_all [lastSetting?]

end Paths

namespace Analyzer

variable {a : Analyzer} {m : Method} {result : Analysis} {entry : Nat → Frame} {path : List Nat}
  {j k : Nat}

theorem ne_expression_of_getElem? {code : List Instruction} {instruction : Instruction}
    (hplain : ∀ text, .expression text ∉ code) (hcode : code[k]? = some instruction)
    (text : String) : instruction ≠ .expression text := by
  rintro rfl
  exact hplain text (List.mem_of_getElem? hcode)

/-- A variable that is known after an instruction is known from simulating it. -/
theorem Fixpoint.exists_execute {o : FrameOrder a.inheritance}
    (h : a.Fixpoint o m result entry) {instruction : Instruction}
    (hcode : m.code[k]? = some instruction) (hv : result.local? k name = some v) :
    Reachable m.code k ∧ ∃ out, (entry k).execute a.expander instruction = .ok out ∧
      out.category? name = v.category := by
  obtain ⟨out, hout, hlocal⟩ := Option.bind_eq_some_iff.1 hv
  have hreach := (h.present_iff k).1 ⟨out, hout⟩
  obtain ⟨targets, out', -, hexecute, hresult, -⟩ := h.executed k instruction hreach hcode
  obtain rfl := Option.some.inj (hout.symm.trans hresult)
  refine ⟨hreach, out, hexecute, ?_⟩
  rw [Frame.category?, hlocal]
  rfl

/-- What is known of the category of a variable at the end of a path is that of what was left in it
last. -/
theorem Fixpoint.category_lastHeld
    (h : a.Fixpoint (categoryOrder a.inheritance) m result entry)
    (hplain : ∀ text, .expression text ∉ m.code) (hpath : IsPath m.code (path ++ [k]))
    (hc : (entry k).category? name = some c) :
    (m.lastHeld result name path).bind Value.category = some c := by
  induction path using List.reverseRecOn generalizing k with
  | nil =>
    obtain ⟨hpos, hhead, -⟩ := hpath
    obtain rfl : k = 0 := Option.some.inj hhead
    exact h.start (List.length_pos_iff.1 hpos) name c hc
  | append_singleton path j ih =>
    obtain ⟨hbefore, hflow⟩ := isPath_concat_iff.1 hpath
    have hreach := hbefore.reachable
    obtain ⟨instruction, targets, hcode, htargets, hmem⟩ := hflow
    obtain ⟨targets', out, htargets', hexecute, hresult, hbelow⟩ :=
      h.executed j instruction hreach hcode
    obtain rfl := Except.ok.inj (htargets.symm.trans htargets')
    have hout : out.category? name = some c := hbelow k hmem name c hc
    -- Either the last instruction sets the variable, or it hands on what was known before it.
    simp only [Method.lastHeld, lastSetting?_concat, hcode, Option.any_some]
    cases hsets : instruction.setsVariable name with
    | true =>
      change (result.local? j name).bind Value.category = some c
      rw [Analysis.local?, hresult]
      exact hout
    | false =>
      refine ih hbefore ?_
      rw [← Instruction.category?_execute (ne_expression_of_getElem? hplain hcode) hexecute hsets]
      exact hout

/-- A value that a load finds in its variable is of the category of whatever set the variable last,
on every path to the load, and the scope in which the load lies is of the category of the load. So
the load agrees with what it finds exactly if it does so on some path, and it does if the variable
was set last in the scope of the load, with a reference if it was stored as one. -/
structure LoadFinds (m : Method) (result : Analysis) (i : Nat) (ref : VariableRef) (v : Value) :
    Prop where
  held : ∀ path, IsPath m.code (path ++ [i]) →
    ∃ w, m.lastHeld result ref.name path = some w ∧ w.category = v.category
  stored : ∀ path j set, IsPath m.code (path ++ [i]) →
    lastSetting? m.code ref.name path = some j → accessAt? m.code j = some set →
    set.type.isPrimitive = true → v.category = some set.type.category
  scope : ∀ opening, m.header.scopeOpening (variableRefs (m.code.take i)) ref.name =
    some opening → opening.category = ref.type.category
  agrees_iff : v.category = some ref.type.category ↔ ∃ path w, IsPath m.code (path ++ [i]) ∧
    m.lastHeld result ref.name path = some w ∧ w.category = some ref.type.category
  agrees_of_set : ∀ path j set, IsPath m.code (path ++ [i]) →
    lastSetting? m.code ref.name path = some j → accessAt? m.code j = some set → j < i →
    SameScope m.code ref.name (j + 1) i →
    (set.type.isPrimitive = false → ∀ w, result.local? j ref.name = some w →
      w.isReference = true) → v.category = some ref.type.category
  agrees_of_bound : ∀ path, IsPath m.code (path ++ [i]) →
    lastSetting? m.code ref.name path = none → SameScope m.code ref.name 0 i →
    v.category = some ref.type.category

theorem lastHeld_of_some (hlast : lastSetting? m.code name path = some j) :
    m.lastHeld result name path = result.local? j name := by
  rw [Method.lastHeld, hlast]

theorem lastHeld_of_none (hlast : lastSetting? m.code name path = none) :
    m.lastHeld result name path = m.header.entryFrame.get? name := by
  rw [Method.lastHeld, hlast]

theorem lastSetting?_sets {code : List Instruction} {set : VariableRef}
    (hlast : lastSetting? code name path = some j) (href : accessAt? code j = some set) :
    set.name = name ∧ set.access ≠ .read := by
  obtain ⟨instruction, hcode, href⟩ := Option.bind_eq_some_iff.1 href
  have hsets := List.find?_some hlast
  simpa only [hcode, Option.any_some, Instruction.setsVariable, href, decide_eq_true_eq] using hsets

theorem Fixpoint.category_entry (h : a.Fixpoint (categoryOrder a.inheritance) m result entry)
    (hplain : ∀ text, .expression text ∉ m.code) {ref : VariableRef}
    (href : accessAt? m.code k = some ref) (hread : ref.access = .read)
    (hv : result.local? k ref.name = some v) :
    Reachable m.code k ∧ (entry k).category? ref.name = v.category := by
  obtain ⟨instruction, hcode, href⟩ := Option.bind_eq_some_iff.1 href
  obtain ⟨hreach, out, hexecute, hcategory⟩ := h.exists_execute hcode hv
  have hsets : instruction.setsVariable ref.name = false := by
    simp [Instruction.setsVariable, href, hread]
  exact ⟨hreach, (Instruction.category?_execute (ne_expression_of_getElem? hplain hcode) hexecute
    hsets).symm.trans hcategory⟩

theorem Fixpoint.category_of_number
    (h : a.Fixpoint (categoryOrder a.inheritance) m result entry)
    (hlast : lastSetting? m.code name path = some j) {set : VariableRef}
    (href : accessAt? m.code j = some set) (hnumber : set.type.isPrimitive = true)
    (hw : result.local? j name = some w) : w.category = some set.type.category := by
  obtain ⟨hname, haccess⟩ := lastSetting?_sets hlast href
  obtain ⟨instruction, hcode, href⟩ := Option.bind_eq_some_iff.1 href
  obtain ⟨-, out, hexecute, hcategory⟩ := h.exists_execute hcode hw
  rw [← hcategory, ← hname]
  exact Instruction.category?_of_number href haccess hnumber hexecute

/-- What a path holds that sets the variable in the scope of an access agrees with the access. -/
theorem Fixpoint.category_of_scope
    (h : a.Fixpoint (categoryOrder a.inheritance) m result entry)
    (hscopes : ∀ i, ¬ m.header.Violates m.code i) {ref set : VariableRef}
    (href : accessAt? m.code k = some ref) (hread : ref.access = .read)
    (hlast : lastSetting? m.code ref.name path = some j) (hset : accessAt? m.code j = some set)
    (hjk : j < k) (hsame : SameScope m.code ref.name (j + 1) k)
    (hw : result.local? j ref.name = some w)
    (hreference : set.type.isPrimitive = false → w.isReference = true) :
    w.category = some ref.type.category := by
  obtain ⟨hname, haccess⟩ := lastSetting?_sets hlast hset
  rw [← hname] at hsame
  obtain ⟨opening, hopening, hcategory⟩ :=
    exists_scopeOpening_of_set (hscopes j) hset haccess hjk hsame
  rw [hname] at hopening
  have hagrees := category_of_scopeOpening (hscopes k) href hread hopening
  rw [← hagrees, hcategory]
  cases hnumber : set.type.isPrimitive with
  | true => exact h.category_of_number hlast hset hnumber hw
  | false =>
    rw [Value.category_of_isReference (hreference hnumber)]
    cases htype : set.type with
    | base b => rw [htype] at hnumber; cases hnumber
    | ref r => rfl

theorem category_of_entry (hscope : ¬ m.header.Violates m.code k) {ref : VariableRef}
    (href : accessAt? m.code k = some ref) (hread : ref.access = .read)
    (hw : m.header.entryFrame.get? ref.name = some w) (htop : w ≠ .top)
    (hsame : SameScope m.code ref.name 0 k) : w.category = some ref.type.category := by
  obtain ⟨c, hc⟩ := Option.ne_none_iff_exists'.1 (mt Value.category_eq_none_iff.1 htop)
  have hentered := m.header.category?_entryFrame ref.name
  rw [Frame.category?, hw, Option.bind_some, hc, eq_comm, Option.map_eq_some_iff] at hentered
  obtain ⟨binding, hbinding, hbound⟩ := hentered
  have hopening := scopeOpening_of_binding hbinding hsame
  rw [hc, ← hbound, category_of_scopeOpening hscope href hread hopening]

/-- What a load finds was left, on every path to it, with the category that is known of it. -/
theorem Fixpoint.exists_lastHeld (h : a.Fixpoint (categoryOrder a.inheritance) m result entry)
    (hplain : ∀ text, .expression text ∉ m.code) {ref : VariableRef}
    (href : accessAt? m.code k = some ref) (hread : ref.access = .read)
    (hv : result.local? k ref.name = some v) (htop : v ≠ .top)
    (hpath : IsPath m.code (path ++ [k])) :
    ∃ w, m.lastHeld result ref.name path = some w ∧ w.category = v.category := by
  obtain ⟨-, hentry⟩ := h.category_entry hplain href hread hv
  obtain ⟨c, hc⟩ := Option.ne_none_iff_exists'.1 (mt Value.category_eq_none_iff.1 htop)
  rw [hc] at hentry ⊢
  exact Option.bind_eq_some_iff.1 (h.category_lastHeld hplain hpath hentry)

/-- In a method without expressions whose variables are resolved, loads find what was set last, and
agree with the scope that they lie in. -/
theorem loadFinds_of_resolve {t : Table} (hplain : ∀ text, .expression text ∉ m.code)
    (h : Table.resolve a.analyze m = (t, .done)) :
    ∃ result, a.analyze m = .ok result ∧ ∀ i ref v, accessAt? m.code i = some ref →
      ref.access = .read → result.local? i ref.name = some v → v ≠ .top →
      LoadFinds m result i ref v := by
  obtain ⟨t₁, t₂, t₃, result, hreceiver, hparameters, hcode, hanalyze, -⟩ :=
    Table.exists_passes_of_resolve h
  have hscopes := Table.not_violates_of_resolveCode hreceiver hparameters
    (congrArg Prod.snd hcode)
  have hknows : (categoryOrder a.inheritance).KnowsMethod a.expander m :=
    ⟨trivial, fun _ _ _ => trivial⟩
  obtain ⟨entry, hfix⟩ := exists_fixpoint hknows hanalyze
  refine ⟨result, hanalyze, fun i ref v href hread hv htop => ?_⟩
  have hheld : ∀ path, IsPath m.code (path ++ [i]) →
      ∃ w, m.lastHeld result ref.name path = some w ∧ w.category = v.category :=
    fun path => hfix.exists_lastHeld hplain href hread hv htop
  have hscope : ∀ opening, m.header.scopeOpening (variableRefs (m.code.take i)) ref.name =
      some opening → opening.category = ref.type.category :=
    fun opening => category_of_scopeOpening (hscopes i) href hread
  constructor
  case held => exact hheld
  case scope => exact hscope
  case stored =>
    intro path j set hpath hlast hset hnumber
    obtain ⟨w, hw, hcategory⟩ := hheld path hpath
    rw [lastHeld_of_some hlast] at hw
    rw [← hcategory, hfix.category_of_number hlast hset hnumber hw]
  case agrees_iff =>
    constructor
    · intro hagrees
      obtain ⟨path, hpath⟩ := (hfix.category_entry hplain href hread hv).1.exists_isPath
      obtain ⟨w, hw, hcategory⟩ := hheld path hpath
      exact ⟨path, w, hpath, hw, hcategory.trans hagrees⟩
    · rintro ⟨path, w, hpath, hw, hcategory⟩
      obtain ⟨w', hw', hheld'⟩ := hheld path hpath
      obtain rfl := Option.some.inj (hw.symm.trans hw')
      exact hheld'.symm.trans hcategory
  case agrees_of_set =>
    intro path j set hpath hlast hset hji hsame hreference
    obtain ⟨w, hw, hcategory⟩ := hheld path hpath
    rw [lastHeld_of_some hlast] at hw
    rw [← hcategory]
    exact hfix.category_of_scope hscopes href hread hlast hset hji hsame hw
      fun hnumber => hreference hnumber w hw
  case agrees_of_bound =>
    intro path hpath hlast hsame
    obtain ⟨w, hw, hcategory⟩ := hheld path hpath
    rw [lastHeld_of_none hlast] at hw
    rw [← hcategory]
    refine category_of_entry (hscopes i) href hread hw ?_ hsame
    rintro rfl
    exact htop (Value.category_eq_none_iff.1 hcategory.symm)

/-- The scope in which the load lies is opened by an int, but control comes to the load from the
store of a float below it. -/
def storedBelow : Method where
  header := ⟨.object, "run", .ofBits _ 8, [], none⟩
  code := [.push .int, .store .int "x", .goto "store", .label "read", .load .int "x", .pop,
    .returnVoid, .label "store", .push .float, .store .float "x", .goto "read"]

theorem not_expression_mem_storedBelow (text : String) :
    .expression text ∉ storedBelow.code := by
  simp [storedBelow]

theorem exists_analysis_storedBelow : ∃ result, analyze ⟨none, none⟩ storedBelow = .ok result ∧
    result.local? 4 "x" = some .float := by
  have hfloat : ((analyze ⟨none, none⟩ storedBelow).toOption.bind (·.local? 4 "x")) =
      some .float := by decide
  cases h : analyze ⟨none, none⟩ storedBelow with
  | error e =>
    rw [h] at hfloat
    cases hfloat
  | ok result =>
    rw [h] at hfloat
    exact ⟨result, rfl, hfloat⟩

theorem storedBelow_found : ∃ t result,
    Table.resolve (analyze ⟨none, none⟩) storedBelow = (t, .done) ∧
      analyze ⟨none, none⟩ storedBelow = .ok result ∧ result.local? 4 "x" = some .float ∧
      LoadFinds storedBelow result 4 ⟨"x", .int, .read⟩ .float := by
  have hdone : (Table.resolve (analyze ⟨none, none⟩) storedBelow).2 = .done := by decide
  obtain ⟨result, hresult, hfinds⟩ :=
    loadFinds_of_resolve not_expression_mem_storedBelow (Prod.ext rfl hdone)
  obtain ⟨result', hresult', hfloat⟩ := exists_analysis_storedBelow
  obtain rfl := Except.ok.inj (hresult.symm.trans hresult')
  exact ⟨_, result, Prod.ext rfl hdone, hresult, hfloat,
    hfinds 4 ⟨"x", .int, .read⟩ .float (by decide) rfl hfloat (by decide)⟩

/-- Not every load finds a value of its category. -/
theorem not_forall_loads_agree :
    ¬ ∀ (a : Analyzer) (m : Method) (t : Table) (result : Analysis),
      (∀ text, .expression text ∉ m.code) → Table.resolve a.analyze m = (t, .done) →
      a.analyze m = .ok result → ∀ i ref v, accessAt? m.code i = some ref → ref.access = .read →
      result.local? i ref.name = some v → v ≠ .top → v.category = some ref.type.category := by
  intro h
  have hdone : (Table.resolve (analyze ⟨none, none⟩) storedBelow).2 = .done := by decide
  obtain ⟨result, hresult, hfloat⟩ := exists_analysis_storedBelow
  have hagrees := h _ storedBelow _ result not_expression_mem_storedBelow (Prod.ext rfl hdone)
    hresult 4 ⟨"x", .int, .read⟩ .float (by decide) rfl hfloat (by decide)
  cases hagrees

end Analyzer

end MethodLocals
