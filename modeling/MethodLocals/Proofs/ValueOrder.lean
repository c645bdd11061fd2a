import MethodLocals.Value
import MethodLocals.Proofs.ClassOrder

/-! The order of abstract values. What two values merge into lies above both, and a value absorbs
exactly the values below it. -/

namespace MethodLocals

/-- An order of classes that fits the inheritance: what it answers lies above both classes, and a
class absorbs the classes below it. Nothing is promised about classes that are not known. -/
structure TypeOrder (inheritance : Option Inheritance) where
  Known : BinaryName → Prop
  Le : BinaryName → BinaryName → Prop
  known_object : Known .object
  le_refl : ∀ a, Le a a
  le_object : ∀ a, Le a .object
  le_trans : ∀ {a b c}, Le a b → Le b c → Le a c
  eq_object_of_le : ∀ {a}, Le .object a → a = .object
  exists_merge : ∀ {a b}, Known a → Known b →
    ∃ c, RefType.merge inheritance (.object a) (.object b) = .ok (.object c) ∧ Known c ∧
      Le a c ∧ Le b c
  merge_of_le : ∀ {a b}, Known a → Known b → Le b a →
    RefType.merge inheritance (.object a) (.object b) = .ok (.object a)

/-- Without inheritance only the class of all objects lies above another class. -/
def TypeOrder.flat : TypeOrder none where
  Known _ := True
  Le a b := a = b ∨ b = .object
  known_object := trivial
  le_refl _ := .inl rfl
  le_object _ := .inr rfl
  le_trans hab hbc := by
    rcases hbc with rfl | hc
    · exact hab
    · exact .inr hc
  eq_object_of_le h := h.elim Eq.symm id
  exists_merge {a b} _ _ := by
    by_cases hab : a = b
    · exact ⟨a, by simp [RefType.merge, hab], trivial, .inl rfl, .inl hab.symm⟩
    · refine ⟨.object, ?_, trivial, .inr rfl, .inr rfl⟩
      simp [RefType.merge, hab, RefType.objectClass]
  merge_of_le {a b} _ _ h := by
    rcases h with rfl | rfl
    · simp [RefType.merge]
    · by_cases hb : BinaryName.object = b
      · simp [RefType.merge, hb]
      · simp [RefType.merge, hb, RefType.objectClass]

theorem ClassGraph.merge_object (g : ClassGraph) (a b : BinaryName) (hne : a ≠ b) :
    RefType.merge (some g.inheritance) (.object a) (.object b) =
      (g.commonSuperclass a b).map .object := by
  simp [RefType.merge, hne, inheritance]

def ClassGraph.WellFormed.typeOrder {g : ClassGraph} (h : g.WellFormed) :
    TypeOrder (some g.inheritance) where
  Known := g.Knows
  Le := g.Le
  known_object := h.knows_object
  le_refl := Le.refl g
  le_object := g.le_object
  le_trans := h.le_trans
  eq_object_of_le {a} hle := (h.le_antisymm hle (g.le_object a)).symm
  exists_merge {a b} ha hb := by
    by_cases hab : a = b
    · subst hab
      exact ⟨a, by simp [RefType.merge], ha, .refl g a, .refl g a⟩
    · obtain ⟨c, hc, hspec⟩ := h.commonSuperclass_spec ha hb
      exact ⟨c, by rw [g.merge_object a b hab, hc]; rfl, hspec⟩
  merge_of_le {a b} ha hb hle := by
    by_cases hab : a = b
    · simp [RefType.merge, hab]
    · rw [g.merge_object a b hab, h.commonSuperclass_of_le ha hb hle]
      rfl

def RefType.classNames : RefType → List BinaryName
  | .object name => [name]
  | .array _ (.object name) => [name]
  | .array _ (.base _) => []

def FieldType.classNames : FieldType → List BinaryName
  | .base _ => []
  | .ref r => r.classNames

namespace Value

def classNames : Value → List BinaryName
  | textConstant _ => [.string]
  | classConstant _ => [.classObject]
  | object r => r.classNames
  | uninit name | uninitThis name => [name]
  | _ => []

inductive Merged (inheritance : Option Inheritance) (v w : Value) :
    Except MissingClass Value → Prop
  | same (h : v = w) : Merged inheritance v w (.ok v)
  | nullLeft (h : v = null) : Merged inheritance v w (.ok w.orNull)
  | nullRight (h : w = null) : Merged inheritance v w (.ok v.orNull)
  | references {a b : RefType} (hv : v.referenceType = some a) (hw : w.referenceType = some b) :
    Merged inheritance v w ((RefType.merge inheritance a b).map object)
  | nothing (h : v.referenceType = none ∨ w.referenceType = none) : Merged inheritance v w (.ok top)

theorem merged (inheritance : Option Inheritance) (v w : Value) :
    Merged inheritance v w (v.merge inheritance w) := by
  unfold merge
  split
  · rename_i heq
    exact .same heq
  · split
    · exact .nullLeft rfl
    · exact .nullRight rfl
    · split
      · rename_i hv hw
        exact .references hv hw
      · rename_i hnot
        refine .nothing ?_
        cases hv : v.referenceType with
        | none => exact .inl rfl
        | some a =>
          cases hw : w.referenceType with
          | none => exact .inr rfl
          | some b => exact absurd hw (hnot a b hv)

end Value

namespace TypeOrder

variable {inheritance : Option Inheritance} (o : TypeOrder inheritance)

/-- The order of reference types; an array type lies below the class of all objects only. -/
inductive RefLe : RefType → RefType → Prop
  | refl (r : RefType) : RefLe r r
  | object (r : RefType) : RefLe r .objectClass
  | classes {a b : BinaryName} (h : o.Le a b) : RefLe (.object a) (.object b)

def KnownRef (r : RefType) : Prop := ∀ name ∈ r.classNames, o.Known name

/-- The order of values. Null lies below every reference, and nothing is known at the top. -/
inductive ValueLe : Value → Value → Prop
  | refl (v : Value) : ValueLe v v
  | top (v : Value) : ValueLe v .top
  | null (r : RefType) : ValueLe .null (.object r)
  | ref {v : Value} {s r : RefType} (hv : v.referenceType = some s) (hle : o.RefLe s r) :
    ValueLe v (.object r)

def KnownValue (v : Value) : Prop := ∀ name ∈ v.classNames, o.Known name

variable {o}

theorem RefLe.trans {r s t : RefType} (hrs : o.RefLe r s) (hst : o.RefLe s t) : o.RefLe r t := by
  cases hst with
  | refl => exact hrs
  | object => exact .object r
  | @classes a b hab =>
    cases hrs with
    | refl => exact .classes hab
    | object =>
      obtain rfl := o.eq_object_of_le hab
      exact .object r
    | classes hle => exact .classes (o.le_trans hle hab)

theorem ValueLe.trans {u v w : Value} (huv : o.ValueLe u v) (hvw : o.ValueLe v w) :
    o.ValueLe u w := by
  cases hvw with
  | refl => exact huv
  | top => exact .top u
  | null r =>
    cases huv with
    | refl => exact .null r
  | @ref _ s r hv hle =>
    cases huv with
    | refl => exact .ref hv hle
    | top => cases hv
    | null => exact .null r
    | ref hu hle' =>
      obtain rfl := Option.some.inj hv
      exact .ref hu (hle'.trans hle)

theorem knownRef_objectClass (o : TypeOrder inheritance) : o.KnownRef .objectClass := by
  intro name hmem
  obtain rfl := List.mem_singleton.1 hmem
  exact o.known_object

theorem knownRef_of_referenceType {v : Value} {r : RefType} (hv : o.KnownValue v)
    (hr : v.referenceType = some r) : o.KnownRef r := by
  cases v <;> simp only [Value.referenceType, Option.some.injEq, reduceCtorEq] at hr
  all_goals
    subst hr
    exact hv

theorem exists_mergeRef {r s : RefType} (hr : o.KnownRef r) (hs : o.KnownRef s) :
    ∃ t, RefType.merge inheritance r s = .ok t ∧ o.KnownRef t ∧ o.RefLe r t ∧ o.RefLe s t := by
  by_cases hrs : r = s
  · subst hrs
    exact ⟨r, by simp [RefType.merge], hr, .refl r, .refl r⟩
  have hobject : RefType.merge inheritance r s = .ok .objectClass →
      ∃ t, RefType.merge inheritance r s = .ok t ∧ o.KnownRef t ∧ o.RefLe r t ∧ o.RefLe s t :=
    fun h => ⟨.objectClass, h, o.knownRef_objectClass, .object r, .object s⟩
  cases r with
  | array extra element => exact hobject (by simp [RefType.merge, hrs])
  | object a =>
    cases s with
    | array extra element => exact hobject (by simp [RefType.merge, hrs])
    | object b =>
      obtain ⟨c, hmerge, hc, hac, hbc⟩ := o.exists_merge (hr a (List.mem_singleton.2 rfl))
        (hs b (List.mem_singleton.2 rfl))
      refine ⟨.object c, hmerge, ?_, .classes hac, .classes hbc⟩
      intro name hmem
      obtain rfl := List.mem_singleton.1 hmem
      exact hc

theorem mergeRef_of_le {r s : RefType} (hr : o.KnownRef r) (hs : o.KnownRef s)
    (hle : o.RefLe s r) : RefType.merge inheritance r s = .ok r := by
  cases hle with
  | refl => simp [RefType.merge]
  | object =>
    cases s with
    | array extra element => simp [RefType.merge, RefType.objectClass]
    | object b =>
      exact o.merge_of_le o.known_object (hs b (List.mem_singleton.2 rfl)) (o.le_object b)
  | @classes a b hab =>
    exact o.merge_of_le (hr b (List.mem_singleton.2 rfl)) (hs a (List.mem_singleton.2 rfl)) hab

theorem valueLe_orNull (v : Value) : o.ValueLe v v.orNull ∧ o.ValueLe .null v.orNull := by
  unfold Value.orNull
  split
  · rename_i r hr
    exact ⟨.ref hr (.refl r), .null r⟩
  · exact ⟨.top v, .top .null⟩

theorem knownValue_orNull {v : Value} (hv : o.KnownValue v) : o.KnownValue v.orNull := by
  unfold Value.orNull
  split
  · rename_i r hr
    exact knownRef_of_referenceType hv hr
  · intro name hmem
    cases hmem

theorem exists_mergeValue {v w : Value} (hv : o.KnownValue v) (hw : o.KnownValue w) :
    ∃ u, v.merge inheritance w = .ok u ∧ o.KnownValue u ∧ o.ValueLe v u ∧ o.ValueLe w u := by
  have hmerged := Value.merged inheritance v w
  generalize v.merge inheritance w = merged at hmerged
  cases hmerged with
  | same h => exact ⟨v, rfl, hv, .refl v, h ▸ .refl v⟩
  | nullLeft h =>
    subst h
    exact ⟨_, rfl, knownValue_orNull hw, (valueLe_orNull w).2, (valueLe_orNull w).1⟩
  | nullRight h =>
    subst h
    exact ⟨_, rfl, knownValue_orNull hv, (valueLe_orNull v).1, (valueLe_orNull v).2⟩
  | references ha hb =>
    obtain ⟨t, ht, hknown, hat, hbt⟩ :=
      exists_mergeRef (knownRef_of_referenceType hv ha) (knownRef_of_referenceType hw hb)
    exact ⟨.object t, by rw [ht]; rfl, hknown, .ref ha hat, .ref hb hbt⟩
  | nothing h =>
    refine ⟨.top, rfl, ?_, .top v, .top w⟩
    intro name hmem
    cases hmem

theorem mergeValue_of_le {v w : Value} (hv : o.KnownValue v) (hw : o.KnownValue w)
    (hle : o.ValueLe w v) : v.merge inheritance w = .ok v := by
  cases hle with
  | refl => exact Value.merge_self inheritance v
  | top =>
    cases w <;> simp [Value.merge, Value.orNull, Value.referenceType]
  | null r => simp [Value.merge, Value.orNull, Value.referenceType]
  | @ref _ s r hs hle =>
    have habsorb := mergeRef_of_le hv (knownRef_of_referenceType hw hs) hle
    by_cases hvw : Value.object r = w
    · simp [Value.merge, hvw]
    · cases w <;> simp only [Value.referenceType, Option.some.injEq, reduceCtorEq] at hs
      all_goals
        subst hs
        simp [Value.merge, Value.referenceType, hvw, habsorb, Except.map]

end TypeOrder

end MethodLocals
