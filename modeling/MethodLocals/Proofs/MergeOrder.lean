import MethodLocals.Proofs.CommonClass
import MethodLocals.Proofs.ValueOrder

/-! The order in which two values are merged. Where classes stand below classes, it matters only if a
class is missing: a merge looks for less if the value of the upper class comes second. -/

namespace MethodLocals

namespace Value

variable (inheritance : Option Inheritance) {v w : Value}

theorem merge_null (hne : w ≠ null) :
    null.merge inheritance w = .ok w.orNull ∧ w.merge inheritance null = .ok w.orNull := by
  cases w <;> simp_all [merge]

theorem merge_of_ne_null (hne : v ≠ w) (hv : v ≠ null) (hw : w ≠ null) :
    v.merge inheritance w = match v.referenceType, w.referenceType with
      | some a, some b => (RefType.merge inheritance a b).map object
      | _, _ => .ok top := by
  unfold merge
  rw [if_neg hne]
  split
  · exact absurd rfl hv
  · exact absurd rfl hw
  · rfl

/-- The order matters only for two values that are objects of known types. -/
theorem merge_comm_of_untyped (h : v.referenceType = none ∨ w.referenceType = none) :
    v.merge inheritance w = w.merge inheritance v := by
  by_cases hne : v = w
  · rw [hne]
  by_cases hv : v = null
  · subst hv
    obtain ⟨hleft, hright⟩ := merge_null inheritance (Ne.symm hne)
    rw [hleft, hright]
  by_cases hw : w = null
  · subst hw
    obtain ⟨hleft, hright⟩ := merge_null inheritance hne
    rw [hleft, hright]
  rw [merge_of_ne_null inheritance hne hv hw, merge_of_ne_null inheritance (Ne.symm hne) hw hv]
  rcases h with h | h
  · rw [h]
    cases w.referenceType <;> rfl
  · rw [h]
    cases v.referenceType <;> rfl

theorem merge_of_typed {a b : RefType} (hne : v ≠ w) (ha : v.referenceType = some a)
    (hb : w.referenceType = some b) :
    v.merge inheritance w = (RefType.merge inheritance a b).map object := by
  rw [merge_of_ne_null inheritance hne (by rintro rfl; cases ha) (by rintro rfl; cases hb), ha, hb]

end Value

namespace ClassGraph

variable {g : ClassGraph} {v w : Value}

/-- The class `b` of one value stands above the class `a` of the other one, and the graph lacks a
class that would have to be known to tell that it does not stand below it as well. The two merge into
`b` if that comes second, and into nothing if it comes first. -/
structure UpperIncomplete (g : ClassGraph) (v w : Value) (a b : BinaryName) (e : MissingClass) :
    Prop where
  left : v.referenceType = some (.object a)
  right : w.referenceType = some (.object b)
  ne : a ≠ b
  below : g.isAssignable a b = .ok true
  fails : g.isAssignable b a = .error e
  missing : ¬ g.Knows e.name
  place : b = .object ∧ e.name = a ∨ g.Reaches true b e.name
  merge_eq : v.merge (some g.inheritance) w = .ok (.object (.object b))
  merge_swap : w.merge (some g.inheritance) v = .error e

/-- A class that a known one is assignable to is looked for in vain only above it. -/
theorem place_of_isAssignable {a b : BinaryName} {e : MissingClass} (hne : a ≠ b)
    (hab : g.isAssignable a b = .ok true) (hba : g.isAssignable b a = .error e) :
    ¬ g.Knows e.name ∧ (b = .object ∧ e.name = a ∨ g.Reaches true b e.name) := by
  obtain ⟨hmissing, hplace⟩ := missing_of_isAssignable hba
  refine ⟨hmissing, ?_⟩
  rcases hplace with heq | hreach
  · refine .inl ⟨?_, heq⟩
    refine (reaches_of_isAssignable hab).resolve_right fun hreach => hmissing ?_
    obtain hba | ⟨x, ⟨c, hc, -⟩, -⟩ := Relation.ReflTransGen.cases_head hreach
    · exact absurd hba hne
    · exact ⟨c, heq ▸ hc⟩
  · exact .inr hreach.toTrue

namespace Ordered

theorem mergeRef_swap (h : g.Ordered) {r s t : RefType}
    (ht : RefType.merge (some g.inheritance) r s = .ok t) :
    RefType.merge (some g.inheritance) s r = .ok t ∨
      ∃ a b e, r = .object a ∧ s = .object b ∧ t = .object b ∧ a ≠ b ∧
        g.isAssignable a b = .ok true ∧ g.isAssignable b a = .error e := by
  by_cases hrs : r = s
  · rw [← hrs] at ht ⊢
    exact .inl ht
  cases r with
  | array extra element => exact .inl (by simpa [RefType.merge, hrs, Ne.symm hrs] using ht)
  | object a =>
    cases s with
    | array extra element => exact .inl (by simpa [RefType.merge, hrs, Ne.symm hrs] using ht)
    | object b =>
      have hab : a ≠ b := fun heq => hrs (congrArg RefType.object heq)
      rw [g.merge_object a b hab] at ht
      rw [g.merge_object b a hab.symm]
      cases hc : g.commonSuperclass a b with
      | error e =>
        rw [hc] at ht
        cases ht
      | ok c =>
        rw [hc] at ht
        obtain rfl := Except.ok.inj ht
        rcases h.commonSuperclass_swap hc with hswap | ⟨rfl, -, hbelow, e, hfails⟩
        · exact .inl (by rw [hswap]; rfl)
        · exact .inr ⟨a, c, e, rfl, rfl, rfl, hab, hbelow, hfails⟩

/-- What two values merge into in one order they merge into in the other one, unless a class is
missing above the upper one of their classes. -/
theorem merge_swap (h : g.Ordered) {m : Value} (hm : v.merge (some g.inheritance) w = .ok m) :
    w.merge (some g.inheritance) v = .ok m ∨ ∃ a b e, g.UpperIncomplete v w a b e := by
  by_cases hne : v = w
  · subst hne
    exact .inl hm
  cases hv : v.referenceType with
  | none => exact .inl (by rwa [← Value.merge_comm_of_untyped _ (.inl hv)])
  | some r =>
    cases hw : w.referenceType with
    | none => exact .inl (by rwa [← Value.merge_comm_of_untyped _ (.inr hw)])
    | some s =>
      have hleft := Value.merge_of_typed (some g.inheritance) hne hv hw
      have hright := Value.merge_of_typed (some g.inheritance) (Ne.symm hne) hw hv
      rw [hleft] at hm
      cases ht : RefType.merge (some g.inheritance) r s with
      | error e =>
        rw [ht] at hm
        cases hm
      | ok t =>
        rw [ht] at hm
        obtain rfl := Except.ok.inj hm
        rcases h.mergeRef_swap ht with hswap | ⟨a, b, e, rfl, rfl, rfl, hab, hbelow, hfails⟩
        · exact .inl (by rw [hright, hswap]; rfl)
        · obtain ⟨hmissing, hplace⟩ := place_of_isAssignable hab hbelow hfails
          refine .inr ⟨a, b, e, hv, hw, hab, hbelow, hfails, hmissing, hplace, ?_, ?_⟩
          · rw [hleft, ht]
            rfl
          · rw [hright, g.merge_object b a hab.symm, commonSuperclass, hfails]
            rfl

/-- The order in which two values are merged does not matter, unless a class is missing above the
class of one of them, which is above the class of the other one. -/
theorem merge_comm_or_incomplete (h : g.Ordered) (v w : Value) :
    (∀ m, v.merge (some g.inheritance) w = .ok m ↔ w.merge (some g.inheritance) v = .ok m) ∨
      (∃ a b e, g.UpperIncomplete v w a b e) ∨ ∃ a b e, g.UpperIncomplete w v a b e := by
  by_cases hvw : ∃ a b e, g.UpperIncomplete v w a b e
  · exact .inr (.inl hvw)
  by_cases hwv : ∃ a b e, g.UpperIncomplete w v a b e
  · exact .inr (.inr hwv)
  refine .inl fun m => ⟨fun hm => ?_, fun hm => ?_⟩
  · exact (h.merge_swap hm).resolve_right hvw
  · exact (h.merge_swap hm).resolve_right hwv

end Ordered

/-- The class above two others is missing. -/
def openGraph : ClassGraph :=
  ⟨[⟨.exception, some .throwable, [], .ofList []⟩,
    ⟨.runtimeException, some .exception, [], .ofList []⟩]⟩

/-- The class of all objects stands below another one. -/
def raisedGraph : ClassGraph :=
  ⟨[⟨.throwable, none, [], .ofList []⟩, ⟨.object, some .throwable, [], .ofList []⟩]⟩

/-- A class has an interface as its superclass, which another class implements. -/
def mixedGraph : ClassGraph :=
  ⟨[⟨.object, none, [], .ofList []⟩, .interface .cloneable [],
    ⟨.number, some .cloneable, [], .ofList []⟩,
    ⟨.string, some .object, [.cloneable], .ofList []⟩]⟩

theorem openGraph_ordered : openGraph.Ordered := by
  refine .of_classes (.of_rank [BinaryName.object, .throwable, .exception].idxOf ?_ ?_) ?_
  · decide
  · decide
  · decide

/-- A class above the upper one is missing, and it is looked for only if the upper one comes first. -/
theorem runtimeException_incomplete : openGraph.Ordered ∧
    openGraph.UpperIncomplete (.object (.object .runtimeException)) (.object (.object .exception))
      .runtimeException .exception ⟨.throwable⟩ := by
  have hmerge : Value.merge (some openGraph.inheritance) (.object (.object .runtimeException))
      (.object (.object .exception)) = .ok (.object (.object .exception)) := by decide +kernel
  have hfails : Value.merge (some openGraph.inheritance) (.object (.object .exception))
      (.object (.object .runtimeException)) = .error ⟨.throwable⟩ := by decide +kernel
  refine ⟨openGraph_ordered, ?_⟩
  rcases openGraph_ordered.merge_comm_or_incomplete (.object (.object .runtimeException))
    (.object (.object .exception)) with hcomm | ⟨a, b, e, h⟩ | ⟨a, b, e, h⟩
  · rw [(hcomm _).1 hmerge] at hfails
    cases hfails
  · obtain rfl : BinaryName.runtimeException = a := RefType.object.inj (Option.some.inj h.left)
    obtain rfl : BinaryName.exception = b := RefType.object.inj (Option.some.inj h.right)
    obtain rfl := Except.error.inj (hfails.symm.trans h.merge_swap)
    exact h
  · rw [h.merge_eq] at hfails
    cases hfails

/-- The order of a merge matters where a class is missing, and on a complete graph if the class of all
objects has a super type or a class has an interface as its superclass. -/
theorem merge_depends_on_order :
    (openGraph.Ordered ∧
      Value.merge (some openGraph.inheritance) (.object (.object .runtimeException))
        (.object (.object .exception)) = .ok (.object (.object .exception)) ∧
      Value.merge (some openGraph.inheritance) (.object (.object .exception))
        (.object (.object .runtimeException)) = .error ⟨.throwable⟩) ∧
    ((∀ name, ¬ Relation.TransGen (raisedGraph.Edge true) name name) ∧
      Value.merge (some raisedGraph.inheritance) (.object (.object .throwable))
        (.object .objectClass) = .ok (.object .objectClass) ∧
      Value.merge (some raisedGraph.inheritance) (.object .objectClass)
        (.object (.object .throwable)) = .ok (.object (.object .throwable))) ∧
    (mixedGraph.Hierarchy ∧
      Value.merge (some mixedGraph.inheritance) (.object (.object .number))
        (.object (.object .string)) = .ok (.object (.object .cloneable)) ∧
      Value.merge (some mixedGraph.inheritance) (.object (.object .string))
        (.object (.object .number)) = .ok (.object .objectClass)) := by
  refine ⟨⟨openGraph_ordered, ?_, ?_⟩, ⟨?_, ?_, ?_⟩, .of_rank ?_ ?_ ?_, ?_, ?_⟩
  · decide +kernel
  · decide +kernel
  · exact acyclic_of_rank [BinaryName.throwable, .object].idxOf (by decide)
  · decide +kernel
  · decide +kernel
  · exact [BinaryName.object, .cloneable].idxOf
  · decide
  · decide
  · decide +kernel
  · decide +kernel

end ClassGraph

end MethodLocals
