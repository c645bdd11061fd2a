import MethodLocals.Proofs.Interfaces

/-! The order of a class hierarchy. The common class of two types lies above both, and on a complete
graph there always is one. -/

namespace MethodLocals

/-- The types above a class are other types, and none is above the class of all objects. Classes may
be missing. -/
structure ClassGraph.Hierarchy (g : ClassGraph) : Prop where
  acyclic : ∀ name, ¬ Relation.TransGen (g.Edge true) name name
  object_top : ∀ c, g.find? .object = some c → c.superTypes = []

/-- A hierarchy without missing classes: every class but the one of all objects has a class above
it, which is that one for an interface, and what a class implements are interfaces. -/
structure ClassGraph.WellFormed (g : ClassGraph) : Prop extends g.Hierarchy where
  object : ∃ c, g.find? .object = some c ∧ c.isInterface = false
  superclass : ∀ name c, g.find? name = some c → name ≠ .object →
    ∃ above d, c.superclass = some above ∧ g.find? above = some d ∧ d.isInterface = false ∧
      (c.isInterface = true → above = .object)
  interfaces : ∀ name c, g.find? name = some c → ∀ i ∈ c.interfaces,
    ∃ d, g.find? i = some d ∧ d.isInterface = true

namespace ClassGraph

variable {g : ClassGraph} {a b c : BinaryName}

/-- `b` stands above `a` or is the same type; the class of all objects stands above everything. -/
def Le (g : ClassGraph) (a b : BinaryName) : Prop := b = .object ∨ g.Reaches true a b

theorem Le.refl (g : ClassGraph) (a : BinaryName) : g.Le a a := .inr .refl

theorem le_object (g : ClassGraph) (a : BinaryName) : g.Le a .object := .inl rfl

theorem exists_eitherInterface (ha : g.Knows a) (hb : g.Knows b) :
    ∃ answer, g.eitherInterface a b = .ok answer := by
  obtain ⟨c, hc⟩ := ha
  obtain ⟨d, hd⟩ := hb
  simp only [eitherInterface, get, hc, hd]
  split
  · exact ⟨true, rfl⟩
  · exact ⟨d.isInterface, rfl⟩

namespace Hierarchy

theorem not_edge_object (h : g.Hierarchy) : ¬ g.Edge true .object b := by
  rintro ⟨c, hc, hb⟩
  rw [ClassInfo.edges, if_pos rfl, h.object_top c hc] at hb
  cases hb

theorem eq_object_of_reaches (h : g.Hierarchy) (hreach : g.Reaches true .object b) :
    b = .object := by
  rcases Relation.ReflTransGen.cases_head hreach with heq | ⟨c, hc, -⟩
  · exact heq.symm
  · exact absurd hc h.not_edge_object

theorem le_trans (h : g.Hierarchy) (hab : g.Le a b) (hbc : g.Le b c) : g.Le a c := by
  rcases hbc with rfl | hbc
  · exact .inl rfl
  · rcases hab with rfl | hab
    · exact .inl (h.eq_object_of_reaches hbc)
    · exact .inr (hab.trans hbc)

theorem le_antisymm (h : g.Hierarchy) (hab : g.Le a b) (hba : g.Le b a) : a = b := by
  have hto : ∀ {x y}, g.Reaches true x y → g.Le y x → x = y := by
    intro x y hxy hyx
    rcases Relation.reflTransGen_iff_eq_or_transGen.1 hxy with heq | hxy
    · exact heq.symm
    · rcases hyx with rfl | hyx
      · exact (h.eq_object_of_reaches hxy.to_reflTransGen).symm
      · exact absurd (hxy.trans_left hyx) (h.acyclic x)
  rcases hab with rfl | hab
  · rcases hba with rfl | hba
    · rfl
    · exact h.eq_object_of_reaches hba
  · exact hto hab hba

end Hierarchy

namespace WellFormed

theorem knows_object (h : g.WellFormed) : g.Knows .object :=
  h.object.imp fun _ hc => hc.1

theorem knows_superclass (h : g.WellFormed) {d : ClassInfo} (ha : g.find? a = some d)
    (hb : d.superclass = some b) : g.Knows b ∧ (d.isInterface = true → b = .object) := by
  have hne : a ≠ .object := by
    rintro rfl
    exact h.not_edge_object (edge_true_iff.2 ⟨d, ha, .inl hb⟩)
  obtain ⟨above, e, habove, he, -, hobject⟩ := h.superclass a d ha hne
  obtain rfl : above = b := Option.some.inj (habove.symm.trans hb)
  exact ⟨⟨e, he⟩, hobject⟩

/-- Cycles aside, a well-formed graph is layered. -/
theorem layered (h : g.WellFormed) : g.Layered where
  known a b hedge := by
    obtain ⟨c, hc, hb | hb⟩ := edge_true_iff.1 hedge
    · exact (h.knows_superclass hc hb).1
    · obtain ⟨d, hd, -⟩ := h.interfaces a c hc b hb
      exact ⟨d, hd⟩
  object_top := h.object_top
  interface_superclass _ _ _ hc hi habove := (h.knows_superclass hc habove).2 hi
  interfaces := h.interfaces

theorem exists_isAssignable (h : g.WellFormed) (ha : g.Knows a) (hb : g.Knows b) :
    ∃ answer, g.isAssignable a b = .ok answer :=
  h.layered.exists_isAssignable ha hb

theorem isAssignable_iff (h : g.WellFormed) (ha : g.Knows a) (hb : g.Knows b) :
    g.isAssignable a b = .ok true ↔ g.Le a b :=
  h.layered.isAssignable_iff ha hb

theorem climb_spec (h : g.WellFormed) (ha : g.Knows a) (hb : g.Knows b) (steps : Nat) :
    ∃ c, g.climb b steps a = .ok c ∧ g.Knows c ∧ g.Le a c ∧ g.Le b c := by
  have hobject : ∀ x, g.Knows .object ∧ g.Le x .object ∧ g.Le b .object :=
    fun x => ⟨h.knows_object, g.le_object x, g.le_object b⟩
  induction steps generalizing a with
  | zero => exact ⟨.object, rfl, hobject a⟩
  | succ steps ih =>
    obtain ⟨c, hc⟩ := ha
    rw [climb, hc]
    cases hs : c.superclass with
    | none => exact ⟨.object, by simp [hs], hobject a⟩
    | some above =>
      have hknown := (h.knows_superclass hc hs).1
      have hle : g.Le a above := .inr (.single (edge_true_iff.2 ⟨c, hc, .inl hs⟩))
      obtain ⟨answer, hr⟩ := h.exists_isAssignable hb hknown
      cases answer with
      | true =>
        exact ⟨above, by simp [hs, hr], hknown, hle, (h.isAssignable_iff hb hknown).1 hr⟩
      | false =>
        obtain ⟨top, htop, hkt, hat, hbt⟩ := ih hknown
        exact ⟨top, by simp [hs, hr, htop], hkt, h.le_trans hle hat, hbt⟩

theorem commonSuperclass_spec (h : g.WellFormed) (ha : g.Knows a) (hb : g.Knows b) :
    ∃ c, g.commonSuperclass a b = .ok c ∧ g.Knows c ∧ g.Le a c ∧ g.Le b c := by
  obtain ⟨ab, hab⟩ := h.exists_isAssignable ha hb
  obtain ⟨ba, hba⟩ := h.exists_isAssignable hb ha
  obtain ⟨either, heither⟩ := exists_eitherInterface ha hb
  rw [commonSuperclass, hab]
  cases ab with
  | true => exact ⟨b, rfl, hb, (h.isAssignable_iff ha hb).1 hab, .refl g b⟩
  | false =>
    simp only [hba]
    cases ba with
    | true => exact ⟨a, rfl, ha, .refl g a, (h.isAssignable_iff hb ha).1 hba⟩
    | false =>
      simp only [heither]
      cases either with
      | true => exact ⟨.object, rfl, h.knows_object, g.le_object a, g.le_object b⟩
      | false => exact h.climb_spec ha hb _

theorem commonSuperclass_of_le (h : g.WellFormed) (ha : g.Knows a) (hb : g.Knows b)
    (hle : g.Le b a) : g.commonSuperclass a b = .ok a := by
  have hba := (h.isAssignable_iff hb ha).2 hle
  obtain ⟨answer, hab⟩ := h.exists_isAssignable ha hb
  rw [commonSuperclass, hab]
  cases answer with
  | true => rw [h.le_antisymm ((h.isAssignable_iff ha hb).1 hab) hle]
  | false => simp only [hba]

end WellFormed

/-- There is no cycle if types can be numbered so that what stands above a class has a smaller
number. -/
theorem acyclic_of_rank (rank : BinaryName → Nat)
    (hrank : ∀ c ∈ g.classes, ∀ above ∈ c.superTypes, rank above < rank c.name)
    (name : BinaryName) : ¬ Relation.TransGen (g.Edge true) name name := by
  have hlt : ∀ {a b}, Relation.TransGen (g.Edge true) a b → rank b < rank a := by
    intro a b hab
    induction hab using Relation.TransGen.trans_induction_on with
    | single hedge =>
      obtain ⟨c, hc, habove⟩ := hedge
      obtain ⟨hmem, rfl⟩ := mem_classes_of_find? hc
      exact hrank c hmem _ habove
    | trans _ _ hab hbc => exact Nat.lt_trans hbc hab
  exact fun hcycle => Nat.lt_irrefl _ (hlt hcycle)

theorem Hierarchy.of_rank (rank : BinaryName → Nat) (hobject : rank .object = 0)
    (hrank : ∀ c ∈ g.classes, ∀ above ∈ c.superTypes, rank above < rank c.name) : g.Hierarchy where
  acyclic := acyclic_of_rank rank hrank
  object_top c hc := by
    obtain ⟨hmem, hname⟩ := mem_classes_of_find? hc
    refine List.eq_nil_iff_forall_not_mem.2 fun above habove => ?_
    have hlt := hrank c hmem above habove
    rw [hname, hobject] at hlt
    exact Nat.not_lt_zero _ hlt

def fits (g : ClassGraph) (c : ClassInfo) : Bool :=
  (c.name = .object || (c.superclass.bind g.find?).any fun above =>
    !above.isInterface && (!c.isInterface || above.name = .object)) &&
  c.interfaces.all fun i => (g.find? i).any ClassInfo.isInterface

theorem WellFormed.of_fits (h : g.Hierarchy)
    (hobject : (g.find? .object).any (!·.isInterface) = true)
    (hfits : ∀ c ∈ g.classes, g.fits c = true) : g.WellFormed where
  toHierarchy := h
  object := by
    obtain ⟨c, hc, hclass⟩ := (Option.any_eq_true _ _).1 hobject
    exact ⟨c, hc, by simpa using hclass⟩
  superclass name c hc hne := by
    obtain ⟨hmem, rfl⟩ := mem_classes_of_find? hc
    have hsuper := (Bool.and_eq_true_iff.1 (hfits c hmem)).1
    rw [decide_eq_false hne, Bool.false_or] at hsuper
    obtain ⟨d, hd, hplace⟩ := (Option.any_eq_true _ _).1 hsuper
    obtain ⟨above, habove, hfound⟩ := Option.bind_eq_some_iff.1 hd
    obtain ⟨-, hname⟩ := mem_classes_of_find? hfound
    simp only [Bool.and_eq_true, Bool.not_eq_true', Bool.or_eq_true, decide_eq_true_eq,
      hname] at hplace
    refine ⟨above, d, habove, hfound, hplace.1, fun hi => hplace.2.resolve_left ?_⟩
    simp [hi]
  interfaces name c hc i hi := by
    obtain ⟨hmem, rfl⟩ := mem_classes_of_find? hc
    have hinterfaces := (Bool.and_eq_true_iff.1 (hfits c hmem)).2
    exact (Option.any_eq_true _ _).1 (List.all_eq_true.1 hinterfaces i hi)

theorem knows_of_isAssignable {answer : Bool} (h : g.isAssignable a b = .ok answer) :
    a = b ∨ b = .object ∨ g.Knows b := by
  unfold isAssignable at h
  split at h
  · rename_i hor
    exact hor.imp id .inl
  · split at h
    · cases h
    · rename_i c hc
      exact .inr (.inr ⟨c, hc⟩)

theorem above_of_climb {steps : Nat} (hb : g.Knows b) (h : g.climb b steps a = .ok c) :
    c = .object ∨ g.Knows c ∧ Relation.TransGen (g.Edge true) a c := by
  induction steps generalizing a with
  | zero => exact .inl (Except.ok.inj h).symm
  | succ steps ih =>
    unfold climb at h
    split at h
    · cases h
    · rename_i d hd
      split at h
      · exact .inl (Except.ok.inj h).symm
      · rename_i above habove
        have hedge : g.Edge true a above := edge_true_iff.2 ⟨d, hd, .inl habove⟩
        split at h
        · cases h
        · rename_i hassignable
          obtain rfl := Except.ok.inj h
          rcases knows_of_isAssignable hassignable with rfl | hobject | hknown
          · exact .inr ⟨hb, .single hedge⟩
          · exact .inl hobject
          · exact .inr ⟨hknown, .single hedge⟩
        · exact (ih h).imp id (And.imp id (Relation.TransGen.head hedge))

theorem above_of_commonSuperclass (h : g.commonSuperclass a b = .ok c) :
    c = a ∨ c = .object ∨ g.Knows c ∧ Relation.TransGen (g.Edge true) a c := by
  unfold commonSuperclass at h
  split at h
  · cases h
  · rename_i hab
    obtain rfl := Except.ok.inj h
    rcases knows_of_isAssignable hab with rfl | hobject | hknown
    · exact .inl rfl
    · exact .inr (.inl hobject)
    · apply (reaches_of_isAssignable hab).elim (fun hobject => .inr (.inl hobject))
      intro hreach
      exact (Relation.reflTransGen_iff_eq_or_transGen.1 hreach.toTrue).imp id
        fun htrans => .inr ⟨hknown, htrans⟩
  · rename_i hab
    have hne : a ≠ b := fun heq => by
      rw [heq, isAssignable, if_pos (.inl rfl)] at hab
      cases hab
    split at h
    · cases h
    · exact .inl (Except.ok.inj h).symm
    · split at h
      · cases h
      · exact .inr (.inl (Except.ok.inj h).symm)
      · rcases knows_of_isAssignable hab with heq | rfl | hknown
        · exact absurd heq hne
        · rw [isAssignable_object] at hab
          cases hab
        · exact .inr (above_of_climb hknown h)

end ClassGraph

end MethodLocals
