import Mathlib.Control.Monad.Basic
import MethodLocals.ClassGraph.Library
import MethodLocals.Proofs.Ranks

/-! The common class of two types. On a complete graph it is the least class above both, and for two
classes it is where their chains of superclasses meet. On any graph where classes stand below
classes, the order of the two types matters only to what is looked up. -/

namespace MethodLocals

/-- A hierarchy in which no known class has an interface as its superclass. Classes may be
missing. -/
structure ClassGraph.Ordered (g : ClassGraph) : Prop extends g.Hierarchy where
  superclass_isClass : ∀ name c above d, g.find? name = some c → c.superclass = some above →
    g.find? above = some d → d.isInterface = false

namespace ClassGraph

variable {g : ClassGraph} {a b c : BinaryName}

/-- `c` is the first type on the chain of superclasses of `a` that is also on the one of `b`. -/
structure FirstShared (g : ClassGraph) (a b c : BinaryName) : Prop where
  left : g.Reaches false a c
  right : g.Reaches false b c
  before : ∀ x, g.Reaches false a x → Relation.TransGen (g.Edge false) x c → ¬ g.Reaches false b x

structure LeastCommon (g : ClassGraph) (a b c : BinaryName) : Prop where
  left : g.isAssignable a c = .ok true
  right : g.isAssignable b c = .ok true
  least : ∀ d info, g.find? d = some info → info.isInterface = false →
    g.isAssignable a d = .ok true → g.isAssignable b d = .ok true → g.isAssignable c d = .ok true

/-- Every type on the chain of superclasses is known. -/
def Chained (g : ClassGraph) (a : BinaryName) : Prop := ∀ x, g.Reaches false a x → g.Knows x

/-- Above a type on a chain of superclasses stands what is on the chain of its superclass. -/
theorem transGen_superclass_iff {d : ClassInfo} {above x : BinaryName} (ha : g.find? a = some d)
    (habove : d.superclass = some above) :
    Relation.TransGen (g.Edge false) a x ↔ g.Reaches false above x := by
  rw [Relation.TransGen.head'_iff]
  constructor
  · rintro ⟨y, hy, hreach⟩
    obtain ⟨e, he, hey⟩ := edge_false_iff.1 hy
    obtain rfl := Option.some.inj (ha.symm.trans he)
    obtain rfl := Option.some.inj (habove.symm.trans hey)
    exact hreach
  · exact fun hreach => ⟨above, edge_false_iff.2 ⟨d, ha, habove⟩, hreach⟩

theorem not_transGen_of_superclass_eq_none {d : ClassInfo} {x : BinaryName}
    (ha : g.find? a = some d) (hnone : d.superclass = none) :
    ¬ Relation.TransGen (g.Edge false) a x := by
  intro hreach
  obtain ⟨y, hy, -⟩ := Relation.TransGen.head'_iff.1 hreach
  obtain ⟨e, he, hey⟩ := edge_false_iff.1 hy
  obtain rfl := Option.some.inj (ha.symm.trans he)
  rw [hnone] at hey
  cases hey

theorem edge_false_rightUnique : Relator.RightUnique (g.Edge false) := by
  intro x y z hy hz
  obtain ⟨c, hc, hcy⟩ := edge_false_iff.1 hy
  obtain ⟨d, hd, hdz⟩ := edge_false_iff.1 hz
  obtain rfl := Option.some.inj (hc.symm.trans hd)
  exact Option.some.inj (hcy.symm.trans hdz)

/-- What two chains of superclasses share comes after the first type that they share. -/
theorem FirstShared.reaches (h : g.FirstShared a b c) {x : BinaryName} (hax : g.Reaches false a x)
    (hbx : g.Reaches false b x) : g.Reaches false c x := by
  rcases Relation.ReflTransGen.total_of_right_unique edge_false_rightUnique h.left hax with hcx | hxc
  · exact hcx
  · rcases Relation.reflTransGen_iff_eq_or_transGen.1 hxc with rfl | hxc
    · exact .refl
    · exact absurd hbx (h.before x hax hxc)

theorem Chained.of_reaches (h : g.Chained a) (hab : g.Reaches false a b) : g.Chained b :=
  fun x hx => h x (hab.trans hx)

/-- Whether a type is assignable to a class shows on its chain of superclasses. -/
theorem Chained.isAssignable (h : g.Chained b) {d : ClassInfo} (ha : g.find? a = some d)
    (hclass : d.isInterface = false) : ∃ answer, g.isAssignable b a = .ok answer ∧
      (answer = true ↔ a = .object ∨ g.Reaches false b a) := by
  have hlead : g.leadsToInterface a = false := by rw [leadsToInterface, ha]; exact hclass
  cases hr : g.isAssignable b a with
  | error e =>
    obtain ⟨hmissing, heq | hreach⟩ := missing_of_isAssignable hr
    · exact absurd ⟨d, heq ▸ ha⟩ hmissing
    · exact absurd (h e.name (hlead ▸ hreach)) hmissing
  | ok answer =>
    refine ⟨answer, rfl, ?_⟩
    cases answer with
    | true => exact iff_of_true rfl (hlead ▸ reaches_of_isAssignable hr)
    | false =>
      obtain ⟨hne, hnot⟩ := not_reaches_of_isAssignable hr
      rw [hlead] at hnot
      exact iff_of_false Bool.false_ne_true (not_or.2 ⟨hne, hnot⟩)

namespace Hierarchy

theorem not_transGen_false (h : g.Hierarchy) : ¬ Relation.TransGen (g.Edge false) a a :=
  fun hcycle => h.acyclic a (Relation.TransGen.mono (fun _ _ => Edge.toTrue) a a hcycle)

theorem reaches_antisymm (h : g.Hierarchy) (hab : g.Reaches false a b) (hba : g.Reaches false b a) :
    a = b :=
  h.le_antisymm (.inr hab.toTrue) (.inr hba.toTrue)

end Hierarchy

namespace Ordered

theorem of_classes (h : g.Hierarchy)
    (hclasses : ∀ c ∈ g.classes, (c.superclass.bind g.find?).all (!·.isInterface) = true) :
    g.Ordered where
  toHierarchy := h
  superclass_isClass name c above d hc habove hd := by
    have hclass := hclasses c (mem_classes_of_find? hc).1
    rw [habove, Option.bind_some, hd] at hclass
    simpa using hclass

/-- Climbing from one type finds the first class above it that is on the chain of the other one. If
there is none, only the class of all objects is left. -/
theorem climb_spec (h : g.Ordered) (ha : g.Chained a) (hb : g.Chained b) {steps : Nat}
    (hsteps : g.classesAbove a < steps) :
    ∃ c, g.climb b steps a = .ok c ∧
      (c = .object ∨ Relation.TransGen (g.Edge false) a c ∧ g.Reaches false b c) ∧
      ∀ x, Relation.TransGen (g.Edge false) a x → g.Reaches false b x → g.Reaches false c x := by
  induction steps generalizing a with
  | zero => cases hsteps
  | succ steps ih =>
    obtain ⟨d, hd⟩ := ha a .refl
    rw [climb, hd]
    cases habove : d.superclass with
    | none =>
      refine ⟨.object, by simp only [habove], .inl rfl, fun x hx => ?_⟩
      exact absurd hx (not_transGen_of_superclass_eq_none hd habove)
    | some above =>
      have hiff : ∀ x, Relation.TransGen (g.Edge false) a x ↔ g.Reaches false above x :=
        fun x => transGen_superclass_iff hd habove
      have hchain : g.Chained above := ha.of_reaches ((hiff above).2 .refl).to_reflTransGen
      obtain ⟨e, he⟩ := hchain above .refl
      obtain ⟨answer, hr, hanswer⟩ := hb.isAssignable he (h.superclass_isClass a d above e hd habove he)
      simp only [habove, hr]
      cases answer with
      | true =>
        refine ⟨above, rfl, ?_, fun x hx _ => (hiff x).1 hx⟩
        exact (hanswer.1 rfl).imp id fun hreach => ⟨(hiff above).2 .refl, hreach⟩
      | false =>
        have hnot : ¬ g.Reaches false b above :=
          fun hreach => Bool.false_ne_true (hanswer.2 (.inr hreach))
        have hlt : g.classesAbove above < g.classesAbove a :=
          h.classesAbove_lt ⟨e, he⟩ (.single (edge_true_iff.2 ⟨d, hd, .inl habove⟩))
        obtain ⟨c, hc, hplace, hleast⟩ := ih hchain (by omega)
        refine ⟨c, hc, hplace.imp id fun hshared => ⟨?_, hshared.2⟩, fun x hx hbx => ?_⟩
        · exact (hiff c).2 hshared.1.to_reflTransGen
        · refine hleast x ?_ hbx
          refine (Relation.reflTransGen_iff_eq_or_transGen.1 ((hiff x).1 hx)).resolve_left ?_
          rintro rfl
          exact hnot hbx

/-- What climbing finds on both chains does not depend on where it starts. -/
theorem climb_comm (h : g.Ordered) (ha : g.Chained a) (hb : g.Chained b)
    (hab : ¬ g.Reaches false a b) (hba : ¬ g.Reaches false b a) {steps : Nat}
    (hsteps : ∀ x, g.classesAbove x < steps) : g.climb b steps a = g.climb a steps b := by
  obtain ⟨c, hc, hplace, hleast⟩ := h.climb_spec ha hb (hsteps a)
  obtain ⟨d, hd, hplace', hleast'⟩ := h.climb_spec hb ha (hsteps b)
  rw [hc, hd]
  -- A class on both chains lies strictly above either type, as neither is on the other's chain.
  have hdc : c ≠ .object → g.Reaches false d c := by
    intro hne
    obtain ⟨hac, hbc⟩ := hplace.resolve_left hne
    refine hleast' c ?_ hac.to_reflTransGen
    refine (Relation.reflTransGen_iff_eq_or_transGen.1 hbc).resolve_left ?_
    rintro rfl
    exact hab hac.to_reflTransGen
  have hcd : d ≠ .object → g.Reaches false c d := by
    intro hne
    obtain ⟨hbd, had⟩ := hplace'.resolve_left hne
    refine hleast d ?_ hbd.to_reflTransGen
    refine (Relation.reflTransGen_iff_eq_or_transGen.1 had).resolve_left ?_
    rintro rfl
    exact hba hbd.to_reflTransGen
  congr 1
  by_cases hobject : c = .object
  · by_cases hobject' : d = .object
    · rw [hobject, hobject']
    · exact hobject.trans (h.eq_object_of_reaches (hobject ▸ hcd hobject').toTrue).symm
  · by_cases hobject' : d = .object
    · exact (h.eq_object_of_reaches (hobject' ▸ hdc hobject).toTrue).trans hobject'.symm
    · exact h.reaches_antisymm (hcd hobject') (hdc hobject)

theorem commonSuperclass_comm (h : g.Ordered) (hab : g.isAssignable a b = .ok false)
    (hba : g.isAssignable b a = .ok false) : g.commonSuperclass a b = g.commonSuperclass b a := by
  obtain ⟨d, ha⟩ := knows_of_reaches_of_isAssignable hab .refl
  obtain ⟨e, hb⟩ := knows_of_reaches_of_isAssignable hba .refl
  have hleada : g.leadsToInterface a = d.isInterface := by rw [leadsToInterface, ha, Option.elim_some]
  have hleadb : g.leadsToInterface b = e.isInterface := by rw [leadsToInterface, hb, Option.elim_some]
  rw [commonSuperclass, commonSuperclass, hab, hba]
  simp only [eitherInterface, get, ha, hb, Except.map]
  cases hd : d.isInterface with
  | true => cases e.isInterface <;> simp
  | false =>
    cases he : e.isInterface with
    | true => simp
    | false =>
      rw [hd] at hleada
      rw [he] at hleadb
      simp only [Bool.false_eq_true, if_false]
      refine h.climb_comm (fun x hx => ?_) (fun x hx => ?_) ?_ ?_
        fun x => Nat.lt_succ_of_le List.countP_le_length
      · exact knows_of_reaches_of_isAssignable hab (by rwa [hleadb])
      · exact knows_of_reaches_of_isAssignable hba (by rwa [hleada])
      · exact hleadb ▸ (not_reaches_of_isAssignable hab).2
      · exact hleada ▸ (not_reaches_of_isAssignable hba).2

/-- What one order answers is the answer of the other one, unless the second type stands above the
first and a class is missing on the way from there. -/
theorem commonSuperclass_swap (h : g.Ordered) (hc : g.commonSuperclass a b = .ok c) :
    g.commonSuperclass b a = .ok c ∨
      c = b ∧ a ≠ b ∧ g.isAssignable a b = .ok true ∧ ∃ e, g.isAssignable b a = .error e := by
  cases hab : g.isAssignable a b with
  | error e =>
    rw [commonSuperclass, hab] at hc
    cases hc
  | ok ab =>
    cases hba : g.isAssignable b a with
    | error e =>
      cases ab with
      | false =>
        rw [commonSuperclass, hab] at hc
        simp only [hba] at hc
        cases hc
      | true =>
        rw [commonSuperclass, hab] at hc
        refine .inr ⟨(Except.ok.inj hc).symm, ?_, rfl, e, rfl⟩
        rintro rfl
        rw [isAssignable_self] at hba
        cases hba
    | ok ba =>
      refine .inl ?_
      cases ab with
      | false =>
        cases ba with
        | false => rw [← h.commonSuperclass_comm hab hba, hc]
        | true =>
          rw [commonSuperclass, hab] at hc
          simp only [hba] at hc
          rw [commonSuperclass, hba]
          exact hc
      | true =>
        rw [commonSuperclass, hab] at hc
        rw [commonSuperclass, hba]
        cases ba with
        | false => simpa only [hab] using hc
        | true =>
          have hle : g.Le a b := (reaches_of_isAssignable hab).imp id Reaches.toTrue
          have hle' : g.Le b a := (reaches_of_isAssignable hba).imp id Reaches.toTrue
          rw [← hc, h.le_antisymm hle hle']

end Ordered

namespace WellFormed

theorem ordered (h : g.WellFormed) : g.Ordered where
  toHierarchy := h.toHierarchy
  superclass_isClass name c above d hc habove hd := by
    have hne : name ≠ .object := by
      rintro rfl
      exact h.not_edge_object (edge_true_iff.2 ⟨c, hc, .inl habove⟩)
    obtain ⟨above', d', habove', hd', hclass, -⟩ := h.superclass name c hc hne
    obtain rfl := Option.some.inj (habove.symm.trans habove')
    obtain rfl := Option.some.inj (hd.symm.trans hd')
    exact hclass

theorem chained (h : g.WellFormed) (ha : g.Knows a) : g.Chained a :=
  fun _ hx => h.layered.knows_of_reaches ha hx.toTrue

theorem reaches_object (h : g.WellFormed) (ha : g.Knows a) : g.Reaches false a .object := by
  induction hn : g.classesAbove a using Nat.strongRecOn generalizing a with
  | ind n ih =>
    by_cases hobject : a = .object
    · rw [hobject]
      exact .refl
    · obtain ⟨c, hc⟩ := ha
      obtain ⟨above, d, habove, hd, -⟩ := h.superclass a c hc hobject
      have hlt := h.classesAbove_lt ⟨d, hd⟩ (.single (edge_true_iff.2 ⟨c, hc, .inl habove⟩))
      refine (ih _ (hn ▸ hlt) ⟨d, hd⟩ rfl).head ?_
      exact edge_false_iff.2 ⟨c, hc, habove⟩

theorem le_iff_reaches_false (h : g.WellFormed) {d : ClassInfo} (ha : g.Knows a)
    (hb : g.find? b = some d) (hd : d.isInterface = false) : g.Le a b ↔ g.Reaches false a b := by
  refine ⟨fun hle => ?_, fun hreach => .inr hreach.toTrue⟩
  by_cases hobject : b = .object
  · rw [hobject]
    exact h.reaches_object ha
  · exact h.layered.reaches_superclass hb hd hobject (hle.resolve_left hobject)

/-- Where the common class of two known types comes from. -/
theorem commonSuperclass_cases (h : g.WellFormed) {d e : ClassInfo} (ha : g.find? a = some d)
    (hb : g.find? b = some e) (hc : g.commonSuperclass a b = .ok c) :
    (c = b ∧ g.Le a b) ∨ (c = a ∧ g.Le b a) ∨
      (c = .object ∧ (d.isInterface = true ∨ e.isInterface = true)) ∨
      (¬ g.Le b a ∧ d.isInterface = false ∧ e.isInterface = false ∧
        g.climb b (g.classes.length + 1) a = .ok c) := by
  obtain ⟨ab, hab⟩ := h.exists_isAssignable ⟨d, ha⟩ ⟨e, hb⟩
  obtain ⟨ba, hba⟩ := h.exists_isAssignable ⟨e, hb⟩ ⟨d, ha⟩
  rw [commonSuperclass, hab] at hc
  cases ab with
  | true => exact .inl ⟨(Except.ok.inj hc).symm, (h.isAssignable_iff ⟨d, ha⟩ ⟨e, hb⟩).1 hab⟩
  | false =>
    simp only [hba] at hc
    cases ba with
    | true =>
      exact .inr (.inl ⟨(Except.ok.inj hc).symm, (h.isAssignable_iff ⟨e, hb⟩ ⟨d, ha⟩).1 hba⟩)
    | false =>
      have hnot : ¬ g.Le b a := by
        rw [← h.isAssignable_iff ⟨e, hb⟩ ⟨d, ha⟩, hba]
        simp
      simp only [eitherInterface, get, ha, hb, Except.map] at hc
      refine .inr (.inr ?_)
      cases hd : d.isInterface with
      | true =>
        rw [hd, if_pos rfl] at hc
        exact .inl ⟨(Except.ok.inj hc).symm, .inl rfl⟩
      | false =>
        rw [hd, if_neg Bool.false_ne_true] at hc
        cases he : e.isInterface with
        | true =>
          rw [he] at hc
          exact .inl ⟨(Except.ok.inj hc).symm, .inr rfl⟩
        | false =>
          rw [he] at hc
          exact .inr ⟨hnot, rfl, rfl, hc⟩

theorem firstShared_of_commonSuperclass (h : g.WellFormed) {d e : ClassInfo}
    (ha : g.find? a = some d) (hb : g.find? b = some e) (hd : d.isInterface = false)
    (he : e.isInterface = false) (hc : g.commonSuperclass a b = .ok c) : g.FirstShared a b c := by
  rcases h.commonSuperclass_cases ha hb hc with
    ⟨rfl, hle⟩ | ⟨rfl, hle⟩ | ⟨-, hi⟩ | ⟨hnot, -, -, hclimb⟩
  · refine ⟨(h.le_iff_reaches_false ⟨d, ha⟩ hb he).1 hle, .refl, fun x _ hxc hcx => ?_⟩
    exact h.toHierarchy.not_transGen_false (hxc.trans_left hcx)
  · refine ⟨.refl, (h.le_iff_reaches_false ⟨e, hb⟩ ha hd).1 hle, fun x hcx hxc _ => ?_⟩
    exact h.toHierarchy.not_transGen_false (hxc.trans_left hcx)
  · simp [hd, he] at hi
  · obtain ⟨top, htop, hplace, hleast⟩ := h.ordered.climb_spec (h.chained ⟨d, ha⟩)
      (h.chained ⟨e, hb⟩) (Nat.lt_succ_of_le (List.countP_le_length (l := g.classes)))
    obtain rfl := Except.ok.inj (htop.symm.trans hclimb)
    have hshared : g.Reaches false a top ∧ g.Reaches false b top := by
      rcases hplace with rfl | ⟨hatop, hbtop⟩
      · exact ⟨h.reaches_object ⟨d, ha⟩, h.reaches_object ⟨e, hb⟩⟩
      · exact ⟨hatop.to_reflTransGen, hbtop⟩
    refine ⟨hshared.1, hshared.2, fun x hax hxtop hbx => ?_⟩
    have hax' : Relation.TransGen (g.Edge false) a x := by
      refine (Relation.reflTransGen_iff_eq_or_transGen.1 hax).resolve_left ?_
      rintro rfl
      exact hnot (.inr hbx.toTrue)
    exact h.toHierarchy.not_transGen_false (hxtop.trans_left (hleast x hax' hbx))

theorem le_of_commonSuperclass (h : g.WellFormed) (ha : g.Knows a) (hb : g.Knows b)
    (hc : g.commonSuperclass a b = .ok c) {x : BinaryName} {f : ClassInfo} (hx : g.find? x = some f)
    (hf : f.isInterface = false) (hax : g.Le a x) (hbx : g.Le b x) : g.Le c x := by
  obtain ⟨d, ha⟩ := ha
  obtain ⟨e, hb⟩ := hb
  -- Above an interface there is only one class.
  have hinterface : ∀ {y k}, g.find? y = some k → k.isInterface = true → g.Le y x → x = .object := by
    intro y k hy hk hle
    rcases hle with hobject | hreach
    · exact hobject
    · refine (h.layered.isInterface_of_reaches hy hk hreach).resolve_right ?_
      rintro ⟨f', hf', hi⟩
      obtain rfl := Option.some.inj (hx.symm.trans hf')
      rw [hf] at hi
      cases hi
  rcases h.commonSuperclass_cases ha hb hc with
    ⟨rfl, -⟩ | ⟨rfl, -⟩ | ⟨-, hi⟩ | ⟨-, hd, he, -⟩
  · exact hbx
  · exact hax
  · exact .inl (hi.elim (fun hd => hinterface ha hd hax) fun he => hinterface hb he hbx)
  · have hfirst := h.firstShared_of_commonSuperclass ha hb hd he hc
    refine .inr (hfirst.reaches ?_ ?_).toTrue
    · exact (h.le_iff_reaches_false ⟨d, ha⟩ hx hf).1 hax
    · exact (h.le_iff_reaches_false ⟨e, hb⟩ hx hf).1 hbx

/-- Two known types have a common class. It is the least class that both are assignable to, and for
two classes the first one on the first one's chain of superclasses that is also on the other
one's. -/
theorem commonSuperclass_isLeast (h : g.WellFormed) (ha : g.Knows a) (hb : g.Knows b) :
    ∃ c, g.commonSuperclass a b = .ok c ∧ g.LeastCommon a b c ∧
      ∀ d e, g.find? a = some d → g.find? b = some e → d.isInterface = false →
        e.isInterface = false → g.FirstShared a b c := by
  obtain ⟨c, hc, hkc, hac, hbc⟩ := h.commonSuperclass_spec ha hb
  have hassignable : ∀ {x y}, g.Knows x → g.Knows y → (g.isAssignable x y = .ok true ↔ g.Le x y) :=
    fun hx hy => h.isAssignable_iff hx hy
  refine ⟨c, hc, ⟨(hassignable ha hkc).2 hac, (hassignable hb hkc).2 hbc, ?_⟩, ?_⟩
  · intro x f hx hf hax hbx
    rw [hassignable ha ⟨f, hx⟩] at hax
    rw [hassignable hb ⟨f, hx⟩] at hbx
    exact (hassignable hkc ⟨f, hx⟩).2 (h.le_of_commonSuperclass ha hb hc hx hf hax hbx)
  · exact fun d e hd he hclassd hclasse =>
      h.firstShared_of_commonSuperclass hd he hclassd hclasse hc

end WellFormed

/-- The library classes are complete, and each is listed after the types above it. -/
theorem library_wellFormed : empty.insertLibrary.WellFormed := by
  refine .of_fits (.of_rank (libraryTypes.map ClassInfo.name).idxOf ?_ ?_) ?_ ?_
  · decide +kernel
  · decide +kernel
  · decide +kernel
  · decide +kernel

theorem library_exceptions_meet :
    empty.insertLibrary.commonSuperclass .arithmeticException .errorClass = .ok .throwable ∧
      empty.insertLibrary.LeastCommon .arithmeticException .errorClass .throwable ∧
      empty.insertLibrary.FirstShared .arithmeticException .errorClass .throwable := by
  have hcommon : empty.insertLibrary.commonSuperclass .arithmeticException .errorClass =
      .ok .throwable := by decide +kernel
  have hknown : ∀ name, (empty.insertLibrary.find? name).any (!·.isInterface) = true →
      ∃ c, empty.insertLibrary.find? name = some c ∧ c.isInterface = false := by
    intro name h
    obtain ⟨c, hc, hclass⟩ := (Option.any_eq_true _ _).1 h
    exact ⟨c, hc, by simpa using hclass⟩
  obtain ⟨d, hd, hclassd⟩ := hknown .arithmeticException (by decide +kernel)
  obtain ⟨e, he, hclasse⟩ := hknown .errorClass (by decide +kernel)
  obtain ⟨c, hc, hleast, hfirst⟩ :=
    library_wellFormed.commonSuperclass_isLeast ⟨d, hd⟩ ⟨e, he⟩
  obtain rfl := Except.ok.inj (hcommon.symm.trans hc)
  exact ⟨hcommon, hleast, hfirst d e hd he hclassd hclasse⟩

end ClassGraph

end MethodLocals
