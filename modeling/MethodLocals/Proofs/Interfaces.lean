import Mathlib.Control.Monad.Basic
import MethodLocals.ClassGraph.Library
import MethodLocals.Proofs.ClassSearch

/-! Interfaces on the way up. Nothing but interfaces and the class of all objects stands above an
interface, so a search for a class can pass over interfaces and still answers as a search along all
edges would, even where types stand above themselves. -/

namespace MethodLocals

/-- A graph without missing types in which interfaces keep apart: no class but the one of all objects
stands above an interface, what a type implements are interfaces, and nothing is above the class of
all objects. Types may stand above themselves. -/
structure ClassGraph.Layered (g : ClassGraph) : Prop where
  known : ∀ a b, g.Edge true a b → g.Knows b
  object_top : ∀ c, g.find? .object = some c → c.superTypes = []
  interface_superclass : ∀ name c above, g.find? name = some c → c.isInterface = true →
    c.superclass = some above → above = .object
  interfaces : ∀ name c, g.find? name = some c → ∀ i ∈ c.interfaces,
    ∃ d, g.find? i = some d ∧ d.isInterface = true

namespace ClassGraph

variable {g : ClassGraph} {a b : BinaryName}

def keepsApart (g : ClassGraph) (c : ClassInfo) : Bool :=
  c.superTypes.all (fun above => (g.find? above).isSome) &&
  (c.name ≠ .object || c.superTypes.isEmpty) &&
  (!c.isInterface || c.superclass.all (· = .object)) &&
  c.interfaces.all fun i => (g.find? i).any ClassInfo.isInterface

namespace Layered

theorem of_keepsApart (h : ∀ c ∈ g.classes, g.keepsApart c = true) : g.Layered := by
  have hall : ∀ {name c}, g.find? name = some c → c.name = name ∧
      (∀ above ∈ c.superTypes, g.Knows above) ∧ (c.name = .object → c.superTypes = []) ∧
      (c.isInterface = true → ∀ above, c.superclass = some above → above = .object) ∧
      ∀ i ∈ c.interfaces, ∃ d, g.find? i = some d ∧ d.isInterface = true := by
    intro name c hc
    obtain ⟨hmem, hname⟩ := mem_classes_of_find? hc
    have hc := h c hmem
    simp only [keepsApart, Bool.and_eq_true, Bool.or_eq_true, Bool.not_eq_true', List.all_eq_true,
      decide_eq_true_eq, List.isEmpty_iff, Option.all_eq_true, Option.any_eq_true,
      Option.isSome_iff_exists] at hc
    obtain ⟨⟨⟨hknown, hobject⟩, hsuper⟩, hinterfaces⟩ := hc
    refine ⟨hname, hknown, fun heq => hobject.resolve_left (fun hne => hne heq), fun hi => ?_,
      hinterfaces⟩
    exact hsuper.resolve_left (by simp [hi])
  refine ⟨?_, ?_, ?_, ?_⟩
  · rintro a b ⟨c, hc, hb⟩
    exact (hall hc).2.1 b (by simpa [ClassInfo.edges] using hb)
  · intro c hc
    exact (hall hc).2.2.1 (hall hc).1
  · intro name c above hc hi
    exact (hall hc).2.2.2.1 hi above
  · intro name c hc
    exact (hall hc).2.2.2.2

theorem not_edge_object (h : g.Layered) : ¬ g.Edge true .object b := by
  rintro ⟨c, hc, hb⟩
  simp [ClassInfo.edges, h.object_top c hc] at hb

theorem knows_of_reaches (h : g.Layered) (ha : g.Knows a) (hreach : g.Reaches true a b) :
    g.Knows b := by
  induction hreach with
  | refl => exact ha
  | tail _ hedge _ => exact h.known _ _ hedge

theorem isInterface_of_reaches (h : g.Layered) {d : ClassInfo} (ha : g.find? a = some d)
    (hd : d.isInterface = true) (hreach : g.Reaches true a b) :
    b = .object ∨ ∃ e, g.find? b = some e ∧ e.isInterface = true := by
  induction hreach with
  | refl => exact .inr ⟨d, ha, hd⟩
  | tail _ hedge ih =>
    rcases ih with rfl | ⟨e, he, hi⟩
    · exact absurd hedge h.not_edge_object
    · obtain ⟨e', he', hb | hb⟩ := edge_true_iff.1 hedge
      · obtain rfl : e = e' := Option.some.inj (he.symm.trans he')
        exact .inl (h.interface_superclass _ e _ he hi hb)
      · exact .inr (h.interfaces _ e' he' _ hb)

/-- Interfaces can be passed over on the way to a class: a way that enters one does not leave it for a
class. -/
theorem reaches_superclass (h : g.Layered) {d : ClassInfo} (hb : g.find? b = some d)
    (hd : d.isInterface = false) (hne : b ≠ .object) (hreach : g.Reaches true a b) :
    g.Reaches false a b := by
  induction hreach using Relation.ReflTransGen.head_induction_on with
  | refl => exact .refl
  | head hedge hrest ih =>
    obtain ⟨c, hc, hy | hy⟩ := edge_true_iff.1 hedge
    · exact ih.head (edge_false_iff.2 ⟨c, hc, hy⟩)
    · obtain ⟨e, he, hi⟩ := h.interfaces _ c hc _ hy
      rcases h.isInterface_of_reaches he hi hrest with hobject | ⟨e', he', hi'⟩
      · exact absurd hobject hne
      · obtain rfl : d = e' := Option.some.inj (hb.symm.trans he')
        simp [hd] at hi'

theorem exists_isAssignable (h : g.Layered) (ha : g.Knows a) (hb : g.Knows b) :
    ∃ answer, g.isAssignable a b = .ok answer := by
  cases hr : g.isAssignable a b with
  | ok answer => exact ⟨answer, rfl⟩
  | error e =>
    obtain ⟨hmissing, rfl | hreach⟩ := missing_of_isAssignable hr
    · exact absurd hb hmissing
    · exact absurd (h.knows_of_reaches ha hreach.toTrue) hmissing

theorem isAssignable_iff (h : g.Layered) (ha : g.Knows a) (hb : g.Knows b) :
    g.isAssignable a b = .ok true ↔ b = .object ∨ g.Reaches true a b := by
  constructor
  · intro hr
    exact (reaches_of_isAssignable hr).imp id Reaches.toTrue
  · rintro (rfl | hreach)
    · exact g.isAssignable_object a
    · obtain ⟨answer, hr⟩ := h.exists_isAssignable ha hb
      cases answer with
      | true => exact hr
      | false =>
        obtain ⟨hne, hnot⟩ := not_reaches_of_isAssignable hr
        obtain ⟨d, hd⟩ := hb
        rw [leadsToInterface, hd] at hnot
        cases hi : d.isInterface with
        | true => exact absurd hreach (by simpa [hi] using hnot)
        | false =>
          exact absurd (h.reaches_superclass hd hi hne hreach) (by simpa [hi] using hnot)

/-- On a layered graph the answer is the one that all edges give: a type is assignable to what can be
reached from it and to the class of all objects, and to nothing else. -/
theorem isAssignable_along_all_edges (h : g.Layered) {sub super : BinaryName} (hsub : g.Knows sub)
    (hsuper : g.Knows super) :
    (g.isAssignable sub super = .ok true ↔ super = .object ∨ g.Reaches true sub super) ∧
      (g.isAssignable sub super = .ok false ↔ ¬ (super = .object ∨ g.Reaches true sub super)) := by
  have htrue := h.isAssignable_iff hsub hsuper
  refine ⟨htrue, ?_⟩
  obtain ⟨answer, hanswer⟩ := h.exists_isAssignable hsub hsuper
  rw [← htrue, hanswer]
  cases answer <;> simp

end Layered

/-- Two classes stand above each other, and so do the two interfaces that one of them implements. -/
def ringGraph : ClassGraph :=
  ⟨[⟨.object, none, [], .ofList []⟩,
    .interface .collection [.listInterface], .interface .listInterface [.collection],
    ⟨.exception, some .runtimeException, [.collection], .ofList []⟩,
    ⟨.runtimeException, some .exception, [], .ofList []⟩,
    ⟨.number, some .object, [], .ofList []⟩]⟩

theorem ringGraph_layered : ringGraph.Layered := .of_keepsApart (by decide +kernel)

/-- An interface is found through both rings; a class that stands in none of them is not. -/
theorem runtimeException_along_all_edges : ringGraph.Layered ∧
    ringGraph.Reaches true .runtimeException .listInterface ∧
    ¬ ringGraph.Reaches true .runtimeException .number := by
  have hknown : ∀ name, (ringGraph.find? name).isSome = true → ringGraph.Knows name :=
    fun _ h => Option.isSome_iff_exists.1 h
  have hsub := hknown .runtimeException (by decide +kernel)
  have hlist := ringGraph_layered.isAssignable_along_all_edges hsub
    (hknown .listInterface (by decide +kernel))
  have hnumber := ringGraph_layered.isAssignable_along_all_edges hsub
    (hknown .number (by decide +kernel))
  refine ⟨ringGraph_layered, ?_, fun hreach => ?_⟩
  · exact (hlist.1.1 (by decide +kernel)).resolve_left (by decide)
  · exact hnumber.2.1 (by decide +kernel) (.inr hreach)

end ClassGraph

end MethodLocals
