import Mathlib.Control.Monad.Basic
import MethodLocals.ClassGraph.Library
import MethodLocals.Proofs.ClassSearch

/-! The search for a super type, round by round. A round visits one type and remembers the types that
it meets, so that none is met twice. On every finite graph, with cycles and with types missing, the
search ends after as many rounds as there are super types, and its answer tells what stands above. -/

namespace MethodLocals.ClassGraph

variable {g : ClassGraph} {toInterface : Bool} {target : BinaryName}

/-- A search on its way: the types to visit, the next one first, and all types met so far. -/
structure Frontier where
  pending : List BinaryName
  met : List BinaryName

namespace Frontier

def start (name : BinaryName) : Frontier := ⟨[name], [name]⟩

def meet (f : Frontier) (name : BinaryName) : Frontier :=
  if name ∈ f.met then f else ⟨name :: f.pending, name :: f.met⟩

end Frontier

/-- The answer of a search that ends within a number of rounds. Nothing else bounds the search. -/
def explore (g : ClassGraph) (toInterface : Bool) (target : BinaryName) :
    Nat → Frontier → Option (Except MissingClass Bool)
  | 0, _ => none
  | _ + 1, ⟨[], _⟩ => some (.ok false)
  | rounds + 1, ⟨name :: rest, met⟩ =>
    if name = target then some (.ok true)
    else match g.find? name with
      | none => some (.error ⟨name⟩)
      | some c =>
        explore g toInterface target rounds ((c.edges toInterface).foldl Frontier.meet ⟨rest, met⟩)

def unmet (g : ClassGraph) (met : List BinaryName) : List BinaryName :=
  g.targets.filter fun name => name ∉ met

theorem unmet_cons (name : BinaryName) (met : List BinaryName) :
    g.unmet (name :: met) = (g.unmet met).filter (· ≠ name) := by
  simp [unmet, List.filter_filter]

/-- Remembering the types met is the same as striking them from the ones not met. -/
theorem foldl_meet {names : List BinaryName} (h : ∀ x ∈ names, x ∈ g.targets)
    (pending met : List BinaryName) :
    (names.foldl Frontier.meet ⟨pending, met⟩).pending = (enqueue names pending (g.unmet met)).1 ∧
      g.unmet (names.foldl Frontier.meet ⟨pending, met⟩).met =
        (enqueue names pending (g.unmet met)).2 := by
  induction names generalizing pending met with
  | nil => simp [enqueue]
  | cons name names ih =>
    obtain ⟨hname, hnames⟩ := List.forall_mem_cons.1 h
    rw [List.foldl_cons, Frontier.meet, enqueue]
    by_cases hmet : name ∈ met
    · have hnot : name ∉ g.unmet met := by simp [unmet, hmet]
      rw [if_pos hmet, if_neg hnot]
      exact ih hnames _ _
    · have hmem : name ∈ g.unmet met := by simp [unmet, hmet, hname]
      rw [if_neg hmet, if_pos hmem, ← unmet_cons]
      exact ih hnames _ _

/-- A round takes one type from the pending ones and adds none that was met, so the types that are
pending or not met bound the rounds. -/
theorem explore_eq_search {rounds : Nat} {pending met : List BinaryName}
    (h : pending.length + (g.unmet met).length < rounds) :
    g.explore toInterface target rounds ⟨pending, met⟩ =
      some (g.search toInterface target pending (g.unmet met)) := by
  induction rounds generalizing pending met with
  | zero => omega
  | succ rounds ih =>
    cases pending with
    | nil => simp [explore, search]
    | cons name rest =>
      rw [explore, search]
      split
      · rfl
      · cases hc : g.find? name with
        | none => rfl
        | some c =>
          have hedges : ∀ x ∈ c.edges toInterface, x ∈ g.targets :=
            fun x hx => mem_targets_of_find? hc (mem_superTypes_of_mem_edges hx)
          obtain ⟨hpending, hunmet⟩ := foldl_meet hedges rest met
          have hlength := enqueue_length_le (c.edges toInterface) rest (g.unmet met)
          rw [List.length_cons] at h
          dsimp only
          rw [← hpending, ← hunmet] at hlength ⊢
          exact ih (by omega)

theorem explore_start (g : ClassGraph) (toInterface : Bool) (target sub : BinaryName) :
    g.explore toInterface target (g.targets.length + 2) (.start sub) =
      some (g.search toInterface target [sub] (g.targets.filter (· ≠ sub))) := by
  have hunmet : g.unmet [sub] = g.targets.filter (· ≠ sub) := by simp [unmet]
  have hlength : (g.unmet [sub]).length ≤ g.targets.length := List.length_filter_le _ _
  rw [Frontier.start, explore_eq_search (by simp; omega), hunmet]

/-- What an answer says about the types above `sub`, as far as they matter to a search for `super`. -/
def Tells (g : ClassGraph) (sub super : BinaryName) : Except MissingClass Bool → Prop
  | .ok true => g.Reaches (g.leadsToInterface super) sub super
  | .ok false => (∀ name, g.Reaches (g.leadsToInterface super) sub name → g.Knows name) ∧
      ¬ g.Reaches (g.leadsToInterface super) sub super
  | .error e => ¬ g.Knows e.name ∧ g.Reaches (g.leadsToInterface super) sub e.name

theorem tells_isAssignable {sub super : BinaryName} (hne : super ≠ .object)
    (hknown : g.Knows super) : g.Tells sub super (g.isAssignable sub super) := by
  cases hanswer : g.isAssignable sub super with
  | error e =>
    obtain ⟨hmissing, hname⟩ := missing_of_isAssignable hanswer
    exact ⟨hmissing, hname.resolve_left fun heq => hmissing (heq ▸ hknown)⟩
  | ok answer =>
    cases answer with
    | true => exact (reaches_of_isAssignable hanswer).resolve_left hne
    | false =>
      exact ⟨fun _ => knows_of_reaches_of_isAssignable hanswer,
        (not_reaches_of_isAssignable hanswer).2⟩

/-- Every question is answered, whatever the graph. Equal types and the class of all objects are never
looked up, and an unknown super type is reported. Otherwise the search ends within two rounds more
than there are super types, and its answer tells what can be reached: the super type; or only known
types and not the super type; or a type that is missing. -/
theorem isAssignable_tells (g : ClassGraph) (sub super : BinaryName) :
    (sub = super ∨ super = .object → g.isAssignable sub super = .ok true) ∧
      (sub ≠ super → super ≠ .object →
        (¬ g.Knows super → g.isAssignable sub super = .error ⟨super⟩) ∧
        (g.Knows super → g.Tells sub super (g.isAssignable sub super) ∧
          g.explore (g.leadsToInterface super) super (g.targets.length + 2) (.start sub) =
            some (g.isAssignable sub super))) := by
  refine ⟨fun h => if_pos h, fun hsub hobject => ⟨fun hunknown => ?_, fun hknown => ?_⟩⟩
  · have hnone : g.find? super = none := by
      cases hc : g.find? super with
      | none => rfl
      | some c => exact absurd ⟨c, hc⟩ hunknown
    simp [isAssignable, hsub, hobject, hnone]
  · refine ⟨tells_isAssignable hobject hknown, ?_⟩
    obtain ⟨c, hc⟩ := hknown
    rw [explore_start]
    simp [isAssignable, leadsToInterface, hsub, hobject, hc]

/-- Two classes stand above each other, and a third one stands below a type that is missing. -/
example :
    let g : ClassGraph := ⟨[⟨.exception, some .runtimeException, [], .ofList []⟩,
      ⟨.runtimeException, some .exception, [], .ofList []⟩,
      ⟨.number, some .throwable, [], .ofList []⟩]⟩
    g.isAssignable .exception .number = .ok false ∧
      g.isAssignable .number .exception = .error ⟨.throwable⟩ := by
  decide +kernel

end MethodLocals.ClassGraph
