import MethodLocals.Name
import MethodLocals.AccessFlags

/-! Super type relations between known classes. Every class met on the way to an answer has to be
known, so each question is answered or names a class that is missing. -/

namespace MethodLocals

/-- A class or an interface, with the types right above it. -/
structure ClassInfo where
  name : BinaryName
  superclass : Option BinaryName
  interfaces : List BinaryName
  flags : ClassFlags
  deriving DecidableEq

/-- A class that a question needs is not in the graph. -/
structure MissingClass where
  name : BinaryName
  deriving DecidableEq

def MissingClass.message (e : MissingClass) : String :=
  s!"class '{e.name.text}' is not in the class graph"

namespace ClassInfo

def isInterface (c : ClassInfo) : Bool := c.flags.isInterface

/-- An interface stands right below the class of all objects. -/
def interface (name : BinaryName) (interfaces : List BinaryName) : ClassInfo :=
  ⟨name, some .object, interfaces,
    .ofList [ClassFlag.public, ClassFlag.interface, ClassFlag.abstract]⟩

def superTypes (c : ClassInfo) : List BinaryName := c.superclass.toList ++ c.interfaces

/-- The types above a class that can lead to an interface, or to a class. -/
def edges (c : ClassInfo) (toInterface : Bool) : List BinaryName :=
  if toInterface then c.superTypes else c.superclass.toList

end ClassInfo

/-- A finite set of known classes. -/
structure ClassGraph where
  classes : List ClassInfo

namespace ClassGraph

def empty : ClassGraph := ⟨[]⟩

def find? (g : ClassGraph) (name : BinaryName) : Option ClassInfo :=
  g.classes.find? (·.name = name)

def get (g : ClassGraph) (name : BinaryName) : Except MissingClass ClassInfo :=
  match g.find? name with
  | some c => .ok c
  | none => .error ⟨name⟩

/-- Adds a class in place of a known one of the same name. -/
def insert (g : ClassGraph) (c : ClassInfo) : ClassGraph :=
  ⟨c :: g.classes.filter (·.name ≠ c.name)⟩

def insertAll (g : ClassGraph) (classes : List ClassInfo) : ClassGraph :=
  classes.foldl insert g

@[simp] theorem find?_insert_self (g : ClassGraph) (c : ClassInfo) :
    (g.insert c).find? c.name = some c := by
  simp [insert, find?]

theorem find?_insert_of_ne (g : ClassGraph) {c : ClassInfo} {name : BinaryName}
    (h : name ≠ c.name) : (g.insert c).find? name = g.find? name := by
  simp only [insert, find?, List.find?_cons, List.find?_filter]
  rw [decide_eq_false h.symm]
  refine congrArg (List.find? · g.classes) (funext fun d => ?_)
  by_cases hd : d.name = name <;> simp [hd, h]

def targets (g : ClassGraph) : List BinaryName := g.classes.flatMap ClassInfo.superTypes

/-- Puts the types that were not met before on top of the pending ones, the last one topmost. -/
def enqueue : List BinaryName → List BinaryName → List BinaryName →
    List BinaryName × List BinaryName
  | [], pending, unmet => (pending, unmet)
  | name :: names, pending, unmet =>
    if name ∈ unmet then enqueue names (name :: pending) (unmet.filter (· ≠ name))
    else enqueue names pending unmet

theorem enqueue_length_le (names pending unmet : List BinaryName) :
    (enqueue names pending unmet).1.length + (enqueue names pending unmet).2.length ≤
      pending.length + unmet.length := by
  induction names generalizing pending unmet with
  | nil => simp [enqueue]
  | cons name names ih =>
    rw [enqueue]
    split
    · rename_i hmem
      have hlt : (unmet.filter (· ≠ name)).length < unmet.length :=
        List.length_filter_lt_length_iff_exists.2 ⟨name, hmem, by simp⟩
      have := ih (name :: pending) (unmet.filter (· ≠ name))
      simp only [List.length_cons] at this
      omega
    · exact ih pending unmet

/-- Looks for `target` from the pending types upwards, the topmost pending type first. Each type is
pending at most once, as it is met only while it is still among the `unmet` ones. -/
def search (g : ClassGraph) (toInterface : Bool) (target : BinaryName)
    (pending unmet : List BinaryName) : Except MissingClass Bool :=
  match pending with
  | [] => .ok false
  | name :: rest =>
    if name = target then .ok true
    else match g.find? name with
      | none => .error ⟨name⟩
      | some c =>
        let next := enqueue (c.edges toInterface) rest unmet
        search g toInterface target next.1 next.2
termination_by pending.length + unmet.length
decreasing_by
  have := enqueue_length_le (c.edges toInterface) rest unmet
  simp only [List.length_cons]
  omega

/-- Can a value of type `sub` be used where one of type `super` is asked for? Interfaces are passed
over on the way to a class, as none stands below a class other than the class of all objects. -/
def isAssignable (g : ClassGraph) (sub super : BinaryName) : Except MissingClass Bool :=
  if sub = super ∨ super = .object then .ok true
  else match g.find? super with
    | none => .error ⟨super⟩
    | some c => g.search c.isInterface super [sub] (g.targets.filter (· ≠ sub))

/-- The first class above `current` that `other` is assignable to. A chain of superclasses visits
each class once, so it ends within as many steps as there are classes; a chain that returns to
itself has no such class, and only the class of all objects is left. -/
def climb (g : ClassGraph) (other : BinaryName) : Nat → BinaryName → Except MissingClass BinaryName
  | 0, _ => .ok .object
  | steps + 1, current =>
    match g.find? current with
    | none => .error ⟨current⟩
    | some c =>
      match c.superclass with
      | none => .ok .object
      | some above =>
        match g.isAssignable other above with
        | .error e => .error e
        | .ok true => .ok above
        | .ok false => climb g other steps above

/-- Has either name an interface behind it? The second is looked up only if the first has none. -/
def eitherInterface (g : ClassGraph) (a b : BinaryName) : Except MissingClass Bool :=
  match g.get a with
  | .error e => .error e
  | .ok c => if c.isInterface then .ok true else (g.get b).map ClassInfo.isInterface

/-- The most specific class that both types are assignable to. An interface has only the class of
all objects in common with anything that is not assignable to it. -/
def commonSuperclass (g : ClassGraph) (a b : BinaryName) : Except MissingClass BinaryName :=
  match g.isAssignable a b with
  | .error e => .error e
  | .ok true => .ok b
  | .ok false =>
    match g.isAssignable b a with
    | .error e => .error e
    | .ok true => .ok a
    | .ok false =>
      match g.eitherInterface a b with
      | .error e => .error e
      | .ok true => .ok .object
      | .ok false => g.climb b (g.classes.length + 1) a

end ClassGraph

end MethodLocals
