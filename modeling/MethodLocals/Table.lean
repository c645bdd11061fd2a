import MethodLocals.Frame
import MethodLocals.Method
import MethodLocals.SlotSpace
import MethodLocals.TypedScope

/-! The table of local variables: a record for each slot in use, in the order in which slots were
first committed, and the slot that each name is bound to. -/

namespace MethodLocals

/-- One use of a variable: where it is and with which type. -/
structure Usage where
  source : Element
  type : FieldType
  deriving DecidableEq

/-- A use of a slot under a name. Uses that refine a record replace the types that were found
without an analysis. -/
structure Use where
  slot : Nat
  name : String
  type : FieldType
  source : Element
  refining : Bool
  deriving DecidableEq

def Use.usage (u : Use) : Usage := ⟨u.source, u.type⟩

def Use.isWide (u : Use) : Bool := u.type.width > 1

/-- Everything known about a slot. There is always a last usage; `earlier` holds the ones before it,
the latest first. -/
structure Record where
  slot : Nat
  name : String
  earlier : List Usage
  last : Usage
  wide : Bool
  refined : Bool
  deriving DecidableEq

namespace Record

/-- The usages in the order in which they were recorded. -/
def usages (r : Record) : List Usage := r.earlier.reverse ++ [r.last]

/-- The elements that used the slot, each once, in the order in which they first did. -/
def sites (r : Record) : List Element :=
  r.usages.foldl (fun seen u => if u.source ∈ seen then seen else seen ++ [u.source]) []

def width (r : Record) : Nat := if r.wide then 2 else 1

def ofUse (u : Use) : Record where
  slot := u.slot
  name := u.name
  earlier := []
  last := u.usage
  wide := u.isWide
  refined := u.refining

/-- Does the use make everything recorded before it obsolete? The first refining one does. -/
def isRestartedBy (r : Record) (u : Use) : Bool := u.refining && !r.refined

/-- The record with one more usage. It goes by the name that was used last, and a slot that was wide
stays wide. -/
def add (r : Record) (u : Use) : Record where
  slot := r.slot
  name := u.name
  earlier := if r.isRestartedBy u then [] else r.last :: r.earlier
  last := u.usage
  wide := r.wide || u.isWide
  refined := r.refined || u.refining

/-- Records are ordered by slot, then by name, and by nothing else. -/
def compare (a b : Record) : Ordering := (Ord.compare a.slot b.slot).then (Ord.compare a.name b.name)

def le (a b : Record) : Bool := a.compare b != .gt

@[simp] theorem usages_ofUse (u : Use) : (ofUse u).usages = [u.usage] := rfl

theorem usages_add (r : Record) (u : Use) :
    (r.add u).usages = if r.isRestartedBy u then [u.usage] else r.usages ++ [u.usage] := by
  unfold add usages
  split <;> simp

end Record

/-- How far the passes over a method have come. -/
inductive Stage where
  | empty | receiverBound | parametersBound | syntacticallyResolved | refined
  deriving DecidableEq

inductive CompileFault where
  | allocation (conflict : SlotConflict)
  | typeConflict (slot : Nat) (name : String) (conflict : TypeConflict)
  | analysis (reason : FlowError)
  deriving DecidableEq

def CompileFault.message : CompileFault → String
  | .allocation conflict => conflict.message
  | .typeConflict slot name conflict =>
    s!"incompatible variable type usage [{slot}:{name}]: {conflict.message}"
  | .analysis reason => s!"data-flow analysis failed: {reason.message}"

/-- A fault and the part of the method that it is about. -/
structure CompileError where
  element : Element
  fault : CompileFault
  deriving DecidableEq

def CompileError.message (e : CompileError) : String :=
  s!"{e.element.render}: {e.fault.message}"

/-- Records in the order of their first commit, the slots that names are bound to, the slots taken,
and the passes done. -/
structure Table where
  records : List Record
  bindings : List (String × Nat)
  slots : SlotSpace
  stage : Stage
  deriving DecidableEq

namespace Table

def empty : Table := ⟨[], [], .empty, .empty⟩

def record? (t : Table) (slot : Nat) : Option Record := t.records.find? (·.slot = slot)

def slotOf? (t : Table) (name : String) : Option Nat := t.bindings.lookup name

def named? (t : Table) (name : String) : Option Record := (t.slotOf? name).bind t.record?

def maxLocals (t : Table) : Nat := t.slots.next

def sorted (t : Table) : List Record := t.records.mergeSort Record.le

/-- Records a use in the record of its slot, or in a new one after the others. -/
def place (u : Use) : List Record → List Record
  | [] => [.ofUse u]
  | r :: rest => if r.slot = u.slot then r.add u :: rest else r :: place u rest

/-- Binds a name to a slot in place of the one it was bound to. -/
def bind (name : String) (slot : Nat) (bindings : List (String × Nat)) : List (String × Nat) :=
  (name, slot) :: bindings.filter (·.1 ≠ name)

/-- Records a use and binds its name to its slot. The slot is committed first, and nothing changes if
it cannot be. -/
def use (t : Table) (u : Use) : Except CompileError Table :=
  match t.slots.reserve u.slot u.type.width with
  | .error conflict => .error ⟨u.source, .allocation conflict⟩
  | .ok slots => .ok { t with
      records := place u t.records
      bindings := bind u.name u.slot t.bindings
      slots }

/-- The slot of a name that has a record, or the next free one. -/
def slotFor (t : Table) (name : String) : Nat :=
  match t.named? name with
  | some r => r.slot
  | none => t.slots.next

theorem find?_place (u : Use) (slot : Nat) (records : List Record) :
    (place u records).find? (·.slot = slot) =
      if slot = u.slot then
        some (match records.find? (·.slot = slot) with
          | some r => r.add u
          | none => .ofUse u)
      else records.find? (·.slot = slot) := by
  induction records with
  | nil =>
    by_cases h : slot = u.slot
    · simp [place, Record.ofUse, h]
    · have : u.slot ≠ slot := fun e => h e.symm
      simp [place, Record.ofUse, h, this]
  | cons r rest ih =>
    rw [place]
    split
    · rename_i hr
      by_cases h : slot = u.slot
      · simp [Record.add, hr, h]
      · have : u.slot ≠ slot := fun e => h e.symm
        simp [Record.add, hr, h, this]
    · rename_i hr
      by_cases h : r.slot = slot
      · have : slot ≠ u.slot := fun e => hr (h.trans e)
        simp [h, this]
      · simp [h, ih]

@[simp] theorem lookup_bind (name other : String) (slot : Nat) (l : List (String × Nat)) :
    (bind name slot l).lookup other = if other = name then some slot else l.lookup other := by
  simp only [bind, List.lookup_cons]
  by_cases h : other = name
  · simp [h]
  · have hne : (other == name) = false := by simpa using h
    simp only [hne, h, if_false]
    induction l with
    | nil => rfl
    | cons entry rest ih =>
      obtain ⟨key, held⟩ := entry
      simp only [List.filter_cons]
      split
      · simp only [List.lookup_cons, ih]
      · have hkey : (other == key) = false := by grind
        rw [List.lookup_cons, hkey]
        exact ih

end Table

end MethodLocals
