/-! Slots of local variables. Slots are committed one at a time, and the slot after a wide value
belongs to it. -/

namespace MethodLocals

/-- The number of slots is stored in sixteen bits. -/
def localLimit : Nat := 65535

inductive SlotConflict where
  | reservedTail (slot : Nat)
  | tooManyLocals (slot width : Nat)
  deriving DecidableEq

def SlotConflict.message : SlotConflict → String
  | .reservedTail slot =>
    s!"illegal usage of slot {slot}, reserved by the wide value in slot {slot - 1}"
  | .tooManyLocals slot width =>
    s!"slot {slot} (width {width}) exceeds the limit of {localLimit} locals"

/-- Which slots are taken: no committed value reaches `next` or beyond, `high` is the largest slot
committed, and `wide` are the slots that hold wide values. -/
structure SlotSpace where
  next : Nat
  high : Nat
  wide : List Nat
  deriving DecidableEq

namespace SlotSpace

def empty : SlotSpace := ⟨0, 0, []⟩

def isWide (a : SlotSpace) (slot : Nat) : Bool := slot ∈ a.wide

/-- Is the slot the second half of a wide value? -/
def isTail (a : SlotSpace) : Nat → Bool
  | 0 => false
  | slot + 1 => a.isWide slot

/-- What stands against committing a slot; a reserved slot is reported before the limit is. -/
def conflict (a : SlotSpace) (slot width : Nat) : Option SlotConflict :=
  if a.isTail slot then some (.reservedTail slot)
  else if slot + width > localLimit then some (.tooManyLocals slot width)
  else none

/-- The slots once one more is committed. A slot below the largest one moves neither bound. -/
def commit (a : SlotSpace) (slot width : Nat) : SlotSpace where
  next := if a.high ≤ slot then max a.next (slot + width) else a.next
  high := if a.high ≤ slot then slot else a.high
  wide := if width = 2 then a.wide.insert slot else a.wide

def reserve (a : SlotSpace) (slot width : Nat) : Except SlotConflict SlotSpace :=
  match a.conflict slot width with
  | some e => .error e
  | none => .ok (a.commit slot width)

theorem isTail_iff (a : SlotSpace) (slot : Nat) :
    a.isTail slot = true ↔ ∃ head, slot = head + 1 ∧ a.isWide head = true := by
  cases slot <;> simp [isTail]

theorem isWide_commit (a : SlotSpace) (slot width other : Nat) :
    (a.commit slot width).isWide other = true ↔
      a.isWide other = true ∨ (other = slot ∧ width = 2) := by
  by_cases h : width = 2
  · simp [isWide, commit, h, List.mem_insert_iff, or_comm]
  · simp [isWide, commit, h]

theorem reserve_eq_ok_iff {a b : SlotSpace} {slot width : Nat} :
    a.reserve slot width = .ok b ↔
      a.isTail slot = false ∧ slot + width ≤ localLimit ∧ b = a.commit slot width := by
  by_cases hTail : a.isTail slot = true
  · simp [reserve, conflict, hTail]
  · by_cases hLimit : slot + width > localLimit
    · have : ¬ slot + width ≤ localLimit := by omega
      simp [reserve, conflict, hTail, hLimit, this]
    · have : slot + width ≤ localLimit := by omega
      simp [reserve, conflict, hTail, hLimit, this, eq_comm]

end SlotSpace

end MethodLocals
