import MethodLocals.Proofs.InPlace

/-! Reservations in any order, with everything forgotten now and then. The bounds are kept as running
maxima, and they say as much as the list of all that has been accepted since: that list tells the
bounds and how each next call is answered. -/

namespace MethodLocals

inductive SlotCall where
  | reserve (slot width : Nat) (hwidth : width = 1 ∨ width = 2)
  | clear

namespace SlotSpace

def call (a : SlotSpace) : SlotCall → SlotSpace × Option SlotConflict
  | .reserve slot width _ =>
    match a.reserve slot width with
    | .error conflict => (a, some conflict)
    | .ok a' => (a', none)
  | .clear => (.empty, none)

def afterCalls (a : SlotSpace) (calls : List SlotCall) : SlotSpace :=
  calls.foldl (fun a c => (a.call c).1) a

def answers (a : SlotSpace) : List SlotCall → List (Option SlotConflict)
  | [] => []
  | c :: calls => (a.call c).2 :: (a.call c).1.answers calls

def commitsAfter (commits : List (Nat × Nat)) : SlotCall × Option SlotConflict → List (Nat × Nat)
  | (.reserve slot width _, none) => commits ++ [(slot, width)]
  | (.reserve .., some _) => commits
  | (.clear, _) => []

/-- The slots, with their widths, that have been accepted since the slots were last cleared. -/
def accepted (calls : List SlotCall) : List (Nat × Nat) :=
  (calls.zip (empty.answers calls)).foldl commitsAfter []

def refusal (commits : List (Nat × Nat)) (slot width : Nat) : Option SlotConflict :=
  if 0 < slot ∧ (slot - 1, 2) ∈ commits then some (.reservedTail slot)
  else if slot + width > localLimit then some (.tooManyLocals slot width)
  else none

/-- Everything about the slots can be read off a list of commits. -/
structure DeterminedBy (a : SlotSpace) (commits : List (Nat × Nat)) : Prop where
  high_eq : a.high = (commits.map Prod.fst).max?.getD 0
  next_eq : a.next = (commits.map fun c => c.1 + c.2).max?.getD 0
  next_le : a.next ≤ localLimit
  isWide_iff : ∀ slot, a.isWide slot = true ↔ (slot, 2) ∈ commits
  isTail_iff : ∀ slot, a.isTail slot = true ↔ 0 < slot ∧ (slot - 1, 2) ∈ commits
  /-- The commits tell how a reservation is answered. -/
  answer_eq : ∀ slot width hwidth,
    (a.call (.reserve slot width hwidth)).2 = refusal commits slot width
  failed_unchanged : ∀ c, (a.call c).2 ≠ none → (a.call c).1 = a
  /-- Where slots are taken field by field, a conflict is found before the first field changes. -/
  in_place : ∀ (arena : Arena) (u : Use), arena.slots = a →
    (Arena.reserveInPlace u).on arena = match refusal commits u.slot u.type.width with
      | some conflict => (.error (.failed ⟨u.source, .allocation conflict⟩), arena)
      | none => (.ok (), { arena with slots := a.commit u.slot u.type.width })
  /-- The next free slot lies within no wide value. -/
  next_refusal : ∀ width, refusal commits a.next width =
    if a.next + width > localLimit then some (.tooManyLocals a.next width) else none

variable {a : SlotSpace} {commits commits' : List (Nat × Nat)}

theorem call_reserve (a : SlotSpace) (slot width : Nat) (hwidth : width = 1 ∨ width = 2) :
    a.call (.reserve slot width hwidth) =
      match a.conflict slot width with
      | some conflict => (a, some conflict)
      | none => (a.commit slot width, none) := by
  rw [call, reserve]
  cases a.conflict slot width <;> rfl

theorem call_failed {c : SlotCall} (h : (a.call c).2 ≠ none) : (a.call c).1 = a := by
  cases c with
  | clear => exact absurd rfl h
  | reserve slot width hwidth =>
    rw [call_reserve] at h ⊢
    cases hconflict : a.conflict slot width with
    | some conflict => rfl
    | none =>
      rw [hconflict] at h
      exact absurd rfl h

namespace Accounts

theorem isTail_iff_mem (h : a.Accounts commits) (slot : Nat) :
    a.isTail slot = true ↔ 0 < slot ∧ (slot - 1, 2) ∈ commits := by
  cases slot with
  | zero => simp [isTail]
  | succ head => simpa [isTail] using h.wide_iff head

theorem conflict_eq_refusal (h : a.Accounts commits) (slot width : Nat) :
    a.conflict slot width = refusal commits slot width := by
  simp only [conflict, refusal, h.isTail_iff_mem]

/-- A call changes what is accounted for as its answer says. -/
theorem call (h : a.Accounts commits) (c : SlotCall) :
    (a.call c).1.Accounts (commitsAfter commits (c, (a.call c).2)) := by
  cases c with
  | clear => exact accounts_empty
  | reserve slot width hwidth =>
    rw [call_reserve]
    cases a.conflict slot width with
    | some conflict => exact h
    | none => exact h.commit hwidth

theorem afterCalls (h : a.Accounts commits) (calls : List SlotCall) :
    (a.afterCalls calls).Accounts ((calls.zip (a.answers calls)).foldl commitsAfter commits) := by
  induction calls generalizing a commits with
  | nil => exact h
  | cons c calls ih => exact ih (h.call c)

end Accounts

/-- The limit is checked before a slot is taken. -/
theorem next_call_le (h : a.next ≤ localLimit) (c : SlotCall) :
    (a.call c).1.next ≤ localLimit := by
  cases c with
  | clear => exact Nat.zero_le _
  | reserve slot width hwidth =>
    rw [call]
    cases hreserve : a.reserve slot width with
    | error conflict => exact h
    | ok a' =>
      obtain ⟨-, hlimit, rfl⟩ := reserve_eq_ok_iff.1 hreserve
      simp only [commit]
      split <;> omega

theorem next_afterCalls_le (h : a.next ≤ localLimit) (calls : List SlotCall) :
    (a.afterCalls calls).next ≤ localLimit := by
  induction calls generalizing a with
  | nil => exact h
  | cons c calls ih => exact ih (next_call_le h c)

theorem Accounts.determinedBy (h : a.Accounts commits) (hnext : a.next ≤ localLimit) :
    a.DeterminedBy commits where
  high_eq := by
    refine (getD_max?_eq (fun slot hslot => ?_) fun hne => ?_).symm
    · obtain ⟨c, hc, rfl⟩ := List.mem_map.1 hslot
      exact h.le_high c hc
    · exact List.mem_map.2 (h.high_mem hne)
  next_eq := by
    refine (getD_max?_eq (fun bound hbound => ?_) fun hne => ?_).symm
    · obtain ⟨c, hc, rfl⟩ := List.mem_map.1 hbound
      exact h.le_next c hc
    · exact List.mem_map.2 (h.next_mem hne)
  next_le := hnext
  isWide_iff := h.wide_iff
  isTail_iff := h.isTail_iff_mem
  answer_eq slot width hwidth := by
    rw [call_reserve, ← h.conflict_eq_refusal]
    cases a.conflict slot width <;> rfl
  failed_unchanged c := call_failed
  in_place := by
    rintro arena u rfl
    rw [Arena.on_reserveInPlace, ← h.conflict_eq_refusal, reserve]
    cases arena.slots.conflict u.slot u.type.width <;> rfl
  next_refusal width := by
    rw [← h.conflict_eq_refusal, conflict, h.isTail_next]
    rfl

/-- Whatever calls have been made, the slots are determined by what has been accepted. -/
theorem determinedBy_accepted (calls : List SlotCall) :
    (empty.afterCalls calls).DeterminedBy (accepted calls) :=
  (accounts_empty.afterCalls calls).determinedBy (next_afterCalls_le (Nat.zero_le _) calls)

theorem refusal_congr (h : ∀ c, c ∈ commits ↔ c ∈ commits') (slot width : Nat) :
    refusal commits slot width = refusal commits' slot width := by
  simp only [refusal, h]

theorem mem_commitsAfter_congr (h : ∀ c, c ∈ commits ↔ c ∈ commits')
    (answered : SlotCall × Option SlotConflict) (c : Nat × Nat) :
    c ∈ commitsAfter commits answered ↔ c ∈ commitsAfter commits' answered := by
  obtain ⟨_ | _, _ | _⟩ := answered <;> simp [commitsAfter, h]

theorem Accounts.answers_eq {b : SlotSpace} (ha : a.Accounts commits) (hb : b.Accounts commits')
    (h : ∀ c, c ∈ commits ↔ c ∈ commits') (calls : List SlotCall) :
    a.answers calls = b.answers calls := by
  induction calls generalizing a b commits commits' with
  | nil => rfl
  | cons c calls ih =>
    have hanswer : (a.call c).2 = (b.call c).2 := by
      cases c with
      | clear => rfl
      | reserve slot width hwidth =>
        rw [call_reserve, call_reserve, ha.conflict_eq_refusal, hb.conflict_eq_refusal,
          refusal_congr h]
        cases refusal commits' slot width <;> rfl
    rw [answers, answers, hanswer]
    refine congrArg _ (ih (ha.call c) (hb.call c) ?_)
    rw [hanswer]
    exact mem_commitsAfter_congr h _

/-- Calls after which the same slots and widths have been accepted, in whatever order and whatever was
refused or forgotten before, leave slots that answer all further calls alike. -/
theorem answers_eq_of_accepted {calls calls' : List SlotCall}
    (h : ∀ c, c ∈ accepted calls ↔ c ∈ accepted calls') (more : List SlotCall) :
    (empty.afterCalls calls).answers more = (empty.afterCalls calls').answers more :=
  (accounts_empty.afterCalls calls).answers_eq (accounts_empty.afterCalls calls') h more

end SlotSpace

end MethodLocals
