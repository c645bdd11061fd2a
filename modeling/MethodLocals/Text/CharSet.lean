/-! Sets of characters, given as ranges of code points. A search stops at the first range above the
character; `contains_iff` says that this misses nothing, since the ranges ascend. The sets that are
properties of characters are those of Unicode 17.0. -/

namespace MethodLocals

/-- The first range starts at the bound or above it, and each other one above the end of the one
before it. -/
def ascendingFrom (bound : Nat) : List (Nat × Nat) → Bool
  | [] => true
  | (first, last) :: rest => bound ≤ first && first ≤ last && ascendingFrom (last + 1) rest

/-- Ranges of code points, both ends included. -/
structure CharSet where
  ranges : List (Nat × Nat)
  ascending : ascendingFrom 0 ranges = true := by decide +kernel

namespace CharSet

def covers : List (Nat × Nat) → Nat → Bool
  | [], _ => false
  | (first, last) :: rest, n => first ≤ n && (n ≤ last || covers rest n)

def contains (s : CharSet) (c : Char) : Bool := covers s.ranges c.toNat

theorem bound_le_of_mem {bound : Nat} {ranges : List (Nat × Nat)}
    (ascends : ascendingFrom bound ranges = true) : ∀ r ∈ ranges, bound ≤ r.1 := by
  induction ranges generalizing bound with
  | nil => simp
  | cons range rest ih =>
    simp only [ascendingFrom, Bool.and_eq_true, decide_eq_true_eq] at ascends
    intro r mem
    rcases List.mem_cons.1 mem with rfl | mem
    · exact ascends.1.1
    · have := ih ascends.2 r mem
      omega

theorem covers_iff {bound : Nat} {ranges : List (Nat × Nat)}
    (ascends : ascendingFrom bound ranges = true) (n : Nat) :
    covers ranges n = true ↔ ∃ r ∈ ranges, r.1 ≤ n ∧ n ≤ r.2 := by
  induction ranges generalizing bound with
  | nil => simp [covers]
  | cons range rest ih =>
    simp only [ascendingFrom, Bool.and_eq_true, decide_eq_true_eq] at ascends
    simp only [covers, Bool.and_eq_true, Bool.or_eq_true, decide_eq_true_eq, ih ascends.2,
      List.mem_cons, exists_eq_or_imp]
    constructor
    · rintro ⟨low, high | found⟩
      · exact .inl ⟨low, high⟩
      · exact .inr found
    · rintro (⟨low, high⟩ | ⟨r, mem, low, high⟩)
      · exact ⟨low, .inl high⟩
      · have := bound_le_of_mem ascends.2 r mem
        exact ⟨by omega, .inr ⟨r, mem, low, high⟩⟩

theorem contains_iff (s : CharSet) (c : Char) :
    s.contains c = true ↔ ∃ r ∈ s.ranges, r.1 ≤ c.toNat ∧ c.toNat ≤ r.2 :=
  covers_iff s.ascending c.toNat

end CharSet

end MethodLocals
