import MethodLocals.FieldType
import MethodLocals.SlotSpace

/-! The bounds of a slot space are exact: they are the maxima over everything committed to it, also
when slots below the largest one are committed late. -/

namespace MethodLocals

theorem FieldType.width_eq_one_or_two (t : FieldType) : t.width = 1 ∨ t.width = 2 := by
  rcases t with b | r
  · cases b <;> simp [FieldType.width, BaseType.width, BaseType.kind, NumberKind.width]
  · exact .inl rfl

/-- A bound that is attained unless it is zero is the maximum, that of nothing being zero. -/
theorem getD_max?_eq {ns : List Nat} {n : Nat} (hle : ∀ k ∈ ns, k ≤ n) (hmem : n ≠ 0 → n ∈ ns) :
    ns.max?.getD 0 = n := by
  cases hmax : ns.max? with
  | none =>
    obtain rfl := List.max?_eq_none_iff.1 hmax
    by_cases hzero : n = 0
    · rw [hzero, Option.getD_none]
    · cases hmem hzero
  | some k =>
    obtain ⟨hk, hbound⟩ := List.max?_eq_some_iff.1 hmax
    have hkn := hle k hk
    rw [Option.getD_some]
    by_cases hzero : n = 0
    · omega
    · have hnk := hbound n (hmem hzero)
      omega

namespace SlotSpace

/-- The slots are what the commits, each a slot and a width, lead to. -/
structure Accounts (a : SlotSpace) (commits : List (Nat × Nat)) : Prop where
  widths : ∀ c ∈ commits, c.2 = 1 ∨ c.2 = 2
  le_next : ∀ c ∈ commits, c.1 + c.2 ≤ a.next
  next_mem : a.next ≠ 0 → ∃ c ∈ commits, c.1 + c.2 = a.next
  le_high : ∀ c ∈ commits, c.1 ≤ a.high
  high_mem : a.high ≠ 0 → ∃ c ∈ commits, c.1 = a.high
  wide_iff : ∀ slot, a.isWide slot = true ↔ (slot, 2) ∈ commits

theorem accounts_empty : empty.Accounts [] := by
  constructor <;> simp [empty, isWide]

namespace Accounts

variable {a : SlotSpace} {commits : List (Nat × Nat)}

/-- A commit below the largest slot stays below the next free one, whatever its width. -/
theorem add_le_next (h : a.Accounts commits) {slot width : Nat} (hslot : slot < a.high)
    (hw : width = 1 ∨ width = 2) : slot + width ≤ a.next := by
  obtain ⟨c, hc, hhigh⟩ := h.high_mem (by omega)
  have hwidth := h.widths c hc
  have hnext := h.le_next c hc
  omega

theorem commit (h : a.Accounts commits) {slot width : Nat} (hw : width = 1 ∨ width = 2) :
    (a.commit slot width).Accounts (commits ++ [(slot, width)]) where
  widths := by
    intro c hc
    rcases List.mem_append.1 hc with hc | hc
    · exact h.widths c hc
    · rw [List.mem_singleton.1 hc]
      exact hw
  le_next := by
    intro c hc
    simp only [SlotSpace.commit]
    rcases List.mem_append.1 hc with hc | hc
    · have := h.le_next c hc
      split <;> omega
    · rw [List.mem_singleton.1 hc]
      split
      · exact Nat.le_max_right _ _
      · exact h.add_le_next (by omega) hw
  next_mem := by
    intro hne
    simp only [SlotSpace.commit] at hne ⊢
    by_cases hold : a.high ≤ slot ∧ a.next < slot + width
    · refine ⟨(slot, width), by simp, ?_⟩
      rw [if_pos hold.1]
      omega
    · have hnext : (if a.high ≤ slot then max a.next (slot + width) else a.next) = a.next := by
        split <;> omega
      rw [hnext] at hne ⊢
      obtain ⟨c, hc, hcn⟩ := h.next_mem hne
      exact ⟨c, List.mem_append_left _ hc, hcn⟩
  le_high := by
    intro c hc
    simp only [SlotSpace.commit]
    rcases List.mem_append.1 hc with hc | hc
    · have := h.le_high c hc
      split <;> omega
    · rw [List.mem_singleton.1 hc]
      split <;> omega
  high_mem := by
    intro hne
    simp only [SlotSpace.commit] at hne ⊢
    split
    · exact ⟨(slot, width), by simp, rfl⟩
    · rename_i hlt
      rw [if_neg hlt] at hne
      obtain ⟨c, hc, hch⟩ := h.high_mem hne
      exact ⟨c, List.mem_append_left _ hc, hch⟩
  wide_iff := by
    intro other
    rw [isWide_commit, h.wide_iff, List.mem_append, List.mem_singleton, Prod.mk.injEq]
    constructor
    · rintro (hc | ⟨rfl, rfl⟩)
      · exact .inl hc
      · exact .inr ⟨rfl, rfl⟩
    · rintro (hc | ⟨rfl, rfl⟩)
      · exact .inl hc
      · exact .inr ⟨rfl, rfl⟩

theorem high_le_next (h : a.Accounts commits) : a.high ≤ a.next := by
  by_cases hzero : a.high = 0
  · omega
  · obtain ⟨c, hc, hhigh⟩ := h.high_mem hzero
    have hnext := h.le_next c hc
    omega

theorem isTail_next (h : a.Accounts commits) : a.isTail a.next = false := by
  rw [Bool.eq_false_iff]
  intro htail
  obtain ⟨head, hhead, hwide⟩ := (isTail_iff a a.next).1 htail
  have hle := h.le_next (head, 2) ((h.wide_iff head).1 hwide)
  simp only at hle
  omega

theorem reserve_next (h : a.Accounts commits) (width : Nat) :
    a.reserve a.next width =
      if a.next + width ≤ localLimit then .ok (a.commit a.next width)
      else .error (.tooManyLocals a.next width) := by
  unfold reserve conflict
  rw [h.isTail_next]
  by_cases hlimit : a.next + width ≤ localLimit
  · simp [hlimit, Nat.not_lt.2 hlimit]
  · simp [hlimit, Nat.not_le.1 hlimit]

theorem next_commit (h : a.Accounts commits) (width : Nat) :
    (a.commit a.next width).next = a.next + width := by
  simp only [SlotSpace.commit, if_pos h.high_le_next]
  omega

end Accounts

end SlotSpace

end MethodLocals
