import MethodLocals.Proofs.Calls

/-! Records and slots in step. The width of a slot is kept twice, in its record and with the slots
taken, and the bounds of the slots are kept beside the records. Whatever calls are made and however
they end, the two agree, also about uses that a refinement has dropped. -/

namespace MethodLocals

theorem FieldType.width_eq_two_iff {t : FieldType} :
    t.width = 2 ↔ t = .base .long ∨ t = .base .double := by
  rcases t with b | r
  · cases b <;> simp [width, BaseType.width, BaseType.kind, NumberKind.width]
  · simp [width]

namespace Table

def largest (f : Record → Nat) (t : Table) : Nat := (t.records.map f).max?.getD 0

/-- The slots taken are those of the records, which are as wide as uses have made them. -/
structure InStep (t : Table) (us : List Use) : Prop where
  /-- A slot is wide exactly if it has a wide record. -/
  isWide_iff_record : ∀ slot, t.slots.isWide slot = true ↔
    ∃ r, t.record? slot = some r ∧ r.wide = true
  /-- A slot is wide exactly if it has been used for a long or a double. -/
  isWide_iff_used : ∀ slot, t.slots.isWide slot = true ↔
    ∃ u ∈ us, u.slot = slot ∧ (u.type = .base .long ∨ u.type = .base .double)
  high_eq : t.slots.high = t.largest Record.slot
  maxLocals_eq : t.maxLocals = t.largest fun r => r.slot + r.width
  maxLocals_le : t.maxLocals ≤ localLimit

namespace Built

variable {us : List Use} {t : Table} {r : Record} {slot : Nat}

theorem isWide_iff (h : Built us t) (slot : Nat) :
    t.slots.isWide slot = true ↔ ∃ u ∈ us, u.slot = slot ∧ u.isWide = true := by
  rw [h.accounts.wide_iff, List.mem_map]
  simp only [Use.commit, Prod.mk.injEq, Use.isWide_iff]

theorem isWide_iff_record (h : Built us t) (slot : Nat) :
    t.slots.isWide slot = true ↔ ∃ r, t.record? slot = some r ∧ r.wide = true := by
  rw [h.isWide_iff]
  constructor
  · rintro ⟨u, hu, hslot, hwide⟩
    obtain ⟨r, hr⟩ := (h.exists_record_iff slot).2 ⟨u, hu, hslot⟩
    exact ⟨r, hr, (h.wide_iff hr).2 ⟨u, hu, hslot, hwide⟩⟩
  · rintro ⟨r, hr, hwide⟩
    exact (h.wide_iff hr).1 hwide

theorem exists_mem_records (h : Built us t) {u : Use} (hu : u ∈ us) :
    ∃ r ∈ t.records, r.slot = u.slot := by
  obtain ⟨r, hr⟩ := (h.exists_record_iff u.slot).2 ⟨u, hu, rfl⟩
  exact ⟨r, List.mem_of_find?_eq_some hr, by simpa using List.find?_some hr⟩

/-- A record is as wide as the widest use of its slot. -/
theorem exists_use_of_mem (h : Built us t) (hr : r ∈ t.records) :
    (∃ u ∈ us, u.slot = r.slot ∧ u.type.width = r.width) ∧
      ∀ u ∈ us, u.slot = r.slot → u.type.width ≤ r.width := by
  have hrecord := h.mem_records_iff.1 hr
  have hwide := h.wide_iff hrecord
  unfold Record.width
  split
  · rename_i hr
    obtain ⟨u, hu, hslot, hwidth⟩ := hwide.1 hr
    refine ⟨⟨u, hu, hslot, u.isWide_iff.1 hwidth⟩, fun v _ _ => ?_⟩
    have hv := v.type.width_eq_one_or_two
    omega
  · rename_i hnarrow
    have hone : ∀ u ∈ us, u.slot = r.slot → u.type.width = 1 := by
      intro u hu hslot
      refine u.type.width_eq_one_or_two.resolve_right fun hwidth => hnarrow ?_
      exact hwide.2 ⟨u, hu, hslot, u.isWide_iff.2 hwidth⟩
    obtain ⟨u, hu, hslot⟩ := (h.exists_record_iff r.slot).1 ⟨r, hrecord⟩
    exact ⟨⟨u, hu, hslot, hone u hu hslot⟩, fun v hv hvslot => Nat.le_of_eq (hone v hv hvslot)⟩

theorem high_eq (h : Built us t) : t.slots.high = t.largest Record.slot := by
  refine (getD_max?_eq (fun slot hslot => ?_) fun hne => ?_).symm
  · obtain ⟨r, hr, rfl⟩ := List.mem_map.1 hslot
    obtain ⟨⟨u, hu, hslot, -⟩, -⟩ := h.exists_use_of_mem hr
    rw [← hslot]
    exact h.accounts.le_high _ (List.mem_map_of_mem hu)
  · obtain ⟨c, hc, hhigh⟩ := h.accounts.high_mem hne
    obtain ⟨u, hu, rfl⟩ := List.mem_map.1 hc
    obtain ⟨r, hr, hslot⟩ := h.exists_mem_records hu
    exact List.mem_map.2 ⟨r, hr, hslot.trans hhigh⟩

theorem maxLocals_eq (h : Built us t) : t.maxLocals = t.largest fun r => r.slot + r.width := by
  have hle : ∀ r ∈ t.records, r.slot + r.width ≤ t.slots.next := by
    intro r hr
    obtain ⟨⟨u, hu, hslot, hwidth⟩, -⟩ := h.exists_use_of_mem hr
    rw [← hslot, ← hwidth]
    exact h.accounts.le_next _ (List.mem_map_of_mem hu)
  refine (getD_max?_eq (fun bound hbound => ?_) fun hne => ?_).symm
  · obtain ⟨r, hr, rfl⟩ := List.mem_map.1 hbound
    exact hle r hr
  · obtain ⟨c, hc, hnext⟩ := h.accounts.next_mem hne
    obtain ⟨u, hu, rfl⟩ := List.mem_map.1 hc
    obtain ⟨r, hr, hslot⟩ := h.exists_mem_records hu
    have hwidth := (h.exists_use_of_mem hr).2 u hu hslot.symm
    refine List.mem_map.2 ⟨r, hr, Nat.le_antisymm (hle r hr) ?_⟩
    change t.slots.next ≤ r.slot + r.width
    rw [← hnext, hslot]
    exact Nat.add_le_add_left hwidth _

theorem maxLocals_le (h : Built us t) : t.maxLocals ≤ localLimit := by
  by_cases hzero : t.slots.next = 0
  · rw [maxLocals, hzero]
    exact Nat.zero_le _
  · obtain ⟨c, hc, hnext⟩ := h.accounts.next_mem hzero
    obtain ⟨u, hu, rfl⟩ := List.mem_map.1 hc
    rw [maxLocals, ← hnext]
    exact h.le_limit u hu

end Built

/-- Records and slots are in step after any calls on an empty table. -/
theorem inStep_of_calls (calls : List Call) : (ofCalls calls).InStep (recordedUses calls) where
  isWide_iff_record := (built_ofCalls calls).isWide_iff_record
  isWide_iff_used slot := by
    rw [(built_ofCalls calls).isWide_iff]
    simp only [Use.isWide_iff, FieldType.width_eq_two_iff]
  high_eq := (built_ofCalls calls).high_eq
  maxLocals_eq := (built_ofCalls calls).maxLocals_eq
  maxLocals_le := (built_ofCalls calls).maxLocals_le

end Table

end MethodLocals
