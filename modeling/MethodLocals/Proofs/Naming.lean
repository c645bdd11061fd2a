import Mathlib.Tactic.ByContra
import MethodLocals.Proofs.Widening

/-! Names and slots of a table that the passes build. Different names have different slots, so what
is recorded in the slot of a name was recorded under that name. -/

namespace MethodLocals

variable {us : List Use} {t : Table} {name : String}

/-- What is recorded by the binding of a name that counts: that of the last parameter under it, or
else that of the receiver. -/
def Header.binding? (h : Header) (name : String) : Option Usage :=
  (h.bindings.reverse.find? (·.name = name)).map Mention.usage

theorem Header.binds_of_mem_bindings {h : Header} {m : Mention} (hm : m ∈ h.bindings) :
    m.refining = false ∧ m.occurrence.binds = true := by
  rcases List.mem_append.1 hm with hm | hm
  · unfold receiverMentions at hm
    split at hm
    · cases hm
    · obtain rfl := List.mem_singleton.1 hm
      exact ⟨rfl, rfl⟩
  · obtain ⟨item, -, rfl⟩ := List.mem_map.1 hm
    exact ⟨rfl, rfl⟩

/-- The last use of a name records the binding that counts, where the uses are the bindings. -/
theorem usage_last_of_bindings {h : Header} (hbindings : us.map Use.mention = h.bindings)
    (name : String) : (us.reverse.find? (·.name = name)).map Use.usage = h.binding? name := by
  rw [Header.binding?, ← hbindings, ← List.map_reverse, List.find?_map, Option.map_map]
  rfl

theorem Chosen.name_eq_of_slot_eq (h : Chosen us) {u v : Use} (hu : u ∈ us) (hv : v ∈ us)
    (hslot : u.slot = v.slot) : u.name = v.name := by
  obtain ⟨i, hi⟩ := List.mem_iff_getElem?.1 hu
  obtain ⟨j, hj⟩ := List.mem_iff_getElem?.1 hv
  obtain ⟨k, w, -, hk, hopens, hw⟩ := h.exists_opening hi
  have huw := (h.name_eq hk hopens hi hw.symm).2
  have hvw := (h.name_eq hk hopens hj (hslot.symm.trans hw.symm)).2
  rw [huw, hvw]

theorem Chosen.slot_lt_of_binds (h : Chosen us) {i j : Nat} {u v : Use} (hij : i < j)
    (hu : us[i]? = some u) (hv : us[j]? = some v) (hbinds : v.occurrence.binds = true) :
    u.slot < v.slot := by
  have hle := h.add_width_le hv (.inl hbinds) hij hu
  have hwidth := u.type.width_eq_one_or_two
  omega

theorem Chosen.of_append {vs : List Use} (h : Chosen (us ++ vs)) : Chosen us := by
  intro i u hi
  have hlt := (List.getElem?_eq_some_iff.1 hi).1
  have hplaced := h i u ((List.getElem?_append_left hlt).trans hi)
  rwa [List.take_append_of_le_length (Nat.le_of_lt hlt)] at hplaced

theorem Chosen.pairwise_slot_lt (h : Chosen us) (hbinds : ∀ u ∈ us, u.occurrence.binds = true) :
    us.Pairwise (·.slot < ·.slot) := by
  rw [List.pairwise_iff_getElem]
  intro i j hi hj hij
  exact h.slot_lt_of_binds hij (List.getElem?_eq_getElem hi) (List.getElem?_eq_getElem hj)
    (hbinds _ (List.getElem_mem hj))

namespace Table

theorem Built.last_eq (h : Built us t) (slot : Nat) :
    (t.record? slot).map Record.last = (us.reverse.find? (·.slot = slot)).map Use.usage := by
  induction h with
  | empty => rfl
  | @use us t t' u _ hu ih =>
    rw [record?_use hu, List.reverse_append, List.reverse_singleton, List.singleton_append,
      List.find?_cons]
    by_cases hslot : slot = u.slot
    · simp only [hslot, if_true, decide_true, Option.map_some]
      split <;> rfl
    · have hne : u.slot ≠ slot := fun e => hslot e.symm
      simp [hslot, hne, ih]
  | stage _ _ ih => exact ih

theorem Laid.exists_last_use (h : Laid us t) {slot : Nat} (hslot : t.slotOf? name = some slot) :
    ∃ (i : Nat) (u : Use), us[i]? = some u ∧ u.name = name ∧ u.slot = slot ∧
      ∀ j v, i < j → us[j]? = some v → v.name ≠ name := by
  rw [h.built.slotOf?_eq] at hslot
  obtain ⟨u, hu, rfl⟩ := Option.map_eq_some_iff.1 hslot
  obtain ⟨i, hi, hname, hlatest⟩ := exists_index_of_find?_reverse hu
  exact ⟨i, u, hi, of_decide_eq_true hname, rfl,
    fun j v hij hv => of_decide_eq_false (hlatest j v hij hv)⟩

/-- A use has the slot of its name unless the name is bound again. -/
theorem Laid.slot_eq_of_named (h : Laid us t) {slot : Nat} (hslot : t.slotOf? name = some slot)
    {j : Nat} {u : Use} (hu : us[j]? = some u) (hname : u.name = name)
    (hunbound : ∀ l w, j < l → us[l]? = some w → w.name = name → w.occurrence.binds = false) :
    u.slot = slot := by
  obtain ⟨i, last, hi, hlast, rfl, hlatest⟩ := h.exists_last_use hslot
  have hji : j ≤ i := by
    by_contra hij
    exact hlatest j u (by omega) hu hname
  exact (h.chosen.slot_eq hu hji hi (hlast.trans hname.symm) fun l w hjl _ hw hwn =>
    hunbound l w hjl hw (hwn.trans hname)).symm

theorem Laid.exists_named (h : Laid us t) {slot : Nat} (hslot : t.slotOf? name = some slot) :
    ∃ r, t.named? name = some r ∧ t.record? slot = some r := by
  obtain ⟨i, u, hi, -, hu, -⟩ := h.exists_last_use hslot
  obtain ⟨r, hr⟩ := (h.built.exists_record_iff slot).2 ⟨u, List.mem_of_getElem? hi, hu⟩
  exact ⟨r, by rw [named?, hslot]; exact hr, hr⟩

theorem Laid.last_named (h : Laid us t) (name : String) :
    (t.named? name).map Record.last = (us.reverse.find? (·.name = name)).map Use.usage := by
  rw [named?, h.built.slotOf?_eq]
  cases hlast : us.reverse.find? (·.name = name) with
  | none => rfl
  | some u =>
    obtain ⟨hname, later, earlier, heq, hlater⟩ := List.find?_eq_some_iff_append.1 hlast
    have hmem : ∀ v ∈ us.reverse, v ∈ us := fun v => List.mem_reverse.1
    have hslot : us.reverse.find? (·.slot = u.slot) = some u := by
      refine List.find?_eq_some_iff_append.2 ⟨by simp, later, earlier, heq, fun v hv => ?_⟩
      have hne := hlater v hv
      simp only [Bool.not_eq_true', decide_eq_false_iff_not] at hne ⊢
      intro hvu
      have hvmem : v ∈ us := hmem v (heq ▸ List.mem_append_left _ hv)
      have humem : u ∈ us := hmem u (List.mem_of_find?_eq_some hlast)
      exact hne ((h.chosen.name_eq_of_slot_eq hvmem humem hvu).trans (of_decide_eq_true hname))
    rw [Option.map_some, Option.bind_some, h.built.last_eq, hslot]

end Table

end MethodLocals
