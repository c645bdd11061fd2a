import MethodLocals.Resolution
import MethodLocals.Proofs.CommittedSlots

/-! What a table holds after a list of uses: which slots have a record, which of them are wide, and
which slot each name is bound to. -/

namespace MethodLocals

def Use.commit (u : Use) : Nat × Nat := (u.slot, u.type.width)

theorem Use.isWide_iff (u : Use) : u.isWide = true ↔ u.type.width = 2 := by
  have := u.type.width_eq_one_or_two
  simp only [isWide, decide_eq_true_eq]
  omega

namespace Table

/-- A use is accepted unless its slot is the second half of a wide value or lies beyond the limit,
and then it changes the record of its slot and the binding of its name. -/
theorem use_eq_ok_iff {t t' : Table} {u : Use} :
    t.use u = .ok t' ↔ t.slots.isTail u.slot = false ∧ u.slot + u.type.width ≤ localLimit ∧
      t' = { t with
        records := place u t.records
        bindings := bind u.name u.slot t.bindings
        slots := t.slots.commit u.slot u.type.width } := by
  unfold use
  cases hr : t.slots.reserve u.slot u.type.width with
  | error conflict =>
    simp only [reduceCtorEq, false_iff]
    rintro ⟨htail, hlimit, -⟩
    rw [SlotSpace.reserve_eq_ok_iff.2 ⟨htail, hlimit, rfl⟩] at hr
    cases hr
  | ok slots =>
    obtain ⟨htail, hlimit, rfl⟩ := SlotSpace.reserve_eq_ok_iff.1 hr
    simp only [htail, hlimit, true_and, Except.ok.injEq, eq_comm]

theorem record?_use {t t' : Table} {u : Use} (h : t.use u = .ok t') (slot : Nat) :
    t'.record? slot = if slot = u.slot then
        some (match t.record? slot with
          | some r => r.add u
          | none => .ofUse u)
      else t.record? slot := by
  obtain ⟨-, -, rfl⟩ := use_eq_ok_iff.1 h
  exact find?_place u slot t.records

theorem slotOf?_use {t t' : Table} {u : Use} (h : t.use u = .ok t') (name : String) :
    t'.slotOf? name = if name = u.name then some u.slot else t.slotOf? name := by
  obtain ⟨-, -, rfl⟩ := use_eq_ok_iff.1 h
  exact lookup_bind u.name name u.slot t.bindings

theorem stage_of_use {t t' : Table} {u : Use} (h : t.use u = .ok t') : t'.stage = t.stage := by
  obtain ⟨-, -, rfl⟩ := use_eq_ok_iff.1 h
  rfl

theorem error_of_use {t : Table} {u : Use} {e : CompileError} (h : t.use u = .error e) :
    ∃ conflict, e = ⟨u.source, .allocation conflict⟩ := by
  unfold use at h
  split at h
  · rename_i conflict _
    exact ⟨conflict, (Except.error.inj h).symm⟩
  · cases h

theorem slotOf?_of_named? {t : Table} {name : String} {r : Record} (h : t.named? name = some r) :
    t.slotOf? name = some r.slot ∧ t.record? r.slot = some r := by
  obtain ⟨slot, hslot, hrecord⟩ := Option.bind_eq_some_iff.1 h
  have heq : r.slot = slot := by simpa using List.find?_some hrecord
  rw [heq]
  exact ⟨hslot, hrecord⟩

/-- The uses were accepted one after the other, the first one by the empty table. Passes that end
in between do not matter. -/
inductive Built : List Use → Table → Prop
  | empty : Built [] .empty
  | use {us : List Use} {t t' : Table} {u : Use} :
      Built us t → t.use u = .ok t' → Built (us ++ [u]) t'
  | stage {us : List Use} {t : Table} (stage : Stage) : Built us t → Built us { t with stage }

theorem slots_place (u : Use) (records : List Record) :
    (place u records).map Record.slot =
      if u.slot ∈ records.map Record.slot then records.map Record.slot
      else records.map Record.slot ++ [u.slot] := by
  induction records with
  | nil => simp [place, Record.ofUse]
  | cons r rest ih =>
    unfold place
    by_cases h : r.slot = u.slot
    · simp [h, Record.add]
    · have hne : u.slot ≠ r.slot := fun e => h e.symm
      simp only [h, if_false, List.map_cons, ih, List.mem_cons, hne, false_or]
      split <;> simp

theorem mem_records_iff_of_nodup {t : Table} (hn : (t.records.map Record.slot).Nodup) {r : Record} :
    r ∈ t.records ↔ t.record? r.slot = some r := by
  unfold record?
  generalize t.records = records at hn
  induction records with
  | nil => simp
  | cons first rest ih =>
    rw [List.map_cons, List.nodup_cons] at hn
    by_cases hr : first.slot = r.slot
    · have hnot : r ∉ rest := fun hmem => hn.1 (hr ▸ List.mem_map_of_mem hmem)
      simp [hr, hnot, eq_comm]
    · have hne : r ≠ first := fun e => hr (e ▸ rfl)
      simp [hr, hne, ih hn.2]

namespace Built

variable {us : List Use} {t : Table}

theorem accounts (h : Built us t) : t.slots.Accounts (us.map Use.commit) := by
  induction h with
  | empty => exact SlotSpace.accounts_empty
  | use _ hu ih =>
    obtain ⟨-, -, rfl⟩ := use_eq_ok_iff.1 hu
    rw [List.map_append]
    exact ih.commit (FieldType.width_eq_one_or_two _)
  | stage _ _ ih => exact ih

theorem le_limit (h : Built us t) : ∀ u ∈ us, u.slot + u.type.width ≤ localLimit := by
  induction h with
  | empty => exact fun u hu => absurd hu List.not_mem_nil
  | use _ hu ih =>
    intro v hv
    rcases List.mem_append.1 hv with hv | hv
    · exact ih v hv
    · rw [List.mem_singleton.1 hv]
      exact (use_eq_ok_iff.1 hu).2.1
  | stage _ _ ih => exact ih

theorem nodup (h : Built us t) : (t.records.map Record.slot).Nodup := by
  induction h with
  | empty => exact .nil
  | use _ hu ih =>
    obtain ⟨-, -, rfl⟩ := use_eq_ok_iff.1 hu
    rw [slots_place]
    split
    · exact ih
    · rename_i hnew
      refine List.nodup_append.2 ⟨ih, List.pairwise_singleton _ _, ?_⟩
      rintro slot hslot other hother rfl
      rw [List.mem_singleton] at hother
      exact hnew (hother ▸ hslot)
  | stage _ _ ih => exact ih

theorem exists_record_iff (h : Built us t) (slot : Nat) :
    (∃ r, t.record? slot = some r) ↔ ∃ u ∈ us, u.slot = slot := by
  induction h with
  | empty => simp [record?, Table.empty]
  | @use us t t' u _ hu ih =>
    rw [record?_use hu]
    by_cases hs : slot = u.slot
    · simp [hs]
    · have hs' : u.slot ≠ slot := fun e => hs e.symm
      simp [hs, hs', ih]
  | stage _ _ ih => exact ih

theorem wide_iff (h : Built us t) {slot : Nat} {r : Record} (hr : t.record? slot = some r) :
    r.wide = true ↔ ∃ u ∈ us, u.slot = slot ∧ u.isWide = true := by
  induction h generalizing r with
  | empty => simp [record?, Table.empty] at hr
  | @use us t t' u ht hu ih =>
    rw [record?_use hu] at hr
    simp only [List.mem_append, List.mem_singleton, or_and_right, exists_or, exists_eq_left]
    by_cases hs : slot = u.slot
    · rw [if_pos hs, Option.some.injEq] at hr
      subst hs hr
      cases hold : t.record? u.slot with
      | none =>
        have hnew : ¬ ∃ v ∈ us, v.slot = u.slot ∧ v.isWide = true := by
          rintro ⟨v, hv, hvs, -⟩
          obtain ⟨r, hr⟩ := (ht.exists_record_iff u.slot).2 ⟨v, hv, hvs⟩
          rw [hr] at hold
          cases hold
        simp only [Record.ofUse, hnew, false_or, true_and]
      | some r =>
        simp only [Record.add, Bool.or_eq_true, ih hold, true_and]
    · rw [if_neg hs] at hr
      rw [ih hr]
      simp [Ne.symm hs]
  | stage _ _ ih => exact ih hr

theorem mem_records_iff (h : Built us t) {r : Record} :
    r ∈ t.records ↔ t.record? r.slot = some r := mem_records_iff_of_nodup h.nodup

theorem slotOf?_eq (h : Built us t) (name : String) :
    t.slotOf? name = (us.reverse.find? (·.name = name)).map Use.slot := by
  induction h with
  | empty => rfl
  | @use us t t' u _ hu ih =>
    rw [slotOf?_use hu, List.reverse_append, List.reverse_singleton, List.singleton_append,
      List.find?_cons]
    by_cases hn : name = u.name
    · simp [hn]
    · have hne : u.name ≠ name := fun e => hn e.symm
      simp [hn, hne, ih]
  | stage _ _ ih => exact ih

theorem name_ne_of_slotOf?_eq_none (h : Built us t) {name : String} (hn : t.slotOf? name = none) :
    ∀ u ∈ us, u.name ≠ name := by
  rw [h.slotOf?_eq, Option.map_eq_none_iff, List.find?_eq_none] at hn
  intro u hu
  simpa using hn u (List.mem_reverse.2 hu)

theorem named?_eq_none_iff (h : Built us t) (name : String) :
    t.named? name = none ↔ t.slotOf? name = none := by
  unfold named?
  constructor
  · intro hn
    cases hs : t.slotOf? name with
    | none => rfl
    | some slot =>
      rw [h.slotOf?_eq] at hs
      obtain ⟨u, hu, rfl⟩ := Option.map_eq_some_iff.1 hs
      have hmem := List.mem_reverse.1 (List.mem_of_find?_eq_some hu)
      obtain ⟨r, hr⟩ := (h.exists_record_iff u.slot).2 ⟨u, hmem, rfl⟩
      rw [h.slotOf?_eq, hu, Option.map_some, Option.bind_some, hr] at hn
      cases hn
  · intro hs
    rw [hs, Option.bind_none]

theorem isSome_named? (h : Built us t) (name : String) :
    (t.named? name).isSome = (t.slotOf? name).isSome := by
  rw [Bool.eq_iff_iff, Option.isSome_iff_ne_none, Option.isSome_iff_ne_none, Ne,
    h.named?_eq_none_iff]

end Built

end Table

end MethodLocals
