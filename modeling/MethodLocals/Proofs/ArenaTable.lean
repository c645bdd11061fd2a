import MethodLocals.Proofs.Arena

/-! An arena beside the table of slots. No call on an arena runs into a missing record or usage, and
with slots of any size the two hold the same records and answer each call alike. -/

namespace MethodLocals

/-- A use changes the record at one index, or appends one. -/
theorem Table.getElem?_place {u : Use} {records : List Record} {index : Nat}
    (hle : index ≤ records.length)
    (honly : ∀ i r, records[i]? = some r → (r.slot = u.slot ↔ i = index)) (i : Nat) :
    (place u records)[i]? = if i = index then
        some (match records[index]? with
          | some r => r.add u
          | none => .ofUse u)
      else records[i]? := by
  induction records generalizing i index with
  | nil =>
    obtain rfl : index = 0 := by simpa using hle
    cases i <;> simp [place]
  | cons first rest ih =>
    have hfirst := honly 0 first rfl
    rw [place]
    cases index with
    | zero =>
      rw [if_pos (hfirst.2 rfl)]
      cases i <;> simp
    | succ index =>
      rw [if_neg fun hslot => absurd (hfirst.1 hslot) (by omega)]
      cases i with
      | zero => simp
      | succ i =>
        have hrest := ih (Nat.le_of_succ_le_succ hle) (fun j r hr => by
          have hj := honly (j + 1) r hr
          omega) i
        simpa using hrest

structure Table.Linked (t : Table) : Prop where
  /-- No two records have the same slot. -/
  slots_nodup : (t.records.map Record.slot).Nodup
  /-- A record is found in its slot. -/
  mem_records_iff : ∀ r, r ∈ t.records ↔ t.record? r.slot = some r
  /-- A name leads to a slot with a record. -/
  slotOf?_valid : ∀ name slot, t.slotOf? name = some slot → ∃ r, t.record? slot = some r
  /-- The name of a record is bound. -/
  name_bound : ∀ r ∈ t.records, ∃ slot, t.slotOf? r.name = some slot

theorem Record.getLast?_usages (r : Record) : r.usages.getLast? = some r.last := by
  simp [usages]

namespace Arena

variable {a a' : Arena} {t t' : Table} {u : Use} {index : Nat}

namespace Linked

theorem exists_named?_of_lookup (h : a.Linked) {name : String}
    (hlookup : a.byName.lookup name = some index) :
    ∃ r ∈ a.records, a.follow index = .ok r ∧ a.named? name = some r := by
  obtain ⟨r, hr⟩ := h.byName_valid name index hlookup
  refine ⟨r, List.mem_of_getElem? hr, ?_, ?_⟩
  · rw [follow, hr]
  · rw [named?, hlookup, Option.bind_some, hr]

theorem not_isBrokenLink_of_choose (h : a.Linked) {v : Visit} {stop : Stop}
    (hv : a.choose v = .error stop) : ¬ stop.IsBrokenLink := by
  cases v with
  | use u => cases hv
  | parameter p i => cases hv
  | access i ref =>
    unfold choose at hv
    cases hlookup : a.byName.lookup ref.name with
    | none => simp [hlookup] at hv
    | some k =>
      obtain ⟨r, hr, hfollow, -⟩ := h.exists_named?_of_lookup hlookup
      simp only [hlookup, hfollow, Except.bind, accessUse,
        List.getLast?_eq_getLast_of_ne_nil (h.usages_ne_nil r hr)] at hv
      split at hv
      · cases hv
      · cases hv
        exact not_false
  | reference i name type =>
    unfold choose at hv
    cases hlookup : a.byName.lookup name with
    | none => simp [hlookup] at hv
    | some k =>
      obtain ⟨r, -, hfollow, -⟩ := h.exists_named?_of_lookup hlookup
      simp [hlookup, hfollow, Except.bind] at hv

/-- A visit keeps the arena linked, and does not run into anything missing. -/
theorem visit (h : a.Linked) (allocate : Allocator) (v : Visit) :
    ((storage allocate).visit a v).1.Linked ∧
      ∀ stop, ((storage allocate).visit a v).2 = some stop → ¬ stop.IsBrokenLink := by
  dsimp only [storage]
  cases hv : a.choose v with
  | error stop =>
    refine ⟨h, fun stop' hstop => ?_⟩
    cases hstop
    exact h.not_isBrokenLink_of_choose hv
  | ok u =>
    dsimp only [Except.bind]
    have hcommit := h.commit_eq allocate u
    cases hslots : allocate a.slots u.slot u.type.width with
    | error refusal =>
      rw [hslots] at hcommit
      rw [hcommit]
      refine ⟨h, fun stop hstop => ?_⟩
      cases hstop
      exact refusal.not_isBrokenLink u.source
    | ok slots =>
      rw [hslots] at hcommit
      obtain ⟨a', index, hok, hcommitted, -, -⟩ := hcommit
      rw [hok]
      exact ⟨hcommitted.linked h, fun stop hstop => by cases hstop⟩

end Linked

/-- An arena does what it does, linked throughout and never for want of a record or a usage. -/
theorem storage_simulates_self (allocate : Allocator) :
    (storage allocate).Simulates (storage allocate) (fun x y => x = y ∧ x.Linked)
      (fun stop stop' => stop = stop' ∧ ¬ stop.IsBrokenLink) where
  empty := ⟨rfl, linked_empty⟩
  stage h := congrArg Arena.stage h.1
  withStage stage h := ⟨by rw [h.1], h.2.withStage stage⟩
  visit v h := by
    obtain ⟨rfl, hlinked⟩ := h
    obtain ⟨hkept, hstop⟩ := hlinked.visit allocate v
    refine ⟨⟨rfl, hkept⟩, ?_⟩
    cases hv : ((storage allocate).visit _ v).2 with
    | none => exact .none
    | some stop => exact .some ⟨rfl, hstop stop hv⟩
  failed _ := ⟨rfl, not_false⟩
  outOfOrder _ := ⟨rfl, not_false⟩

/-- The arena holds the records of the table, and its indexes lead where those of the table do. -/
structure Represents (a : Arena) (t : Table) : Prop where
  records : a.records = t.records.map Record.stored
  get?_eq : ∀ slot, a.get? slot = (t.record? slot).map Record.stored
  named?_eq : ∀ name, a.named? name = (t.named? name).map Record.stored
  slotOf?_eq : ∀ name, a.slotOf? name = t.slotOf? name
  slots : a.slots = t.slots
  stage : a.stage = t.stage

theorem Linked.get?_eq_find? (h : a.Linked) (slot : Nat) :
    a.get? slot = a.records.find? (·.slot = slot) := by
  unfold get?
  cases hlookup : a.bySlot.lookup slot with
  | none =>
    refine (List.find?_eq_none.2 fun r hr hslot => ?_).symm
    obtain ⟨i, hi⟩ := List.mem_iff_getElem?.1 hr
    rw [(h.bySlot_iff slot i).2 ⟨r, hi, by simpa using hslot⟩] at hlookup
    cases hlookup
  | some index =>
    obtain ⟨r, hr, hslot⟩ := (h.bySlot_iff slot index).1 hlookup
    obtain ⟨hlt, hget⟩ := List.getElem?_eq_some_iff.1 hr
    rw [Option.bind_some, hr, eq_comm, List.find?_eq_some_iff_getElem]
    refine ⟨by simpa using hslot, index, hlt, hget, fun j hj => ?_⟩
    -- an earlier record of the slot would be the one that the index leads to
    have hne : a.records[j].slot ≠ slot := by
      intro hslot'
      have hlookup' := (h.bySlot_iff slot j).2 ⟨_, List.getElem?_eq_getElem (by omega), hslot'⟩
      have := Option.some.inj (hlookup.symm.trans hlookup')
      omega
    simpa using hne

theorem Represents.of_records (h : a.Linked) (records : a.records = t.records.map Record.stored)
    (slotOf?_eq : ∀ name, a.slotOf? name = t.slotOf? name) (slots : a.slots = t.slots)
    (stage : a.stage = t.stage) : a.Represents t := by
  have get?_eq (slot : Nat) : a.get? slot = (t.record? slot).map Record.stored := by
    rw [h.get?_eq_find?, records, List.find?_map]
    rfl
  refine ⟨records, get?_eq, fun name => ?_, slotOf?_eq, slots, stage⟩
  rw [h.named?_eq, slotOf?_eq, Table.named?, Option.map_bind]
  exact congrArg _ (funext get?_eq)

theorem represents_empty : Arena.empty.Represents .empty :=
  .of_records linked_empty rfl (fun _ => rfl) rfl rfl

theorem Committed.slotOf?_eq (hc : Committed a a' u index) (h : a.Linked) (name : String) :
    a'.slotOf? name = if name = u.name then some u.slot else a.slotOf? name := by
  unfold slotOf? named?
  rw [hc.byName]
  split
  · rw [Option.bind_some, hc.records, if_pos rfl, Option.map_some, StoredRecord.touch_slot,
      hc.slot_eq]
  · cases hlookup : a.byName.lookup name with
    | none => rfl
    | some k =>
      obtain ⟨r, hr⟩ := h.byName_valid name k hlookup
      rw [Option.bind_some, Option.bind_some, hc.records, hr]
      split
      · rename_i hk
        subst hk
        rw [hr]
        rfl
      · rfl

namespace Represents

theorem use (h : a.Represents t) (hlinked : a.Linked) (hc : Committed a a' u index)
    (hu : t.use u = .ok t') (hslots : a'.slots = t'.slots) (hstage : a'.stage = a.stage) :
    a'.Represents t' := by
  refine .of_records (hc.linked hlinked) ?_ (fun name => ?_) hslots ?_
  · obtain ⟨-, -, rfl⟩ := Table.use_eq_ok_iff.1 hu
    have hget (i : Nat) : a.records[i]? = t.records[i]?.map Record.stored := by
      rw [h.records, List.getElem?_map]
    have hle : index ≤ t.records.length := by
      have hle := hc.le_length
      rwa [h.records, List.length_map] at hle
    have honly : ∀ i r, t.records[i]? = some r → (r.slot = u.slot ↔ i = index) := by
      intro i r hr
      refine hc.only i r.stored ?_
      rw [hget, hr, Option.map_some]
    refine List.ext_getElem? fun i => ?_
    rw [hc.records, List.getElem?_map, Table.getElem?_place hle honly]
    split
    · rw [hget, Option.map_some]
      cases t.records[index]? with
      | none => rw [Option.map_none, Option.getD_none, Record.stored_ofUse]
      | some r => rw [Option.map_some, Option.getD_some, Record.stored_add]
    · exact hget i
  · rw [hc.slotOf?_eq hlinked, Table.slotOf?_use hu, h.slotOf?_eq]
  · obtain ⟨-, -, rfl⟩ := Table.use_eq_ok_iff.1 hu
    exact hstage.trans h.stage

theorem lookup_cases (h : a.Represents t) (hlinked : a.Linked) (name : String) :
    (a.byName.lookup name = none ∧ t.named? name = none) ∨
      ∃ k r, a.byName.lookup name = some k ∧ a.follow k = .ok r.stored ∧ t.named? name = some r := by
  have hnamed := h.named?_eq name
  cases hlookup : a.byName.lookup name with
  | none =>
    rw [named?, hlookup, Option.bind_none, eq_comm, Option.map_eq_none_iff] at hnamed
    exact .inl ⟨rfl, hnamed⟩
  | some k =>
    obtain ⟨stored, -, hfollow, hstored⟩ := hlinked.exists_named?_of_lookup hlookup
    rw [hstored, eq_comm, Option.map_eq_some_iff] at hnamed
    obtain ⟨r, hnamed, rfl⟩ := hnamed
    exact .inr ⟨k, r, rfl, hfollow, hnamed⟩

theorem choose_eq (h : a.Represents t) (hlinked : a.Linked) (v : Visit) :
    a.choose v = (t.choose v).mapError .failed := by
  cases v with
  | use u => rfl
  | parameter p i =>
    rw [choose, Table.choose, h.slots]
    rfl
  | access i ref =>
    rw [choose, Table.choose]
    rcases h.lookup_cases hlinked ref.name with ⟨hlookup, hnamed⟩ | ⟨k, r, hlookup, hfollow, hnamed⟩
    · rw [hlookup, hnamed, h.slots]
      rfl
    · rw [hlookup, hnamed]
      dsimp only
      rw [hfollow]
      dsimp only [Except.bind, accessUse, Record.stored]
      rw [r.getLast?_usages]
      dsimp only
      cases ref.access.recordedType (some r.last.type) ref.type <;> rfl
  | reference i name type =>
    rw [choose, Table.choose, Table.slotFor]
    rcases h.lookup_cases hlinked name with ⟨hlookup, hnamed⟩ | ⟨k, r, hlookup, hfollow, hnamed⟩
    · rw [hlookup, hnamed, h.slots]
      rfl
    · rw [hlookup, hnamed]
      dsimp only
      rw [hfollow]
      rfl

theorem linked (h : a.Represents t) (hlinked : a.Linked) : t.Linked := by
  have hnodup : (t.records.map Record.slot).Nodup := by
    have hstored := hlinked.slots_nodup
    rwa [h.records, List.map_map] at hstored
  refine ⟨hnodup, fun r => Table.mem_records_iff_of_nodup hnodup, fun name slot hslot => ?_,
    fun r hr => ?_⟩
  · rw [← h.slotOf?_eq, slotOf?, h.named?_eq, Option.map_map, Option.map_eq_some_iff] at hslot
    obtain ⟨r, hnamed, rfl⟩ := hslot
    exact ⟨r, (Table.slotOf?_of_named? hnamed).2⟩
  · obtain ⟨index, hlookup⟩ :=
      hlinked.name_bound r.stored (h.records ▸ List.mem_map_of_mem hr)
    obtain ⟨found, -, -, hnamed⟩ := hlinked.exists_named?_of_lookup hlookup
    refine ⟨found.slot, ?_⟩
    rw [← h.slotOf?_eq, slotOf?]
    exact congrArg _ hnamed

end Represents

/-- With slots of any size, an arena does what the table of slots does. -/
theorem storage_simulates_table :
    (storage .unbounded).Simulates Table.storage (fun a t => a.Linked ∧ a.Represents t) Eq where
  empty := ⟨linked_empty, represents_empty⟩
  stage h := h.2.stage
  withStage stage h := ⟨h.1.withStage stage, { h.2 with stage := rfl }⟩
  visit v h := by
    obtain ⟨hlinked, h⟩ := h
    rename_i a t
    dsimp only [storage, Table.storage]
    rw [h.choose_eq hlinked]
    cases t.choose v with
    | error e => exact ⟨⟨hlinked, h⟩, .some rfl⟩
    | ok u =>
      dsimp only [Except.mapError, Except.bind]
      have hcommit := hlinked.commit_eq .unbounded u
      rw [Allocator.unbounded, h.slots] at hcommit
      cases hreserve : t.slots.reserve u.slot u.type.width with
      | error conflict =>
        rw [hreserve] at hcommit
        rw [hcommit, Table.use, hreserve]
        exact ⟨⟨hlinked, h⟩, .some rfl⟩
      | ok slots =>
        rw [hreserve] at hcommit
        obtain ⟨a', index, hok, hc, rfl, hstage⟩ := hcommit
        obtain ⟨t', hu, hslots⟩ : ∃ t', t.use u = .ok t' ∧ a'.slots = t'.slots :=
          ⟨_, by rw [Table.use, hreserve], rfl⟩
        rw [hok, hu]
        exact ⟨⟨hc.linked hlinked, h.use hlinked hc hu hslots hstage⟩, .none⟩
  failed _ := rfl
  outOfOrder _ := rfl

/-- Whatever calls are made on an empty arena, and whichever way slots are committed, records and
indexes agree after them, and no further call is ended by a missing record or usage. Records and
names of the table of slots agree as well: with slots of any size the arena holds what the table
holds, and answers further calls in the same way. -/
theorem linked_of_calls (calls : List Call) :
    (∀ allocate : Allocator, ((storage allocate).ofCalls calls).Linked ∧
      ∀ c stop, ((storage allocate).call ((storage allocate).ofCalls calls) c).2 = some stop →
        ¬ stop.IsBrokenLink) ∧
    (Table.ofCalls calls).Linked ∧
    ((storage .unbounded).ofCalls calls).Represents (.ofCalls calls) ∧
    ∀ c, ((storage .unbounded).call ((storage .unbounded).ofCalls calls) c).2 =
      ((Table.ofCalls calls).call c).2.stop? := by
  refine ⟨fun allocate => ?_, ?_⟩
  · have hself := storage_simulates_self allocate
    have hcalls := hself.ofCalls calls
    refine ⟨hcalls.2, fun c stop hstop => ?_⟩
    have hc := (hself.call hcalls c).2
    rw [hstop] at hc
    obtain ⟨⟨-, hbroken⟩⟩ := hc
    exact hbroken
  · have hcalls := storage_simulates_table.ofCalls calls
    have hrepresents : ((storage .unbounded).ofCalls calls).Represents (.ofCalls calls) :=
      Table.ofCalls_storage calls ▸ hcalls.2
    refine ⟨hrepresents.linked hcalls.1, hrepresents, fun c => ?_⟩
    rw [(storage_simulates_table.call hcalls c).stop_eq, Table.call_storage, Table.ofCalls_storage]
    rfl

end Arena

end MethodLocals
