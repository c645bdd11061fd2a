import Mathlib.Data.List.Nodup
import MethodLocals.Proofs.Calls

/-! Records in an arena. Records are appended to one list and never move, and two indexes lead to
them, one by slot and one by name. Whatever calls are made and however they end, the indexes and the
records agree, and what the arena holds is what the table of slots holds. -/

namespace MethodLocals

/-- A record as an arena stores it. It is created before its first usage. -/
structure StoredRecord where
  slot : Nat
  name : String
  usages : List Usage
  wide : Bool
  refined : Bool
  deriving DecidableEq

namespace StoredRecord

def fresh (slot : Nat) (name : String) : StoredRecord := ⟨slot, name, [], false, false⟩

/-- The record after one more use. The first refining one drops the usages before it. -/
def touch (r : StoredRecord) (u : Use) : StoredRecord where
  slot := r.slot
  name := u.name
  usages := (if u.refining && !r.refined then [] else r.usages) ++ [u.usage]
  wide := r.wide || u.isWide
  refined := r.refined || u.refining

@[simp] theorem touch_slot (r : StoredRecord) (u : Use) : (r.touch u).slot = r.slot := rfl

@[simp] theorem touch_name (r : StoredRecord) (u : Use) : (r.touch u).name = u.name := rfl

theorem touch_usages_ne_nil (r : StoredRecord) (u : Use) : (r.touch u).usages ≠ [] :=
  List.append_ne_nil_of_right_ne_nil _ (List.cons_ne_nil _ _)

end StoredRecord

def Record.stored (r : Record) : StoredRecord := ⟨r.slot, r.name, r.usages, r.wide, r.refined⟩

theorem Record.stored_add (r : Record) (u : Use) : (r.add u).stored = r.stored.touch u := by
  unfold stored
  rw [usages_add]
  unfold isRestartedBy StoredRecord.touch
  dsimp only [add]
  split <;> rfl

theorem Record.stored_ofUse (u : Use) :
    (Record.ofUse u).stored = (StoredRecord.fresh u.slot u.name).touch u := by
  simp [stored, StoredRecord.touch, StoredRecord.fresh, ofUse, usages]

/-- Why a slot is not committed: a conflict, or its end does not fit into a machine word. -/
inductive Refusal where
  | conflict (conflict : SlotConflict)
  | overflow

def Refusal.stop (source : Element) : Refusal → Stop
  | .conflict c => .failed ⟨source, .allocation c⟩
  | .overflow => .overflow

/-- A way to commit a slot of a width. It may go wrong at the end of the machine word. -/
abbrev Allocator := SlotSpace → Nat → Nat → Except Refusal SlotSpace

def Allocator.unbounded : Allocator := fun slots slot width =>
  (slots.reserve slot width).mapError .conflict

/-- Does a call end because a record or a usage is missing where one is taken for granted? -/
def Stop.IsBrokenLink : Stop → Prop
  | .noRecord _ | .noUsage _ => True
  | .failed _ | .outOfOrder _ | .overflow => False

theorem Refusal.not_isBrokenLink (source : Element) (refusal : Refusal) :
    ¬ (refusal.stop source).IsBrokenLink := by
  cases refusal <;> simp [stop, Stop.IsBrokenLink]

/-- Records in the order of their first commit, the indexes that lead to them, the slots taken and
the passes done. -/
structure Arena where
  records : List StoredRecord
  bySlot : List (Nat × Nat)
  byName : List (String × Nat)
  slots : SlotSpace
  stage : Stage

namespace Arena

def empty : Arena := ⟨[], [], [], .empty, .empty⟩

def get? (a : Arena) (slot : Nat) : Option StoredRecord :=
  (a.bySlot.lookup slot).bind fun index => a.records[index]?

def named? (a : Arena) (name : String) : Option StoredRecord :=
  (a.byName.lookup name).bind fun index => a.records[index]?

def slotOf? (a : Arena) (name : String) : Option Nat := (a.named? name).map StoredRecord.slot

/-- Where the record of a slot is. A slot without one gets a fresh record after the others. -/
def locate (a : Arena) (u : Use) : Arena × Nat :=
  match a.bySlot.lookup u.slot with
  | some index => (a, index)
  | none => ({ a with
      records := a.records ++ [.fresh u.slot u.name]
      bySlot := (u.slot, a.records.length) :: a.bySlot }, a.records.length)

def commit (allocate : Allocator) (a : Arena) (u : Use) : Except Stop Arena :=
  match allocate a.slots u.slot u.type.width with
  | .error refusal => .error (refusal.stop u.source)
  | .ok slots =>
    let (found, index) := { a with slots }.locate u
    match found.records[index]? with
    | none => .error (.noRecord index)
    | some r => .ok { found with
        records := found.records.set index (r.touch u)
        byName := Table.bind u.name index found.byName }

def follow (a : Arena) (index : Nat) : Except Stop StoredRecord :=
  match a.records[index]? with
  | none => .error (.noRecord index)
  | some r => .ok r

def accessUse (r : StoredRecord) (index : Nat) (ref : VariableRef) : Except Stop Use :=
  match r.usages.getLast? with
  | none => .error (.noUsage r.slot)
  | some last =>
    match ref.access.recordedType (some last.type) ref.type with
    | .ok type => .ok ⟨r.slot, ref.name, type, .instruction index, false⟩
    | .error conflict =>
      .error (.failed ⟨.instruction index, .typeConflict r.slot ref.name conflict⟩)

def choose (a : Arena) : Visit → Except Stop Use
  | .use u => .ok u
  | .parameter p index => .ok ⟨a.slots.next, p.name, p.type, .parameter index, false⟩
  | .access index ref =>
    match a.byName.lookup ref.name with
    | none => .ok ⟨a.slots.next, ref.name, ref.type, .instruction index, false⟩
    | some k => (a.follow k).bind fun r => accessUse r index ref
  | .reference index name type =>
    match a.byName.lookup name with
    | none => .ok ⟨a.slots.next, name, type, .instruction index, true⟩
    | some k => (a.follow k).bind fun r => .ok ⟨r.slot, name, type, .instruction index, true⟩

def storage (allocate : Allocator) : Storage Arena where
  empty := .empty
  stage := Arena.stage
  withStage a stage := { a with stage }
  visit a v :=
    match (a.choose v).bind (a.commit allocate) with
    | .error stop => (a, some stop)
    | .ok a' => (a', none)

structure Linked (a : Arena) : Prop where
  /-- No two records have the same slot. -/
  slots_nodup : (a.records.map StoredRecord.slot).Nodup
  /-- A slot leads to an index exactly if the record there has that slot. -/
  bySlot_iff : ∀ slot index, a.bySlot.lookup slot = some index ↔
    ∃ r, a.records[index]? = some r ∧ r.slot = slot
  /-- A name leads to a record. -/
  byName_valid : ∀ name index, a.byName.lookup name = some index → ∃ r, a.records[index]? = some r
  /-- The record of a name is the one in the slot of the name. -/
  named?_eq : ∀ name, a.named? name = (a.slotOf? name).bind a.get?
  /-- The name of a record is bound. -/
  name_bound : ∀ r ∈ a.records, ∃ index, a.byName.lookup r.name = some index
  /-- A record has a usage. -/
  usages_ne_nil : ∀ r ∈ a.records, r.usages ≠ []

variable {a a' : Arena} {u : Use} {index : Nat}

/-- Distinct slots, and one record for a name whichever way it is found, come with exact indexes. -/
theorem Linked.of_links
    (bySlot_iff : ∀ slot index, a.bySlot.lookup slot = some index ↔
      ∃ r, a.records[index]? = some r ∧ r.slot = slot)
    (byName_valid : ∀ name index, a.byName.lookup name = some index →
      ∃ r, a.records[index]? = some r)
    (name_bound : ∀ r ∈ a.records, ∃ index, a.byName.lookup r.name = some index)
    (usages_ne_nil : ∀ r ∈ a.records, r.usages ≠ []) : a.Linked where
  slots_nodup := by
    refine List.nodup_iff_getElem?_ne_getElem?.2 fun i j hij hj heq => ?_
    rw [List.length_map] at hj
    have hi : i < a.records.length := by omega
    rw [List.getElem?_map, List.getElem?_map, List.getElem?_eq_getElem hi,
      List.getElem?_eq_getElem hj, Option.map_some, Option.map_some, Option.some.injEq] at heq
    have hsame : some i = some j := by
      rw [← (bySlot_iff _ i).2 ⟨_, List.getElem?_eq_getElem hi, rfl⟩, heq]
      exact (bySlot_iff _ j).2 ⟨_, List.getElem?_eq_getElem hj, rfl⟩
    rw [Option.some.injEq] at hsame
    omega
  bySlot_iff := bySlot_iff
  byName_valid := byName_valid
  named?_eq name := by
    unfold slotOf?
    cases hn : a.named? name with
    | none => rfl
    | some r =>
      obtain ⟨index, -, hr⟩ := Option.bind_eq_some_iff.1 hn
      rw [Option.map_some, Option.bind_some, get?, (bySlot_iff _ index).2 ⟨r, hr, rfl⟩,
        Option.bind_some, hr]
  name_bound := name_bound
  usages_ne_nil := usages_ne_nil

theorem linked_empty : Arena.empty.Linked :=
  .of_links (by simp [empty]) (by simp [empty]) (by simp [empty]) (by simp [empty])

theorem Linked.withStage (h : a.Linked) (stage : Stage) : { a with stage }.Linked := { h with }

/-- What a use changes: the record at one index, which is that of its slot, and where its slot and
its name lead. -/
structure Committed (a a' : Arena) (u : Use) (index : Nat) : Prop where
  le_length : index ≤ a.records.length
  only : ∀ i r, a.records[i]? = some r → (r.slot = u.slot ↔ i = index)
  records : ∀ i, a'.records[i]? = if i = index then
      some ((a.records[index]?.getD (.fresh u.slot u.name)).touch u)
    else a.records[i]?
  bySlot : ∀ slot, a'.bySlot.lookup slot =
    if slot = u.slot then some index else a.bySlot.lookup slot
  byName : ∀ name, a'.byName.lookup name =
    if name = u.name then some index else a.byName.lookup name

namespace Committed

theorem slot_eq (h : Committed a a' u index) :
    (a.records[index]?.getD (.fresh u.slot u.name)).slot = u.slot := by
  cases hr : a.records[index]? with
  | none => rfl
  | some r => exact (h.only index r hr).2 rfl

theorem mem_records (h : Committed a a' u index) {r : StoredRecord} (hr : r ∈ a'.records) :
    r = (a.records[index]?.getD (.fresh u.slot u.name)).touch u ∨ r ∈ a.records := by
  obtain ⟨i, hi⟩ := List.mem_iff_getElem?.1 hr
  rw [h.records] at hi
  split at hi
  · exact .inl (Option.some.inj hi).symm
  · exact .inr (List.mem_of_getElem? hi)

theorem linked (hc : Committed a a' u index) (h : a.Linked) : a'.Linked := by
  refine .of_links (fun slot i => ?_) (fun name i hi => ?_) (fun r hr => ?_) (fun r hr => ?_)
  · rw [hc.bySlot, hc.records]
    by_cases hi : i = index
    · subst hi
      by_cases hs : slot = u.slot
      · simp [hs, hc.slot_eq]
      · have hs' : u.slot ≠ slot := fun e => hs e.symm
        -- an old slot does not lead to the record of the use
        have hnot : a.bySlot.lookup slot ≠ some i := by
          intro hlookup
          obtain ⟨r, hr, hslot⟩ := (h.bySlot_iff slot i).1 hlookup
          exact hs (hslot.symm.trans ((hc.only i r hr).2 rfl))
        simp [hs, hs', hnot, hc.slot_eq]
    · rw [if_neg hi]
      by_cases hs : slot = u.slot
      · have hnot : ¬ ∃ r, a.records[i]? = some r ∧ r.slot = slot := by
          rintro ⟨r, hr, hslot⟩
          exact hi ((hc.only i r hr).1 (hslot.trans hs))
        have hi' : index ≠ i := fun e => hi e.symm
        simp [hs ▸ hnot, hs, hi']
      · rw [if_neg hs]
        exact h.bySlot_iff slot i
  · rw [hc.records]
    split
    · exact ⟨_, rfl⟩
    · rename_i hne
      rw [hc.byName] at hi
      split at hi
      · exact absurd (Option.some.inj hi).symm hne
      · exact h.byName_valid name i hi
  · rw [hc.byName]
    split
    · exact ⟨index, rfl⟩
    · rename_i hname
      rcases hc.mem_records hr with rfl | hr
      · exact absurd rfl hname
      · exact h.name_bound r hr
  · rcases hc.mem_records hr with rfl | hr
    · exact StoredRecord.touch_usages_ne_nil _ u
    · exact h.usages_ne_nil r hr

end Committed

theorem Linked.commit_eq (h : a.Linked) (allocate : Allocator) (u : Use) :
    match allocate a.slots u.slot u.type.width with
    | .error refusal => a.commit allocate u = .error (refusal.stop u.source)
    | .ok slots => ∃ a' index, a.commit allocate u = .ok a' ∧ Committed a a' u index ∧
        a'.slots = slots ∧ a'.stage = a.stage := by
  unfold commit
  cases allocate a.slots u.slot u.type.width with
  | error refusal => rfl
  | ok slots =>
    dsimp only [locate]
    cases hlookup : a.bySlot.lookup u.slot with
    | some index =>
      obtain ⟨r, hr, hslot⟩ := (h.bySlot_iff u.slot index).1 hlookup
      dsimp only
      rw [hr]
      obtain ⟨hlt, -⟩ := List.getElem?_eq_some_iff.1 hr
      refine ⟨_, index, rfl, ⟨Nat.le_of_lt hlt, fun i r' hr' => ?_, fun i => ?_, fun slot => ?_,
        fun name => Table.lookup_bind u.name name index a.byName⟩, rfl, rfl⟩
      · constructor
        · intro hslot'
          have hi := (h.bySlot_iff u.slot i).2 ⟨r', hr', hslot'⟩
          exact Option.some.inj (hi.symm.trans hlookup)
        · rintro rfl
          rw [← hslot, Option.some.inj (hr.symm.trans hr')]
      · rw [List.getElem?_set, hr, Option.getD_some]
        by_cases hi : i = index
        · simp [hi, hlt]
        · simp [hi, Ne.symm hi]
      · by_cases hs : slot = u.slot
        · simp [hs, hlookup]
        · simp [hs]
    | none =>
      have hlast : (a.records ++ [StoredRecord.fresh u.slot u.name])[a.records.length]? =
          some (.fresh u.slot u.name) := by simp
      dsimp only
      rw [hlast]
      refine ⟨_, a.records.length, rfl, ⟨Nat.le_refl _, fun i r' hr' => ?_, fun i => ?_,
        fun slot => ?_, fun name => Table.lookup_bind u.name name _ a.byName⟩, rfl, rfl⟩
      · obtain ⟨hlt, -⟩ := List.getElem?_eq_some_iff.1 hr'
        refine iff_of_false (fun hslot => ?_) (Nat.ne_of_lt hlt)
        rw [(h.bySlot_iff u.slot i).2 ⟨r', hr', hslot⟩] at hlookup
        cases hlookup
      · rw [List.getElem?_set, List.getElem?_append]
        by_cases hi : i = a.records.length
        · simp [hi]
        · by_cases hlt : i < a.records.length
          · simp [hi, Ne.symm hi, hlt]
          · have hgt : a.records.length < i := by omega
            simp [hi, Ne.symm hi, hlt]
            omega
      · rw [List.lookup_cons]
        by_cases hs : slot = u.slot
        · simp [hs]
        · have hbeq : (slot == u.slot) = false := by simpa using hs
          rw [hbeq, if_neg hs]

end Arena

end MethodLocals
