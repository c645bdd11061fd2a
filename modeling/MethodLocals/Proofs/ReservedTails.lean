import MethodLocals.Proofs.Naming

/-! When references cannot be refined. Refining commits the slot of each reference once more, against
the wide slots that are known when all code has been resolved. It is refused if the slot lies right
above a variable that became wide after the slot had been handed out, and for no other reason. -/

namespace MethodLocals

/-- The variable that the mention `j` opens is the next one after the one that `i` opens, it keeps its
name, and the lower one is mentioned with a wide type at `k`. -/
structure OverrunsAt (os : List Occurrence) (i j k : Nat) (x y z : Occurrence) : Prop
    extends WidensAt os i j k x y z where
  next : ∀ l o, i < l → l < j → ¬ OpensAt os l o
  kept : ∀ l o, j < l → os[l]? = some o → o.name = y.name → o.binds = false

/-- A variable that is accessed as a reference lies right above one that became wide too late. -/
def Method.OverrunsReference (m : Method) : Prop :=
  ∃ i j k x y z, OverrunsAt m.occurrences i j k x y z ∧
    ∃ item ∈ Table.referenceAccesses m.code, item.2.name = y.name

variable {us : List Use}

theorem SlotSpace.isTail_commit_one (a : SlotSpace) (slot other : Nat) :
    (a.commit slot 1).isTail other = a.isTail other := by
  cases other <;> simp [isTail, isWide, commit]

theorem Chosen.slot_eq_succ (h : Chosen us) {i j : Nat} {u v : Use} (hu : us[i]? = some u)
    (huo : u.occurrence.Opens ((us.take i).map Use.occurrence)) (hij : i < j)
    (hv : us[j]? = some v) (hvo : v.occurrence.Opens ((us.take j).map Use.occurrence))
    (hnarrow : ∀ l w, i ≤ l → l < j → us[l]? = some w → w.name = u.name → w.isWide = false)
    (hnext : ∀ l o, i < l → l < j → ¬ OpensAt (us.map Use.occurrence) l o) :
    v.slot = u.slot + 1 := by
  obtain ⟨w, hw, hslot⟩ := h.exists_slot_succ hu huo hij hv hvo hnarrow
  obtain ⟨b, hb⟩ := List.mem_iff_getElem?.1 hw
  obtain ⟨l, o, -, hl, hlo, hol⟩ := h.exists_opening hb
  have habove := h.add_width_le hv hvo hij hu
  have hwidth := u.type.width_eq_one_or_two
  have hil : i < l := by
    rcases Nat.lt_trichotomy i l with hil | rfl | hli
    · exact hil
    · obtain rfl : u = o := Option.some.inj (hu.symm.trans hl)
      omega
    · have := h.add_width_le hu huo hli hl
      omega
  rcases Nat.lt_trichotomy l j with hlj | rfl | hjl
  · exact absurd (opensAt_map_iff.2 ⟨o, hl, rfl, hlo⟩) (hnext l o.occurrence hil hlj)
  · obtain rfl : v = o := Option.some.inj (hv.symm.trans hl)
    omega
  · have := h.add_width_le hl hlo hjl hv
    have := v.type.width_eq_one_or_two
    omega

namespace Table

variable {t t' : Table} {slot : Nat} {name : String} {analysis : Analysis}
  {item : Nat × VariableRef}

/-- Names are bound to the same slots, and the same slots belong to wide values below them. -/
structure SameSlots (s t : Table) : Prop where
  slotOf?_eq : ∀ name, t.slotOf? name = s.slotOf? name
  isTail_eq : ∀ slot, t.slots.isTail slot = s.slots.isTail slot

def refiningUse (analysis : Analysis) (item : Nat × VariableRef) (slot : Nat) : Use :=
  ⟨slot, item.2.name, analysis.refinedType item.1 item.2.name, .instruction item.1, true⟩

theorem width_refiningUse : (refiningUse analysis item slot).type.width = 1 := by
  simp only [refiningUse, Analysis.refinedType]
  split <;> rfl

theorem Built.refineAccess_eq (h : Built us t) (hslot : t.slotOf? item.2.name = some slot) :
    t.refineAccess analysis item = t.use (refiningUse analysis item slot) := by
  obtain ⟨index, ref⟩ := item
  have hfor : t.slotFor ref.name = slot := by
    cases hr : t.named? ref.name with
    | none =>
      rw [h.named?_eq_none_iff, hslot] at hr
      cases hr
    | some r =>
      rw [slotFor, hr]
      exact Option.some.inj ((slotOf?_of_named? hr).1.symm.trans hslot)
  rw [Table.refineAccess, hfor]
  rfl

theorem Built.refineAccess_of_isTail (h : Built us t) (hslot : t.slotOf? item.2.name = some slot)
    (htail : t.slots.isTail slot = true) : t.refineAccess analysis item =
      .error ⟨.instruction item.1, .allocation (.reservedTail slot)⟩ := by
  have hconflict : t.slots.conflict slot (refiningUse analysis item slot).type.width =
      some (.reservedTail slot) := by
    rw [SlotSpace.conflict, if_pos htail]
  rw [h.refineAccess_eq hslot, Table.use]
  simp only [refiningUse, SlotSpace.reserve] at hconflict ⊢
  rw [hconflict]

theorem Built.refineAccess_of_not_isTail (h : Built us t) (analysis : Analysis)
    (hslot : t.slotOf? item.2.name = some slot) (htail : t.slots.isTail slot = false) :
    ∃ u t', t.refineAccess analysis item = .ok t' ∧ Built (us ++ [u]) t' ∧ SameSlots t t' := by
  have hlimit : slot + 1 ≤ localLimit := by
    rw [h.slotOf?_eq] at hslot
    obtain ⟨u, hu, rfl⟩ := Option.map_eq_some_iff.1 hslot
    have := h.le_limit u (List.mem_reverse.1 (List.mem_of_find?_eq_some hu))
    have := u.type.width_eq_one_or_two
    omega
  have hfits : slot + (refiningUse analysis item slot).type.width ≤ localLimit := by
    rw [width_refiningUse]
    exact hlimit
  have hok := (use_eq_ok_iff (u := refiningUse analysis item slot)).2 ⟨htail, hfits, rfl⟩
  refine ⟨_, _, (h.refineAccess_eq hslot).trans hok, h.use hok, fun name => ?_, fun other => ?_⟩
  · rw [slotOf?_use hok]
    split
    · rename_i hname
      rw [hname]
      exact hslot.symm
    · rfl
  · rw [width_refiningUse]
    exact t.slots.isTail_commit_one slot other

/-- Refining goes well if no slot lies right above a wide one, and stops at the first that does. -/
theorem Built.refine_cases {items : List (Nat × VariableRef)} (h : Built us t)
    (analysis : Analysis) (hnames : ∀ item ∈ items, ∃ slot, t.slotOf? item.2.name = some slot) :
    (∃ t', t.steps (Table.refineAccess analysis) items = (t', none) ∧
      ∀ item ∈ items, ∀ slot, t.slotOf? item.2.name = some slot → t.slots.isTail slot = false) ∨
    ∃ t', ∃ item ∈ items, ∃ slot, t.slotOf? item.2.name = some slot ∧
      t.slots.isTail slot = true ∧ t.steps (Table.refineAccess analysis) items =
        (t', some ⟨.instruction item.1, .allocation (.reservedTail slot)⟩) := by
  induction items generalizing us t with
  | nil => exact .inl ⟨t, rfl, fun item hitem => absurd hitem List.not_mem_nil⟩
  | cons item rest ih =>
    obtain ⟨slot, hslot⟩ := hnames item List.mem_cons_self
    cases htail : t.slots.isTail slot with
    | true =>
      refine .inr ⟨t, item, List.mem_cons_self, slot, hslot, htail, ?_⟩
      rw [steps, h.refineAccess_of_isTail hslot htail]
    | false =>
      obtain ⟨u, next, hstep, hbuilt, hsame⟩ :=
        h.refineAccess_of_not_isTail analysis hslot htail
      have hrest : ∀ other ∈ rest, ∃ slot, next.slotOf? other.2.name = some slot := by
        intro other hother
        rw [hsame.slotOf?_eq]
        exact hnames other (List.mem_cons_of_mem _ hother)
      rcases ih hbuilt hrest with ⟨t', hrun, hfree⟩ | ⟨t', other, hother, slot', hslot', htail', hrun⟩
      · refine .inl ⟨t', by rw [steps, hstep]; exact hrun, fun other hother slot' hslot' => ?_⟩
        rcases List.mem_cons.1 hother with rfl | hother
        · rw [hslot, Option.some.injEq] at hslot'
          exact hslot' ▸ htail
        · rw [← hsame.isTail_eq]
          exact hfree other hother slot' ((hsame.slotOf?_eq _).trans hslot')
      · refine .inr ⟨t', other, List.mem_cons_of_mem _ hother, slot', ?_, ?_, ?_⟩
        · rwa [← hsame.slotOf?_eq]
        · rwa [← hsame.isTail_eq]
        · rw [steps, hstep]
          exact hrun

/-- The slots right above wide ones belong to variables that were opened next after a narrow one
which became wide late. -/
theorem Laid.isTail_slotOf?_iff (h : Laid us t) (hslot : t.slotOf? name = some slot) :
    t.slots.isTail slot = true ↔
      ∃ i j k x y z, OverrunsAt (us.map Use.occurrence) i j k x y z ∧ y.name = name := by
  have haccounts := h.built.accounts
  constructor
  · intro htail
    obtain ⟨head, rfl, hwide⟩ := (SlotSpace.isTail_iff _ _).1 htail
    obtain ⟨p, hp, hcommit⟩ := List.mem_map.1 ((haccounts.wide_iff head).1 hwide)
    obtain ⟨hps, hpw⟩ := Prod.mk.inj hcommit
    obtain ⟨k, hk⟩ := List.mem_iff_getElem?.1 hp
    obtain ⟨b, q, hb, hqn, hqs, hlatest⟩ := h.exists_last_use hslot
    obtain ⟨i, j, u, v, hu, hv, hup, hvq, hwidens⟩ :=
      h.chosen.exists_openings hk hb (p.isWide_iff.2 hpw) (by rw [hqs, hps])
    obtain ⟨_, hv', _, hvo⟩ := opensAt_map_iff.1 hwidens.second
    obtain rfl := Option.some.inj (hv.symm.trans hv')
    have hvname : v.name = name := by
      rw [← (h.chosen.name_eq hv hvo hb hvq.symm).2, hqn]
    refine ⟨i, j, k, _, _, _, ⟨hwidens, fun l o hil hlj hopens => ?_, fun l o hjl hl hname => ?_⟩,
      hvname⟩
    · -- A variable opened in between would have its slot between the two.
      obtain ⟨w, hw, -, hwo⟩ := opensAt_map_iff.1 hopens
      have := h.chosen.add_width_le hw hwo hil hu
      have := h.chosen.add_width_le hv hvo hlj hw
      have := u.type.width_eq_one_or_two
      have := w.type.width_eq_one_or_two
      omega
    · rw [List.getElem?_map] at hl
      obtain ⟨w, hw, rfl⟩ := Option.map_eq_some_iff.1 hl
      have hlb : l ≤ b := by
        by_contra hbl
        exact hlatest l w (by omega) hw (hname.trans hvname)
      exact h.chosen.binds_eq_false hv hvo hb hvq.symm hjl hlb hw hname
  · rintro ⟨i, j, k, x, y, z, hover, rfl⟩
    obtain ⟨u, v, p, hu, huo, hv, rfl, hvo, hp, hwide, hps, hnarrow⟩ :=
      h.chosen.exists_widened hover.toWidensAt
    have hsucc := h.chosen.slot_eq_succ hu huo hover.before hv hvo hnarrow hover.next
    have hvslot : v.slot = slot := h.slot_eq_of_named hslot hv rfl fun l w hjl hw hname =>
      hover.kept l w.occurrence hjl (by rw [List.getElem?_map, hw, Option.map_some]) hname
    refine (SlotSpace.isTail_iff _ _).2 ⟨p.slot, by omega, (haccounts.wide_iff _).2 ?_⟩
    exact List.mem_map.2 ⟨p, hp, Prod.ext rfl (p.isWide_iff.1 hwide)⟩

/-- The references of a method whose code has been resolved can be refined, whatever the analysis
found, unless one of them lies right above a variable that became wide late; then its slot cannot
be committed. -/
theorem refine_done_iff_not_overrunsReference {m : Method} {t₁ t₂ t₃ : Table}
    (hreceiver : empty.bindReceiver m.header = (t₁, .done))
    (hparameters : t₁.bindParameters m.header.parameters = (t₂, .done))
    (hcode : t₂.resolveCode m.code = (t₃, .done)) (analysis : Analysis) :
    ((t₃.refine m.code analysis).2 = .done ↔ ¬ m.OverrunsReference) ∧
      ((t₃.refine m.code analysis).2 ≠ .done → ∃ item ∈ referenceAccesses m.code, ∃ slot,
        t₃.slotOf? item.2.name = some slot ∧ (t₃.refine m.code analysis).2 =
          .failed ⟨.instruction item.1, .allocation (.reservedTail slot)⟩) := by
  obtain ⟨us, hus, hused, hlaid⟩ := exists_uses_of_code hreceiver hparameters hcode
  have hstage : t₃.stage = .syntacticallyResolved := by
    obtain ⟨result, -, rfl⟩ := runPass_eq_done hcode
    rfl
  have hnames : ∀ item ∈ referenceAccesses m.code, ∃ slot, t₃.slotOf? item.2.name = some slot := by
    intro item hitem
    obtain ⟨u, hu, hname⟩ := hused item (List.mem_filter.1 hitem).1
    cases hslot : t₃.slotOf? item.2.name with
    | none => exact absurd hname (hlaid.built.name_ne_of_slotOf?_eq_none hslot u hu)
    | some slot => exact ⟨slot, rfl⟩
  have hover : m.OverrunsReference ↔ ∃ item ∈ referenceAccesses m.code, ∃ slot,
      t₃.slotOf? item.2.name = some slot ∧ t₃.slots.isTail slot = true := by
    rw [Method.OverrunsReference, ← hus]
    constructor
    · rintro ⟨i, j, k, x, y, z, hover, item, hitem, hname⟩
      obtain ⟨slot, hslot⟩ := hnames item hitem
      exact ⟨item, hitem, slot, hslot,
        (hlaid.isTail_slotOf?_iff hslot).2 ⟨i, j, k, x, y, z, hover, hname.symm⟩⟩
    · rintro ⟨item, hitem, slot, hslot, htail⟩
      obtain ⟨i, j, k, x, y, z, hover, hname⟩ := (hlaid.isTail_slotOf?_iff hslot).1 htail
      exact ⟨i, j, k, x, y, z, hover, item, hitem, hname.symm⟩
  rw [hover, refine, runPass_of_stage .references (Table.refineAccess analysis) hstage]
  rcases hlaid.built.refine_cases analysis hnames with
    ⟨t', hrun, hfree⟩ | ⟨t', item, hitem, slot, hslot, htail, hrun⟩
  · rw [hrun]
    refine ⟨⟨fun _ ⟨item, hitem, slot, hslot, htail⟩ => ?_, fun _ => rfl⟩, fun hne => absurd rfl hne⟩
    rw [hfree item hitem slot hslot] at htail
    cases htail
  · rw [hrun]
    refine ⟨⟨fun hdone => ?_, fun hnot => absurd ⟨item, hitem, slot, hslot, htail⟩ hnot⟩,
      fun _ => ⟨item, hitem, slot, hslot, rfl⟩⟩
    cases hdone

/-- `x` is an int when the reference `y` gets the slot above it, and a long in the end. -/
def referenceAbove : Method where
  header := ⟨.object, "run", .ofBits _ 8, [], none⟩
  code := [.push .int, .store .int "x", .pushNull, .storeRef "y", .push .long,
    .store .long "x", .returnVoid]

theorem exists_passes_referenceAbove : ∃ t₁ t₂ t₃,
    empty.bindReceiver referenceAbove.header = (t₁, .done) ∧
      t₁.bindParameters referenceAbove.header.parameters = (t₂, .done) ∧
      t₂.resolveCode referenceAbove.code = (t₃, .done) ∧
      (t₃.refine referenceAbove.code ⟨[]⟩).2 =
        .failed ⟨.instruction 3, .allocation (.reservedTail 1)⟩ := by
  have hdone : (andThen (andThen (empty.bindReceiver referenceAbove.header)
      (·.bindParameters referenceAbove.header.parameters))
      (·.resolveCode referenceAbove.code)).2 = .done := by decide
  obtain ⟨t₂, hparameters, hcode⟩ := andThen_eq_done (Prod.ext rfl hdone)
  obtain ⟨t₁, hreceiver, hparameters⟩ := andThen_eq_done hparameters
  exact ⟨t₁, t₂, _, hreceiver, hparameters, hcode, by decide⟩

theorem referenceAbove_refused : ∃ t₁ t₂ t₃,
    empty.bindReceiver referenceAbove.header = (t₁, .done) ∧
      t₁.bindParameters referenceAbove.header.parameters = (t₂, .done) ∧
      t₂.resolveCode referenceAbove.code = (t₃, .done) ∧ referenceAbove.OverrunsReference ∧
      (t₃.refine referenceAbove.code ⟨[]⟩).2 =
        .failed ⟨.instruction 3, .allocation (.reservedTail 1)⟩ := by
  obtain ⟨t₁, t₂, t₃, hreceiver, hparameters, hcode, hrefused⟩ := exists_passes_referenceAbove
  have hrefine := refine_done_iff_not_overrunsReference hreceiver hparameters hcode ⟨[]⟩
  refine ⟨t₁, t₂, t₃, hreceiver, hparameters, hcode, ?_, hrefused⟩
  by_contra hover
  have hok := hrefine.1.2 hover
  rw [hrefused] at hok
  cases hok

/-- Not every method whose code has been resolved can be refined. -/
theorem not_forall_refine_done :
    ¬ ∀ (m : Method) (t₁ t₂ t₃ : Table) (analysis : Analysis),
      empty.bindReceiver m.header = (t₁, .done) →
      t₁.bindParameters m.header.parameters = (t₂, .done) →
      t₂.resolveCode m.code = (t₃, .done) → (t₃.refine m.code analysis).2 = .done := by
  intro h
  obtain ⟨t₁, t₂, t₃, hreceiver, hparameters, hcode, hrefused⟩ := exists_passes_referenceAbove
  have hdone := h referenceAbove t₁ t₂ t₃ ⟨[]⟩ hreceiver hparameters hcode
  rw [hrefused] at hdone
  cases hdone

end Table

end MethodLocals
