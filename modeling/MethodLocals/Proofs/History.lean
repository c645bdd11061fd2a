import Mathlib.Data.List.Basic
import Mathlib.Data.List.TakeWhile
import MethodLocals.Proofs.Naming

/-! The usages that records keep. The uses of the slot of a name are the binding of the name and
everything under it after that; the first use that refines a record makes the ones before it
obsolete. -/

namespace MethodLocals

variable {us bs rest : List Use} {u : Use} {name : String}

def accessUsages (code : List Instruction) (name : String) : List Usage :=
  ((variableRefs code).filter (·.2.name = name)).map fun item =>
    ⟨.instruction item.1, item.2.type⟩

def Analysis.usages (a : Analysis) (code : List Instruction) (name : String) : List Usage :=
  ((Table.referenceAccesses code).filter (·.2.name = name)).map fun item =>
    ⟨.instruction item.1, a.refinedType item.1 item.2.name⟩

/-- What is known of a variable after all passes. References make everything else obsolete. -/
def Header.history (h : Header) (code refined : List Instruction) (analysis : Analysis)
    (name : String) : List Usage :=
  if analysis.usages refined name = [] then (h.binding? name).toList ++ accessUsages code name
  else analysis.usages refined name

def refinedMention (analysis : Analysis) (item : Nat × VariableRef) : Mention :=
  ⟨item.2.name, ⟨.instruction item.1, analysis.refinedType item.1 item.2.name⟩, true⟩

/-- The uses that a record keeps: those from the first refining one on, or all if there is none. -/
def surviving (us : List Use) : List Use :=
  if us.any Use.refining then us.dropWhile fun u => !u.refining else us

@[simp] theorem surviving_singleton : surviving [u] = [u] := by
  cases hu : u.refining <;> simp [surviving, hu]

theorem surviving_concat : surviving (us ++ [u]) =
    if u.refining && !us.any Use.refining then [u] else surviving us ++ [u] := by
  simp only [surviving, List.any_append, List.any_cons, List.any_nil, Bool.or_false,
    List.dropWhile_append]
  cases hany : us.any Use.refining with
  | true =>
    obtain ⟨v, hv, hrefining⟩ := List.any_eq_true.1 hany
    have hkept : us.dropWhile (fun u => !u.refining) ≠ [] := by
      rw [Ne, List.dropWhile_eq_nil_iff]
      exact fun hnone => by simpa [hrefining] using hnone v hv
    simp [hkept]
  | false =>
    have hnone : us.dropWhile (fun u => !u.refining) = [] :=
      List.dropWhile_eq_nil_iff.2 fun v hv => by
        simpa using List.any_eq_false.1 hany v hv
    cases hu : u.refining <;> simp [hnone, hu]

theorem surviving_append (hus : ∀ u ∈ us, u.refining = false)
    (hrest : ∀ u ∈ rest, u.refining = true) :
    surviving (us ++ rest) = if rest = [] then us else rest := by
  have hdrop : us.dropWhile (fun u => !u.refining) = [] :=
    List.dropWhile_eq_nil_iff.2 fun u hu => by simp [hus u hu]
  have hany : us.any Use.refining = false := by simpa using hus
  cases rest with
  | nil => simp [surviving, hany]
  | cons u rest =>
    have hu := hrest u List.mem_cons_self
    simp [surviving, hu, List.dropWhile_append, hdrop]

theorem usages_of_mentions {ms : List Mention} (h : us.map Use.mention = ms) (name : String) :
    (us.filter (·.name = name)).map Use.usage =
      (ms.filter (·.name = name)).map Mention.usage := by
  rw [← h, List.filter_map, List.map_map]
  rfl

theorem forall_of_mentions {α : Type} {items : List α} {mention : α → Mention}
    (h : us.map Use.mention = items.map mention) (p : Mention → Prop)
    (hp : ∀ item, p (mention item)) : ∀ u ∈ us, p u.mention := by
  intro u hu
  obtain ⟨item, -, hitem⟩ := List.mem_map.1 (h ▸ List.mem_map_of_mem hu)
  exact hitem ▸ hp item

/-- The last binding of a name, its accesses in code and its references leave its history. -/
theorem surviving_eq_history {h : Header} {code refined : List Instruction} {analysis : Analysis}
    {cs rs : List Use} (hbs : bs.map Use.mention = h.bindings)
    (hcs : cs.map Use.mention = (variableRefs code).map accessMention)
    (hrs : rs.map Use.mention = (Table.referenceAccesses refined).map (refinedMention analysis))
    (name : String) :
    (surviving ((bs.reverse.find? (·.name = name)).toList ++
      (cs ++ rs).filter (·.name = name))).map Use.usage = h.history code refined analysis name := by
  have hbinding := usage_last_of_bindings hbs name
  have hcode : (cs.filter (·.name = name)).map Use.usage = accessUsages code name := by
    rw [usages_of_mentions hcs, List.filter_map, List.map_map]
    rfl
  have hrefined : (rs.filter (·.name = name)).map Use.usage = analysis.usages refined name := by
    rw [usages_of_mentions hrs, List.filter_map, List.map_map]
    rfl
  have hbindings : ∀ u ∈ bs, u.refining = false := fun u hu =>
    (Header.binds_of_mem_bindings (hbs ▸ List.mem_map_of_mem hu)).1
  have hunrefined : ∀ u ∈ (bs.reverse.find? (·.name = name)).toList ++
      cs.filter (·.name = name), u.refining = false := by
    intro u hu
    rcases List.mem_append.1 hu with hu | hu
    · have hmem := List.mem_of_find?_eq_some (Option.mem_toList.1 hu)
      exact hbindings u (List.mem_reverse.1 hmem)
    · exact forall_of_mentions hcs (·.refining = false) (fun _ => rfl) u (List.mem_filter.1 hu).1
  have hrefining : ∀ u ∈ rs.filter (·.name = name), u.refining = true := fun u hu =>
    forall_of_mentions hrs (·.refining = true) (fun _ => rfl) u (List.mem_filter.1 hu).1
  rw [List.filter_append, ← List.append_assoc, surviving_append hunrefined hrefining,
    Header.history, ← hrefined]
  simp only [List.map_eq_nil_iff]
  split
  · rw [List.map_append, ← Option.toList_map, hbinding, hcode]
  · rfl

theorem eraseDups_of_nodup {slots : List Nat} (h : slots.Nodup) : slots.eraseDups = slots := by
  induction slots with
  | nil => rfl
  | cons slot rest ih =>
    obtain ⟨hnew, hrest⟩ := List.nodup_cons.1 h
    have hkept : rest.filter (fun other => !other == slot) = rest :=
      List.filter_eq_self.2 fun other hother => by
        have hne : other ≠ slot := fun e => hnew (e ▸ hother)
        simpa using hne
    rw [List.eraseDups_cons, hkept, ih hrest]

/-- A use is the only one of its slot in a list whose slots go up. -/
theorem filter_slot_eq (h : us.Pairwise (·.slot < ·.slot)) (hu : u ∈ us) :
    us.filter (·.slot = u.slot) = [u] := by
  obtain ⟨before, after, rfl⟩ := List.append_of_mem hu
  rw [List.pairwise_append, List.pairwise_cons] at h
  obtain ⟨-, ⟨hafter, -⟩, hbefore⟩ := h
  have hempty : before.filter (·.slot = u.slot) = [] :=
    List.filter_eq_nil_iff.2 fun v hv => by
      have := hbefore v hv u List.mem_cons_self
      simpa using Nat.ne_of_lt this
  have hempty' : after.filter (·.slot = u.slot) = [] :=
    List.filter_eq_nil_iff.2 fun v hv => by
      simpa using Nat.ne_of_gt (hafter v hv)
  rw [List.filter_append, hempty, List.filter_cons_of_pos (by simp), hempty', List.nil_append]

namespace Table

variable {t t' : Table} {r : Record} {slot : Nat}

/-- A record holds the uses of its slot that survive. -/
theorem Built.usages_eq (h : Built us t) (hr : t.record? slot = some r) :
    r.usages = (surviving (us.filter (·.slot = slot))).map Use.usage ∧
      r.refined = (us.filter (·.slot = slot)).any Use.refining := by
  induction h generalizing r with
  | empty => cases hr
  | @use us t t' u ht hu ih =>
    rw [record?_use hu] at hr
    rw [List.filter_append, List.filter_singleton]
    by_cases hslot : slot = u.slot
    · subst hslot
      rw [if_pos rfl, Option.some.injEq] at hr
      simp only [decide_true, cond_true]
      cases hold : t.record? u.slot with
      | none =>
        have hnew : us.filter (·.slot = u.slot) = [] := by
          rw [List.filter_eq_nil_iff]
          intro v hv hslot
          obtain ⟨r, hr⟩ := (ht.exists_record_iff u.slot).2 ⟨v, hv, of_decide_eq_true hslot⟩
          rw [hold] at hr
          cases hr
        rw [hold] at hr
        rw [hnew, ← hr]
        exact ⟨by simp, by simp [Record.ofUse]⟩
      | some old =>
        obtain ⟨husages, hrefined⟩ := ih hold
        rw [hold] at hr
        rw [surviving_concat, ← hr, Record.usages_add, Record.isRestartedBy, hrefined, husages]
        refine ⟨?_, by simp [Record.add, hrefined]⟩
        split <;> simp
    · have hne : u.slot ≠ slot := fun e => hslot e.symm
      rw [if_neg hslot] at hr
      simpa [hne] using ih hr
  | stage _ _ ih => exact ih hr

/-- Records stand in the order in which their slots were first used. -/
theorem Built.slots_eq (h : Built us t) :
    t.records.map Record.slot = (us.map Use.slot).eraseDups := by
  induction h with
  | empty => rfl
  | @use us t t' u _ hu ih =>
    obtain ⟨-, -, rfl⟩ := use_eq_ok_iff.1 hu
    rw [slots_place, ih, List.map_append, List.map_singleton, List.eraseDups_append,
      List.removeAll, List.filter_singleton]
    simp only [List.mem_eraseDups, List.elem_eq_mem, Bool.cond_not]
    by_cases hslot : u.slot ∈ us.map Use.slot
    · simp only [hslot, if_true, decide_true, cond_true, List.eraseDups_nil, List.append_nil]
    · simp only [hslot, if_false, decide_false, cond_false, List.eraseDups_cons, List.filter_nil,
        List.eraseDups_nil]
  | stage _ _ ih => exact ih

section Bindings

variable (h : Laid (bs ++ rest) t) (hbs : ∀ u ∈ bs, u.occurrence.binds = true)
  (hrest : ∀ u ∈ rest, u.occurrence.binds = false)

include hrest in
theorem binds_of_length_le {l : Nat} (hl : bs.length ≤ l) (hu : (bs ++ rest)[l]? = some u) :
    u.occurrence.binds = false := by
  rw [List.getElem?_append_right hl] at hu
  exact hrest u (List.mem_of_getElem? hu)

include h hrest in
/-- After all names are bound, a name is used with its slot only. -/
theorem Laid.slot_eq_iff (hslot : t.slotOf? name = some slot) (hu : u ∈ rest) :
    u.slot = slot ↔ u.name = name := by
  constructor
  · intro huslot
    obtain ⟨i, last, hi, hlast, rfl, -⟩ := h.exists_last_use hslot
    rw [h.chosen.name_eq_of_slot_eq (List.mem_append_right _ hu) (List.mem_of_getElem? hi) huslot,
      hlast]
  · intro hname
    obtain ⟨j, hj⟩ := List.mem_iff_getElem?.1 hu
    have hget : (bs ++ rest)[bs.length + j]? = some u := by
      rw [List.getElem?_append_right (Nat.le_add_right _ _), Nat.add_sub_cancel_left, hj]
    exact h.slot_eq_of_named hslot hget hname fun l w hl hw _ =>
      binds_of_length_le hrest (by omega) hw

include h hrest in
/-- The last binding of a name opens its slot. -/
theorem Laid.slot_of_last_binding (hslot : t.slotOf? name = some slot)
    (hu : bs.reverse.find? (·.name = name) = some u) : u.slot = slot := by
  obtain ⟨i, hi, hname, hlatest⟩ := exists_index_of_find?_reverse hu
  have hlt := (List.getElem?_eq_some_iff.1 hi).1
  refine h.slot_eq_of_named hslot ((List.getElem?_append_left hlt).trans hi)
    (of_decide_eq_true hname) fun l w hl hw hwn => ?_
  rcases Nat.lt_or_ge l bs.length with hlb | hbl
  · rw [List.getElem?_append_left hlb] at hw
    exact absurd hwn (of_decide_eq_false (hlatest l w hl hw))
  · exact binds_of_length_le hrest hbl hw

include h hbs hrest in
/-- The uses of the slot of a name are its last binding and all uses under it after that. -/
theorem Laid.filter_slot_named (hslot : t.slotOf? name = some slot) :
    (bs ++ rest).filter (·.slot = slot) =
      (bs.reverse.find? (·.name = name)).toList ++ rest.filter (·.name = name) := by
  have hlater : rest.filter (·.slot = slot) = rest.filter (·.name = name) :=
    List.filter_congr fun u hu => decide_eq_decide.2 (h.slot_eq_iff hrest hslot hu)
  rw [List.filter_append, hlater]
  congr 1
  cases hbinding : bs.reverse.find? (·.name = name) with
  | some u =>
    have hu : u ∈ bs := List.mem_reverse.1 (List.mem_of_find?_eq_some hbinding)
    rw [← h.slot_of_last_binding hrest hslot hbinding]
    exact filter_slot_eq (h.chosen.of_append.pairwise_slot_lt hbs) hu
  | none =>
    rw [List.find?_eq_none] at hbinding
    refine List.filter_eq_nil_iff.2 fun u hu huslot => ?_
    obtain ⟨i, last, hi, hlast, hlastslot, -⟩ := h.exists_last_use hslot
    have hname : u.name = last.name :=
      h.chosen.name_eq_of_slot_eq (List.mem_append_left _ hu) (List.mem_of_getElem? hi)
        ((of_decide_eq_true huslot).trans hlastslot.symm)
    exact hbinding u (List.mem_reverse.2 hu) (decide_eq_true (hname.trans hlast))

include h hbs hrest in
/-- A record that no name is bound to is that of a binding whose name is bound again. -/
theorem Laid.exists_shadowed (hr : r ∈ t.records) (hfree : ∀ name, t.slotOf? name ≠ some r.slot) :
    ∃ (k : Nat) (u : Use), bs[k]? = some u ∧ t.records[k]? = some r ∧
      (∃ (l : Nat) (v : Use), k < l ∧ bs[l]? = some v ∧ v.name = u.name) ∧
      (bs ++ rest).filter (·.slot = r.slot) = [u] := by
  have hrecord := h.built.mem_records_iff.1 hr
  -- The last use of a name has the slot of the name, so another binding of it came later.
  have hagain : ∀ (j : Nat) (u : Use), (bs ++ rest)[j]? = some u → u.slot = r.slot →
      ∃ (l : Nat) (v : Use), j < l ∧ bs[l]? = some v ∧ v.name = u.name := by
    intro j u hj huslot
    by_contra hlast
    cases hslot : t.slotOf? u.name with
    | none => exact h.built.name_ne_of_slotOf?_eq_none hslot u (List.mem_of_getElem? hj) rfl
    | some slot =>
      refine hfree u.name (hslot.trans (congrArg some ?_))
      rw [← huslot, h.slot_eq_of_named hslot hj rfl fun l w hl hw hwn => ?_]
      rcases Nat.lt_or_ge l bs.length with hlb | hbl
      · rw [List.getElem?_append_left hlb] at hw
        exact absurd ⟨l, w, hl, hw, hwn⟩ hlast
      · exact binds_of_length_le hrest hbl hw
  have hbinding : ∀ (j : Nat) (u : Use), (bs ++ rest)[j]? = some u → u.slot = r.slot →
      j < bs.length := by
    intro j u hj huslot
    obtain ⟨l, v, hjl, hl, -⟩ := hagain j u hj huslot
    have := (List.getElem?_eq_some_iff.1 hl).1
    omega
  obtain ⟨u, hu, huslot⟩ := (h.built.exists_record_iff r.slot).1 ⟨r, hrecord⟩
  obtain ⟨k, hk⟩ := List.mem_iff_getElem?.1 hu
  have hlt := hbinding k u hk huslot
  have hkb : bs[k]? = some u := by rwa [List.getElem?_append_left hlt] at hk
  have hpairwise := h.chosen.of_append.pairwise_slot_lt hbs
  refine ⟨k, u, hkb, ?_, hagain k u hk huslot, ?_⟩
  · have hnodup : (bs.map Use.slot).Nodup :=
      List.pairwise_map.2 (hpairwise.imp fun hlt => Nat.ne_of_lt hlt)
    have hslots := congrArg (·[k]?) h.built.slots_eq
    simp only [List.map_append, List.eraseDups_append, eraseDups_of_nodup hnodup] at hslots
    rw [List.getElem?_append_left (by rwa [List.length_map]), List.getElem?_map, List.getElem?_map,
      hkb, Option.map_some, huslot, Option.map_eq_some_iff] at hslots
    obtain ⟨r', hr', heq⟩ := hslots
    have hrecord' := h.built.mem_records_iff.1 (List.mem_of_getElem? hr')
    rw [heq, hrecord, Option.some.injEq] at hrecord'
    rw [hr', hrecord']
  · have hnone : rest.filter (·.slot = r.slot) = [] := by
      refine List.filter_eq_nil_iff.2 fun v hv hvslot => ?_
      obtain ⟨j, hj⟩ := List.mem_iff_getElem?.1 hv
      have hget : (bs ++ rest)[bs.length + j]? = some v := by
        rw [List.getElem?_append_right (Nat.le_add_right _ _), Nat.add_sub_cancel_left, hj]
      have := hbinding _ v hget (of_decide_eq_true hvslot)
      omega
    rw [List.filter_append, hnone, List.append_nil, ← huslot]
    exact filter_slot_eq hpairwise (List.mem_of_getElem? hkb)

end Bindings

/-- An access that is refined has the slot of its name, or the next one if the name is new. -/
theorem Laid.refineAccess {analysis : Analysis} {item : Nat × VariableRef} (h : Laid us t)
    (hs : t.refineAccess analysis item = .ok t') :
    ∃ u, u.mention = refinedMention analysis item ∧ Laid (us ++ [u]) t' := by
  obtain ⟨index, ref⟩ := item
  rw [Table.refineAccess] at hs
  cases hr : t.named? ref.name with
  | none =>
    have hne := h.built.name_ne_of_slotOf?_eq_none ((h.built.named?_eq_none_iff ref.name).1 hr)
    have hnext : t.slotFor ref.name = t.slots.next := by rw [slotFor, hr]
    exact ⟨_, rfl, h.use_next hnext (.inr (by simpa using hne)) hs⟩
  | some r =>
    have hslot : t.slotFor ref.name = r.slot := by rw [slotFor, hr]
    exact ⟨_, rfl, h.use_named hr hslot rfl hs⟩

theorem Laid.refine {analysis : Analysis} {code : List Instruction} (h : Laid us t)
    (hrefine : t.refine code analysis = (t', .done)) :
    ∃ added, added.map Use.mention = (referenceAccesses code).map (refinedMention analysis) ∧
      Laid (us ++ added) t' := by
  obtain ⟨result, hrun, rfl⟩ := runPass_eq_done hrefine
  obtain ⟨added, hadded, hlaid⟩ := h.steps (Table.refineAccess analysis) Use.mention
    (refinedMention analysis) (fun h hs => h.refineAccess hs) hrun
  exact ⟨added, hadded, hlaid.withStage _⟩

/-- After all passes a name has exactly the usages of its history, and a parameter whose name was
bound again keeps the one that it was bound by. -/
theorem usages_eq_history {header : Header} {t₁ t₂ t₃ : Table} {code refined : List Instruction}
    {analysis : Analysis} (hreceiver : empty.bindReceiver header = (t₁, .done))
    (hparameters : t₁.bindParameters header.parameters = (t₂, .done))
    (hcode : t₂.resolveCode code = (t₃, .done))
    (hrefine : t₃.refine refined analysis = (t, .done)) :
    (∀ name slot, t.slotOf? name = some slot →
      ∃ r, t.named? name = some r ∧ r.usages = header.history code refined analysis name) ∧
      ∀ r ∈ t.records, (∀ name, t.slotOf? name ≠ some r.slot) →
        ∃ (k : Nat) (b : Mention), header.bindings[k]? = some b ∧ t.records[k]? = some r ∧
          (∃ (l : Nat) (b' : Mention), k < l ∧ header.bindings[l]? = some b' ∧ b'.name = b.name) ∧
          r.usages = [b.usage] := by
  obtain ⟨bs, hbs, hbound⟩ := exists_uses_of_bind hreceiver hparameters
  obtain ⟨cs, hcs, hcoded⟩ := hbound.resolveCode hcode
  obtain ⟨rs, hrs, hlaid⟩ := hcoded.refine hrefine
  rw [List.append_assoc] at hlaid
  have hopen : ∀ u ∈ bs, u.occurrence.binds = true := fun u hu =>
    (Header.binds_of_mem_bindings (hbs ▸ List.mem_map_of_mem hu)).2
  have hreturn : ∀ u ∈ cs ++ rs, u.occurrence.binds = false := fun u hu =>
    (List.mem_append.1 hu).elim
      (forall_of_mentions hcs (·.occurrence.binds = false) (fun _ => rfl) u)
      (forall_of_mentions hrs (·.occurrence.binds = false) (fun _ => rfl) u)
  refine ⟨fun name slot hslot => ?_, fun r hr hfree => ?_⟩
  · obtain ⟨r, hnamed, hrecord⟩ := hlaid.exists_named hslot
    refine ⟨r, hnamed, ?_⟩
    rw [(hlaid.built.usages_eq hrecord).1, hlaid.filter_slot_named hopen hreturn hslot,
      surviving_eq_history hbs hcs hrs]
  · obtain ⟨k, u, hk, hrecord, ⟨l, v, hkl, hl, hname⟩, honly⟩ :=
      hlaid.exists_shadowed hopen hreturn hr hfree
    have hget : ∀ (i : Nat) (w : Use), bs[i]? = some w →
        header.bindings[i]? = some w.mention := by
      intro i w hi
      rw [← hbs, List.getElem?_map, hi, Option.map_some]
    refine ⟨k, u.mention, hget k u hk, hrecord, ⟨l, v.mention, hkl, hget l v hl, hname⟩, ?_⟩
    rw [(hlaid.built.usages_eq (hlaid.built.mem_records_iff.1 hr)).1, honly, surviving_singleton]
    rfl

def reboundParameter : Method where
  header := ⟨.object, "run", .ofBits _ 8, [⟨"p", .int⟩, ⟨"p", .base .long⟩], none⟩
  code := [.ldc (.text "a"), .storeRef "s", .returnVoid]

def textStored : Analysis :=
  ⟨[none, some (Frame.empty.set "s" (.textConstant "a")), none]⟩

theorem reboundParameter_history : ∃ t₁ t₂ t₃ t,
    empty.bindReceiver reboundParameter.header = (t₁, .done) ∧
      t₁.bindParameters reboundParameter.header.parameters = (t₂, .done) ∧
      t₂.resolveCode reboundParameter.code = (t₃, .done) ∧
      t₃.refine reboundParameter.code textStored = (t, .done) ∧
      (∃ r, t.named? "s" = some r ∧ r.usages = [⟨.instruction 1, .ref .stringClass⟩]) ∧
      ∃ r ∈ t.records, (∀ name, t.slotOf? name ≠ some r.slot) ∧
        ∃ b ∈ reboundParameter.header.bindings, r.usages = [b.usage] := by
  have hdone : (resolve (fun _ => .ok textStored) reboundParameter).2 = .done := by decide
  obtain ⟨t₁, t₂, t₃, analysis, hreceiver, hparameters, hcode, hanalysis, hrefine⟩ :=
    exists_passes_of_resolve (Prod.ext rfl hdone)
  obtain rfl := Except.ok.inj hanalysis
  obtain ⟨hnamed, hfree⟩ := usages_eq_history hreceiver hparameters hcode hrefine
  refine ⟨t₁, t₂, t₃, _, hreceiver, hparameters, hcode, hrefine, ?_, ?_⟩
  · obtain ⟨r, hr, husages⟩ := hnamed "s" 3 (by decide)
    exact ⟨r, hr, husages.trans (by decide)⟩
  · have hfirst : ∃ r ∈ (resolve (fun _ => .ok textStored) reboundParameter).1.records,
        r.slot = 0 := by decide
    obtain ⟨r, hr, hslot⟩ := hfirst
    have hunnamed : ∀ name, (resolve (fun _ => .ok textStored) reboundParameter).1.slotOf? name ≠
        some r.slot := by
      intro name hname
      obtain ⟨before, after, heq, -⟩ := List.lookup_eq_some_iff.1 hname
      have hslots : ∀ entry ∈ (resolve (fun _ => .ok textStored) reboundParameter).1.bindings,
          entry.2 ≠ 0 := by decide
      exact hslots (name, r.slot) (heq ▸ by simp) hslot
    obtain ⟨k, b, hb, -, -, husages⟩ := hfree r hr hunnamed
    exact ⟨r, hr, hunnamed, b, List.mem_of_getElem? hb, husages⟩

end Table

end MethodLocals
