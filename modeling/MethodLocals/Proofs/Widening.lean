import MethodLocals.Proofs.Passes

/-! When the slots of a resolved method overlap. The slot after a narrow variable is handed out to
the next variable that is opened, and it stays with that one when the narrow variable is assigned a
wide value later. No other order of mentions lets slots overlap. -/

namespace MethodLocals

def Table.Disjoint (t : Table) : Prop :=
  ∀ r ∈ t.records, ∀ s ∈ t.records, r.slot < s.slot → r.slot + r.width ≤ s.slot

instance (t : Table) : Decidable t.Disjoint :=
  inferInstanceAs (Decidable (∀ r ∈ t.records, ∀ s ∈ t.records, r.slot < s.slot →
    r.slot + r.width ≤ s.slot))

structure OpensAt (os : List Occurrence) (i : Nat) (o : Occurrence) : Prop where
  mentioned : os[i]? = some o
  opens : o.Opens (os.take i)

/-- The variable that the mention `i` opens has been mentioned with narrow types only when the
mention `j` opens another one, and it is mentioned with a wide type at `k`. -/
structure WidensAt (os : List Occurrence) (i j k : Nat) (x y z : Occurrence) : Prop where
  first : OpensAt os i x
  second : OpensAt os j y
  before : i < j
  narrow : ∀ l o, i ≤ l → l < j → os[l]? = some o → o.name = x.name → o.wide = false
  after : j < k
  mentioned : os[k]? = some z
  same : z.name = x.name
  unbound : ∀ l o, i < l → l ≤ k → os[l]? = some o → o.name = x.name → o.binds = false
  wide : z.wide = true

/-- Some variable becomes wide after another one was opened above it. -/
def Method.WidensLate (m : Method) : Prop := ∃ i j k x y z, WidensAt m.occurrences i j k x y z

def Overlap (us : List Use) : Prop :=
  ∃ u ∈ us, ∃ v ∈ us, u.isWide = true ∧ v.slot = u.slot + 1

private theorem mem_take_iff {α : Type} {xs : List α} {j : Nat} {x : α} :
    x ∈ xs.take j ↔ ∃ i < j, xs[i]? = some x := by
  simp only [List.mem_iff_getElem?, List.getElem?_take]
  constructor
  · rintro ⟨i, hi⟩
    split at hi
    · exact ⟨i, by assumption, hi⟩
    · cases hi
  · rintro ⟨i, hij, hi⟩
    exact ⟨i, by rw [if_pos hij, hi]⟩

/-- What is found from the end of a list is not found again after it. -/
theorem exists_index_of_find?_reverse {α : Type} {p : α → Bool} {xs : List α} {x : α}
    (h : xs.reverse.find? p = some x) :
    ∃ i : Nat, xs[i]? = some x ∧ p x = true ∧
      ∀ j y, i < j → xs[j]? = some y → p y = false := by
  obtain ⟨hx, later, earlier, heq, hlater⟩ := List.find?_eq_some_iff_append.1 h
  have hxs : xs = earlier.reverse ++ x :: later.reverse := by
    rw [← List.reverse_reverse xs, heq]
    simp
  refine ⟨earlier.length, by rw [hxs]; simp, hx, fun j y hj hy => ?_⟩
  rw [hxs, List.getElem?_append_right (by simp; omega), List.length_reverse, List.getElem?_cons,
    if_neg (by omega)] at hy
  have hmem := List.mem_reverse.1 (List.mem_of_getElem? hy)
  simpa using hlater y hmem

namespace Chosen

variable {us : List Use} {i j : Nat} {u v : Use}

/-- An opened slot lies beyond all earlier ones. -/
theorem add_width_le (h : Chosen us) (hu : us[j]? = some u)
    (hopens : u.occurrence.Opens ((us.take j).map Use.occurrence)) (hij : i < j)
    (hv : us[i]? = some v) : v.slot + v.type.width ≤ u.slot := by
  have hmem : v ∈ us.take j := mem_take_iff.2 ⟨i, hij, hv⟩
  cases h j u hu with
  | fresh _ hle _ => exact hle v hmem
  | @again w hbinds hw _ =>
    rcases hopens with hb | hne
    · rw [hbinds] at hb
      cases hb
    · have hwmem := List.mem_reverse.1 (List.mem_of_find?_eq_some hw)
      have hname := List.find?_some hw
      exact absurd (of_decide_eq_true hname) (hne _ (List.mem_map_of_mem hwmem))

theorem exists_latest (h : Chosen us) (hu : us[j]? = some u)
    (hopens : ¬ u.occurrence.Opens ((us.take j).map Use.occurrence)) :
    ∃ i v, i < j ∧ us[i]? = some v ∧ v.name = u.name ∧ v.slot = u.slot ∧
      ∀ l w, i < l → l < j → us[l]? = some w → w.name ≠ u.name := by
  cases h j u hu with
  | fresh hfresh => exact absurd hfresh hopens
  | @again v _ hv hslot =>
    obtain ⟨i, hi, hname, hlatest⟩ := exists_index_of_find?_reverse hv
    have hij : i < j := by
      have := (List.getElem?_eq_some_iff.1 hi).1
      have := List.length_take_le j us
      omega
    have hget : ∀ l, l < j → (us.take j)[l]? = us[l]? := fun l => List.getElem?_take_of_lt
    rw [hget i hij] at hi
    refine ⟨i, v, hij, hi, of_decide_eq_true hname, hslot, fun l w hil hlj hw => ?_⟩
    rw [← hget l hlj] at hw
    exact of_decide_eq_false (hlatest l w hil hw)

theorem exists_opening (h : Chosen us) (hv : us[j]? = some v) :
    ∃ i u, i ≤ j ∧ us[i]? = some u ∧ u.occurrence.Opens ((us.take i).map Use.occurrence) ∧
      u.slot = v.slot := by
  induction j using Nat.strongRecOn generalizing v with
  | ind j ih =>
    by_cases hopens : v.occurrence.Opens ((us.take j).map Use.occurrence)
    · exact ⟨j, v, (Nat.le_refl _), hv, hopens, rfl⟩
    · obtain ⟨l, w, hlj, hw, -, hslot, -⟩ := h.exists_latest hv hopens
      obtain ⟨i, u, hil, hu, hu', hus⟩ := ih l hlj hw
      exact ⟨i, u, by omega, hu, hu', hus.trans hslot⟩

theorem name_eq (h : Chosen us) (hu : us[i]? = some u)
    (hopens : u.occurrence.Opens ((us.take i).map Use.occurrence)) (hv : us[j]? = some v)
    (hslot : v.slot = u.slot) : i ≤ j ∧ v.name = u.name := by
  induction j using Nat.strongRecOn generalizing v with
  | ind j ih =>
    rcases Nat.lt_trichotomy i j with hij | rfl | hji
    · by_cases hopens' : v.occurrence.Opens ((us.take j).map Use.occurrence)
      · have := h.add_width_le hv hopens' hij hu
        have := u.type.width_eq_one_or_two
        omega
      · obtain ⟨l, w, hlj, hw, hname, hws, -⟩ := h.exists_latest hv hopens'
        exact ⟨by omega, hname.symm.trans (ih l hlj hw (hws.trans hslot)).2⟩
    · rw [hu, Option.some.injEq] at hv
      exact ⟨(Nat.le_refl _), by rw [hv]⟩
    · have := h.add_width_le hu hopens hji hv
      have := v.type.width_eq_one_or_two
      omega

/-- No parameter takes over the name of a slot while it is used. -/
theorem binds_eq_false (h : Chosen us) (hu : us[i]? = some u)
    (hopens : u.occurrence.Opens ((us.take i).map Use.occurrence)) (hv : us[j]? = some v)
    (hslot : v.slot = u.slot) {l : Nat} {w : Use} (hil : i < l) (hlj : l ≤ j)
    (hw : us[l]? = some w) (hname : w.name = u.name) : w.occurrence.binds = false := by
  induction j using Nat.strongRecOn generalizing v with
  | ind j ih =>
    have hnot : ¬ v.occurrence.Opens ((us.take j).map Use.occurrence) := by
      intro hopens'
      have := h.add_width_le hv hopens' (by omega) hu
      have := u.type.width_eq_one_or_two
      omega
    rcases Nat.lt_or_eq_of_le hlj with hlt | rfl
    · obtain ⟨k, x, hkj, hx, hxn, hxs, hlatest⟩ := h.exists_latest hv hnot
      have hlk : l ≤ k := by
        by_contra hkl
        have hvn := (h.name_eq hu hopens hv hslot).2
        exact hlatest l w (by omega) hlt hw (hname.trans hvn.symm)
      exact ih k hkj hx (hxs.trans hslot) hlk
    · rw [hv, Option.some.injEq] at hw
      rw [← hw]
      by_contra hbinds
      exact hnot (.inl (by simpa using hbinds))

/-- While no parameter takes a name over, its uses stay with one slot. -/
theorem slot_eq (h : Chosen us) (hu : us[i]? = some u) (hij : i ≤ j) (hv : us[j]? = some v)
    (hname : v.name = u.name)
    (hunbound : ∀ l w, i < l → l ≤ j → us[l]? = some w → w.name = u.name →
      w.occurrence.binds = false) : v.slot = u.slot := by
  induction j using Nat.strongRecOn generalizing v with
  | ind j ih =>
    rcases Nat.lt_or_eq_of_le hij with hlt | rfl
    · have hnot : ¬ v.occurrence.Opens ((us.take j).map Use.occurrence) := by
        rintro (hbinds | hnew)
        · rw [hunbound j v hlt (Nat.le_refl _) hv hname] at hbinds
          cases hbinds
        · exact hnew _ (List.mem_map_of_mem (mem_take_iff.2 ⟨i, hlt, hu⟩)) hname.symm
      obtain ⟨k, x, hkj, hx, hxn, hxs, hlatest⟩ := h.exists_latest hv hnot
      have hik : i ≤ k := by
        by_contra hki
        exact hlatest i u (by omega) hlt hu hname.symm
      rw [← hxs]
      exact ih k hkj hik hx (hxn.trans hname) fun l w hil hlk =>
        hunbound l w hil (by omega)
    · rw [hu, Option.some.injEq] at hv
      rw [hv]

/-- Right above a slot that is narrow until another one is opened lies the slot of another
variable. -/
theorem exists_slot_succ (h : Chosen us) (hu : us[i]? = some u)
    (hopens : u.occurrence.Opens ((us.take i).map Use.occurrence)) (hij : i < j)
    (hv : us[j]? = some v) (hopens' : v.occurrence.Opens ((us.take j).map Use.occurrence))
    (hnarrow : ∀ l w, i ≤ l → l < j → us[l]? = some w → w.name = u.name → w.isWide = false) :
    ∃ w ∈ us, w.slot = u.slot + 1 := by
  induction j using Nat.strongRecOn generalizing v with
  | ind j ih =>
    have habove := h.add_width_le hv hopens' hij hu
    have hwidth := u.type.width_eq_one_or_two
    obtain ⟨w, hw, hwv⟩ : ∃ w ∈ us.take j, w.slot + w.type.width = v.slot := by
      cases h j v hv with
      | fresh _ _ hlast => exact hlast (by omega)
      | @again w hbinds hw hslot =>
        have hwmem := List.mem_reverse.1 (List.mem_of_find?_eq_some hw)
        rcases hopens' with hb | hnew
        · rw [hbinds] at hb
          cases hb
        · have hname := List.find?_some hw
          exact absurd (of_decide_eq_true hname) (hnew _ (List.mem_map_of_mem hwmem))
    obtain ⟨l, hlj, hw⟩ := mem_take_iff.1 hw
    have hwwidth := w.type.width_eq_one_or_two
    rcases Nat.lt_trichotomy w.slot u.slot with hbelow | hsame | habove'
    · exact ⟨v, List.mem_of_getElem? hv, by omega⟩
    · obtain ⟨hil, hname⟩ := h.name_eq hu hopens hw hsame
      have hne : w.type.width ≠ 2 := by
        rw [Ne, ← w.isWide_iff, hnarrow l w hil hlj hw hname]
        exact Bool.false_ne_true
      exact ⟨v, List.mem_of_getElem? hv, by omega⟩
    · obtain ⟨k, x, hkl, hx, hxo, hxw⟩ := h.exists_opening hw
      have hik : i < k := by
        rcases Nat.lt_trichotomy i k with hik | rfl | hki
        · exact hik
        · obtain rfl : u = x := Option.some.inj (hu.symm.trans hx)
          omega
        · have := h.add_width_le hu hopens hki hx
          omega
      exact ih k (by omega) hik hx hxo fun l o hil hlk => hnarrow l o hil (by omega)

end Chosen

theorem opensAt_map_iff {us : List Use} {i : Nat} {o : Occurrence} :
    OpensAt (us.map Use.occurrence) i o ↔ ∃ u, us[i]? = some u ∧ u.occurrence = o ∧
      u.occurrence.Opens ((us.take i).map Use.occurrence) := by
  constructor
  · rintro ⟨hget, hopens⟩
    rw [List.getElem?_map] at hget
    obtain ⟨u, hu, rfl⟩ := Option.map_eq_some_iff.1 hget
    exact ⟨u, hu, rfl, by rwa [List.map_take]⟩
  · rintro ⟨u, hu, rfl, hopens⟩
    exact ⟨by rw [List.getElem?_map, hu, Option.map_some], by rwa [← List.map_take]⟩

/-- A wide use below the slot of another use was made after both slots were opened, the lower one
first and narrow. -/
theorem Chosen.exists_openings {us : List Use} (h : Chosen us) {k b : Nat} {p q : Use}
    (hk : us[k]? = some p) (hb : us[b]? = some q) (hwide : p.isWide = true)
    (hslot : q.slot = p.slot + 1) : ∃ i j u v, us[i]? = some u ∧ us[j]? = some v ∧
      u.slot = p.slot ∧ v.slot = q.slot ∧
      WidensAt (us.map Use.occurrence) i j k u.occurrence v.occurrence p.occurrence := by
  obtain ⟨i, u, -, hu, huo, hup⟩ := h.exists_opening hk
  obtain ⟨j, v, -, hv, hvo, hvq⟩ := h.exists_opening hb
  have hij : i < j := by
    rcases Nat.lt_trichotomy i j with hij | rfl | hji
    · exact hij
    · obtain rfl : u = v := Option.some.inj (hu.symm.trans hv)
      omega
    · have := h.add_width_le hu huo hji hv
      omega
  have hpw := p.isWide_iff.1 hwide
  have hlow : ∀ l w, us[l]? = some w → w.slot = u.slot → w.isWide = true → j < l := by
    intro l w hw hws hww
    rcases Nat.lt_trichotomy j l with hjl | rfl | hlj
    · exact hjl
    · obtain rfl : v = w := Option.some.inj (hv.symm.trans hw)
      omega
    · have := h.add_width_le hv hvo hlj hw
      have := w.isWide_iff.1 hww
      omega
  refine ⟨i, j, u, v, hu, hv, hup, hvq,
    opensAt_map_iff.2 ⟨u, hu, rfl, huo⟩, opensAt_map_iff.2 ⟨v, hv, rfl, hvo⟩, hij, ?_,
    hlow k p hk hup.symm hwide, by rw [List.getElem?_map, hk, Option.map_some],
    (h.name_eq hu huo hk hup.symm).2, ?_, by rw [Use.occurrence_wide, hwide]⟩
  · intro l o hil hlj ho hname
    rw [List.getElem?_map] at ho
    obtain ⟨w, hw, rfl⟩ := Option.map_eq_some_iff.1 ho
    have hws := h.slot_eq hu hil hw hname fun l' w' hil' hll' hw' hn' =>
      h.binds_eq_false hu huo hk hup.symm hil' (by have := hlow k p hk hup.symm hwide; omega)
        hw' hn'
    rw [Use.occurrence_wide]
    by_contra hne
    have := hlow l w hw hws (by simpa using hne)
    omega
  · intro l o hil hlk ho hname
    rw [List.getElem?_map] at ho
    obtain ⟨w, hw, rfl⟩ := Option.map_eq_some_iff.1 ho
    exact h.binds_eq_false hu huo hk hup.symm hil hlk hw hname

/-- Slots that overlap show a variable that was opened narrow and became wide too late. -/
theorem Chosen.exists_widensAt {us : List Use} (h : Chosen us) (hoverlap : Overlap us) :
    ∃ i j k x y z, WidensAt (us.map Use.occurrence) i j k x y z := by
  obtain ⟨p, hp, q, hq, hwide, hslot⟩ := hoverlap
  obtain ⟨k, hk⟩ := List.mem_iff_getElem?.1 hp
  obtain ⟨b, hb⟩ := List.mem_iff_getElem?.1 hq
  obtain ⟨i, j, u, v, -, -, -, -, hwidens⟩ := h.exists_openings hk hb hwide hslot
  exact ⟨i, j, k, _, _, _, hwidens⟩

theorem Chosen.exists_widened {us : List Use} (h : Chosen us) {i j k : Nat} {x y z : Occurrence}
    (hw : WidensAt (us.map Use.occurrence) i j k x y z) : ∃ u v p, us[i]? = some u ∧
      u.occurrence.Opens ((us.take i).map Use.occurrence) ∧ us[j]? = some v ∧
      v.occurrence = y ∧ v.occurrence.Opens ((us.take j).map Use.occurrence) ∧ p ∈ us ∧
      p.isWide = true ∧ p.slot = u.slot ∧
      ∀ l w, i ≤ l → l < j → us[l]? = some w → w.name = u.name → w.isWide = false := by
  obtain ⟨u, hu, rfl, huo⟩ := opensAt_map_iff.1 hw.first
  obtain ⟨v, hv, rfl, hvo⟩ := opensAt_map_iff.1 hw.second
  have hz := hw.mentioned
  rw [List.getElem?_map] at hz
  obtain ⟨p, hp, rfl⟩ := Option.map_eq_some_iff.1 hz
  have hget : ∀ {l : Nat} {w : Use}, us[l]? = some w →
      (us.map Use.occurrence)[l]? = some w.occurrence := by
    intro l w hl
    rw [List.getElem?_map, hl, Option.map_some]
  refine ⟨u, v, p, hu, huo, hv, rfl, hvo, List.mem_of_getElem? hp, ?_, ?_, ?_⟩
  · rw [← Use.occurrence_wide]
    exact hw.wide
  · have := hw.before
    have := hw.after
    exact h.slot_eq hu (by omega) hp hw.same fun l w hil hlk hl hn =>
      hw.unbound l _ hil hlk (hget hl) hn
  · intro l w hil hlj hl hn
    rw [← Use.occurrence_wide]
    exact hw.narrow l _ hil hlj (hget hl) hn

theorem Chosen.overlap_of_widensAt {us : List Use} (h : Chosen us) {i j k : Nat}
    {x y z : Occurrence} (hw : WidensAt (us.map Use.occurrence) i j k x y z) : Overlap us := by
  obtain ⟨u, v, p, hu, huo, hv, -, hvo, hp, hwide, hps, hnarrow⟩ := h.exists_widened hw
  obtain ⟨q, hq, hqs⟩ := h.exists_slot_succ hu huo hw.before hv hvo hnarrow
  exact ⟨p, hp, q, hq, hwide, by rw [hqs, hps]⟩

namespace Table

theorem Built.disjoint_iff {us : List Use} {t : Table} (h : Built us t) :
    t.Disjoint ↔ ¬ Overlap us := by
  constructor
  · rintro hdisjoint ⟨u, hu, v, hv, hwide, hslot⟩
    obtain ⟨r, hr⟩ := (h.exists_record_iff u.slot).2 ⟨u, hu, rfl⟩
    obtain ⟨s, hs⟩ := (h.exists_record_iff v.slot).2 ⟨v, hv, rfl⟩
    have hrs : r.slot = u.slot := by simpa using List.find?_some hr
    have hss : s.slot = v.slot := by simpa using List.find?_some hs
    have hrw : r.wide = true := (h.wide_iff hr).2 ⟨u, hu, rfl, hwide⟩
    have := hdisjoint r (List.mem_of_find?_eq_some hr) s (List.mem_of_find?_eq_some hs) (by omega)
    rw [Record.width, if_pos hrw] at this
    omega
  · intro hover r hr s hs hlt
    by_contra hle
    have hwide : r.wide = true := by
      by_contra hne
      rw [Record.width, if_neg hne] at hle
      omega
    rw [Record.width, if_pos hwide] at hle
    obtain ⟨u, hu, hus, huw⟩ := (h.wide_iff (h.mem_records_iff.1 hr)).1 hwide
    obtain ⟨v, hv, hvs⟩ := (h.exists_record_iff s.slot).1 ⟨s, h.mem_records_iff.1 hs⟩
    exact hover ⟨u, hu, v, hv, huw, by omega⟩

/-- Uses that return to slots in use with narrow types make nothing overlap. -/
theorem overlap_append_iff {us added : List Use} (h : ∀ u ∈ added, Returns us u) :
    Overlap (us ++ added) ↔ Overlap us := by
  constructor
  · rintro ⟨u, hu, v, hv, hwide, hslot⟩
    have hused : ∀ w ∈ us ++ added, ∃ w' ∈ us, w'.slot = w.slot := by
      intro w hw
      rcases List.mem_append.1 hw with hw | hw
      · exact ⟨w, hw, rfl⟩
      · exact (h w hw).2
    obtain ⟨v', hv', hvs⟩ := hused v hv
    rcases List.mem_append.1 hu with hu | hu
    · exact ⟨u, hu, v', hv', hwide, hvs.trans hslot⟩
    · rw [(h u hu).1] at hwide
      cases hwide
  · rintro ⟨u, hu, v, hv, hwide, hslot⟩
    exact ⟨u, List.mem_append_left _ hu, v, List.mem_append_left _ hv, hwide, hslot⟩

/-- The records of a resolved method keep apart unless one of its variables widens late. -/
theorem disjoint_iff_not_widensLate {analyze : FrameSource} {m : Method} {t : Table}
    (h : resolve analyze m = (t, .done)) : t.Disjoint ↔ ¬ m.WidensLate := by
  obtain ⟨us, added, hus, hchosen, hadded, hbuilt⟩ := exists_uses_of_resolve h
  rw [hbuilt.disjoint_iff, overlap_append_iff hadded, Method.WidensLate, ← hus]
  refine not_congr ⟨hchosen.exists_widensAt, ?_⟩
  rintro ⟨i, j, k, x, y, z, hw⟩
  exact hchosen.overlap_of_widensAt hw

/-- `x` is an int when `y` gets the slot above it, and a long in the end. -/
def widenedBelow : Method where
  header := ⟨.object, "run", .ofBits _ 8, [], none⟩
  code := [.push .int, .store .int "x", .push .int, .store .int "y", .push .long,
    .store .long "x", .returnVoid]

theorem widenedBelow_resolved :
    (resolve (Analyzer.mk none none).analyze widenedBelow).2 = .done ∧
      ((resolve (Analyzer.mk none none).analyze widenedBelow).1.Disjoint ↔
        ¬ widenedBelow.WidensLate) :=
  ⟨by decide, disjoint_iff_not_widensLate (Prod.ext rfl (by decide))⟩

/-- Not every resolved method keeps its slots apart. -/
theorem not_forall_resolved_disjoint :
    ¬ ∀ (analyze : FrameSource) (m : Method) (t : Table),
      resolve analyze m = (t, .done) → t.Disjoint := by
  intro h
  have hdone : (resolve (Analyzer.mk none none).analyze widenedBelow).2 = .done := by decide
  have hdisjoint := h _ widenedBelow _ (Prod.ext rfl hdone)
  revert hdisjoint
  decide

end Table

end MethodLocals
