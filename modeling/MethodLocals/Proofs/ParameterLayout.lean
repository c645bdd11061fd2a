import MethodLocals.Descriptor
import MethodLocals.Proofs.Passes

/-! Slots of the receiver and the parameters. They lie side by side in the order of the descriptor.
Binding them takes as many slots as the descriptor asks for, or fails where these run out. -/

namespace MethodLocals

theorem totalWidth_append (xs ys : List FieldType) :
    totalWidth (xs ++ ys) = totalWidth xs + totalWidth ys := by
  induction xs with
  | nil => simp [totalWidth]
  | cons x xs ih =>
    simp only [totalWidth, List.cons_append, List.foldr_cons] at ih ⊢
    omega

theorem totalWidth_take_mono {types : List FieldType} {j k : Nat} (hjk : j ≤ k) :
    totalWidth (types.take j) ≤ totalWidth (types.take k) := by
  have hsplit := List.take_append_drop j (types.take k)
  rw [List.take_take, Nat.min_eq_left hjk] at hsplit
  rw [← hsplit, totalWidth_append]
  exact Nat.le_add_right _ _

namespace Header

def descriptor (h : Header) : MethodDescriptor := ⟨h.parameters.map Parameter.type, h.returns⟩

def parameterLength (h : Header) : Nat := h.descriptor.parameterLength (!h.isStatic)

/-- The slot right after the receiver, if there is one, and the first `k` parameters. -/
def parameterSlot (h : Header) (k : Nat) : Nat :=
  (if h.isStatic then 0 else 1) + totalWidth ((h.parameters.take k).map Parameter.type)

def parameterUse (h : Header) (k : Nat) (p : Parameter) : Use :=
  ⟨h.parameterSlot k, p.name, p.type, .parameter k, false⟩

variable {h : Header} {k : Nat} {p : Parameter}

theorem parameterSlot_zero (h : Header) : h.parameterSlot 0 = if h.isStatic then 0 else 1 := by
  simp [parameterSlot, totalWidth]

theorem parameterSlot_succ (hp : h.parameters[k]? = some p) :
    h.parameterSlot (k + 1) = h.parameterSlot k + p.type.width := by
  have hwidth : totalWidth [p.type] = p.type.width := by simp [totalWidth]
  rw [parameterSlot, List.take_add_one, hp, Option.toList_some, List.map_append,
    totalWidth_append, List.map_singleton, hwidth, ← Nat.add_assoc]
  rfl

theorem parameterSlot_mono {j k : Nat} (hjk : j ≤ k) : h.parameterSlot j ≤ h.parameterSlot k := by
  rw [parameterSlot, parameterSlot, List.map_take, List.map_take]
  exact Nat.add_le_add_left (totalWidth_take_mono hjk) _

theorem parameterSlot_of_length_le (hk : h.parameters.length ≤ k) :
    h.parameterSlot k = h.parameterLength := by
  rw [parameterSlot, List.take_of_length_le hk]
  cases hstatic : h.isStatic <;>
    simp [parameterLength, MethodDescriptor.parameterLength, descriptor, hstatic]

theorem parameterSlot_le (h : Header) (k : Nat) : h.parameterSlot k ≤ h.parameterLength := by
  rw [← parameterSlot_of_length_le (Nat.le_max_right k h.parameters.length)]
  exact parameterSlot_mono (Nat.le_max_left _ _)

end Header

namespace Table

variable {h : Header} {t t' : Table} {k : Nat} {p : Parameter}

/-- The receiver and the first `k` parameters are in their slots, and nothing lies behind them. -/
structure Seats (h : Header) (k : Nat) (t : Table) : Prop where
  built : ∃ us, Built us t
  next_eq : t.slots.next = h.parameterSlot k
  receiver : ∀ u ∈ receiverUses h, t.record? u.slot = some (.ofUse u)
  record? : ∀ j q, j < k → h.parameters[j]? = some q →
    t.record? (h.parameterSlot j) = some (.ofUse (h.parameterUse j q))

namespace Seats

theorem withStage (hseats : t.Seats h k) (stage : Stage) :
    ({ t with stage } : Table).Seats h k where
  built := hseats.built.imp fun _ hbuilt => hbuilt.stage stage
  next_eq := hseats.next_eq
  receiver := hseats.receiver
  record? := hseats.record?

theorem record?_next (hseats : t.Seats h k) : t.record? (h.parameterSlot k) = none := by
  obtain ⟨us, hbuilt⟩ := hseats.built
  cases hrecord : t.record? (h.parameterSlot k) with
  | none => rfl
  | some r =>
    obtain ⟨u, hu, hslot⟩ := (hbuilt.exists_record_iff _).1 ⟨r, hrecord⟩
    have hle := hbuilt.accounts.le_next u.commit (List.mem_map_of_mem hu)
    have hwidth := u.type.width_eq_one_or_two
    have hnext := hseats.next_eq
    simp only [Use.commit] at hle
    omega

/-- A parameter that fits gets the next free slot. -/
theorem bindParameter (hseats : t.Seats h k) (hp : h.parameters[k]? = some p)
    (hfits : h.parameterSlot k + p.type.width ≤ localLimit) :
    ∃ t', t.bindParameter (p, k) = .ok t' ∧ t'.Seats h (k + 1) := by
  obtain ⟨us, hbuilt⟩ := hseats.built
  have haccounts := hbuilt.accounts
  have huse : t.bindParameter (p, k) = t.use (h.parameterUse k p) := by
    rw [Table.bindParameter, hseats.next_eq, Header.parameterUse]
  have hreserve := haccounts.reserve_next p.type.width
  rw [hseats.next_eq, if_pos hfits] at hreserve
  obtain ⟨t', ht'⟩ : ∃ t', t.use (h.parameterUse k p) = .ok t' := by
    unfold Table.use Header.parameterUse
    rw [hreserve]
    exact ⟨_, rfl⟩
  have hkept : ∀ slot r, t.record? slot = some r → t'.record? slot = some r := by
    intro slot r hr
    have hne : slot ≠ h.parameterSlot k := by
      rintro rfl
      rw [hseats.record?_next] at hr
      cases hr
    rw [record?_use ht', if_neg (show ¬ slot = (h.parameterUse k p).slot from hne), hr]
  refine ⟨t', huse.trans ht', ⟨_, hbuilt.use ht'⟩, ?_, ?_, fun j q hj hq => ?_⟩
  · obtain ⟨-, -, rfl⟩ := use_eq_ok_iff.1 ht'
    have hnext := haccounts.next_commit p.type.width
    rw [hseats.next_eq] at hnext
    rw [Header.parameterSlot_succ hp]
    exact hnext
  · exact fun u hu => hkept _ _ (hseats.receiver u hu)
  · rcases Nat.lt_succ_iff_lt_or_eq.1 hj with hj | rfl
    · exact hkept _ _ (hseats.record? j q hj hq)
    · obtain rfl := Option.some.inj (hq.symm.trans hp)
      rw [record?_use ht', if_pos (show h.parameterSlot j = (h.parameterUse j q).slot from rfl),
        hseats.record?_next]

theorem bindParameter_of_overflow (hseats : t.Seats h k)
    (hfull : localLimit < h.parameterSlot k + p.type.width) :
    t.bindParameter (p, k) = .error ⟨.parameter k,
      .allocation (.tooManyLocals (h.parameterSlot k) p.type.width)⟩ := by
  obtain ⟨us, hbuilt⟩ := hseats.built
  have hreserve := hbuilt.accounts.reserve_next p.type.width
  rw [if_neg (by rw [hseats.next_eq]; exact Nat.not_le.2 hfull)] at hreserve
  unfold Table.bindParameter Table.use
  rw [hreserve, hseats.next_eq]

/-- The parameters from `k` on are seated one after the other, up to the first one that does not
fit. -/
theorem steps (hseats : t.Seats h k) (hslot : h.parameterSlot k ≤ localLimit) :
    (h.parameterLength ≤ localLimit ∧
      ∃ t', t.steps Table.bindParameter ((h.parameters.drop k).zipIdx k) = (t', none) ∧
        t'.Seats h h.parameters.length) ∨
    ∃ j q t', h.parameters[j]? = some q ∧ h.parameterSlot j ≤ localLimit ∧
      localLimit < h.parameterSlot j + q.type.width ∧
      t.steps Table.bindParameter ((h.parameters.drop k).zipIdx k) =
        (t', some ⟨.parameter j,
          .allocation (.tooManyLocals (h.parameterSlot j) q.type.width)⟩) := by
  induction hrest : h.parameters.drop k generalizing k t with
  | nil =>
    have hlength : h.parameters.length ≤ k := List.drop_eq_nil_iff.1 hrest
    refine .inl ⟨?_, t, rfl, ?_⟩
    · rwa [← Header.parameterSlot_of_length_le hlength]
    · refine ⟨hseats.built, ?_, hseats.receiver, fun j q hj hq => ?_⟩
      · rw [hseats.next_eq, Header.parameterSlot_of_length_le hlength,
          Header.parameterSlot_of_length_le (Nat.le_refl _)]
      · exact hseats.record? j q (Nat.lt_of_lt_of_le hj hlength) hq
  | cons p rest ih =>
    have hp : h.parameters[k]? = some p := by
      have hfirst := congrArg (·[0]?) hrest
      simpa using hfirst
    have htail : h.parameters.drop (k + 1) = rest := by
      rw [← List.drop_drop, hrest]
      rfl
    rw [List.zipIdx_cons, Table.steps]
    by_cases hfits : h.parameterSlot k + p.type.width ≤ localLimit
    · obtain ⟨t', hbind, hseats'⟩ := hseats.bindParameter hp hfits
      rw [hbind]
      exact ih hseats' (by rwa [Header.parameterSlot_succ hp]) htail
    · -- All parameters before this one are seated, so it is the first that does not fit.
      rw [hseats.bindParameter_of_overflow (Nat.not_le.1 hfits)]
      exact .inr ⟨k, p, t, hp, hslot, Nat.not_le.1 hfits, rfl⟩

end Seats

/-- Binding the receiver never fails, as slot zero is free and within the limit. -/
theorem exists_seats_bindReceiver (h : Header) :
    ∃ t, empty.bindReceiver h = (t, .done) ∧ t.stage = .receiverBound ∧ t.Seats h 0 := by
  have hslot := h.parameterSlot_zero
  have hnone : ∀ t : Table, ∀ j q, j < 0 → h.parameters[j]? = some q →
      t.record? (h.parameterSlot j) = some (.ofUse (h.parameterUse j q)) :=
    fun t j q hj => absurd hj (Nat.not_lt_zero j)
  unfold bindReceiver receiverUses
  by_cases hstatic : h.isStatic = true
  · rw [if_pos hstatic] at hslot ⊢
    refine ⟨_, rfl, rfl, ⟨[], Built.empty.stage _⟩, hslot.symm, ?_, hnone _⟩
    simp [receiverUses, hstatic]
  · rw [if_neg hstatic] at hslot ⊢
    obtain ⟨t, ht⟩ : ∃ t, empty.use ⟨0, receiverName, .object h.owner, .definition, false⟩ =
        .ok t := ⟨_, use_eq_ok_iff.2 ⟨rfl, show 0 + 1 ≤ localLimit by decide, rfl⟩⟩
    have hseats : t.Seats h 0 := by
      refine ⟨⟨_, Built.empty.use ht⟩, ?_, ?_, hnone t⟩
      · obtain ⟨-, -, rfl⟩ := use_eq_ok_iff.1 ht
        exact hslot.symm
      · intro u hu
        rw [receiverUses, if_neg hstatic, List.mem_singleton] at hu
        rw [hu, record?_use ht, if_pos rfl]
        rfl
    have hrun := runPass_of_stage .receiver use (show empty.stage = Pass.receiver.before from rfl)
      [⟨0, receiverName, .object h.owner, .definition, false⟩]
    simp only [Table.steps, ht] at hrun
    exact ⟨_, hrun, rfl, hseats.withStage _⟩

/-- The receiver and the parameters take the slots that the descriptor gives them, one after the
other. Binding fails exactly if the descriptor asks for more slots than there are, and then at the
first parameter that reaches beyond the limit; it never meets the second half of a wide value. -/
theorem bindParameters_agrees_with_descriptor (h : Header) :
    ∃ bound, empty.bindReceiver h = (bound, .done) ∧
      (h.parameterLength ≤ localLimit → ∃ t, bound.bindParameters h.parameters = (t, .done) ∧
        t.maxLocals = h.parameterLength ∧
        (∀ u ∈ receiverUses h, t.record? u.slot = some (.ofUse u)) ∧
        ∀ k p, h.parameters[k]? = some p →
          t.record? (h.parameterSlot k) = some (.ofUse (h.parameterUse k p))) ∧
      (localLimit < h.parameterLength → ∃ k p t, h.parameters[k]? = some p ∧
        localLimit < h.parameterSlot k + p.type.width ∧
        (∀ j q, j < k → h.parameters[j]? = some q →
          h.parameterSlot j + q.type.width ≤ localLimit) ∧
        bound.bindParameters h.parameters = (t, .failed ⟨.parameter k,
          .allocation (.tooManyLocals (h.parameterSlot k) p.type.width)⟩)) ∧
      ∀ t element slot, bound.bindParameters h.parameters ≠
        (t, .failed ⟨element, .allocation (.reservedTail slot)⟩) := by
  obtain ⟨bound, hbound, hstage, hseats⟩ := exists_seats_bindReceiver h
  refine ⟨bound, hbound, ?_⟩
  have hzero : h.parameterSlot 0 ≤ localLimit := by
    rw [h.parameterSlot_zero]
    split <;> decide
  have hrun := runPass_of_stage .parameters Table.bindParameter hstage h.parameters.zipIdx
  rw [show bound.runPass .parameters Table.bindParameter h.parameters.zipIdx =
    bound.bindParameters h.parameters from rfl] at hrun
  have hsteps := hseats.steps hzero
  rw [List.drop_zero] at hsteps
  rcases hsteps with ⟨hfits, t, ht, hall⟩ | ⟨k, p, t, hp, hslot, hfull, ht⟩
  · rw [ht] at hrun
    refine ⟨fun _ => ⟨_, hrun, ?_, hall.receiver, fun k p hp => ?_⟩, fun hlimit => ?_,
      fun _ _ _ => ?_⟩
    · exact hall.next_eq.trans (Header.parameterSlot_of_length_le (Nat.le_refl _))
    · exact hall.record? k p (List.getElem?_eq_some_iff.1 hp).1 hp
    · exact absurd hfits (Nat.not_le.2 hlimit)
    · rw [hrun]
      simp
  · rw [ht] at hrun
    have hlength : localLimit < h.parameterLength := by
      have hle := h.parameterSlot_le (k + 1)
      rw [Header.parameterSlot_succ hp] at hle
      omega
    refine ⟨fun hfits => ?_, fun _ => ⟨k, p, t, hp, hfull, fun j q hj hq => ?_, hrun⟩,
      fun _ _ _ => ?_⟩
    · exact absurd hfits (Nat.not_le.2 hlength)
    · rw [← Header.parameterSlot_succ hq]
      exact Nat.le_trans (Header.parameterSlot_mono hj) hslot
    · rw [hrun]
      simp

/-- A long and an int of one name have slots of their own, the second one right after both halves of
the first. -/
example : let h : Header :=
      ⟨.object, "run", .ofList [MethodFlag.static], [⟨"x", .base .long⟩, ⟨"x", .int⟩], none⟩
    (((empty.bindReceiver h).1.bindParameters h.parameters).1.records.map Record.slot = [0, 2]) ∧
      h.parameterLength = 3 := by
  decide

end Table

end MethodLocals
