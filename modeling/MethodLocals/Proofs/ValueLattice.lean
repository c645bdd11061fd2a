import MethodLocals.Proofs.MergeOrder
import MethodLocals.Proofs.Ranks
import Mathlib.Data.List.Chain

/-! Merging values without inheritance. It never fails, and it is the join of the order of values in
which only the class of all objects lies above another type. -/

namespace MethodLocals

/-- The order that merging induces: `w` lies above the values that it takes in. -/
def Value.Below (inheritance : Option Inheritance) (v w : Value) : Prop :=
  v.merge inheritance w = .ok w

/-- Merging is the join of an order `Le`, which is the one that it induces, and no strictly ascending
chain has more than `height` values. -/
structure MergesAsJoin (inheritance : Option Inheritance) (Le : Value → Value → Prop)
    (height : Nat) : Prop where
  total (v w : Value) : ∃ u, v.merge inheritance w = .ok u
  idem (v : Value) : v.merge inheritance v = .ok v
  comm (v w : Value) : v.merge inheritance w = w.merge inheritance v
  assoc (u v w : Value) : (u.merge inheritance v).bind (·.merge inheritance w) =
    (v.merge inheritance w).bind (u.merge inheritance)
  merge_top (v : Value) : v.merge inheritance .top = .ok .top
  below_iff (v w : Value) : v.Below inheritance w ↔ Le v w
  absorbs_iff (v w : Value) : v.merge inheritance w = .ok v ↔ w.Below inheritance v
  below_trans (u v w : Value) : u.Below inheritance v → v.Below inheritance w → u.Below inheritance w
  below_antisymm (v w : Value) : v.Below inheritance w → w.Below inheritance v → v = w
  isLeast (v w u : Value) : v.merge inheritance w = .ok u →
    ∀ x : Value, u.Below inheritance x ↔ v.Below inheritance x ∧ w.Below inheritance x
  length_le (chain : List Value) :
    chain.IsChain (fun v w => v.Below inheritance w ∧ v ≠ w) → chain.length ≤ height

theorem RefType.merge_none (r s : RefType) :
    RefType.merge none r s = .ok (if r = s then r else .objectClass) := by
  unfold merge
  split <;> rfl

abbrev Value.FlatLe (v w : Value) : Prop := TypeOrder.flat.ValueLe v w

namespace TypeOrder

variable {r s t x : RefType} {v w u y : Value}

theorem flat_refLe_iff : TypeOrder.flat.RefLe r s ↔ r = s ∨ s = .objectClass := by
  constructor
  · rintro (_ | _ | hab)
    · exact .inl rfl
    · exact .inr rfl
    · exact hab.imp (congrArg RefType.object) (congrArg RefType.object)
  · rintro (rfl | rfl)
    · exact .refl r
    · exact .object r

theorem flat_refLe_of_merge (ht : RefType.merge none r s = .ok t)
    (hr : TypeOrder.flat.RefLe r x) (hs : TypeOrder.flat.RefLe s x) :
    TypeOrder.flat.RefLe t x := by
  rw [RefType.merge_none] at ht
  obtain rfl := Except.ok.inj ht
  split
  · exact hr
  · rename_i hrs
    rw [flat_refLe_iff] at hr hs ⊢
    rcases hr with rfl | rfl
    · exact .inr (hs.resolve_left (Ne.symm hrs))
    · exact .inl rfl

theorem flat_knownValue (v : Value) : TypeOrder.flat.KnownValue v := fun _ _ => trivial

/-- Without inheritance all values are known, so that one absorbs all those below it. -/
theorem flat_merge_of_le (hle : w.FlatLe v) : v.merge none w = .ok v :=
  mergeValue_of_le (flat_knownValue v) (flat_knownValue w) hle

end TypeOrder

namespace Value

variable {u v w x : Value}

theorem merge_none_comm (v w : Value) : v.merge none w = w.merge none v := by
  by_cases hne : v = w
  · rw [hne]
  cases ha : v.referenceType with
  | none => exact merge_comm_of_untyped none (.inl ha)
  | some a =>
    cases hb : w.referenceType with
    | none => exact merge_comm_of_untyped none (.inr hb)
    | some b =>
      rw [merge_of_typed none hne ha hb, merge_of_typed none (Ne.symm hne) hb ha,
        RefType.merge_none, RefType.merge_none]
      by_cases hab : a = b
      · rw [hab]
      · rw [if_neg hab, if_neg (Ne.symm hab)]

theorem FlatLe.antisymm (hvw : v.FlatLe w) (hwv : w.FlatLe v) : v = w := by
  have hv := TypeOrder.flat_merge_of_le hwv
  rw [merge_none_comm, TypeOrder.flat_merge_of_le hvw] at hv
  exact (Except.ok.inj hv).symm

/-- Nothing above both of two values lies below what they merge into. -/
theorem flatLe_of_merge (hu : v.merge none w = .ok u) (hv : v.FlatLe x) (hw : w.FlatLe x) :
    u.FlatLe x := by
  have hleft : w.FlatLe v → u.FlatLe x := fun hwv => by
    rw [TypeOrder.flat_merge_of_le hwv] at hu
    exact Except.ok.inj hu ▸ hv
  have hright : v.FlatLe w → u.FlatLe x := fun hvw => by
    rw [merge_none_comm, TypeOrder.flat_merge_of_le hvw] at hu
    exact Except.ok.inj hu ▸ hw
  by_cases hne : v = w
  · exact hleft (hne ▸ .refl v)
  cases hv with
  | refl => exact hleft hw
  | top => exact .top u
  | null r =>
    cases hw with
    | refl => exact hright (.null r)
    | null => exact absurd rfl hne
    | ref hs hle =>
      rw [(merge_null none (Ne.symm hne)).1, orNull, hs] at hu
      exact Except.ok.inj hu ▸ .ref rfl hle
  | @ref _ s r hs hle =>
    cases hw with
    | refl => exact hright (.ref hs hle)
    | null =>
      rw [(merge_null none hne).2, orNull, hs] at hu
      exact Except.ok.inj hu ▸ .ref rfl hle
    | @ref _ s' _ hs' hle' =>
      rw [merge_of_typed none hne hs hs', RefType.merge_none] at hu
      have hjoin := TypeOrder.flat_refLe_of_merge (RefType.merge_none s s') hle hle'
      exact Except.ok.inj hu ▸ .ref rfl hjoin

theorem merge_none_of_flatLe (hle : v.FlatLe w) : v.merge none w = .ok w := by
  rw [merge_none_comm]
  exact TypeOrder.flat_merge_of_le hle

theorem exists_merge_none (v w : Value) :
    ∃ u, v.merge none w = .ok u ∧ v.FlatLe u ∧ w.FlatLe u := by
  obtain ⟨u, hu, -, hle⟩ :=
    TypeOrder.exists_mergeValue (TypeOrder.flat_knownValue v) (TypeOrder.flat_knownValue w)
  exact ⟨u, hu, hle⟩

theorem below_none_iff : v.Below none w ↔ v.FlatLe w := by
  constructor
  · intro hbelow
    obtain ⟨u, hu, hle, -⟩ := exists_merge_none v w
    obtain rfl := Except.ok.inj (hbelow.symm.trans hu)
    exact hle
  · exact merge_none_of_flatLe

/-- What two values merge into lies below exactly what lies above both. -/
theorem flatLe_iff_of_merge (hu : v.merge none w = .ok u) :
    u.FlatLe x ↔ v.FlatLe x ∧ w.FlatLe x := by
  obtain ⟨u', hu', hv, hw⟩ := exists_merge_none v w
  obtain rfl := Except.ok.inj (hu.symm.trans hu')
  exact ⟨fun hux => ⟨hv.trans hux, hw.trans hux⟩, fun h => flatLe_of_merge hu h.1 h.2⟩

/-- Both ways to merge three values lead to what lies above all three. -/
theorem merge_none_assoc (u v w : Value) :
    (u.merge none v).bind (·.merge none w) = (v.merge none w).bind (u.merge none) := by
  obtain ⟨uv, huv, -⟩ := exists_merge_none u v
  obtain ⟨vw, hvw, -⟩ := exists_merge_none v w
  obtain ⟨left, hleft, -⟩ := exists_merge_none uv w
  obtain ⟨right, hright, -⟩ := exists_merge_none u vw
  have hsame : ∀ x, left.FlatLe x ↔ right.FlatLe x := fun x => by
    rw [flatLe_iff_of_merge hleft, flatLe_iff_of_merge huv, flatLe_iff_of_merge hright,
      flatLe_iff_of_merge hvw, and_assoc]
  have heq : left = right :=
    FlatLe.antisymm ((hsame right).2 (.refl right)) ((hsame left).1 (.refl left))
  rw [huv, hvw]
  exact hleft.trans (heq ▸ hright.symm)

theorem rank_lt_of_flatLe (k : TypeRank none) (hle : v.FlatLe w) (hne : v ≠ w) :
    k.valueRank w < k.valueRank v :=
  (k.rises_of_merge (merge_none_of_flatLe hle)).resolve_left (Ne.symm hne)

theorem length_le_of_isChain (k : TypeRank none) {chain : List Value}
    (h : (v :: chain).IsChain fun v w => v.FlatLe w ∧ v ≠ w) :
    chain.length ≤ k.valueRank v := by
  induction chain generalizing v with
  | nil => exact Nat.zero_le _
  | cons w chain ih =>
    rw [List.isChain_cons_cons] at h
    have hlt := rank_lt_of_flatLe k h.1.1 h.1.2
    exact Nat.lt_of_le_of_lt (ih h.2) hlt

/-- Without inheritance values are a join-semilattice, in which null or a literal, its class, the
class of all objects and the top make the longest chains. -/
theorem mergesAsJoin_none : MergesAsJoin none FlatLe 4 where
  total v w := (exists_merge_none v w).imp fun _ hu => hu.1
  idem := merge_self none
  comm := merge_none_comm
  assoc := merge_none_assoc
  merge_top v := merge_none_of_flatLe (.top v)
  below_iff _ _ := below_none_iff
  absorbs_iff v w := by rw [Below, merge_none_comm]
  below_trans u v w huv hvw := by
    rw [below_none_iff] at huv hvw ⊢
    exact huv.trans hvw
  below_antisymm v w hvw hwv := (below_none_iff.1 hvw).antisymm (below_none_iff.1 hwv)
  isLeast v w u hu x := by
    rw [below_none_iff, below_none_iff, below_none_iff]
    exact flatLe_iff_of_merge hu
  length_le chain h := by
    simp only [below_none_iff] at h
    cases chain with
    | nil => exact Nat.zero_le 4
    | cons v chain =>
      have hlength := length_le_of_isChain TypeRank.flat h
      have hrank : TypeRank.flat.valueRank v ≤ 3 := TypeRank.flat.valueRank_le v
      exact Nat.succ_le_succ (hlength.trans hrank)

example : [null, object .stringClass, object .objectClass, top].IsChain
    (fun v w => v.merge none w = .ok w ∧ v ≠ w) := by decide

end Value

end MethodLocals
