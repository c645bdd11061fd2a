import MethodLocals.Proofs.Acyclic
import MethodLocals.Proofs.FrameMerge

/-! How far values can still go up. What a merge changes gets a smaller rank, whichever classes are
missing from the graph. -/

namespace MethodLocals

/-- A height for reference types: what a merge puts in place of a type has a smaller rank. -/
structure TypeRank (inheritance : Option Inheritance) where
  rank : RefType → Nat
  rank_le : ∀ r, rank r ≤ inheritance.elim 0 Inheritance.height + 1
  rises : ∀ {r s t}, RefType.merge inheritance r s = .ok t → t = r ∨ rank t < rank r

theorem RefType.of_merge {inheritance : Option Inheritance} {r s t : RefType}
    (h : RefType.merge inheritance r s = .ok t) : t = r ∨ t = .objectClass ∨
      ∃ i a b c, inheritance = some i ∧ r = .object a ∧ i.commonType a b = .ok c ∧
        t = .object c := by
  unfold merge at h
  split at h
  · exact .inl (Except.ok.inj h).symm
  · split at h
    · rename_i i a b _
      cases hc : i.commonType a b with
      | error e => rw [hc] at h; cases h
      | ok c =>
        rw [hc] at h
        exact .inr (.inr ⟨i, a, b, c, rfl, rfl, hc, (Except.ok.inj h).symm⟩)
    · exact .inr (.inl (Except.ok.inj h).symm)

/-- Without inheritance a type is replaced by the class of all objects only. -/
def TypeRank.flat : TypeRank none where
  rank r := if r = .objectClass then 0 else 1
  rank_le r := by
    split <;> simp
  rises {r s t} h := by
    rcases RefType.of_merge h with heq | rfl | ⟨i, a, b, c, hnone, -⟩
    · exact .inl heq
    · by_cases hr : r = .objectClass
      · exact .inl hr.symm
      · exact .inr (by simp [hr])
    · cases hnone

namespace ClassGraph

variable {g : ClassGraph} {a b c : BinaryName}

noncomputable def classesAbove (g : ClassGraph) (a : BinaryName) : Nat :=
  countAbove (g.Edge true) ClassInfo.name g.classes a

theorem exists_mem_of_knows (h : g.Knows a) : ∃ c ∈ g.classes, c.name = a := by
  exact h.imp fun _ hc => mem_classes_of_find? hc

theorem Hierarchy.classesAbove_lt (h : g.Hierarchy) (hb : g.Knows b)
    (hab : Relation.TransGen (g.Edge true) a b) : g.classesAbove b < g.classesAbove a := by
  obtain ⟨c, hmem, hname⟩ := exists_mem_of_knows hb
  exact countAbove_lt h.acyclic hab hmem hname

noncomputable def typeHeight (g : ClassGraph) : RefType → Nat
  | .object name => if name = .object then 0 else g.classesAbove name + 1
  | .array _ _ => 1

theorem typeHeight_le (g : ClassGraph) (r : RefType) : g.typeHeight r ≤ g.classes.length + 1 := by
  cases r with
  | array extra element => exact Nat.le_add_left 1 _
  | object name =>
    have hle : g.classesAbove name ≤ g.classes.length := List.countP_le_length
    rw [typeHeight]
    split
    · exact Nat.zero_le _
    · exact Nat.add_le_add_right hle 1

theorem typeHeight_objectClass (g : ClassGraph) : g.typeHeight .objectClass = 0 := by
  rw [RefType.objectClass, typeHeight, if_pos rfl]

theorem eq_objectClass_or_typeHeight_pos (g : ClassGraph) (r : RefType) :
    r = .objectClass ∨ 0 < g.typeHeight r := by
  cases r with
  | array extra element => exact .inr Nat.one_pos
  | object name =>
    by_cases hname : name = .object
    · exact .inl (by rw [hname, RefType.objectClass])
    · refine .inr ?_
      rw [typeHeight, if_neg hname]
      exact Nat.succ_pos _

theorem Hierarchy.typeHeight_lt_of_commonSuperclass (h : g.Hierarchy)
    (hc : g.commonSuperclass a b = .ok c) :
    c = a ∨ g.typeHeight (.object c) < g.typeHeight (.object a) := by
  rcases above_of_commonSuperclass hc with rfl | rfl | ⟨hknown, habove⟩
  · exact .inl rfl
  · refine (g.eq_objectClass_or_typeHeight_pos (.object a)).imp (fun heq => ?_) fun hpos => ?_
    · exact (RefType.object.inj heq).symm
    · exact Nat.lt_of_le_of_lt (Nat.le_of_eq g.typeHeight_objectClass) hpos
  · have hlt := h.classesAbove_lt hknown habove
    have ha : a ≠ .object := by
      rintro rfl
      obtain ⟨d, hedge, -⟩ := Relation.TransGen.head'_iff.1 habove
      exact h.not_edge_object hedge
    refine .inr ?_
    rw [typeHeight, typeHeight, if_neg ha]
    split
    · exact Nat.succ_pos _
    · omega

theorem Hierarchy.typeHeight_lt_of_merge (h : g.Hierarchy) {r s t : RefType}
    (hmerge : RefType.merge (some g.inheritance) r s = .ok t) :
    t = r ∨ g.typeHeight t < g.typeHeight r := by
  rcases RefType.of_merge hmerge with heq | rfl | ⟨i, a, b, c, hi, rfl, hc, rfl⟩
  · exact .inl heq
  · rw [typeHeight_objectClass]
    exact (g.eq_objectClass_or_typeHeight_pos r).imp Eq.symm id
  · obtain rfl := Option.some.inj hi
    exact (h.typeHeight_lt_of_commonSuperclass hc).imp (congrArg RefType.object) id

noncomputable def Hierarchy.typeRank (h : g.Hierarchy) : TypeRank (some g.inheritance) :=
  ⟨g.typeHeight, g.typeHeight_le, h.typeHeight_lt_of_merge⟩

end ClassGraph

namespace TypeRank

variable {inheritance : Option Inheritance} (k : TypeRank inheritance)

/-- The rank of null and of literals, which flow into objects. -/
def limit (_ : TypeRank inheritance) : Nat := inheritance.elim 0 Inheritance.height + 3

/-- How often a value can be replaced by what it merges into. -/
def valueRank : Value → Nat
  | .top => 0
  | .object r => k.rank r + 1
  | .null | .textConstant _ | .classConstant _ => k.limit
  | .int | .float | .long | .double | .uninit _ | .uninitThis _ => 1

variable {k}

theorem rank_object_lt (k : TypeRank inheritance) (r : RefType) :
    k.valueRank (.object r) < k.limit := by
  have hle := k.rank_le r
  rw [valueRank, limit]
  omega

theorem valueRank_le (k : TypeRank inheritance) (v : Value) : k.valueRank v ≤ k.limit := by
  have hone : 1 ≤ k.limit := Nat.le_add_left 1 _
  cases v <;> first
    | exact Nat.zero_le _
    | exact hone
    | exact Nat.le_refl _
    | exact Nat.le_of_lt (k.rank_object_lt _)

theorem eq_top_or_rank_pos (k : TypeRank inheritance) (v : Value) :
    v = .top ∨ 0 < k.valueRank v := by
  cases v <;> simp [valueRank, limit]

/-- A value that can be used as an object is one, or still above all of them. -/
theorem eq_object_or_rank_eq (k : TypeRank inheritance) {v : Value} {r : RefType}
    (hr : v.referenceType = some r) : v = .object r ∨ k.valueRank v = k.limit := by
  cases v <;> simp only [Value.referenceType, Option.some.injEq, reduceCtorEq] at hr
  all_goals simp [valueRank, hr]

theorem rank_orNull_lt (k : TypeRank inheritance) (v : Value) :
    k.valueRank v.orNull < k.limit := by
  unfold Value.orNull
  split
  · exact k.rank_object_lt _
  · exact Nat.succ_pos _

theorem rises_of_merge (k : TypeRank inheritance) {v w u : Value}
    (h : v.merge inheritance w = .ok u) : u = v ∨ k.valueRank u < k.valueRank v := by
  have hmerged := Value.merged inheritance v w
  rw [h] at hmerged
  generalize hu : (.ok u : Except MissingClass Value) = result at hmerged
  cases hmerged with
  | same heq => exact .inl (Except.ok.inj hu)
  | nullLeft hv =>
    obtain rfl := Except.ok.inj hu
    subst hv
    exact .inr (k.rank_orNull_lt w)
  | nullRight hw =>
    obtain rfl := Except.ok.inj hu
    cases hr : v.referenceType with
    | none =>
      rw [Value.orNull, hr]
      exact (k.eq_top_or_rank_pos v).imp Eq.symm id
    | some r =>
      refine (k.eq_object_or_rank_eq hr).imp (fun heq => ?_) fun heq => ?_
      · rw [Value.orNull, hr]
        exact heq.symm
      · exact heq ▸ k.rank_orNull_lt v
  | @references r s hr hs =>
    cases ht : RefType.merge inheritance r s with
    | error e => rw [ht] at hu; cases hu
    | ok t =>
      rw [ht] at hu
      obtain rfl := Except.ok.inj hu
      rcases k.eq_object_or_rank_eq hr with rfl | heq
      · exact (k.rises ht).imp (congrArg Value.object) (Nat.add_lt_add_right · 1)
      · exact .inr (heq ▸ k.rank_object_lt t)
  | nothing =>
    obtain rfl := Except.ok.inj hu
    exact (k.eq_top_or_rank_pos v).imp Eq.symm id

end TypeRank

end MethodLocals
