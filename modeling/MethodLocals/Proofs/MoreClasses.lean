import MethodLocals.Proofs.MergeOrder
import MethodLocals.Proofs.PairedRuns
import Mathlib.Data.List.Perm.Subperm

/-! Graphs that know more classes. What a graph answers, a graph that knows more classes answers in
the same way; only a question that met a missing class can get a new answer. A climb may take more
steps in the larger graph, but it takes no more than there are classes, and in a hierarchy it ends. -/

namespace MethodLocals

namespace ClassGraph

variable {g g' : ClassGraph} {toInterface : Bool} {a b c target : BinaryName}

/-- The second graph knows each class of the first one just as it is, and counts no fewer. -/
structure Extends (g g' : ClassGraph) : Prop where
  find?_eq : ∀ name c, g.find? name = some c → g'.find? name = some c
  length_le : g.classes.length ≤ g'.classes.length

/-- Classes under new names extend a graph, one replacing the other if they share a name. -/
theorem extends_insertAll {new : List ClassInfo} (hnew : ∀ c ∈ new, ¬ g.Knows c.name) :
    g.Extends (g.insertAll new) := by
  have hinsert : ∀ h : ClassGraph, (∀ name c, g.find? name = some c → h.find? name = some c) →
      g.classes.Sublist h.classes →
      (∀ name c, g.find? name = some c → (h.insertAll new).find? name = some c) ∧
        g.classes.Sublist (h.insertAll new).classes := by
    induction new with
    | nil => exact fun h hfind hsub => ⟨hfind, hsub⟩
    | cons d new ih =>
      intro h hfind hsub
      rw [List.forall_mem_cons] at hnew
      refine ih hnew.2 (h.insert d) (fun name c hc => ?_) ?_
      · have hne : name ≠ d.name := by
          rintro rfl
          exact hnew.1 ⟨c, hc⟩
        rw [find?_insert_of_ne h hne]
        exact hfind name c hc
      · have hkeeps : g.classes.filter (·.name ≠ d.name) = g.classes := by
          refine List.filter_eq_self.2 fun c hc => decide_eq_true fun hname => ?_
          have hsome : (g.find? d.name).isSome :=
            List.find?_isSome.2 ⟨c, hc, decide_eq_true hname⟩
          exact hnew.1 (Option.isSome_iff_exists.1 hsome)
        have hfilter := hsub.filter (fun c => decide (c.name ≠ d.name))
        rw [hkeeps] at hfilter
        exact hfilter.cons d
  obtain ⟨hfind, hsub⟩ := hinsert g (fun _ _ => id) (.refl _)
  exact ⟨hfind, hsub.length_le⟩

def SameUnmet (g : ClassGraph) (unmet unmet' : List BinaryName) : Prop :=
  ∀ name c, g.find? name = some c → ∀ x ∈ c.superTypes, x ∈ unmet ↔ x ∈ unmet'

theorem pending_enqueue_eq {names pending unmet unmet' : List BinaryName}
    (h : ∀ x ∈ names, x ∈ unmet ↔ x ∈ unmet') :
    (enqueue names pending unmet').1 = (enqueue names pending unmet).1 := by
  induction names generalizing pending unmet unmet' with
  | nil => rfl
  | cons name names ih =>
    rw [List.forall_mem_cons] at h
    rw [enqueue, enqueue]
    by_cases hmem : name ∈ unmet
    · rw [if_pos hmem, if_pos (h.1.1 hmem)]
      exact ih fun x hx => by simp only [List.mem_filter, h.2 x hx]
    · rw [if_neg hmem, if_neg fun hmem' => hmem (h.1.2 hmem')]
      exact ih h.2

theorem SameUnmet.enqueue {names pending unmet unmet' : List BinaryName}
    (h : g.SameUnmet unmet unmet') :
    g.SameUnmet (enqueue names pending unmet).2 (ClassGraph.enqueue names pending unmet').2 := by
  intro name c hc x hx
  rw [mem_unmet_enqueue, mem_unmet_enqueue, h name c hc x hx]

namespace Extends

/-- A search with an answer has looked up known classes only, so it goes the same way where more
classes are known. -/
theorem search_eq (h : g.Extends g') {pending unmet unmet' : List BinaryName}
    (hsame : g.SameUnmet unmet unmet') {answer : Bool}
    (hanswer : g.search toInterface target pending unmet = .ok answer) :
    g'.search toInterface target pending unmet' = .ok answer := by
  fun_induction search g toInterface target pending unmet generalizing unmet' with
  | case1 =>
    rw [search]
    exact hanswer
  | case2 unmet rest =>
    rw [search, if_pos rfl]
    exact hanswer
  | case3 => cases hanswer
  | case4 unmet name rest hne d hd next =>
    rename_i ih
    have hpending : (enqueue (d.edges toInterface) rest unmet').1 =
        (enqueue (d.edges toInterface) rest unmet).1 :=
      pending_enqueue_eq fun x hx => hsame name d hd x (mem_superTypes_of_mem_edges hx)
    rw [search, if_neg hne, h.find?_eq name d hd]
    dsimp only
    rw [hpending]
    exact ih hsame.enqueue hanswer

theorem isAssignable_eq (h : g.Extends g') {answer : Bool}
    (hanswer : g.isAssignable a b = .ok answer) : g'.isAssignable a b = .ok answer := by
  unfold isAssignable at hanswer ⊢
  split
  · rename_i heq
    rwa [if_pos heq] at hanswer
  · rename_i hne
    rw [if_neg hne] at hanswer
    cases hb : g.find? b with
    | none => rw [hb] at hanswer; cases hanswer
    | some d =>
      rw [hb] at hanswer
      rw [h.find?_eq b d hb]
      refine h.search_eq (fun name c hc x hx => ?_) hanswer
      simp only [List.mem_filter, mem_targets_of_find? hc hx,
        mem_targets_of_find? (h.find?_eq name c hc) hx]

theorem eitherInterface_eq (h : g.Extends g') {answer : Bool}
    (hanswer : g.eitherInterface a b = .ok answer) : g'.eitherInterface a b = .ok answer := by
  have hget : ∀ {name : BinaryName} {d : ClassInfo}, g.get name = .ok d → g'.get name = .ok d := by
    intro name d hd
    unfold get at hd ⊢
    split at hd
    · rename_i d' hd'
      rwa [h.find?_eq name d' hd']
    · cases hd
  unfold eitherInterface at hanswer ⊢
  cases ha : g.get a with
  | error e => rw [ha] at hanswer; cases hanswer
  | ok d =>
    rw [ha] at hanswer
    rw [hget ha]
    dsimp only at hanswer ⊢
    split
    · rename_i hinterface
      rwa [if_pos hinterface] at hanswer
    · rename_i hclass
      rw [if_neg hclass] at hanswer
      cases hb : g.get b with
      | error e => rw [hb] at hanswer; cases hanswer
      | ok d' =>
        rw [hb] at hanswer
        rw [hget hb]
        exact hanswer

theorem climb_eq (h : g.Extends g') {steps : Nat} (hanswer : g.climb b steps a = .ok c) :
    g'.climb b steps a = .ok c := by
  induction steps generalizing a with
  | zero => exact hanswer
  | succ steps ih =>
    rw [climb] at hanswer ⊢
    cases ha : g.find? a with
    | none => rw [ha] at hanswer; cases hanswer
    | some d =>
      rw [ha] at hanswer
      rw [h.find?_eq a d ha]
      dsimp only at hanswer ⊢
      cases habove : d.superclass with
      | none => rwa [habove] at hanswer
      | some above =>
        rw [habove] at hanswer
        dsimp only at hanswer ⊢
        cases hassignable : g.isAssignable b above with
        | error e => rw [hassignable] at hanswer; cases hanswer
        | ok answer =>
          rw [hassignable] at hanswer
          rw [h.isAssignable_eq hassignable]
          cases answer with
          | true => exact hanswer
          | false => exact ih hanswer

end Extends

def ClimbsOn (g : ClassGraph) (b current above : BinaryName) : Prop :=
  ∃ d, g.find? current = some d ∧ d.superclass = some above ∧ g.isAssignable b above = .ok false

/-- A climb for `b` comes to an end after exactly so many steps. -/
inductive Climbs (g : ClassGraph) (b : BinaryName) : Nat → BinaryName → Prop
  | stop {current : BinaryName} (h : ∀ above, ¬ g.ClimbsOn b current above) : Climbs g b 0 current
  | step {current above : BinaryName} {steps : Nat} (h : g.ClimbsOn b current above)
    (hrest : Climbs g b steps above) : Climbs g b (steps + 1) current

theorem climb_of_climbsOn (h : g.ClimbsOn b a c) (steps : Nat) :
    g.climb b (steps + 1) a = g.climb b steps c := by
  obtain ⟨d, hd, habove, hassignable⟩ := h
  rw [climb, hd]
  dsimp only
  rw [habove]
  dsimp only
  rw [hassignable]

theorem climb_of_not_climbsOn (h : ∀ above, ¬ g.ClimbsOn b a above) (steps more : Nat) :
    g.climb b (steps + 1) a = g.climb b (more + 1) a := by
  rw [climb, climb]
  split
  · rfl
  · rename_i d hd
    split
    · rfl
    · rename_i above habove
      split
      · rfl
      · rfl
      · rename_i hassignable
        exact absurd ⟨d, hd, habove, hassignable⟩ (h above)

/-- Steps beyond the last one change nothing. -/
theorem Climbs.climb_eq {n steps more : Nat} (h : g.Climbs b n a) (hsteps : n < steps)
    (hmore : n < more) : g.climb b steps a = g.climb b more a := by
  induction h generalizing steps more with
  | stop hstop =>
    obtain ⟨steps, rfl⟩ := Nat.exists_eq_add_of_le' hsteps
    obtain ⟨more, rfl⟩ := Nat.exists_eq_add_of_le' hmore
    exact climb_of_not_climbsOn hstop _ _
  | step hon _ ih =>
    obtain ⟨steps, rfl⟩ := Nat.exists_eq_add_of_le' (Nat.le_trans (Nat.succ_pos _) hsteps)
    obtain ⟨more, rfl⟩ := Nat.exists_eq_add_of_le' (Nat.le_trans (Nat.succ_pos _) hmore)
    rw [climb_of_climbsOn hon, climb_of_climbsOn hon]
    exact ih (by omega) (by omega)

theorem ClimbsOn.unique {c' : BinaryName} (h : g.ClimbsOn b a c) (h' : g.ClimbsOn b a c') :
    c = c' := by
  obtain ⟨d, hd, habove, -⟩ := h
  obtain ⟨d', hd', habove', -⟩ := h'
  rw [hd] at hd'
  obtain rfl := Option.some.inj hd'
  exact Option.some.inj (habove.symm.trans habove')

theorem Climbs.unique {n n' : Nat} (h : g.Climbs b n a) (h' : g.Climbs b n' a) : n = n' := by
  induction h generalizing n' with
  | stop hstop =>
    cases h' with
    | stop => rfl
    | step hon => exact absurd hon (hstop _)
  | step hon _ ih =>
    cases h' with
    | stop hstop => exact absurd hon (hstop _)
    | step hon' hrest =>
      obtain rfl := hon.unique hon'
      rw [ih hrest]

/-- A climb that ends passes known classes that are all different, as each one is nearer to the end
than the one before. -/
theorem Climbs.exists_passed {n : Nat} (h : g.Climbs b n a) : ∃ passed : List BinaryName,
    passed.length = n ∧ passed.Nodup ∧
      ∀ x ∈ passed, x ∈ g.classes.map ClassInfo.name ∧ ∃ k ≤ n, g.Climbs b k x := by
  induction h with
  | stop => exact ⟨[], rfl, .nil, by simp⟩
  | @step current above steps hon hrest ih =>
    obtain ⟨passed, hlength, hnodup, hpassed⟩ := ih
    refine ⟨current :: passed, by rw [List.length_cons, hlength], ?_, ?_⟩
    · refine List.nodup_cons.2 ⟨fun hmem => ?_, hnodup⟩
      obtain ⟨-, k, hk, hclimbs⟩ := hpassed current hmem
      have hsame := hclimbs.unique (.step hon hrest)
      omega
    · rw [List.forall_mem_cons]
      refine ⟨⟨?_, steps + 1, Nat.le_refl _, .step hon hrest⟩, fun x hx => ?_⟩
      · obtain ⟨d, hd, -⟩ := hon
        exact List.mem_map.2 ⟨d, mem_classes_of_find? hd⟩
      · obtain ⟨hknown, k, hk, hclimbs⟩ := hpassed x hx
        exact ⟨hknown, k, Nat.le_succ_of_le hk, hclimbs⟩

theorem Climbs.le_length {n : Nat} (h : g.Climbs b n a) : n ≤ g.classes.length := by
  obtain ⟨passed, rfl, hnodup, hpassed⟩ := h.exists_passed
  have hsub : passed ⊆ g.classes.map ClassInfo.name := fun x hx => (hpassed x hx).1
  have hle := (List.subperm_of_subset hnodup hsub).length_le
  rwa [List.length_map] at hle

/-- A climb that never ends finds nothing however long it goes on. -/
theorem climb_of_not_climbs (h : ∀ n, ¬ g.Climbs b n a) (steps : Nat) :
    g.climb b steps a = .ok .object := by
  induction steps generalizing a with
  | zero => rfl
  | succ steps ih =>
    have hon : ∃ above, g.ClimbsOn b a above := by
      by_contra hstop
      exact h 0 (.stop fun above habove => hstop ⟨above, habove⟩)
    obtain ⟨above, habove⟩ := hon
    rw [climb_of_climbsOn habove]
    exact ih fun n hn => h (n + 1) (.step habove hn)

/-- Climbing has its answer after as many steps as there are classes, in any graph. -/
theorem climb_eq_of_length_lt {steps : Nat} (hsteps : g.classes.length < steps) :
    g.climb b steps a = g.climb b (g.classes.length + 1) a := by
  -- A chain of superclasses that returns to itself has no end, and no class is found on it.
  by_cases hends : ∃ n, g.Climbs b n a
  · obtain ⟨n, hn⟩ := hends
    exact hn.climb_eq (Nat.lt_of_le_of_lt hn.le_length hsteps) (Nat.lt_succ_of_le hn.le_length)
  · have hnever : ∀ n, ¬ g.Climbs b n a := fun n hn => hends ⟨n, hn⟩
    rw [climb_of_not_climbs hnever, climb_of_not_climbs hnever]

theorem ClimbsOn.knows (h : g.ClimbsOn b a c) : g.Knows c := by
  obtain ⟨_, _, _, hassignable⟩ := h
  rcases knows_of_isAssignable hassignable with rfl | rfl | hknown
  · rw [isAssignable_self] at hassignable
    cases hassignable
  · rw [isAssignable_object] at hassignable
    cases hassignable
  · exact hknown

theorem ClimbsOn.edge (h : g.ClimbsOn b a c) : g.Edge true a c := by
  obtain ⟨d, hd, habove, -⟩ := h
  exact edge_true_iff.2 ⟨d, hd, .inl habove⟩

namespace Hierarchy

/-- Every climb comes to an end, also where classes are missing: the class that it goes on to has
fewer known classes above it. -/
theorem exists_climbs (h : g.Hierarchy) (b a : BinaryName) :
    ∃ n ≤ g.classes.length, g.Climbs b n a := by
  have hends : ∃ n, g.Climbs b n a := by
    induction hcount : g.classesAbove a using Nat.strongRecOn generalizing a with
    | ind count ih =>
      by_cases hon : ∃ above, g.ClimbsOn b a above
      · obtain ⟨above, hon⟩ := hon
        have hlt := h.classesAbove_lt hon.knows (.single hon.edge)
        obtain ⟨n, hrest⟩ := ih _ (hcount ▸ hlt) above rfl
        exact ⟨n + 1, .step hon hrest⟩
      · exact ⟨0, .stop fun above habove => hon ⟨above, habove⟩⟩
  exact hends.imp fun n hn => ⟨hn.le_length, hn⟩

/-- What a climb finds is never for want of steps. -/
theorem climb_ends (h : g.Hierarchy) (b a : BinaryName) :
    ∃ n ≤ g.classes.length, g.Climbs b n a ∧
      ∀ steps, n < steps → g.climb b steps a = g.climb b (g.classes.length + 1) a := by
  obtain ⟨n, hle, hn⟩ := h.exists_climbs b a
  exact ⟨n, hle, hn, fun steps hsteps => hn.climb_eq hsteps (Nat.lt_succ_of_le hle)⟩

end Hierarchy

theorem Extends.commonSuperclass_eq (h : g.Extends g') (hanswer : g.commonSuperclass a b = .ok c) :
    g'.commonSuperclass a b = .ok c := by
  unfold commonSuperclass at hanswer ⊢
  split at hanswer
  · cases hanswer
  · rename_i hab
    rwa [h.isAssignable_eq hab]
  · rename_i hab
    rw [h.isAssignable_eq hab]
    dsimp only
    split at hanswer
    · cases hanswer
    · rename_i hba
      rwa [h.isAssignable_eq hba]
    · rename_i hba
      rw [h.isAssignable_eq hba]
      dsimp only
      split at hanswer
      · cases hanswer
      · rename_i heither
        rwa [h.eitherInterface_eq heither]
      · rename_i heither
        rw [h.eitherInterface_eq heither]
        -- The larger graph may climb further, which the smaller one could have done as well.
        rw [← climb_eq_of_length_lt (Nat.lt_succ_of_le h.length_le)] at hanswer
        exact h.climb_eq hanswer

end ClassGraph

section Answers

variable {i i' : Inheritance}
  (hanswers : ∀ {a b c : BinaryName}, i.commonType a b = .ok c → i'.commonType a b = .ok c)

include hanswers

theorem RefType.merge_eq_of_answers {r s t : RefType}
    (h : RefType.merge (some i) r s = .ok t) : RefType.merge (some i') r s = .ok t := by
  unfold merge at h ⊢
  split
  · rename_i heq
    rwa [if_pos heq] at h
  · rename_i hne
    rw [if_neg hne] at h
    cases r with
    | array => exact h
    | object a =>
      cases s with
      | array => exact h
      | object b =>
        dsimp only at h ⊢
        cases hab : i.commonType a b with
        | error e => rw [hab] at h; cases h
        | ok c => rwa [hanswers hab, ← hab]

theorem Value.merge_eq_of_answers {v w u : Value} (h : v.merge (some i) w = .ok u) :
    v.merge (some i') w = .ok u := by
  by_cases hne : v = w
  · subst hne
    rwa [merge_self] at h ⊢
  by_cases hv : v = null
  · subst hv
    rwa [(merge_null _ (Ne.symm hne)).1] at h ⊢
  by_cases hw : w = null
  · subst hw
    rwa [(merge_null _ hne).2] at h ⊢
  rw [merge_of_ne_null _ hne hv hw] at h ⊢
  split
  · rename_i r s hr hs
    rw [hr, hs] at h
    dsimp only at h
    cases hrs : RefType.merge (some i) r s with
    | error e => rw [hrs] at h; cases h
    | ok t => rwa [RefType.merge_eq_of_answers hanswers hrs, ← hrs]
  · rename_i hnone
    split at h
    · rename_i r s hr hs
      exact absurd hs (hnone r s hr)
    · exact h

theorem Frame.Merges.of_answers {f g r : Frame} (h : f.Merges (some i) g r) :
    f.Merges (some i') g r where
  stack := by
    have hstacks : ∀ {vs ws us : List Value}, StacksMerge (some i) vs ws us →
        StacksMerge (some i') vs ws us := by
      intro vs ws us hmerge
      induction hmerge with
      | nil => exact .nil
      | cons hv _ ih => exact .cons (Value.merge_eq_of_answers hanswers hv) ih
    exact hstacks h.stack
  locals name := by
    have hjoins := h.locals name
    generalize f.get? name = x at hjoins
    generalize g.get? name = y at hjoins
    generalize r.get? name = z at hjoins
    cases hjoins with
    | both hv => exact .both (Value.merge_eq_of_answers hanswers hv)
    | left v => exact .left v
    | right w => exact .right w
    | neither => exact .neither

/-- Where one inheritance answers as the other one does, single steps of the analyses are the same
as long as the first one does not fail. -/
theorem Analyzer.lockstep_of_answers (expander : Option Expander) (m : Method) :
    Lockstep True Eq Eq ⟨some i, expander⟩ ⟨some i', expander⟩ m m where
  length_eq := rfl
  unsettled := rfl
  duplicate := by
    cases duplicateLabel m.code with
    | none => exact .none
    | some found => exact .some ⟨rfl, rfl⟩
  entry := rfl
  simulate {j x y f g} _ hx hy hfg := by
    obtain rfl := hfg
    obtain rfl := Option.some.inj (hx.symm.trans hy)
    exact .refl (fun _ => rfl) (fun _ => ⟨rfl, rfl⟩) _
  merge {f f' g g'} hf hf' := by
    obtain rfl := hf
    obtain rfl := hf'
    dsimp only
    cases hmerge : f.merge (some i) f' with
    | mk r outcome =>
      cases outcome with
      | error e => exact .excuse trivial
      | ok changed =>
        obtain ⟨hmerges, hchanged⟩ := Frame.merge_eq_ok_iff.1 hmerge
        rw [Frame.merge_eq_ok_iff.2 ⟨hmerges.of_answers hanswers, hchanged⟩]
        exact .ok ⟨rfl, rfl⟩

end Answers

namespace Analyzer

variable {g g' : ClassGraph} {expander : Option Expander} {m : Method} {result : Analysis}

theorem analyzeWithin_of_extends (h : g.Extends g') {rounds : Nat}
    (hresult : analyzeWithin ⟨some g.inheritance, expander⟩ rounds m = .ok result) :
    analyzeWithin ⟨some g'.inheritance, expander⟩ rounds m = .ok result := by
  have hlockstep : Lockstep True Eq Eq ⟨some g.inheritance, expander⟩
      ⟨some g'.inheritance, expander⟩ m m := lockstep_of_answers h.commonSuperclass_eq expander m
  have halike := hlockstep.analyzeWithin rounds
  rw [hresult] at halike
  generalize analyzeWithin ⟨some g'.inheritance, expander⟩ rounds m = right at halike
  cases halike with
  | ok hpaired => rw [Analysis.Paired.eq hpaired]

theorem budget_le_of_extends (h : g.Extends g') :
    budget ⟨some g.inheritance, expander⟩ m ≤ budget ⟨some g'.inheritance, expander⟩ m := by
  have hheight : g.inheritance.height ≤ g'.inheritance.height := h.length_le
  exact Nat.add_le_add_left (Nat.mul_le_mul_left _ (Nat.add_le_add_left
    (Nat.mul_le_mul_left _ (by simpa using hheight)) 1)) 1

end Analyzer

namespace ClassGraph

/-- Knowing more classes changes no answer: whether a type stands below another one, which class two
types have in common, and the frames of a method, whatever its expressions stand for and however many
simulations are made. -/
theorem Extends.keeps_answers {g g' : ClassGraph} (h : g.Extends g') :
    (∀ sub super answer, g.isAssignable sub super = .ok answer →
      g'.isAssignable sub super = .ok answer) ∧
    (∀ a b c, g.commonSuperclass a b = .ok c → g'.commonSuperclass a b = .ok c) ∧
    ∀ (expander : Option Expander) (m : Method) (result : Analysis),
      (∀ rounds, Analyzer.analyzeWithin ⟨some g.inheritance, expander⟩ rounds m = .ok result →
        Analyzer.analyzeWithin ⟨some g'.inheritance, expander⟩ rounds m = .ok result) ∧
      (Analyzer.analyze ⟨some g.inheritance, expander⟩ m = .ok result →
        Analyzer.analyze ⟨some g'.inheritance, expander⟩ m = .ok result) := by
  refine ⟨fun _ _ _ => h.isAssignable_eq, fun _ _ _ => h.commonSuperclass_eq, ?_⟩
  intro expander m result
  refine ⟨fun rounds => Analyzer.analyzeWithin_of_extends h, fun hresult => ?_⟩
  have hsame := Analyzer.analyzeWithin_of_extends h hresult
  have hsettled : Analyzer.analyzeWithin ⟨some g'.inheritance, expander⟩
      (Analyzer.budget ⟨some g.inheritance, expander⟩ m) m ≠ .error ⟨.definition, .unsettled⟩ := by
    simp [hsame]
  exact (Analyzer.analyzeWithin_eq_of_le hsettled (Analyzer.budget_le_of_extends h)).trans hsame

def closedGraph : ClassGraph :=
  openGraph.insertAll [⟨.throwable, some .object, [], .ofList []⟩, ⟨.object, none, [], .ofList []⟩]

theorem openGraph_extends : openGraph.Extends closedGraph := by
  apply extends_insertAll
  rintro c hc ⟨d, hd⟩
  simp only [List.mem_cons, List.not_mem_nil, or_false] at hc
  rcases hc with rfl | rfl <;> cases hd

/-- What is thrown is one of two exceptions, the class of one standing below the class of the
other. -/
def throwsEither : Method where
  header := ⟨.object, "run", .ofList [MethodFlag.static],
    [⟨"n", .int⟩, ⟨"r", .object .runtimeException⟩, ⟨"e", .object .exception⟩], none⟩
  code := [.load .int "n", .branch (.zero .eq) "other", .loadRef "r", .goto "throw",
    .label "other", .loadRef "e", .label "throw", .throw]

theorem throwsEither_analyzed :
    openGraph.isAssignable .runtimeException .exception = .ok true ∧
      closedGraph.isAssignable .runtimeException .exception = .ok true ∧
      closedGraph.commonSuperclass .runtimeException .exception = .ok .exception ∧
      ∃ result : Analysis,
        Analyzer.analyze ⟨some openGraph.inheritance, none⟩ throwsEither = .ok result ∧
        Analyzer.analyze ⟨some closedGraph.inheritance, none⟩ throwsEither = .ok result ∧
        (result.frame? 6).map Frame.stack = some [.object (.object .exception)] := by
  obtain ⟨hassignable, hcommon, hanalyze⟩ := openGraph_extends.keeps_answers
  have hbelow : openGraph.isAssignable .runtimeException .exception = .ok true := by
    decide +kernel
  have hstack : (Analyzer.analyze ⟨some openGraph.inheritance, none⟩ throwsEither).toOption.bind
      (fun result => (result.frame? 6).map Frame.stack) = some [.object (.object .exception)] := by
    decide +kernel
  refine ⟨hbelow, hassignable _ _ _ hbelow, hcommon _ _ _ (by decide +kernel), ?_⟩
  cases h : Analyzer.analyze ⟨some openGraph.inheritance, none⟩ throwsEither with
  | error e =>
    rw [h] at hstack
    cases hstack
  | ok result =>
    rw [h] at hstack
    exact ⟨result, rfl, (hanalyze none throwsEither result).2 h, hstack⟩

/-- A question that met the missing class is answered once that class is known. -/
example : openGraph.commonSuperclass .exception .runtimeException = .error ⟨.throwable⟩ ∧
    closedGraph.commonSuperclass .exception .runtimeException = .ok .exception := by
  decide +kernel

end ClassGraph

end MethodLocals
