import MethodLocals.Proofs.Expansion
import MethodLocals.Proofs.Potential
import MethodLocals.Proofs.Worklist
import Mathlib.Algebra.Order.BigOperators.Group.Finset

/-! Every analysis ends. A simulation takes an instruction off the pending ones, and each one that
it adds is paid for by an entry frame that goes up. -/

namespace MethodLocals

open Finset (range mem_range)

variable {a : Analyzer} {k : TypeRank a.inheritance} {m : Method} {p q : Progress} {i : Nat}
  {frame : Frame}

namespace Progress

/-- A sum over all entries changes with one of them only. -/
theorem sum_entries_update (F : Nat → Option Frame → Nat) {n : Nat} (hi : i < n)
    (h : ∀ j, q.entryFrame? j = if j = i then some frame else p.entryFrame? j) :
    (∑ j ∈ range n, F j (q.entryFrame? j)) + F i (p.entryFrame? i) =
      (∑ j ∈ range n, F j (p.entryFrame? j)) + F i (some frame) := by
  rw [← Finset.add_sum_erase _ _ (mem_range.2 hi), ← Finset.add_sum_erase _ _ (mem_range.2 hi)]
  have hrest : ∀ j ∈ (range n).erase i, F j (q.entryFrame? j) = F j (p.entryFrame? j) := by
    intro j hj
    rw [h, if_neg (Finset.ne_of_mem_erase hj)]
  rw [Finset.sum_congr rfl hrest, h i, if_pos rfl]
  omega

end Progress

namespace Analyzer

def actionCount (a : Analyzer) (m : Method) (i : Nat) : Nat :=
  m.code[i]?.elim 0 fun instruction => (instruction.actions a.expander).length

def totalActions (a : Analyzer) (m : Method) : Nat :=
  (m.code.flatMap (·.actions a.expander)).length

/-- No entry frame has more variables and stack entries together. -/
def places (a : Analyzer) (m : Method) : Nat :=
  m.header.parameters.length + 1 + 2 * a.totalActions m

def enteredActions (a : Analyzer) (m : Method) (p : Progress) : Nat :=
  ∑ i ∈ range m.code.length, if (p.entryFrame? i).isSome then a.actionCount m i else 0

/-- How often an entry can still change; one that is not there appears first. -/
def entryPotential (a : Analyzer) (k : TypeRank a.inheritance) (m : Method) : Option Frame → Nat
  | none => 1 + a.places m * (k.limit + 1)
  | some f => k.potential (a.localNames m) f

/-- A bound on the simulations that are still to come. -/
def potential (a : Analyzer) (k : TypeRank a.inheritance) (m : Method) (p : Progress) : Nat :=
  (∑ i ∈ range m.code.length, a.entryPotential k m (p.entryFrame? i)) + p.pending.length

/-- Entry frames have no unexpected variables. Their stacks have been built by the actions of
entered instructions, each of which has added one entry at most. -/
structure Bounded (a : Analyzer) (m : Method) (p : Progress) : Prop where
  names : ∀ i e, p.entryFrame? i = some e → e.NamesIn (a.localNames m)
  height : ∀ i e, p.entryFrame? i = some e →
    e.stack.length + a.actionCount m i ≤ a.enteredActions m p

theorem sum_actionCount (a : Analyzer) (m : Method) :
    ∑ i ∈ range m.code.length, a.actionCount m i = a.totalActions m := by
  have hsum : ∀ code : List Instruction,
      (∑ i ∈ range code.length, code[i]?.elim 0 fun j => (j.actions a.expander).length) =
        (code.flatMap (·.actions a.expander)).length := by
    intro code
    induction code with
    | nil => rfl
    | cons first rest ih =>
      rw [List.length_cons, Finset.sum_range_succ', List.flatMap_cons, List.length_append, ← ih,
        Nat.add_comm]
      rfl
  exact hsum m.code

theorem enteredActions_le (a : Analyzer) (m : Method) (p : Progress) :
    a.enteredActions m p ≤ a.totalActions m := by
  rw [← sum_actionCount]
  apply Finset.sum_le_sum
  intro i _
  split
  · exact Nat.le_refl _
  · exact Nat.zero_le _

theorem length_localNames (a : Analyzer) (m : Method) :
    (a.localNames m).length ≤ m.header.parameters.length + 1 + a.totalActions m := by
  have hset : (m.code.flatMap fun i => (i.actions a.expander).filterMap Action.localName?).length ≤
      a.totalActions m := by
    rw [totalActions, List.length_flatMap, List.length_flatMap]
    exact List.sum_le_sum fun i _ => List.length_filterMap_le _ _
  rw [localNames, List.length_append, List.length_cons, List.length_map]
  omega

theorem entryPotential_le (k : TypeRank a.inheritance)
    (hheight : frame.stack.length ≤ a.totalActions m) :
    a.entryPotential k m (some frame) ≤ a.places m * (k.limit + 1) := by
  refine Nat.le_trans (k.potential_le (a.localNames m) frame) (Nat.mul_le_mul_right _ ?_)
  have hnames := a.length_localNames m
  unfold places
  omega

theorem bounded_execute {instruction : Instruction} {e : Frame}
    (hcode : m.code[i]? = some instruction) (hnames : e.NamesIn (a.localNames m))
    (hexecute : e.execute a.expander instruction = .ok frame) :
    frame.NamesIn (a.localNames m) ∧
      frame.stack.length ≤ e.stack.length + a.actionCount m i := by
  constructor
  · refine Frame.runAll_induction (fun hmem hinv hdoes => ?_) hnames hexecute
    apply hinv.does hdoes
    intro name hname
    apply List.mem_append_right
    exact List.mem_flatMap.2 ⟨instruction, List.mem_of_getElem? hcode,
      List.mem_filterMap.2 ⟨_, hmem, hname⟩⟩
  · rw [actionCount, hcode]
    exact Frame.length_runAll hexecute

theorem length_enqueue_le (p : Progress) (i : Nat) :
    (p.enqueue i).pending.length ≤ p.pending.length + 1 := by
  unfold Progress.enqueue
  split
  · exact Nat.le_succ _
  · exact Nat.le_refl _

theorem enteredActions_setEntry (a : Analyzer) (hkept : p.Kept m.code) (hi : i < m.code.length)
    (frame : Frame) :
    a.enteredActions m ((p.setEntry i frame).enqueue i) +
        (if (p.entryFrame? i).isSome then a.actionCount m i else 0) =
      a.enteredActions m p + a.actionCount m i :=
  Progress.sum_entries_update (fun j e => if e.isSome then a.actionCount m j else 0) hi
    (hkept.entryFrame?_setEntry_enqueue hi frame)

theorem potential_setEntry_le (k : TypeRank a.inheritance) (hkept : p.Kept m.code)
    (hi : i < m.code.length) (frame : Frame) :
    a.potential k m ((p.setEntry i frame).enqueue i) + a.entryPotential k m (p.entryFrame? i) ≤
      a.potential k m p + a.entryPotential k m (some frame) + 1 := by
  have hsum := Progress.sum_entries_update (fun _ e => a.entryPotential k m e) hi
    (hkept.entryFrame?_setEntry_enqueue hi frame)
  have hpending := length_enqueue_le (p.setEntry i frame) i
  have hsame : (p.setEntry i frame).pending = p.pending := rfl
  rw [hsame] at hpending
  rw [potential, potential]
  omega

/-- A new entry frame whose potential is less than the one of the old entry pays for the simulation
that it asks for. -/
theorem Bounded.renew (h : a.Bounded m p) (k : TypeRank a.inheritance) (hkept : p.Kept m.code)
    (hi : i < m.code.length) (hnames : frame.NamesIn (a.localNames m))
    (hheight : frame.stack.length + a.actionCount m i ≤
      a.enteredActions m ((p.setEntry i frame).enqueue i))
    (hpays : a.entryPotential k m (some frame) < a.entryPotential k m (p.entryFrame? i)) :
    a.Bounded m ((p.setEntry i frame).enqueue i) ∧
      a.enteredActions m p ≤ a.enteredActions m ((p.setEntry i frame).enqueue i) ∧
      a.potential k m ((p.setEntry i frame).enqueue i) ≤ a.potential k m p := by
  have hentry := hkept.entryFrame?_setEntry_enqueue hi frame
  have hentered : a.enteredActions m p ≤
      a.enteredActions m ((p.setEntry i frame).enqueue i) := by
    have hsum := a.enteredActions_setEntry hkept hi frame
    split at hsum <;> omega
  refine ⟨⟨fun j e he => ?_, fun j e he => ?_⟩, hentered, ?_⟩
  · rw [hentry] at he
    split at he
    · exact Option.some.inj he ▸ hnames
    · exact h.names j e he
  · rw [hentry] at he
    split at he
    · rename_i hji
      obtain rfl := Option.some.inj he
      rw [hji]
      exact hheight
    · exact Nat.le_trans (h.height j e he) hentered
  · have hle := potential_setEntry_le k hkept hi frame
    omega

/-- Entering an instruction costs the potential of an entry that is not there. -/
theorem Bounded.enter (h : a.Bounded m p) (k : TypeRank a.inheritance) (hkept : p.Kept m.code)
    (hi : i < m.code.length) (hnone : p.entryFrame? i = none)
    (hnames : frame.NamesIn (a.localNames m))
    (hheight : frame.stack.length ≤ a.enteredActions m p) :
    a.Bounded m ((p.setEntry i frame).enqueue i) ∧
      a.enteredActions m p ≤ a.enteredActions m ((p.setEntry i frame).enqueue i) ∧
      a.potential k m ((p.setEntry i frame).enqueue i) ≤ a.potential k m p := by
  apply h.renew k hkept hi hnames
  · have hsum := a.enteredActions_setEntry hkept hi frame
    rw [hnone, Option.isSome_none, if_neg Bool.false_ne_true] at hsum
    omega
  · have hle := entryPotential_le k (Nat.le_trans hheight (a.enteredActions_le m p))
    rw [hnone, entryPotential.eq_1]
    omega

theorem Bounded.raise (h : a.Bounded m p) (k : TypeRank a.inheritance) (hkept : p.Kept m.code)
    {held merged : Frame} (hheld : p.entryFrame? i = some held)
    (hmerges : held.Merges a.inheritance frame merged) (hne : merged ≠ held)
    (hnames : frame.NamesIn (a.localNames m)) :
    a.Bounded m ((p.setEntry i merged).enqueue i) ∧
      a.enteredActions m p ≤ a.enteredActions m ((p.setEntry i merged).enqueue i) ∧
      a.potential k m ((p.setEntry i merged).enqueue i) ≤ a.potential k m p := by
  have hi := (hkept.reachable i (by rw [hheld]; simp)).lt
  have hmergedNames := hmerges.namesIn (h.names i held hheld) hnames
  apply h.renew k hkept hi hmergedNames
  · have hsum := a.enteredActions_setEntry hkept hi merged
    have hlength : merged.stack.length = held.stack.length := hmerges.stack.length_eq.2
    have hold := h.height i held hheld
    rw [hheld, Option.isSome_some, if_pos rfl] at hsum
    omega
  · rw [hheld]
    exact TypeRank.potential_lt (k.rises_of_merges hmerges) hmergedNames hne

/-- Handing a frame on to an instruction keeps the bounds and adds no potential. -/
theorem Bounded.receive (h : a.Bounded m p) (k : TypeRank a.inheritance) (hkept : p.Kept m.code)
    (hreach : Reachable m.code i) (hnames : frame.NamesIn (a.localNames m))
    (hheight : frame.stack.length ≤ a.enteredActions m p)
    (hreceive : p.receive a.inheritance frame i = .ok q) :
    a.Bounded m q ∧ a.enteredActions m p ≤ a.enteredActions m q ∧
      a.potential k m q ≤ a.potential k m p := by
  rcases Progress.receive_cases hreceive with ⟨hnone, rfl⟩ |
    ⟨held, merged, hheld, hmerges, hne, rfl⟩ | ⟨-, -, -, rfl⟩
  · exact h.enter k hkept hreach.lt hnone hnames hheight
  · exact h.raise k hkept hheld hmerges hne hnames
  · exact ⟨h, Nat.le_refl _, Nat.le_refl _⟩

theorem Bounded.receiveAll (h : a.Bounded m p) (k : TypeRank a.inheritance)
    (hkept : p.Kept m.code) {targets : List Nat} (hreach : ∀ i ∈ targets, Reachable m.code i)
    (hnames : frame.NamesIn (a.localNames m))
    (hheight : frame.stack.length ≤ a.enteredActions m p)
    (hreceive : p.receiveAll a.inheritance frame targets = .ok q) :
    a.Bounded m q ∧ a.potential k m q ≤ a.potential k m p := by
  have hall := Progress.receiveAll_induction
    (fun p => p.Kept m.code ∧ a.Bounded m p ∧ frame.stack.length ≤ a.enteredActions m p)
    (fun p q => a.potential k m q ≤ a.potential k m p) (fun _ _ => True)
    (fun _ => Nat.le_refl _) (fun hpq hqr => Nat.le_trans hqr hpq) (fun _ => id)
    (fun {p q i} hmem hinv hstep => by
      obtain ⟨hkept, hbounded, hheight⟩ := hinv
      obtain ⟨hbounded', hentered, hle⟩ :=
        hbounded.receive k hkept (hreach i hmem) hnames hheight hstep
      exact ⟨⟨hkept.receive (hreach i hmem) hstep, hbounded', Nat.le_trans hheight hentered⟩, hle,
        trivial⟩)
    ⟨hkept, h, hheight⟩ hreceive
  exact ⟨hall.1.2.1, hall.2.1⟩

theorem Bounded.visits (h : a.Bounded m p) (k : TypeRank a.inheritance) (hkept : p.Kept m.code)
    {index : Nat} {rest : List Nat} (hpending : p.pending = index :: rest)
    (hvisits : a.Visits m.code index (p.dequeue index rest) q) :
    a.Bounded m q ∧ a.potential k m q < a.potential k m p := by
  cases hvisits with
  | @intro entry out instruction targets r hentry hcode hexecute htargets hreceive =>
    have hold : p.entryFrame? index = some entry := hentry
    have hreach := hkept.reachable index (by rw [hold]; simp)
    obtain ⟨hnames, hheight⟩ := bounded_execute hcode (h.names index entry hold) hexecute
    have hdequeued : a.Bounded m (p.dequeue index rest) := ⟨h.names, h.height⟩
    have hentered := h.height index entry hold
    have hpaid : a.potential k m (p.dequeue index rest) + 1 = a.potential k m p := by
      rw [potential, potential, hpending, List.length_cons]
      rfl
    obtain ⟨hbounded, hle⟩ := hdequeued.receiveAll k (hkept.dequeue hpending)
      (fun s hs => hreach.tail ⟨instruction, targets, hcode, htargets, hs⟩) hnames
      (Nat.le_trans hheight hentered) hreceive
    refine ⟨⟨hbounded.names, hbounded.height⟩, ?_⟩
    have hresult : a.potential k m (r.setResult index out) = a.potential k m r := rfl
    omega

theorem error_of_receiveAll {inheritance : Option Inheritance} {targets : List Nat}
    {e : AnalysisError} (h : p.receiveAll inheritance frame targets = .error e) :
    ∃ i reason, e = ⟨.instruction i, reason⟩ := by
  induction targets generalizing p with
  | nil => cases h
  | cons i rest ih =>
    unfold Progress.receiveAll at h
    split at h
    · rename_i hreceive
      obtain rfl := Except.error.inj h
      unfold Progress.receive at hreceive
      split at hreceive
      · cases hreceive
      · dsimp only at hreceive
        split at hreceive
        · exact ⟨i, _, (Except.error.inj hreceive).symm⟩
        · cases hreceive
        · cases hreceive
    · exact ih h

theorem error_of_visit {index : Nat} {e : AnalysisError}
    (h : a.visit m.code index p = .error e) : ∃ i reason, e = ⟨.instruction i, reason⟩ := by
  unfold visit at h
  split at h
  · split at h
    · exact ⟨index, _, (Except.error.inj h).symm⟩
    · rename_i frame targets hsimulate
      cases hreceive : p.receiveAll a.inheritance frame targets with
      | error e' =>
        rw [hreceive] at h
        obtain rfl := Except.error.inj h
        exact error_of_receiveAll hreceive
      | ok r => rw [hreceive] at h; cases h
  · cases h

def Ends (result : Except AnalysisError Progress) : Prop :=
  (∃ p, result = .ok p ∧ p.pending = []) ∨ ∃ i reason, result = .error ⟨.instruction i, reason⟩

/-- Simulations end within as many rounds as there is potential, and more rounds change nothing. -/
theorem Bounded.run_ends (h : a.Bounded m p) (k : TypeRank a.inheritance) (hkept : p.Kept m.code)
    {rounds : Nat} (hrounds : a.potential k m p ≤ rounds) :
    Ends (a.run m.code rounds p) ∧
      ∀ more, rounds ≤ more → a.run m.code more p = a.run m.code rounds p := by
  induction rounds generalizing p with
  | zero =>
    have hpending : p.pending = [] := by
      apply List.eq_nil_of_length_eq_zero
      unfold potential at hrounds
      omega
    rw [run_of_pending_nil hpending]
    exact ⟨.inl ⟨p, rfl, hpending⟩, fun more _ => run_of_pending_nil hpending more⟩
  | succ rounds ih =>
    cases hpending : p.pending with
    | nil =>
      rw [run_of_pending_nil hpending]
      exact ⟨.inl ⟨p, rfl, hpending⟩, fun more _ => run_of_pending_nil hpending more⟩
    | cons index rest =>
      have hmore : ∀ more, rounds + 1 ≤ more → ∃ before, rounds ≤ before ∧ more = before + 1 :=
        fun more hle => ⟨more - 1, by omega, by omega⟩
      rw [run_succ hpending]
      cases hvisit : a.visit m.code index (p.dequeue index rest) with
      | error e =>
        obtain ⟨i, reason, rfl⟩ := error_of_visit hvisit
        refine ⟨.inr ⟨i, reason, rfl⟩, fun more hle => ?_⟩
        obtain ⟨before, -, rfl⟩ := hmore more hle
        rw [run_succ hpending, hvisit]
      | ok q =>
        have hmem : index ∈ p.pending := hpending ▸ List.mem_cons_self
        have hdequeued := hkept.dequeue hpending
        have hvisits := visits_of_visit hdequeued (hkept.entered index hmem) hvisit
        obtain ⟨hbounded, hlt⟩ := h.visits k hkept hpending hvisits
        obtain ⟨hends, hsame⟩ := ih hbounded (hvisits.kept hdequeued) (by omega)
        refine ⟨hends, fun more hle => ?_⟩
        obtain ⟨before, hbefore, rfl⟩ := hmore more hle
        rw [run_succ hpending, hvisit]
        exact hsame before hbefore

theorem namesIn_entryFrame (a : Analyzer) (m : Method) :
    m.header.entryFrame.NamesIn (a.localNames m) ∧ m.header.entryFrame.stack = [] := by
  refine Header.entryFrame_induction
    (fun f => f.NamesIn (a.localNames m) ∧ f.stack = []) ⟨?_, rfl⟩ ?_ ?_
  · intro name hname
    exact absurd rfl hname
  · rintro v f - ⟨hnames, hstack⟩
    exact ⟨hnames.set (List.mem_append_left _ List.mem_cons_self) v, hstack⟩
  · rintro p hp f ⟨hnames, hstack⟩
    refine ⟨hnames.set (List.mem_append_left _ (List.mem_cons_of_mem _ ?_)) _, hstack⟩
    exact List.mem_map_of_mem hp

theorem bounded_start (a : Analyzer) (m : Method) : a.Bounded m (Progress.start m) := by
  obtain ⟨hnames, hstack⟩ := a.namesIn_entryFrame m
  have hentry : ∀ i e, (Progress.start m).entryFrame? i = some e →
      i = 0 ∧ 0 < m.code.length ∧ e = m.header.entryFrame := by
    intro i e he
    rw [Progress.entryFrame?_start] at he
    split at he
    · rename_i hzero
      exact ⟨hzero.1, hzero.2, (Option.some.inj he).symm⟩
    · cases he
  refine ⟨fun i e he => ?_, fun i e he => ?_⟩ <;> obtain ⟨rfl, hpos, rfl⟩ := hentry i e he
  · exact hnames
  · rw [hstack, List.length_nil, Nat.zero_add, enteredActions]
    refine Nat.le_trans (Nat.le_of_eq ?_) (Finset.single_le_sum (fun j _ => Nat.zero_le _)
      (mem_range.2 hpos))
    rw [he]
    rfl

theorem potential_start_le (k : TypeRank a.inheritance) (m : Method) :
    a.potential k m (Progress.start m) ≤ a.budget m := by
  have hpending : (Progress.start m).pending.length ≤ 1 := by
    unfold Progress.start
    split
    · exact Nat.zero_le _
    · exact Nat.le_refl _
  have hentry : ∀ i ∈ range m.code.length, a.entryPotential k m ((Progress.start m).entryFrame? i) ≤
      1 + a.places m * (k.limit + 1) := by
    intro i _
    rw [Progress.entryFrame?_start]
    split
    · have hheight : m.header.entryFrame.stack.length ≤ a.totalActions m := by
        rw [(a.namesIn_entryFrame m).2]
        exact Nat.zero_le _
      have hle := entryPotential_le k hheight
      omega
    · exact Nat.le_refl _
  have hsum := Finset.sum_le_card_nsmul _ _ _ hentry
  rw [Finset.card_range, Nat.nsmul_eq_mul] at hsum
  have hbudget : a.budget m = 1 + m.code.length * (1 + a.places m * (k.limit + 1)) := rfl
  rw [potential, hbudget]
  omega

/-- No analysis is given up whose merges go up. -/
theorem analyze_ne_unsettled (k : TypeRank a.inheritance) (m : Method) :
    a.analyze m ≠ .error ⟨.definition, .unsettled⟩ := by
  have hends := ((bounded_start a m).run_ends k (Progress.start_kept m)
    (potential_start_le k m)).1
  intro h
  unfold analyze analyzeWithin at h
  split at h
  · cases h
  · rcases hends with ⟨p, hrun, -⟩ | ⟨i, reason, hrun⟩ <;> rw [hrun] at h <;> cases h

/-- What inheritance answers goes up in a hierarchy, of which classes can be missing. -/
theorem exists_typeRank {inheritance : Option Inheritance}
    (h : inheritance = none ∨ ∃ g : ClassGraph, g.Hierarchy ∧ inheritance = some g.inheritance) :
    Nonempty (TypeRank inheritance) := by
  rcases h with rfl | ⟨g, hg, rfl⟩
  · exact ⟨.flat⟩
  · exact ⟨hg.typeRank⟩

def nested (inheritance : Option Inheritance) (expand : Option Expansion) (n : Nat) : Analyzer :=
  ⟨inheritance, expand.map (Expander.mk · n)⟩

/-- Every analysis ends within its budget. Merges change a frame only by adding variables and by
replacing values by ones that can be replaced less often. Once their nesting is allowed for,
expansions are carried out in full; then the simulations come to an empty list of pending
instructions or to an instruction that fails, and more rounds change nothing. -/
theorem ends_within_budget {inheritance : Option Inheritance}
    (hinheritance : inheritance = none ∨
      ∃ g : ClassGraph, g.Hierarchy ∧ inheritance = some g.inheritance)
    {expand : Option Expansion} (hexpand : ∀ f, expand = some f → f.Grounded) (m : Method) :
    (∃ rank : Value → Nat, (∀ v, rank v ≤ inheritance.elim 0 Inheritance.height + 3) ∧
      ∀ f g r : Frame, f.merge inheritance g = (r, .ok true) → r ≠ f ∧ f.Rises rank r) ∧
    ∃ nesting, ∀ n, nesting ≤ n →
      (∀ i ∈ m.code, i.Unfolds expand (i.actions (nested inheritance expand n).expander)) ∧
      ∀ rounds, (nested inheritance expand n).budget m ≤ rounds →
        Ends ((nested inheritance expand n).run m.code rounds (.start m)) ∧
        (nested inheritance expand n).analyzeWithin rounds m =
          (nested inheritance expand n).analyze m := by
  obtain ⟨k⟩ := exists_typeRank hinheritance
  refine ⟨⟨k.valueRank, k.valueRank_le, fun f g r h => ?_⟩, ?_⟩
  · obtain ⟨hmerges, hchanged⟩ := Frame.merge_eq_ok_iff.1 h
    exact ⟨of_decide_eq_true hchanged.symm, k.rises_of_merges hmerges⟩
  · obtain ⟨nesting, hnesting⟩ := Expansion.exists_nesting hexpand m.code
    refine ⟨nesting, fun n hn => ⟨hnesting n hn, fun rounds hrounds => ?_⟩⟩
    have hbounded := bounded_start (nested inheritance expand n) m
    have hkept := Progress.start_kept m
    have hstart := potential_start_le (a := nested inheritance expand n) k m
    have hsame := (hbounded.run_ends k hkept hstart).2 rounds hrounds
    refine ⟨(hbounded.run_ends k hkept (Nat.le_trans hstart hrounds)).1, ?_⟩
    rw [analyze, analyzeWithin, analyzeWithin, hsame]

def partialGraph : ClassGraph := ⟨[⟨.string, some .object, [], .ofList []⟩]⟩

def twoExpansions : Expansion := fun text =>
  if text = "outer" then .ok [.expression "inner", .storeRef "x"]
  else if text = "inner" then .ok [.ldc (.text "y")]
  else .error "unknown"

def expandedInLoop : Method where
  header := ⟨.object, "run", .ofBits _ 8, [], none⟩
  code := [.pushNull, .storeRef "x", .label "again", .expression "outer", .push .int,
    .branch (.zero .eq) "again", .returnVoid]

theorem partialGraph_hierarchy : partialGraph.Hierarchy := by
  refine .of_rank [BinaryName.object, .string].idxOf ?_ ?_
  · decide
  · decide

theorem twoExpansions_grounded : twoExpansions.Grounded := by
  have hcontains : ∀ outer inner, twoExpansions.Contains outer inner →
      outer = "outer" ∧ inner = "inner" := by
    rintro outer inner ⟨body, hbody, hmem⟩
    unfold twoExpansions at hbody
    split at hbody
    · rename_i houter
      obtain rfl := Except.ok.inj hbody
      exact ⟨houter, by simpa using hmem⟩
    · split at hbody
      · obtain rfl := Except.ok.inj hbody
        simp at hmem
      · cases hbody
  refine ⟨fun text => ⟨text, fun inner hinner => ⟨inner, fun deeper hdeeper => ?_⟩⟩⟩
  have heq := (hcontains _ _ hinner).2.symm.trans (hcontains _ _ hdeeper).1
  exact absurd heq (by decide)

theorem expandedInLoop_ends : ∃ nesting, ∀ n, nesting ≤ n →
    Ends ((nested (some partialGraph.inheritance) (some twoExpansions) n).run expandedInLoop.code
      ((nested (some partialGraph.inheritance) (some twoExpansions) n).budget expandedInLoop)
      (.start expandedInLoop)) := by
  have hexpand : ∀ f, some twoExpansions = some f → f.Grounded := by
    rintro f ⟨⟩
    exact twoExpansions_grounded
  obtain ⟨-, nesting, h⟩ := ends_within_budget
    (.inr ⟨partialGraph, partialGraph_hierarchy, rfl⟩) hexpand expandedInLoop
  exact ⟨nesting, fun n hn => ((h n hn).2 _ (Nat.le_refl _)).1⟩

end Analyzer

end MethodLocals
