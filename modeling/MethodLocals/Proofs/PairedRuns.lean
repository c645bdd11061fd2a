import MethodLocals.Proofs.Worklist
import Mathlib.Data.List.Forall2

/-! Two analyses side by side. If single steps lead from related frames to related frames, whole
analyses simulate the same instructions in the same order. They end with related frames or fail at
the same instruction. -/

namespace MethodLocals

/-- Both sides have related results, or both fail with related errors. Where failures of the left
side are excused, nothing is said of the right one. -/
inductive Alike {ε α β : Type} (excused : Prop) (E : ε → ε → Prop) (R : α → β → Prop) :
    Except ε α → Except ε β → Prop
  | ok {x : α} {y : β} (h : R x y) : Alike excused E R (.ok x) (.ok y)
  | error {e e' : ε} (h : E e e') : Alike excused E R (.error e) (.error e')
  | excuse {e : ε} {y : Except ε β} (h : excused) : Alike excused E R (.error e) y

def AnalysisError.Alike (E : FlowError → FlowError → Prop) (e e' : AnalysisError) : Prop :=
  e'.element = e.element ∧ E e.reason e'.reason

/-- Both analyses know frames at the same instructions, and related ones. -/
def Analysis.Paired (R : Frame → Frame → Prop) (x y : Analysis) : Prop :=
  List.Forall₂ (Option.Rel R) x.frames y.frames

variable {excused : Prop} {E : FlowError → FlowError → Prop} {R : Frame → Frame → Prop}

theorem Alike.map {ε α β γ δ : Type} {E : ε → ε → Prop} {R : α → β → Prop} {S : γ → δ → Prop}
    {x : Except ε α} {y : Except ε β} {f : α → γ} {g : β → δ} (h : Alike excused E R x y)
    (hfg : ∀ {u v}, R u v → S (f u) (g v)) : Alike excused E S (x.map f) (y.map g) := by
  cases h with
  | ok hxy => exact .ok (hfg hxy)
  | error he => exact .error he
  | excuse hexcused => exact .excuse hexcused

theorem Alike.refl {ε α : Type} {E : ε → ε → Prop} {R : α → α → Prop} (hE : ∀ e, E e e)
    (hR : ∀ u, R u u) (x : Except ε α) : Alike excused E R x x := by
  cases x with
  | ok u => exact .ok (hR u)
  | error e => exact .error (hE e)

theorem forall₂_set {α β : Type} {S : α → β → Prop} {l : List α} {l' : List β}
    (h : List.Forall₂ S l l') (i : Nat) {x : α} {y : β} (hxy : S x y) :
    List.Forall₂ S (l.set i x) (l'.set i y) := by
  induction h generalizing i with
  | nil => exact .nil
  | cons hfirst hrest ih =>
    cases i with
    | zero => exact .cons hxy hrest
    | succ i => exact .cons hfirst (ih i)

theorem rel_getElem?_join {l l' : List (Option Frame)} (h : List.Forall₂ (Option.Rel R) l l')
    (i : Nat) : Option.Rel R l[i]?.join l'[i]?.join := by
  induction h generalizing i with
  | nil => exact .none
  | cons hfirst _ ih =>
    cases i with
    | zero => exact hfirst
    | succ i => exact ih i

theorem Analysis.Paired.frame? {x y : Analysis} (h : x.Paired R y) (i : Nat) :
    Option.Rel R (x.frame? i) (y.frame? i) := rel_getElem?_join h i

theorem Analysis.Paired.eq {x y : Analysis} (h : x.Paired Eq y) : y = x := by
  have hrel : Option.Rel (Eq (α := Frame)) = Eq := by
    funext f g
    refine propext ⟨?_, ?_⟩
    · rintro (heq | -)
      · rw [heq]
      · rfl
    · rintro rfl
      cases f with
      | none => exact .none
      | some frame => exact .some rfl
  rw [Analysis.Paired, hrel, List.forall₂_eq_eq_eq] at h
  obtain ⟨frames⟩ := x
  obtain ⟨frames'⟩ := y
  exact congrArg Analysis.mk h.symm

namespace Progress

variable {p q : Progress} {f g : Frame} {i : Nat}

structure Paired (R : Frame → Frame → Prop) (p q : Progress) : Prop where
  pending : q.pending = p.pending
  queued : q.queued = p.queued
  entries : List.Forall₂ (Option.Rel R) p.entries q.entries
  results : List.Forall₂ (Option.Rel R) p.results q.results

namespace Paired

theorem entryFrame? (h : p.Paired R q) (i : Nat) :
    Option.Rel R (p.entryFrame? i) (q.entryFrame? i) := rel_getElem?_join h.entries i

theorem dequeue (h : p.Paired R q) (i : Nat) (rest : List Nat) :
    (p.dequeue i rest).Paired R (q.dequeue i rest) where
  pending := rfl
  queued := congrArg (·.set i false) h.queued
  entries := h.entries
  results := h.results

theorem setEntry (h : p.Paired R q) (i : Nat) (hfg : R f g) :
    (p.setEntry i f).Paired R (q.setEntry i g) where
  pending := h.pending
  queued := h.queued
  entries := forall₂_set h.entries i (.some hfg)
  results := h.results

theorem setResult (h : p.Paired R q) (i : Nat) (hfg : R f g) :
    (p.setResult i f).Paired R (q.setResult i g) where
  pending := h.pending
  queued := h.queued
  entries := h.entries
  results := forall₂_set h.results i (.some hfg)

theorem enqueue (h : p.Paired R q) (i : Nat) : (p.enqueue i).Paired R (q.enqueue i) := by
  have hqueued : q.isQueued i = p.isQueued i := by rw [isQueued, isQueued, h.queued]
  unfold Progress.enqueue
  rw [hqueued]
  split
  · exact h
  · exact ⟨congrArg (i :: ·) h.pending, congrArg (·.set i true) h.queued, h.entries, h.results⟩

end Paired

theorem start_paired {m n : Method} (hlength : n.code.length = m.code.length)
    (hentry : R m.header.entryFrame n.header.entryFrame) : (start m).Paired R (start n) := by
  have hnone : List.Forall₂ (Option.Rel R) (List.replicate m.code.length none)
      (List.replicate n.code.length none) := by
    rw [hlength]
    induction m.code.length with
    | zero => exact .nil
    | succ length ih => exact .cons .none ih
  have hempty : n.code = [] ↔ m.code = [] := by
    rw [← List.length_eq_zero_iff, hlength, List.length_eq_zero_iff]
  exact {
    pending := by simp only [start, hempty]
    queued := by simp only [start, hlength]
    entries := forall₂_set hnone 0 (.some hentry)
    results := hnone }

end Progress

namespace Analyzer

/-- Single steps of two analyses are alike: each instruction that is reached leads from related
frames to related ones, and so does each merge. -/
structure Lockstep (excused : Prop) (E : FlowError → FlowError → Prop)
    (R : Frame → Frame → Prop) (a b : Analyzer) (m n : Method) : Prop where
  length_eq : n.code.length = m.code.length
  unsettled : E .unsettled .unsettled
  duplicate : Option.Rel (fun x y => y.1 = x.1 ∧ E (.duplicateLabel x.2) (.duplicateLabel y.2))
    (duplicateLabel m.code) (duplicateLabel n.code)
  entry : R m.header.entryFrame n.header.entryFrame
  simulate : ∀ {i x y f g}, Reachable m.code i → m.code[i]? = some x → n.code[i]? = some y →
    R f g → Alike excused E (fun u v => R u.1 v.1 ∧ v.2 = u.2) (a.simulate m.code i x f)
      (b.simulate n.code i y g)
  merge : ∀ {f f' g g'}, R f g → R f' g' → Alike excused E
    (fun changed changed' => changed' = changed ∧
      R (f.merge a.inheritance f').1 (g.merge b.inheritance g').1)
    (f.merge a.inheritance f').2 (g.merge b.inheritance g').2

namespace Lockstep

variable {a b : Analyzer} {m n : Method} {p q : Progress} {f g : Frame}

theorem receive (h : Lockstep excused E R a b m n) (hpq : p.Paired R q) (hfg : R f g) (i : Nat) :
    Alike excused (AnalysisError.Alike E) (Progress.Paired R) (p.receive a.inheritance f i)
      (q.receive b.inheritance g i) := by
  have hentry := hpq.entryFrame? i
  unfold Progress.receive
  generalize p.entryFrame? i = left at hentry
  generalize q.entryFrame? i = right at hentry
  cases hentry with
  | none => exact .ok ((hpq.setEntry i hfg).enqueue i)
  | @some held held' hheld =>
    have hmerge := h.merge hheld hfg
    dsimp only
    generalize held.merge a.inheritance f = left at hmerge
    generalize held'.merge b.inheritance g = right at hmerge
    obtain ⟨merged, outcome⟩ := left
    obtain ⟨merged', outcome'⟩ := right
    dsimp only at hmerge
    cases hmerge with
    | error he => exact .error ⟨rfl, he⟩
    | excuse hexcused => exact .excuse hexcused
    | @ok _ changed hchanged =>
      obtain ⟨rfl, hmerged⟩ := hchanged
      cases changed with
      | true => exact .ok ((hpq.setEntry i hmerged).enqueue i)
      | false => exact .ok hpq

theorem receiveAll (h : Lockstep excused E R a b m n) (hpq : p.Paired R q) (hfg : R f g)
    (targets : List Nat) : Alike excused (AnalysisError.Alike E) (Progress.Paired R)
      (p.receiveAll a.inheritance f targets) (q.receiveAll b.inheritance g targets) := by
  induction targets generalizing p q with
  | nil => exact .ok hpq
  | cons i rest ih =>
    have hreceive := h.receive hpq hfg i
    unfold Progress.receiveAll
    generalize p.receive a.inheritance f i = left at hreceive
    generalize q.receive b.inheritance g i = right at hreceive
    cases hreceive with
    | ok hpq' => exact ih hpq'
    | error he => exact .error he
    | excuse hexcused => exact .excuse hexcused

theorem visit (h : Lockstep excused E R a b m n) (hpq : p.Paired R q) {i : Nat}
    (hreach : Reachable m.code i) : Alike excused (AnalysisError.Alike E) (Progress.Paired R)
      (a.visit m.code i p) (b.visit n.code i q) := by
  have hentry := hpq.entryFrame? i
  have hm := List.getElem?_eq_getElem hreach.lt
  have hn := List.getElem?_eq_getElem (Nat.lt_of_lt_of_eq hreach.lt h.length_eq.symm)
  unfold Analyzer.visit
  rw [hm, hn]
  generalize p.entryFrame? i = left at hentry
  generalize q.entryFrame? i = right at hentry
  cases hentry with
  | none => exact .ok hpq
  | @some entry entry' hrelated =>
    have hsimulate := h.simulate hreach hm hn hrelated
    dsimp only
    generalize a.simulate m.code i _ entry = left at hsimulate
    generalize b.simulate n.code i _ entry' = right at hsimulate
    cases hsimulate with
    | error he => exact .error ⟨rfl, he⟩
    | excuse hexcused => exact .excuse hexcused
    | @ok u v huv =>
      obtain ⟨frame, targets⟩ := u
      obtain ⟨frame', targets'⟩ := v
      obtain ⟨hframe, rfl⟩ := huv
      exact (h.receiveAll hpq hframe _).map (·.setResult i hframe)

/-- What single steps do alike, runs do alike. -/
theorem run (h : Lockstep excused E R a b m n) (hkept : p.Kept m.code) (hpq : p.Paired R q)
    (rounds : Nat) : Alike excused (AnalysisError.Alike E) (Progress.Paired R)
      (a.run m.code rounds p) (b.run n.code rounds q) := by
  -- What is kept on the left side says that only reached instructions are simulated.
  induction rounds generalizing p q with
  | zero =>
    cases hpending : p.pending with
    | nil =>
      rw [run_of_pending_nil hpending, run_of_pending_nil (hpq.pending.trans hpending)]
      exact .ok hpq
    | cons index rest =>
      rw [run_zero hpending, run_zero (hpq.pending.trans hpending)]
      exact .error ⟨rfl, h.unsettled⟩
  | succ rounds ih =>
    cases hpending : p.pending with
    | nil =>
      rw [run_of_pending_nil hpending, run_of_pending_nil (hpq.pending.trans hpending)]
      exact .ok hpq
    | cons index rest =>
      have hmem : index ∈ p.pending := hpending ▸ List.mem_cons_self
      have hentered := hkept.entered index hmem
      have hdequeued := hkept.dequeue hpending
      have hvisit := h.visit (hpq.dequeue index rest) (hkept.reachable index hentered)
      rw [run_succ hpending, run_succ (hpq.pending.trans hpending)]
      generalize b.visit n.code index (q.dequeue index rest) = right at hvisit
      cases hleft : a.visit m.code index (p.dequeue index rest) with
      | error e =>
        rw [hleft] at hvisit
        cases hvisit with
        | error he => exact .error he
        | excuse hexcused => exact .excuse hexcused
      | ok p' =>
        rw [hleft] at hvisit
        cases hvisit with
        | ok hpq' => exact ih ((visits_of_visit hdequeued hentered hleft).kept hdequeued) hpq'

/-- And so do whole analyses, for any bound on the simulations. -/
theorem analyzeWithin (h : Lockstep excused E R a b m n) (rounds : Nat) :
    Alike excused (AnalysisError.Alike E) (Analysis.Paired R) (a.analyzeWithin rounds m)
      (b.analyzeWithin rounds n) := by
  have hduplicate := h.duplicate
  unfold Analyzer.analyzeWithin
  generalize duplicateLabel m.code = left at hduplicate
  generalize duplicateLabel n.code = right at hduplicate
  cases hduplicate with
  | @some x y hxy => exact .error ⟨congrArg Element.instruction hxy.1, hxy.2⟩
  | none =>
    have hstart := Progress.start_paired h.length_eq h.entry
    exact (h.run (Progress.start_kept m) hstart rounds).map (·.results)

end Lockstep

end Analyzer

end MethodLocals
