import MethodLocals.Analysis
import MethodLocals.Proofs.ControlFlow
import MethodLocals.Proofs.FrameMerge

/-! What one simulation does to the progress of an analysis, and what every simulation keeps. -/

namespace MethodLocals

namespace Progress

variable {p q : Progress} {i j : Nat}

/-- The frame that an instruction left when it was last simulated. -/
def result? (p : Progress) (index : Nat) : Option Frame := p.results[index]?.join

theorem entryFrame?_setEntry (frame : Frame) (hi : i < p.entries.length) (j : Nat) :
    (p.setEntry i frame).entryFrame? j = if j = i then some frame else p.entryFrame? j := by
  simp only [entryFrame?, setEntry, List.getElem?_set, hi, if_true]
  by_cases hij : i = j
  · simp [hij]
  · rw [if_neg hij, if_neg (Ne.symm hij)]

theorem result?_setResult (frame : Frame) (hi : i < p.results.length) (j : Nat) :
    (p.setResult i frame).result? j = if j = i then some frame else p.result? j := by
  simp only [result?, setResult, List.getElem?_set, hi, if_true]
  by_cases hij : i = j
  · simp [hij]
  · rw [if_neg hij, if_neg (Ne.symm hij)]

@[simp] theorem entryFrame?_enqueue (p : Progress) (i j : Nat) :
    (p.enqueue i).entryFrame? j = p.entryFrame? j := by
  unfold enqueue
  split <;> rfl

theorem isQueued_set {queued : List Bool} (hi : i < queued.length) (b : Bool) (j : Nat) :
    (queued.set i b)[j]?.getD false = if j = i then b else queued[j]?.getD false := by
  simp only [List.getElem?_set, hi, if_true]
  by_cases hij : i = j
  · simp [hij]
  · rw [if_neg hij, if_neg (Ne.symm hij)]

/-- What letting a frame flow into an instruction does: it becomes the entry, or it changes the
entry that is there, or nothing happens. -/
theorem receive_cases {inheritance : Option Inheritance} {frame : Frame}
    (h : p.receive inheritance frame i = .ok q) :
    (p.entryFrame? i = none ∧ q = (p.setEntry i frame).enqueue i) ∨
      (∃ held merged, p.entryFrame? i = some held ∧ held.Merges inheritance frame merged ∧
        merged ≠ held ∧ q = (p.setEntry i merged).enqueue i) ∨
      ∃ held, p.entryFrame? i = some held ∧ held.Merges inheritance frame held ∧ q = p := by
  unfold receive at h
  cases hentry : p.entryFrame? i with
  | none =>
    simp only [hentry, Except.ok.injEq] at h
    exact .inl ⟨rfl, h.symm⟩
  | some held =>
    simp only [hentry] at h
    cases hmerge : held.merge inheritance frame with
    | mk merged outcome =>
      simp only [hmerge] at h
      cases outcome with
      | error e => cases h
      | ok changed =>
        obtain ⟨hmerges, hchanged⟩ := Frame.merge_eq_ok_iff.1 hmerge
        cases changed with
        | true =>
          obtain rfl := Except.ok.inj h
          exact .inr (.inl ⟨held, merged, rfl, hmerges, of_decide_eq_true hchanged.symm, rfl⟩)
        | false =>
          obtain rfl := Except.ok.inj h
          have hsame : merged = held := by simpa using hchanged
          exact .inr (.inr ⟨held, rfl, hsame ▸ hmerges, rfl⟩)

/-- The books of an analysis agree: an instruction is marked exactly while it is pending, it is
pending at most once, and only after control has reached it. -/
structure Kept (code : List Instruction) (p : Progress) : Prop where
  queued_length : p.queued.length = code.length
  entries_length : p.entries.length = code.length
  results_length : p.results.length = code.length
  nodup : p.pending.Nodup
  isQueued_iff : ∀ i, p.isQueued i = true ↔ i ∈ p.pending
  entered : ∀ i ∈ p.pending, p.entryFrame? i ≠ none
  reachable : ∀ i, p.entryFrame? i ≠ none → Reachable code i
  simulated : ∀ i, p.result? i ≠ none → p.entryFrame? i ≠ none

variable {code : List Instruction}

theorem mem_enqueue (hkept : p.Kept code) : j ∈ (p.enqueue i).pending ↔ j = i ∨ j ∈ p.pending := by
  unfold enqueue
  split
  · rename_i hqueued
    constructor
    · exact .inr
    · rintro (rfl | hj)
      · exact (hkept.isQueued_iff j).1 hqueued
      · exact hj
  · exact List.mem_cons

namespace Kept

theorem entryFrame?_setEntry_enqueue (h : p.Kept code) (hi : i < code.length) (frame : Frame)
    (j : Nat) : ((p.setEntry i frame).enqueue i).entryFrame? j =
      if j = i then some frame else p.entryFrame? j := by
  rw [entryFrame?_enqueue, entryFrame?_setEntry frame (h.entries_length ▸ hi)]

theorem dequeue (h : p.Kept code) {rest : List Nat} (hpending : p.pending = i :: rest) :
    (p.dequeue i rest).Kept code where
  queued_length := by simpa [Progress.dequeue] using h.queued_length
  entries_length := h.entries_length
  results_length := h.results_length
  nodup := by
    have hnodup := h.nodup
    rw [hpending] at hnodup
    exact (List.nodup_cons.1 hnodup).2
  isQueued_iff j := by
    have hnodup := h.nodup
    rw [hpending, List.nodup_cons] at hnodup
    have hmem : i ∈ p.pending := hpending ▸ List.mem_cons_self
    have hlt : i < p.queued.length := by
      have hi := (h.isQueued_iff i).2 hmem
      by_contra hnot
      rw [isQueued, List.getElem?_eq_none (Nat.le_of_not_lt hnot)] at hi
      cases hi
    have hj := h.isQueued_iff j
    rw [isQueued, hpending, List.mem_cons] at hj
    rw [isQueued, Progress.dequeue, isQueued_set hlt]
    by_cases hji : j = i
    · subst hji
      simp [hnodup.1]
    · simpa [hji] using hj
  entered j hj := h.entered j (hpending ▸ List.mem_cons_of_mem i hj)
  reachable := h.reachable
  simulated := h.simulated

theorem setEntry (h : p.Kept code) (hreach : Reachable code i) (frame : Frame) :
    (p.setEntry i frame).Kept code := by
  have hlt : i < p.entries.length := h.entries_length ▸ hreach.lt
  have hentry : ∀ j, (p.setEntry i frame).entryFrame? j ≠ none ↔
      j = i ∨ p.entryFrame? j ≠ none := by
    intro j
    rw [entryFrame?_setEntry frame hlt]
    by_cases hji : j = i <;> simp [hji]
  exact {
    queued_length := h.queued_length
    entries_length := by simpa [Progress.setEntry] using h.entries_length
    results_length := h.results_length
    nodup := h.nodup
    isQueued_iff := h.isQueued_iff
    entered := fun j hj => (hentry j).2 (.inr (h.entered j hj))
    reachable := fun j hj => ((hentry j).1 hj).elim (fun heq => heq ▸ hreach) (h.reachable j)
    simulated := fun j hj => (hentry j).2 (.inr (h.simulated j hj)) }

theorem enqueue (h : p.Kept code) (hi : p.entryFrame? i ≠ none) : (p.enqueue i).Kept code := by
  have hlt : i < p.queued.length := h.queued_length ▸ (h.reachable i hi).lt
  by_cases hqueued : p.isQueued i = true
  · rw [Progress.enqueue, if_pos hqueued]
    exact h
  · have hnot : i ∉ p.pending := fun hmem => hqueued ((h.isQueued_iff i).2 hmem)
    rw [Progress.enqueue, if_neg hqueued]
    exact {
      queued_length := by simpa using h.queued_length
      entries_length := h.entries_length
      results_length := h.results_length
      nodup := List.nodup_cons.2 ⟨hnot, h.nodup⟩
      isQueued_iff := fun j => by
        have hj := h.isQueued_iff j
        unfold isQueued at hj
        rw [isQueued, isQueued_set hlt, List.mem_cons]
        by_cases hji : j = i
        · simp [hji]
        · simpa [hji] using hj
      entered := fun j hj => (List.mem_cons.1 hj).elim (fun heq => heq ▸ hi) (h.entered j)
      reachable := h.reachable
      simulated := h.simulated }

theorem setResult (h : p.Kept code) (hi : p.entryFrame? i ≠ none) (frame : Frame) :
    (p.setResult i frame).Kept code where
  queued_length := h.queued_length
  entries_length := h.entries_length
  results_length := by simpa [Progress.setResult] using h.results_length
  nodup := h.nodup
  isQueued_iff := h.isQueued_iff
  entered := h.entered
  reachable := h.reachable
  simulated j hj := by
    have hlt : i < p.results.length := h.results_length ▸ (h.reachable i hi).lt
    rw [result?_setResult frame hlt] at hj
    by_cases hji : j = i
    · exact hji ▸ hi
    · rw [if_neg hji] at hj
      exact h.simulated j hj

theorem receive (h : p.Kept code) {inheritance : Option Inheritance} {frame : Frame}
    (hreach : Reachable code i) (hreceive : p.receive inheritance frame i = .ok q) :
    q.Kept code := by
  have hset : ∀ r, ((p.setEntry i r).enqueue i).Kept code := by
    intro r
    apply (h.setEntry hreach r).enqueue
    rw [entryFrame?_setEntry r (h.entries_length ▸ hreach.lt)]
    simp
  rcases receive_cases hreceive with ⟨-, rfl⟩ | ⟨-, merged, -, -, -, rfl⟩ | ⟨-, -, -, rfl⟩
  · exact hset frame
  · exact hset merged
  · exact h

end Kept

/-- What each step of handing a frame on keeps and does, handing it on to all keeps and does: the
steps chain by a transitive relation, and what one step settles the later ones leave settled. -/
theorem receiveAll_induction {inheritance : Option Inheritance} {frame : Frame}
    (Inv : Progress → Prop) (Rel : Progress → Progress → Prop) (Done : Progress → Nat → Prop)
    (hrefl : ∀ p, Rel p p) (htrans : ∀ {p q r}, Rel p q → Rel q r → Rel p r)
    (hdone : ∀ {p q i}, Rel p q → Done p i → Done q i) {targets : List Nat}
    (hstep : ∀ {p q i}, i ∈ targets → Inv p → p.receive inheritance frame i = .ok q →
      Inv q ∧ Rel p q ∧ Done q i)
    (hinv : Inv p) (h : p.receiveAll inheritance frame targets = .ok q) :
    Inv q ∧ Rel p q ∧ ∀ i ∈ targets, Done q i := by
  induction targets generalizing p with
  | nil =>
    obtain rfl := Except.ok.inj h
    exact ⟨hinv, hrefl p, by simp⟩
  | cons i rest ih =>
    unfold receiveAll at h
    split at h
    · cases h
    · rename_i p' hreceive
      obtain ⟨hinv', hrel, hfirst⟩ := hstep List.mem_cons_self hinv hreceive
      obtain ⟨hend, hrel', hrest⟩ :=
        ih (fun hmem => hstep (List.mem_cons_of_mem i hmem)) hinv' h
      exact ⟨hend, htrans hrel hrel', List.forall_mem_cons.2 ⟨hdone hrel' hfirst, hrest⟩⟩

theorem entered_of_receive (hkept : p.Kept code) {inheritance : Option Inheritance} {frame : Frame}
    (hreach : Reachable code i) (h : p.receive inheritance frame i = .ok q) (j : Nat)
    (hj : p.entryFrame? j ≠ none) : q.entryFrame? j ≠ none := by
  have hset : ∀ r, ((p.setEntry i r).enqueue i).entryFrame? j ≠ none := by
    intro r
    rw [hkept.entryFrame?_setEntry_enqueue hreach.lt]
    by_cases hji : j = i
    · simp [hji]
    · rwa [if_neg hji]
  rcases receive_cases h with ⟨-, rfl⟩ | ⟨-, merged, -, -, -, rfl⟩ | ⟨-, -, -, rfl⟩
  · exact hset frame
  · exact hset merged
  · exact hj

theorem Kept.receiveAll (h : p.Kept code) {inheritance : Option Inheritance} {frame : Frame}
    {targets : List Nat} (hreach : ∀ i ∈ targets, Reachable code i)
    (hreceive : p.receiveAll inheritance frame targets = .ok q) :
    q.Kept code ∧ ∀ j, p.entryFrame? j ≠ none → q.entryFrame? j ≠ none := by
  have hall := receiveAll_induction (Kept code)
    (fun p q => ∀ j, p.entryFrame? j ≠ none → q.entryFrame? j ≠ none) (fun _ _ => True)
    (fun _ _ => id) (fun hpq hqr j hj => hqr j (hpq j hj)) (fun _ => id)
    (fun hmem hkept hstep => ⟨hkept.receive (hreach _ hmem) hstep,
      entered_of_receive hkept (hreach _ hmem) hstep, trivial⟩) h hreceive
  exact ⟨hall.1, hall.2.1⟩

theorem results_enqueue (p : Progress) (i : Nat) : (p.enqueue i).results = p.results := by
  unfold enqueue
  split <;> rfl

def EntriesSatisfy (P : Nat → Frame → Prop) (p : Progress) : Prop :=
  ∀ i e, p.entryFrame? i = some e → P i e

/-- What merges keep holds after a frame that satisfies it has flown in. -/
theorem EntriesSatisfy.receive {P : Nat → Frame → Prop} {inheritance : Option Inheritance}
    {frame : Frame} (h : p.EntriesSatisfy P) (hkept : p.Kept code) (hreach : Reachable code i)
    (hmerges : ∀ {i f g r}, P i f → P i g → f.Merges inheritance g r → P i r)
    (hframe : P i frame) (hreceive : p.receive inheritance frame i = .ok q) :
    q.EntriesSatisfy P ∧ q.results = p.results := by
  have hset : ∀ {e}, P i e → ((p.setEntry i e).enqueue i).EntriesSatisfy P := by
    intro e he j e' he'
    rw [hkept.entryFrame?_setEntry_enqueue hreach.lt] at he'
    split at he'
    · rename_i hji
      obtain rfl := Option.some.inj he'
      exact hji ▸ he
    · exact h j e' he'
  rcases receive_cases hreceive with ⟨-, rfl⟩ | ⟨held, merged, hheld, hmerge, -, rfl⟩ |
    ⟨-, -, -, rfl⟩
  · exact ⟨hset hframe, results_enqueue _ i⟩
  · exact ⟨hset (hmerges (h i held hheld) hframe hmerge), results_enqueue _ i⟩
  · exact ⟨h, rfl⟩

theorem EntriesSatisfy.receiveAll {P : Nat → Frame → Prop} {inheritance : Option Inheritance}
    {frame : Frame} {targets : List Nat} (h : p.EntriesSatisfy P) (hkept : p.Kept code)
    (hreach : ∀ i ∈ targets, Reachable code i)
    (hmerges : ∀ {i f g r}, P i f → P i g → f.Merges inheritance g r → P i r)
    (hframe : ∀ i ∈ targets, P i frame) (hreceive : p.receiveAll inheritance frame targets = .ok q) :
    q.EntriesSatisfy P ∧ q.results = p.results := by
  have hall := receiveAll_induction (fun p => p.Kept code ∧ p.EntriesSatisfy P)
    (fun p q => q.results = p.results) (fun _ _ => True) (fun _ => rfl)
    (fun hpq hqr => hqr.trans hpq) (fun _ => id)
    (fun {p q i} hmem hinv hstep => by
      obtain ⟨hentries, hresults⟩ :=
        hinv.2.receive hinv.1 (hreach i hmem) hmerges (hframe i hmem) hstep
      exact ⟨⟨hinv.1.receive (hreach i hmem) hstep, hentries⟩, hresults, trivial⟩)
    ⟨hkept, h⟩ hreceive
  exact ⟨hall.1.2, hall.2.1⟩

theorem entryFrame?_start (m : Method) (i : Nat) : (start m).entryFrame? i =
    if i = 0 ∧ 0 < m.code.length then some m.header.entryFrame else none := by
  rw [entryFrame?, start, List.getElem?_set, List.length_replicate, List.getElem?_replicate]
  by_cases hi : 0 = i
  · subst hi
    by_cases hpos : 0 < m.code.length <;> simp [hpos]
  · have hnot : ¬ (i = 0 ∧ 0 < m.code.length) := fun h => hi h.1.symm
    rw [if_neg hi, if_neg hnot]
    split <;> rfl

theorem result?_start (m : Method) (i : Nat) : (start m).result? i = none := by
  rw [result?, start, List.getElem?_replicate]
  split <;> rfl

theorem isQueued_start (m : Method) (i : Nat) :
    (start m).isQueued i = true ↔ i = 0 ∧ 0 < m.code.length := by
  rw [isQueued, start, List.getElem?_set, List.length_replicate, List.getElem?_replicate]
  by_cases hi : 0 = i
  · subst hi
    by_cases hpos : 0 < m.code.length <;> simp [hpos]
  · rw [if_neg hi]
    constructor
    · intro h
      split at h <;> cases h
    · intro h
      exact absurd h.1.symm hi

theorem mem_pending_start (m : Method) (i : Nat) :
    i ∈ (start m).pending ↔ i = 0 ∧ 0 < m.code.length := by
  unfold start
  cases m.code with
  | nil => simp
  | cons first rest => simp

theorem start_kept (m : Method) : (start m).Kept m.code where
  queued_length := by simp [start]
  entries_length := by simp [start]
  results_length := by simp [start]
  nodup := by
    unfold start
    split
    · exact List.nodup_nil
    · exact List.pairwise_singleton _ _
  isQueued_iff i := (isQueued_start m i).trans (mem_pending_start m i).symm
  entered i hi := by
    rw [entryFrame?_start, if_pos ((mem_pending_start m i).1 hi)]
    simp
  reachable i hi := by
    rw [entryFrame?_start] at hi
    split at hi
    · rename_i h
      exact h.1 ▸ Reachable.zero h.2
    · exact absurd rfl hi
  simulated i hi := absurd (result?_start m i) hi

end Progress

namespace Analyzer

variable {a : Analyzer} {code : List Instruction} {index : Nat} {p q : Progress}

/-- A simulation that goes well: the instruction is executed on its entry, and the frame that it
leaves is handed on to the instructions that control can go to. -/
inductive Visits (a : Analyzer) (code : List Instruction) (index : Nat) (p : Progress) :
    Progress → Prop
  | intro {entry frame : Frame} {instruction : Instruction} {targets : List Nat} {r : Progress}
    (hentry : p.entryFrame? index = some entry) (hcode : code[index]? = some instruction)
    (hexecute : entry.execute a.expander instruction = .ok frame)
    (htargets : successors code index instruction = .ok targets)
    (hreceive : p.receiveAll a.inheritance frame targets = .ok r) :
    Visits a code index p (r.setResult index frame)

theorem visits_of_visit (hkept : p.Kept code) (hentered : p.entryFrame? index ≠ none)
    (h : a.visit code index p = .ok q) : a.Visits code index p q := by
  obtain ⟨entry, hentry⟩ := Option.ne_none_iff_exists'.1 hentered
  have hlt := (hkept.reachable index hentered).lt
  have hcode := List.getElem?_eq_getElem hlt
  rw [visit, hentry, hcode] at h
  cases hsimulate : a.simulate code index code[index] entry with
  | error e => simp [hsimulate] at h
  | ok simulated =>
    obtain ⟨frame, targets⟩ := simulated
    simp only [hsimulate] at h
    cases hreceive : p.receiveAll a.inheritance frame targets with
    | error e => rw [hreceive] at h; cases h
    | ok r =>
      rw [hreceive] at h
      obtain rfl := Except.ok.inj h
      unfold simulate at hsimulate
      cases hexecute : entry.execute a.expander code[index] with
      | error e => simp [hexecute] at hsimulate
      | ok frame' =>
        simp only [hexecute] at hsimulate
        cases htargets : successors code index code[index] with
        | error e => rw [htargets] at hsimulate; cases hsimulate
        | ok targets' =>
          rw [htargets] at hsimulate
          obtain ⟨rfl, rfl⟩ := Prod.mk.inj (Except.ok.inj hsimulate)
          exact .intro hentry hcode hexecute htargets hreceive

theorem Visits.kept (h : a.Visits code index p q) (hkept : p.Kept code) : q.Kept code := by
  cases h with
  | intro hentry hcode _ htargets hreceive =>
    have hentered : p.entryFrame? index ≠ none := by simp [hentry]
    have hreach := hkept.reachable index hentered
    obtain ⟨hkept', hstay⟩ := hkept.receiveAll
      (fun i hi => hreach.tail ⟨_, _, hcode, htargets, hi⟩) hreceive
    exact hkept'.setResult (hstay index hentered) _

theorem run_of_pending_nil (hpending : p.pending = []) (rounds : Nat) :
    a.run code rounds p = .ok p := by
  unfold run
  simp only [hpending]

theorem run_zero {rest : List Nat} (hpending : p.pending = index :: rest) :
    a.run code 0 p = .error ⟨.definition, .unsettled⟩ := by
  unfold run
  simp only [hpending]

theorem run_succ {rest : List Nat} (hpending : p.pending = index :: rest) (rounds : Nat) :
    a.run code (rounds + 1) p = match a.visit code index (p.dequeue index rest) with
      | .error e => .error e
      | .ok p => a.run code rounds p := by
  conv_lhs => unfold run
  cases hvisit : a.visit code index (p.dequeue index rest) with
  | error e => simp only [hpending, hvisit]
  | ok q => simp only [hpending, hvisit]

theorem run_eq_of_le {rounds more : Nat} (h : a.run code rounds p ≠ .error ⟨.definition, .unsettled⟩)
    (hle : rounds ≤ more) : a.run code more p = a.run code rounds p := by
  induction rounds generalizing p more with
  | zero =>
    cases hpending : p.pending with
    | nil => rw [run_of_pending_nil hpending, run_of_pending_nil hpending]
    | cons index rest => exact absurd (run_zero hpending) h
  | succ rounds ih =>
    cases hpending : p.pending with
    | nil => rw [run_of_pending_nil hpending, run_of_pending_nil hpending]
    | cons index rest =>
      obtain ⟨before, rfl⟩ := Nat.exists_eq_add_of_le' (Nat.le_trans (Nat.succ_pos rounds) hle)
      rw [run_succ hpending] at h
      rw [run_succ hpending, run_succ hpending]
      cases hvisit : a.visit code index (p.dequeue index rest) with
      | error e => rfl
      | ok q =>
        rw [hvisit] at h
        exact ih h (Nat.le_of_succ_le_succ hle)

/-- What every simulation keeps holds when nothing is pending any more. -/
theorem run_induction {Inv : Progress → Prop}
    (hstep : ∀ {p q index rest}, p.Kept code → p.pending = index :: rest → Inv p →
      a.Visits code index (p.dequeue index rest) q → Inv q)
    {rounds : Nat} (hkept : p.Kept code) (hinv : Inv p) (h : a.run code rounds p = .ok q) :
    q.Kept code ∧ Inv q ∧ q.pending = [] := by
  induction rounds generalizing p with
  | zero =>
    cases hpending : p.pending with
    | nil =>
      rw [run_of_pending_nil hpending] at h
      obtain rfl := Except.ok.inj h
      exact ⟨hkept, hinv, hpending⟩
    | cons index rest =>
      rw [run_zero hpending] at h
      cases h
  | succ rounds ih =>
    cases hpending : p.pending with
    | nil =>
      rw [run_of_pending_nil hpending] at h
      obtain rfl := Except.ok.inj h
      exact ⟨hkept, hinv, hpending⟩
    | cons index rest =>
      rw [run_succ hpending] at h
      split at h
      · cases h
      · rename_i p' hvisit
        have hmem : index ∈ p.pending := hpending ▸ List.mem_cons_self
        have hdequeued := hkept.dequeue hpending
        have hvisits := visits_of_visit hdequeued (hkept.entered index hmem) hvisit
        exact ih (hvisits.kept hdequeued) (hstep hkept hpending hinv hvisits) h

theorem analyzeWithin_eq_of_le {m : Method} {rounds more : Nat}
    (h : a.analyzeWithin rounds m ≠ .error ⟨.definition, .unsettled⟩) (hle : rounds ≤ more) :
    a.analyzeWithin more m = a.analyzeWithin rounds m := by
  unfold analyzeWithin at h ⊢
  cases hduplicate : duplicateLabel m.code with
  | some found => rfl
  | none =>
    rw [hduplicate] at h
    have hrun : a.run m.code rounds (Progress.start m) ≠ .error ⟨.definition, .unsettled⟩ := by
      intro hunsettled
      dsimp only at h
      rw [hunsettled] at h
      exact h rfl
    dsimp only
    rw [run_eq_of_le hrun hle]

theorem exists_run_of_analyzeWithin {m : Method} {rounds : Nat} {result : Analysis}
    (h : a.analyzeWithin rounds m = .ok result) :
    ∃ p, a.run m.code rounds (Progress.start m) = .ok p ∧ result.frames = p.results := by
  unfold analyzeWithin at h
  split at h
  · cases h
  · cases hrun : a.run m.code rounds (Progress.start m) with
    | error e => rw [hrun] at h; cases h
    | ok p =>
      rw [hrun] at h
      obtain rfl := Except.ok.inj h
      exact ⟨p, rfl, rfl⟩

def Yields (a : Analyzer) (code : List Instruction) (P : Nat → Frame → Prop) (index : Nat)
    (out : Frame) : Prop :=
  ∃ e instruction, P index e ∧ code[index]? = some instruction ∧
    e.execute a.expander instruction = .ok out

/-- The frames that instructions are entered with satisfy a predicate, and what is known after them
comes from such frames. -/
structure Satisfied (a : Analyzer) (code : List Instruction) (P : Nat → Frame → Prop)
    (p : Progress) : Prop where
  entries : p.EntriesSatisfy P
  results : ∀ i out, p.result? i = some out → a.Yields code P i out

/-- A simulation keeps a predicate that merges keep and executions hand on. -/
theorem Satisfied.visits {P : Nat → Frame → Prop} {rest : List Nat} (h : a.Satisfied code P p)
    (hkept : p.Kept code) (hpending : p.pending = index :: rest)
    (hmerges : ∀ {i f g r}, P i f → P i g → f.Merges a.inheritance g r → P i r)
    (hflows : ∀ {i s out}, a.Yields code P i out → Flows code i s → P s out)
    (hvisits : a.Visits code index (p.dequeue index rest) q) : a.Satisfied code P q := by
  cases hvisits with
  | @intro entry out instruction targets r hentry hcode hexecute htargets hreceive =>
    have hyields : a.Yields code P index out :=
      ⟨entry, instruction, h.entries index entry hentry, hcode, hexecute⟩
    have hreach : Reachable code index :=
      hkept.reachable index (by rw [show p.entryFrame? index = some entry from hentry]; simp)
    have hflow : ∀ s ∈ targets, Flows code index s :=
      fun s hs => ⟨instruction, targets, hcode, htargets, hs⟩
    have hdequeued : (p.dequeue index rest).EntriesSatisfy P := h.entries
    obtain ⟨hentries, hsame⟩ := hdequeued.receiveAll (hkept.dequeue hpending)
      (fun s hs => hreach.tail (hflow s hs)) hmerges (fun s hs => hflows hyields (hflow s hs))
      hreceive
    have hlt : index < r.results.length := by
      rw [hsame]
      exact hkept.results_length ▸ hreach.lt
    refine ⟨hentries, fun i out' hout => ?_⟩
    rw [Progress.result?_setResult out hlt] at hout
    split at hout
    · rename_i hi
      obtain rfl := Option.some.inj hout
      exact hi ▸ hyields
    · rw [Progress.result?, hsame] at hout
      exact h.results i out' hout

theorem satisfied_start {m : Method} {P : Nat → Frame → Prop} (hstart : P 0 m.header.entryFrame) :
    a.Satisfied m.code P (Progress.start m) where
  entries i e he := by
    rw [Progress.entryFrame?_start] at he
    split at he
    · rename_i hpos
      obtain ⟨rfl, -⟩ := hpos
      exact Option.some.inj he ▸ hstart
    · cases he
  results i out hout := by
    rw [Progress.result?_start] at hout
    cases hout

/-- What holds of the frame on entry, and what merges keep and executions hand on, holds of all
frames that instructions are entered with, and what is known after an instruction comes from such
a frame. -/
theorem yields_of_analyzeWithin {m : Method} {P : Nat → Frame → Prop}
    (hstart : P 0 m.header.entryFrame)
    (hmerges : ∀ {i f g r}, P i f → P i g → f.Merges a.inheritance g r → P i r)
    (hflows : ∀ {i s out}, a.Yields m.code P i out → Flows m.code i s → P s out)
    {rounds : Nat} {result : Analysis} (h : a.analyzeWithin rounds m = .ok result) {i : Nat}
    {out : Frame} (hout : result.frame? i = some out) : a.Yields m.code P i out := by
  obtain ⟨p, hrun, hframes⟩ := exists_run_of_analyzeWithin h
  have hstep : ∀ {p q index rest}, p.Kept m.code → p.pending = index :: rest →
      a.Satisfied m.code P p → a.Visits m.code index (p.dequeue index rest) q →
      a.Satisfied m.code P q :=
    fun hkept hpending hinv => hinv.visits hkept hpending hmerges hflows
  obtain ⟨-, hsatisfied, -⟩ :=
    run_induction hstep (Progress.start_kept m) (satisfied_start hstart) hrun
  exact hsatisfied.results i out (by rwa [Analysis.frame?, hframes] at hout)

end Analyzer

end MethodLocals
