import MethodLocals.Proofs.FrameMerge
import MethodLocals.Proofs.Worklist

/-! The frames that an analysis ends with, in any order of frames in which a merge lies above what
is merged. While the analysis runs, every instruction that is not pending has its frame handed on to
all instructions that control can go to; in the end none is pending. -/

namespace MethodLocals

/-- An order of frames in which merges go up. Nothing is promised about merges of frames that are
not known. -/
structure FrameOrder (inheritance : Option Inheritance) where
  Le : Frame → Frame → Prop
  Known : Frame → Prop
  refl : ∀ f, Le f f
  trans : ∀ {f g h}, Le f g → Le g h → Le f h
  le_of_merges : ∀ {f g r}, Known f → Known g → f.Merges inheritance g r →
    Known r ∧ Le f r ∧ Le g r

structure FrameOrder.KnowsMethod {inheritance : Option Inheritance} (o : FrameOrder inheritance)
    (expander : Option Expander) (m : Method) : Prop where
  entryFrame : o.Known m.header.entryFrame
  execute : ∀ {i f g}, i ∈ m.code → o.Known f → f.execute expander i = .ok g → o.Known g

variable {inheritance : Option Inheritance} {o : FrameOrder inheritance} {code : List Instruction}
  {p q r : Progress} {i j : Nat} {frame : Frame}

namespace Progress

/-- Entry frames only go up, and one that changes is pending afterwards. -/
structure Grows (o : FrameOrder inheritance) (p q : Progress) : Prop where
  pending : ∀ i ∈ p.pending, i ∈ q.pending
  entries : ∀ i e, p.entryFrame? i = some e →
    ∃ e', q.entryFrame? i = some e' ∧ o.Le e e' ∧ (e' = e ∨ i ∈ q.pending)
  entered : ∀ i, p.entryFrame? i = none → q.entryFrame? i ≠ none → i ∈ q.pending
  results : q.results = p.results

theorem Grows.refl (o : FrameOrder inheritance) (p : Progress) : p.Grows o p where
  pending _ hi := hi
  entries _ e he := ⟨e, he, o.refl e, .inl rfl⟩
  entered _ hnone hsome := absurd hnone hsome
  results := rfl

theorem Grows.trans (hpq : p.Grows o q) (hqr : q.Grows o r) : p.Grows o r where
  pending i hi := hqr.pending i (hpq.pending i hi)
  entries i e he := by
    obtain ⟨e', he', hle, hsame⟩ := hpq.entries i e he
    obtain ⟨e'', he'', hle', hsame'⟩ := hqr.entries i e' he'
    refine ⟨e'', he'', o.trans hle hle', ?_⟩
    rcases hsame with rfl | hmem
    · exact hsame'
    · exact .inr (hqr.pending i hmem)
  entered i hnone hsome := by
    by_cases hq : q.entryFrame? i = none
    · exact hqr.entered i hq hsome
    · exact hqr.pending i (hpq.entered i hnone hq)
  results := hqr.results.trans hpq.results

def Absorbed (o : FrameOrder inheritance) (frame : Frame) (p : Progress) (i : Nat) : Prop :=
  ∃ e, p.entryFrame? i = some e ∧ o.Le frame e

theorem Grows.absorbed (h : p.Grows o q) (habsorbed : p.Absorbed o frame i) :
    q.Absorbed o frame i := by
  obtain ⟨e, he, hle⟩ := habsorbed
  obtain ⟨e', he', hle', -⟩ := h.entries i e he
  exact ⟨e', he', o.trans hle hle'⟩

def KnownEntries (o : FrameOrder inheritance) (p : Progress) : Prop :=
  ∀ i e, p.entryFrame? i = some e → o.Known e

/-- A frame that replaces an entry from above is taken in, and its instruction is pending. -/
theorem grows_setEntry (hkept : p.Kept code) (hreach : Reachable code i)
    (hknown : p.KnownEntries o) {e : Frame} (he : o.Known e)
    (hle : ∀ held, p.entryFrame? i = some held → o.Le held e) :
    ((p.setEntry i e).enqueue i).KnownEntries o ∧ p.Grows o ((p.setEntry i e).enqueue i) ∧
      ((p.setEntry i e).enqueue i).entryFrame? i = some e := by
  have hentry : ∀ j, ((p.setEntry i e).enqueue i).entryFrame? j =
      if j = i then some e else p.entryFrame? j := by
    intro j
    rw [hkept.entryFrame?_setEntry_enqueue hreach.lt]
  have hmem : ∀ j, j ∈ ((p.setEntry i e).enqueue i).pending ↔ j = i ∨ j ∈ p.pending :=
    fun j => mem_enqueue (hkept.setEntry hreach e)
  refine ⟨?_, ⟨fun j hj => (hmem j).2 (.inr hj), ?_, ?_, ?_⟩, by rw [hentry, if_pos rfl]⟩
  · intro j e' he'
    rw [hentry] at he'
    split at he'
    · exact Option.some.inj he' ▸ he
    · exact hknown j e' he'
  · intro j held hheld
    rw [hentry]
    by_cases hji : j = i
    · subst hji
      exact ⟨e, if_pos rfl, hle held hheld, .inr ((hmem j).2 (.inl rfl))⟩
    · exact ⟨held, by rw [if_neg hji, hheld], o.refl held, .inl rfl⟩
  · intro j hnone hsome
    rw [hentry] at hsome
    split at hsome
    · rename_i hji
      exact (hmem j).2 (.inl hji)
    · exact absurd hnone hsome
  · unfold enqueue
    split <;> rfl

theorem grows_receive (hkept : p.Kept code) (hreach : Reachable code i)
    (hknown : p.KnownEntries o) (hframe : o.Known frame)
    (h : p.receive inheritance frame i = .ok q) :
    q.KnownEntries o ∧ p.Grows o q ∧ q.Absorbed o frame i := by
  rcases receive_cases h with ⟨hnone, rfl⟩ | ⟨held, merged, hheld, hmerges, -, rfl⟩ |
    ⟨held, hheld, hmerges, rfl⟩
  · have hle : ∀ held, p.entryFrame? i = some held → o.Le held frame := by
      intro held hheld
      rw [hnone] at hheld
      cases hheld
    obtain ⟨hknown', hgrows, hentry⟩ := grows_setEntry hkept hreach hknown hframe hle
    exact ⟨hknown', hgrows, frame, hentry, o.refl frame⟩
  · obtain ⟨hmerged, hle, hle'⟩ := o.le_of_merges (hknown i held hheld) hframe hmerges
    have hheld' : ∀ held', p.entryFrame? i = some held' → o.Le held' merged := by
      intro held' h'
      rw [hheld] at h'
      exact Option.some.inj h' ▸ hle
    obtain ⟨hknown', hgrows, hentry⟩ := grows_setEntry hkept hreach hknown hmerged hheld'
    exact ⟨hknown', hgrows, merged, hentry, hle'⟩
  · obtain ⟨-, -, hle⟩ := o.le_of_merges (hknown i held hheld) hframe hmerges
    exact ⟨hknown, .refl o q, held, hheld, hle⟩

theorem grows_receiveAll {targets : List Nat} (hkept : p.Kept code)
    (hreach : ∀ i ∈ targets, Reachable code i) (hknown : p.KnownEntries o)
    (hframe : o.Known frame) (h : p.receiveAll inheritance frame targets = .ok q) :
    q.KnownEntries o ∧ p.Grows o q ∧ ∀ i ∈ targets, q.Absorbed o frame i := by
  have hall := receiveAll_induction (fun p => p.Kept code ∧ p.KnownEntries o)
    (Grows o) (Absorbed o frame) (Grows.refl o) Grows.trans Grows.absorbed
    (fun {p q i} hmem hinv hstep => by
      obtain ⟨hknown', hgrows, habsorbed⟩ :=
        grows_receive hinv.1 (hreach i hmem) hinv.2 hframe hstep
      exact ⟨⟨hinv.1.receive (hreach i hmem) hstep, hknown'⟩, hgrows, habsorbed⟩)
    ⟨hkept, hknown⟩ h
  exact ⟨hall.1.2, hall.2⟩

end Progress

namespace Analyzer

variable {a : Analyzer} {o : FrameOrder a.inheritance} {m : Method}

/-- The last simulation of an instruction saw its entry frame, and all instructions that control can
go to have taken in what it left. -/
def Settled (a : Analyzer) (o : FrameOrder a.inheritance) (code : List Instruction) (p : Progress)
    (i : Nat) : Prop :=
  ∀ e, p.entryFrame? i = some e → ∃ instruction targets out, code[i]? = some instruction ∧
    e.execute a.expander instruction = .ok out ∧
    successors code i instruction = .ok targets ∧ p.result? i = some out ∧
    ∀ s ∈ targets, p.Absorbed o out s

/-- What holds between two simulations: everything that is not pending is settled. -/
structure Closing (a : Analyzer) (o : FrameOrder a.inheritance) (m : Method) (p : Progress) :
    Prop where
  known : p.KnownEntries o
  entry : m.code ≠ [] → p.Absorbed o m.header.entryFrame 0
  settled : ∀ i, i ∉ p.pending → a.Settled o m.code p i

theorem Settled.grows (h : a.Settled o code p i) (hgrows : p.Grows o q) (hi : i ∉ q.pending) :
    a.Settled o code q i := by
  intro e he
  have hentered : p.entryFrame? i ≠ none := fun hnone =>
    hi (hgrows.entered i hnone (by rw [he]; simp))
  obtain ⟨held, hheld⟩ := Option.ne_none_iff_exists'.1 hentered
  obtain ⟨e', he', -, hsame | hmem⟩ := hgrows.entries i held hheld
  · obtain rfl : e = held := by rw [← hsame]; exact Option.some.inj (he.symm.trans he')
    obtain ⟨instruction, targets, out, hcode, hexecute, htargets, hresult, habsorbed⟩ :=
      h e hheld
    refine ⟨instruction, targets, out, hcode, hexecute, htargets, ?_, ?_⟩
    · rw [Progress.result?, hgrows.results]
      exact hresult
    · exact fun s hs => hgrows.absorbed (habsorbed s hs)
  · exact absurd hmem hi

theorem Settled.setResult (h : a.Settled o code p i) {frame : Frame} (hij : i ≠ j)
    (hj : j < p.results.length) : a.Settled o code (p.setResult j frame) i := by
  intro e he
  obtain ⟨instruction, targets, out, hcode, hexecute, htargets, hresult, habsorbed⟩ := h e he
  refine ⟨instruction, targets, out, hcode, hexecute, htargets, ?_, habsorbed⟩
  rw [Progress.result?_setResult frame hj, if_neg hij]
  exact hresult

/-- A simulation settles its instruction, and unsettles others only by making them pending. -/
theorem Closing.visits (h : a.Closing o m p) (hknows : o.KnowsMethod a.expander m)
    (hkept : p.Kept m.code) {index : Nat} {rest : List Nat} (hpending : p.pending = index :: rest)
    (hvisits : a.Visits m.code index (p.dequeue index rest) q) : a.Closing o m q := by
  cases hvisits with
  | @intro entry out instruction targets r hentry hcode hexecute htargets hreceive =>
    have hdequeued := hkept.dequeue hpending
    have hreach : Reachable m.code index :=
      hkept.reachable index (by rw [show p.entryFrame? index = some entry from hentry]; simp)
    have hout : o.Known out :=
      hknows.execute (List.mem_of_getElem? hcode) (h.known index entry hentry) hexecute
    have htargetsReach : ∀ s ∈ targets, Reachable m.code s :=
      fun s hs => hreach.tail ⟨instruction, targets, hcode, htargets, hs⟩
    obtain ⟨hknown, hgrows, habsorbed⟩ :=
      Progress.grows_receiveAll hdequeued htargetsReach h.known hout hreceive
    have hlt : index < r.results.length := by
      rw [hgrows.results]
      exact hkept.results_length ▸ hreach.lt
    refine ⟨hknown, fun hne => hgrows.absorbed (h.entry hne), fun i hi => ?_⟩
    by_cases hi' : i = index
    · subst hi'
      intro e he
      obtain ⟨e', he', -, hsame | hmem⟩ := hgrows.entries i entry hentry
      · obtain rfl : e = entry := by rw [← hsame]; exact Option.some.inj (he.symm.trans he')
        refine ⟨instruction, targets, out, hcode, hexecute, htargets, ?_, habsorbed⟩
        rw [Progress.result?_setResult out hlt, if_pos rfl]
      · exact absurd hmem hi
    · have hold : i ∉ p.pending := by
        rw [hpending, List.mem_cons]
        exact fun hmem => hmem.elim hi' fun hmem => hi (hgrows.pending i hmem)
      have hsettled : a.Settled o m.code (p.dequeue index rest) i := h.settled i hold
      exact (hsettled.grows hgrows hi).setResult hi' hlt

theorem closing_start (hknows : o.KnowsMethod a.expander m) :
    a.Closing o m (Progress.start m) where
  known i e he := by
    rw [Progress.entryFrame?_start] at he
    split at he
    · exact Option.some.inj he ▸ hknows.entryFrame
    · cases he
  entry hne := by
    refine ⟨m.header.entryFrame, ?_, o.refl _⟩
    rw [Progress.entryFrame?_start, if_pos ⟨rfl, List.length_pos_iff.2 hne⟩]
  settled i hi e he := by
    rw [Progress.entryFrame?_start] at he
    split at he
    · rename_i hzero
      exact absurd ((Progress.mem_pending_start m i).2 hzero) hi
    · cases he

/-- The progress of an analysis that succeeds, when nothing is pending any more. -/
theorem exists_closing (hknows : o.KnowsMethod a.expander m) {rounds : Nat} {result : Analysis}
    (h : a.analyzeWithin rounds m = .ok result) :
    ∃ p : Progress, result.frames = p.results ∧ p.Kept m.code ∧ p.pending = [] ∧
      a.Closing o m p := by
  obtain ⟨p, hrun, hframes⟩ := exists_run_of_analyzeWithin h
  obtain ⟨hkept, hclosing, hpending⟩ := run_induction
    (fun hkept hpending hinv hvisits => Closing.visits hinv hknows hkept hpending hvisits)
    (Progress.start_kept m) (closing_start hknows) hrun
  exact ⟨p, hframes, hkept, hpending, hclosing⟩

/-- Simulations that settle reach what control can reach, and nothing else. -/
theorem Closing.entered_iff {p : Progress} (h : a.Closing o m p) (hkept : p.Kept m.code)
    (hpending : p.pending = []) (i : Nat) : p.entryFrame? i ≠ none ↔ Reachable m.code i := by
  refine ⟨hkept.reachable i, fun hreach => ?_⟩
  obtain ⟨hpos, hpath⟩ := hreach
  induction hpath with
  | refl =>
    obtain ⟨e, he, -⟩ := h.entry (List.length_pos_iff.1 hpos)
    rw [he]
    simp
  | tail _ hflow ih =>
    obtain ⟨e, he⟩ := Option.ne_none_iff_exists'.1 ih
    obtain ⟨instruction, targets, out, hcode, -, htargets, -, habsorbed⟩ :=
      h.settled _ (by simp [hpending]) e he
    obtain ⟨instruction', targets', hcode', htargets', hmem⟩ := hflow
    obtain rfl := Option.some.inj (hcode.symm.trans hcode')
    obtain rfl := Except.ok.inj (htargets.symm.trans htargets')
    obtain ⟨e', he', -⟩ := habsorbed _ hmem
    rw [he']
    simp

/-- The frames after the instructions and the frames that they are entered with fit together: each
frame comes from its entry frame, and lies below the entry frames that it flows into. -/
structure Fixpoint (a : Analyzer) (o : FrameOrder a.inheritance) (m : Method) (result : Analysis)
    (entry : Nat → Frame) : Prop where
  length_eq : result.frames.length = m.code.length
  present_iff : ∀ i, (∃ out, result.frame? i = some out) ↔ Reachable m.code i
  executed : ∀ i instruction, Reachable m.code i → m.code[i]? = some instruction →
    ∃ targets out, successors m.code i instruction = .ok targets ∧
      (entry i).execute a.expander instruction = .ok out ∧ result.frame? i = some out ∧
      ∀ s ∈ targets, o.Le out (entry s)
  known : ∀ i, Reachable m.code i → o.Known (entry i)
  start : m.code ≠ [] → o.Le m.header.entryFrame (entry 0)

theorem exists_fixpoint (hknows : o.KnowsMethod a.expander m) {rounds : Nat} {result : Analysis}
    (h : a.analyzeWithin rounds m = .ok result) : ∃ entry, a.Fixpoint o m result entry := by
  obtain ⟨p, hframes, hkept, hpending, hclosing⟩ := exists_closing hknows h
  have hentered := hclosing.entered_iff hkept hpending
  have hframe : ∀ i, result.frame? i = p.result? i := fun i => by
    rw [Analysis.frame?, hframes, Progress.result?]
  have hreachable : ∀ i, Reachable m.code i →
      ∃ e, p.entryFrame? i = some e ∧ (p.entryFrame? i).getD .empty = e := by
    intro i hreach
    obtain ⟨e, he⟩ := Option.ne_none_iff_exists'.1 ((hentered i).2 hreach)
    exact ⟨e, he, by rw [he, Option.getD_some]⟩
  have hsettled : ∀ i, a.Settled o m.code p i :=
    fun i => hclosing.settled i (by simp [hpending])
  refine ⟨fun i => (p.entryFrame? i).getD .empty, ?_, fun i => ⟨?_, ?_⟩, ?_, ?_, ?_⟩
  · rw [hframes, hkept.results_length]
  · rintro ⟨out, hout⟩
    rw [hframe] at hout
    exact hkept.reachable i (hkept.simulated i (by rw [hout]; simp))
  · intro hreach
    obtain ⟨e, he, -⟩ := hreachable i hreach
    obtain ⟨-, -, out, -, -, -, hresult, -⟩ := hsettled i e he
    exact ⟨out, (hframe i).trans hresult⟩
  · intro i instruction hreach hcode
    obtain ⟨e, he, hentry⟩ := hreachable i hreach
    obtain ⟨instruction', targets, out, hcode', hexecute, htargets, hresult, habsorbed⟩ :=
      hsettled i e he
    obtain rfl := Option.some.inj (hcode.symm.trans hcode')
    refine ⟨targets, out, htargets, by rw [hentry]; exact hexecute, (hframe i).trans hresult, ?_⟩
    intro s hs
    obtain ⟨e', he', hle⟩ := habsorbed s hs
    rw [he', Option.getD_some]
    exact hle
  · intro i hreach
    obtain ⟨e, he, hentry⟩ := hreachable i hreach
    rw [hentry]
    exact hclosing.known i e he
  · intro hne
    obtain ⟨e, he, hle⟩ := hclosing.entry hne
    rw [he, Option.getD_some]
    exact hle

end Analyzer

end MethodLocals
