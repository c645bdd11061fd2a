import MethodLocals.Proofs.Fixpoint
import Mathlib.Data.List.Perm.Subperm

/-! The books of an analysis, before each of its simulations. They are those of `Progress.Kept`, and
what an order of frames adds to them when it tells no frames apart: that entries never go away, and
that an instruction whose entry has changed since it was simulated is pending. -/

namespace MethodLocals

def FrameOrder.indifferent (inheritance : Option Inheritance) : FrameOrder inheritance where
  Le _ _ := True
  Known _ := True
  refl _ := trivial
  trans _ _ := trivial
  le_of_merges _ _ _ := ⟨trivial, trivial, trivial⟩

theorem FrameOrder.indifferent_knowsMethod (inheritance : Option Inheritance)
    (expander : Option Expander) (m : Method) :
    (FrameOrder.indifferent inheritance).KnowsMethod expander m :=
  ⟨trivial, fun _ _ _ => trivial⟩

namespace Progress

variable {code : List Instruction} {p : Progress}

theorem Kept.lt_of_mem_pending (h : p.Kept code) {i : Nat} (hi : i ∈ p.pending) :
    i < code.length :=
  (h.reachable i (h.entered i hi)).lt

theorem Kept.length_pending_le (h : p.Kept code) : p.pending.length ≤ code.length := by
  have hsubset : p.pending ⊆ List.range code.length :=
    fun i hi => List.mem_range.2 (h.lt_of_mem_pending hi)
  simpa using (List.subperm_of_subset h.nodup hsubset).length_le

theorem Kept.queued_eq (h : p.Kept code) :
    p.queued = (List.range code.length).map fun i => decide (i ∈ p.pending) := by
  apply List.ext_getElem
  · simp [h.queued_length]
  · intro i hi _
    have hmark := h.isQueued_iff i
    rw [isQueued, List.getElem?_eq_getElem hi, Option.getD_some] at hmark
    simp [← hmark]

end Progress

namespace Analyzer

variable {a : Analyzer} {m : Method} {code : List Instruction} {p q : Progress} {n : Nat}

/-- What comes of simulating the next pending instruction, if there is one and if that goes well. -/
def next? (a : Analyzer) (code : List Instruction) (p : Progress) : Option Progress :=
  match p.pending with
  | [] => none
  | index :: rest => (a.visit code index (p.dequeue index rest)).toOption

/-- How far the analysis of a method has come after `n` simulations, if that many go well. -/
def progressAfter (a : Analyzer) (m : Method) : Nat → Option Progress
  | 0 => some (.start m)
  | n + 1 => (a.progressAfter m n).bind (a.next? m.code)

theorem next?_eq_some_iff : a.next? code p = some q ↔
    ∃ index rest, p.pending = index :: rest ∧
      a.visit code index (p.dequeue index rest) = .ok q := by
  unfold next?
  split
  · rename_i hpending
    simp [hpending]
  · rename_i index rest hpending
    cases hvisit : a.visit code index (p.dequeue index rest) with
    | error e => simp [hpending, hvisit, Except.toOption]
    | ok r => simp [hpending, hvisit, Except.toOption]

theorem run_of_next? (h : a.next? code p = some q) (rounds : Nat) :
    a.run code (rounds + 1) p = a.run code rounds q := by
  obtain ⟨index, rest, hpending, hvisit⟩ := next?_eq_some_iff.1 h
  rw [run_succ hpending, hvisit]

/-- A run goes on from where its first simulations have come to. -/
theorem run_of_progressAfter (h : a.progressAfter m n = some p) (rounds : Nat) :
    a.run m.code (n + rounds) (.start m) = a.run m.code rounds p := by
  induction n generalizing p rounds with
  | zero =>
    obtain rfl := Option.some.inj h
    rw [Nat.zero_add]
  | succ n ih =>
    obtain ⟨q, hq, hnext⟩ := Option.bind_eq_some_iff.1 h
    rw [Nat.add_right_comm, Nat.add_assoc, ih hq, run_of_next? hnext]

/-- The books of an analysis agree. An instruction is pending once at most, and it is marked exactly
while it is; what is pending has been entered; and what has been entered and is not pending was last
simulated on the frame that it is entered with now. -/
structure BooksAgree (a : Analyzer) (code : List Instruction) (p : Progress) : Prop where
  nodup : p.pending.Nodup
  queued_eq : p.queued = (List.range code.length).map fun i => decide (i ∈ p.pending)
  length_le : p.pending.length ≤ code.length
  entered : ∀ i ∈ p.pending, ∃ instruction entry,
    code[i]? = some instruction ∧ p.entryFrame? i = some entry
  computed : ∀ i entry, p.entryFrame? i = some entry → i ∈ p.pending ∨
    ∃ instruction out, code[i]? = some instruction ∧
      entry.execute a.expander instruction = .ok out ∧ p.result? i = some out

/-- A simulation keeps the books, and keeps settled what is not pending. -/
theorem closing_of_next? (hkept : p.Kept m.code) (hclosing : a.Closing (.indifferent _) m p)
    (h : a.next? m.code p = some q) : q.Kept m.code ∧ a.Closing (.indifferent _) m q := by
  obtain ⟨index, rest, hpending, hvisit⟩ := next?_eq_some_iff.1 h
  have hentered := hkept.entered index (hpending ▸ List.mem_cons_self)
  have hvisits := visits_of_visit (hkept.dequeue hpending) hentered hvisit
  exact ⟨hvisits.kept (hkept.dequeue hpending),
    hclosing.visits (FrameOrder.indifferent_knowsMethod _ _ _) hkept hpending hvisits⟩

theorem closing_of_progressAfter (h : a.progressAfter m n = some p) :
    p.Kept m.code ∧ a.Closing (.indifferent _) m p := by
  induction n generalizing p with
  | zero =>
    obtain rfl := Option.some.inj h
    exact ⟨Progress.start_kept m, closing_start (FrameOrder.indifferent_knowsMethod _ _ _)⟩
  | succ n ih =>
    obtain ⟨q, hq, hnext⟩ := Option.bind_eq_some_iff.1 h
    obtain ⟨hkept, hclosing⟩ := ih hq
    exact closing_of_next? hkept hclosing hnext

/-- The books agree before each simulation of a run and after the last one. -/
theorem booksAgree_of_progressAfter (h : a.progressAfter m n = some p) :
    a.BooksAgree m.code p ∧
      ∀ rounds, a.run m.code (n + rounds) (.start m) = a.run m.code rounds p := by
  obtain ⟨hkept, hclosing⟩ := closing_of_progressAfter h
  refine ⟨⟨hkept.nodup, hkept.queued_eq, hkept.length_pending_le, fun i hi => ?_,
    fun i entry hentry => ?_⟩, run_of_progressAfter h⟩
  · obtain ⟨entry, hentry⟩ := Option.ne_none_iff_exists'.1 (hkept.entered i hi)
    exact ⟨_, entry, List.getElem?_eq_getElem (hkept.lt_of_mem_pending hi), hentry⟩
  · refine or_iff_not_imp_left.2 fun hi => ?_
    obtain ⟨instruction, -, out, hcode, hexecute, -, hresult, -⟩ :=
      hclosing.settled i hi entry hentry
    exact ⟨instruction, out, hcode, hexecute, hresult⟩

/-- A loop in which a variable changes its kind, with a jump to what comes next anyway. -/
def jumpAhead : Method where
  header := ⟨.object, "run", .ofList [MethodFlag.static], [⟨"x", .int⟩], none⟩
  code := [.label "again", .load .int "x", .branch (.zero .eq) "next", .label "next", .pushNull,
    .storeRef "x", .goto "again"]

/-- Control has come round once, and the jump has made the next instruction pending once. -/
theorem jumpAhead_booksAgree : ∃ p, progressAfter ⟨none, none⟩ jumpAhead 10 = some p ∧
    p.pending = [3] ∧ BooksAgree ⟨none, none⟩ jumpAhead.code p := by
  have hpending : (progressAfter ⟨none, none⟩ jumpAhead 10).map Progress.pending = some [3] := by
    decide
  obtain ⟨p, hp, hthree⟩ := Option.map_eq_some_iff.1 hpending
  exact ⟨p, hp, hthree, (booksAgree_of_progressAfter hp).1⟩

end Analyzer

end MethodLocals
