import MethodLocals.Proofs.Postfixpoint
import MethodLocals.Proofs.StackShape

/-! Running the instructions of a path one after the other, without merging. After a successful
analysis no path runs out of stack entries; one can meet an entry of another width only after a
merge has made the analysis forget an entry that is two wide. -/

namespace MethodLocals

def Frame.follow (f : Frame) (expander : Option Expander) (code : List Instruction) :
    List Nat → Except FlowError Frame
  | [] => .ok f
  | index :: rest =>
    match code[index]? with
    | none => f.follow expander code rest
    | some instruction =>
      match f.execute expander instruction with
      | .error e => .error e
      | .ok g => g.follow expander code rest

def IsPath (code : List Instruction) (path : List Nat) : Prop :=
  0 < code.length ∧ path.head? = some 0 ∧ path.IsChain (Flows code)

/-- Nothing is known in `e` of an entry that is two wide in `f`. -/
def Frame.Hides (e f : Frame) : Prop :=
  ∃ (k : Nat) (v : Value), f.stack[k]? = some v ∧ v.width = 2 ∧ e.stack[k]? = some .top

/-- Entries of two stacks are of the same width, or nothing is known of the second one. -/
def Value.Fits (v w : Value) : Prop := v.width = w.width ∨ w = .top

variable {a : Analyzer} {o : TypeOrder a.inheritance} {m : Method} {result : Analysis}
  {entry : Nat → Frame} {expander : Option Expander} {code : List Instruction} {f g e : Frame}
  {i : Nat} {instruction : Instruction}

theorem Frame.follow_of_ok (hcode : code[i]? = some instruction)
    (hexecute : f.execute expander instruction = .ok g) (rest : List Nat) :
    f.follow expander code (i :: rest) = g.follow expander code rest := by
  rw [follow, hcode]
  dsimp only
  rw [hexecute]

theorem Frame.follow_of_error {error : FlowError} (hcode : code[i]? = some instruction)
    (hexecute : f.execute expander instruction = .error error) (rest : List Nat) :
    f.follow expander code (i :: rest) = .error error := by
  rw [follow, hcode]
  dsimp only
  rw [hexecute]

theorem widths_eq_or_hides {vs ws : List Value} (h : List.Forall₂ Value.Fits vs ws) :
    vs.map Value.width = ws.map Value.width ∨
      ∃ (k : Nat) (v : Value), vs[k]? = some v ∧ v.width = 2 ∧ ws[k]? = some .top := by
  induction h with
  | nil => exact .inl rfl
  | @cons v w vs ws hv _ ih =>
    rcases ih with ih | ⟨k, u, hu, hwidth, htop⟩
    · by_cases heq : v.width = w.width
      · exact .inl (by rw [List.map_cons, List.map_cons, heq, ih])
      · obtain rfl : w = .top := hv.resolve_left heq
        have hwidth : v.width = 2 := v.width_eq_one_or_two.resolve_left heq
        exact .inr ⟨0, v, rfl, hwidth, rfl⟩
    · exact .inr ⟨k + 1, u, hu, hwidth, htop⟩

namespace TypeOrder

theorem ValueLe.fits {v w : Value} (h : o.ValueLe v w) : v.Fits w := by
  cases h with
  | refl => exact .inl rfl
  | top => exact .inr rfl
  | null r => exact .inl rfl
  | ref hv => cases v <;> first | exact .inl rfl | cases hv

/-- What lies below an entry frame fits it, and so does every stack of the same widths. -/
theorem fits_of_le {us vs ws : List Value} (hle : List.Forall₂ o.ValueLe vs ws)
    (hwidths : us.map Value.width = vs.map Value.width) : List.Forall₂ Value.Fits us ws := by
  induction hle generalizing us with
  | nil =>
    obtain rfl := List.map_eq_nil_iff.1 hwidths
    exact .nil
  | @cons v w vs ws hv _ ih =>
    obtain ⟨u, us, rfl, hu, hus⟩ := List.map_eq_cons_iff.1 hwidths
    refine .cons ?_ (ih hus)
    exact hv.fits.imp (fun heq => hu.trans heq) id

theorem FrameLe.weight_le (h : o.FrameLe f g) : g.weight ≤ f.weight := by
  obtain ⟨hle, -⟩ := h
  rw [Frame.weight, Frame.weight, Frame.widths, Frame.widths]
  generalize f.stack = vs at hle
  generalize g.stack = ws at hle
  induction hle with
  | nil => exact Nat.le_refl _
  | @cons v w vs ws hv _ ih =>
    have hwidth := v.width_eq_one_or_two
    have hvw : w.width ≤ v.width := by
      rcases hv.fits with heq | rfl
      · omega
      · change 1 ≤ v.width
        omega
    rw [List.map_cons, List.map_cons, List.sum_cons, List.sum_cons]
    omega

end TypeOrder

namespace Analyzer

theorem Solution.exists_out (h : a.Solution o m result entry) (hreach : Reachable m.code i) :
    ∃ instruction out, m.code[i]? = some instruction ∧
      (entry i).execute a.expander instruction = .ok out ∧
      ∀ s, Flows m.code i s → o.FrameLe out (entry s) := by
  have hcode := List.getElem?_eq_getElem hreach.lt
  obtain ⟨targets, out, htargets, hexecute, -, hbelow⟩ := h.executed i _ hreach hcode
  refine ⟨_, out, hcode, hexecute, ?_⟩
  rintro s ⟨instruction, targets', hcode', htargets', hmem⟩
  obtain rfl := Option.some.inj (hcode.symm.trans hcode')
  obtain rfl := Except.ok.inj (htargets.symm.trans htargets')
  exact hbelow s hmem

/-- From a stack as wide as that of the entry frame, a path never runs out of entries. -/
theorem Solution.follow_or_invalidWidth (h : a.Solution o m result entry) {rest : List Nat}
    (hreach : Reachable m.code i) (hchain : (i :: rest).IsChain (Flows m.code))
    (hle : (entry i).weight ≤ f.weight) :
    (∃ g, f.follow a.expander m.code (i :: rest) = .ok g) ∨
      ∃ expected found,
        f.follow a.expander m.code (i :: rest) = .error (.invalidWidth expected found) := by
  induction rest generalizing i f with
  | nil =>
    obtain ⟨instruction, out, hcode, hexecute, -⟩ := h.exists_out hreach
    apply (Frame.exists_runAll_or_invalidWidth hexecute hle).imp
    · rintro ⟨g, hg, -⟩
      exact ⟨g, Frame.follow_of_ok hcode hg []⟩
    · rintro ⟨expected, found, herror⟩
      exact ⟨expected, found, Frame.follow_of_error hcode herror []⟩
  | cons s rest ih =>
    obtain ⟨instruction, out, hcode, hexecute, hbelow⟩ := h.exists_out hreach
    obtain ⟨hflow, hchain⟩ := List.isChain_cons_cons.1 hchain
    rcases Frame.exists_runAll_or_invalidWidth hexecute hle with
      ⟨g, hg, hout⟩ | ⟨expected, found, herror⟩
    · rw [Frame.follow_of_ok hcode hg]
      have hweight := (hbelow s hflow).weight_le
      exact ih (hreach.tail hflow) hchain (by omega)
    · exact .inr ⟨expected, found, Frame.follow_of_error hcode herror _⟩

/-- From a stack that fits the entry frame, a path goes well unless it comes to an instruction whose
entry frame hides an entry that is two wide. -/
theorem Solution.follow_or_hides (h : a.Solution o m result entry) {rest : List Nat}
    (hreach : Reachable m.code i) (hchain : (i :: rest).IsChain (Flows m.code))
    (hfits : List.Forall₂ Value.Fits f.stack (entry i).stack) :
    (∃ g, f.follow a.expander m.code (i :: rest) = .ok g) ∨
      ∃ before s after g, i :: rest = before ++ s :: after ∧
        f.follow a.expander m.code before = .ok g ∧ (entry s).Hides g := by
  induction rest generalizing i f with
  | nil =>
    obtain ⟨instruction, out, hcode, hexecute, -⟩ := h.exists_out hreach
    rcases widths_eq_or_hides hfits with hwidths | hhides
    · obtain ⟨g, hg, -⟩ := Frame.exists_runAll_of_widths hexecute hwidths
      exact .inl ⟨g, Frame.follow_of_ok hcode hg []⟩
    · exact .inr ⟨[], i, [], f, rfl, rfl, hhides⟩
  | cons s rest ih =>
    obtain ⟨instruction, out, hcode, hexecute, hbelow⟩ := h.exists_out hreach
    obtain ⟨hflow, hchain⟩ := List.isChain_cons_cons.1 hchain
    rcases widths_eq_or_hides hfits with hwidths | hhides
    · obtain ⟨g, hg, hout⟩ := Frame.exists_runAll_of_widths hexecute hwidths
      have hnext := TypeOrder.fits_of_le (hbelow s hflow).stack hout
      rcases ih (hreach.tail hflow) hchain hnext with hend |
        ⟨before, t, after, g', hpath, hg', hhides⟩
      · rw [Frame.follow_of_ok hcode hg]
        exact .inl hend
      · refine .inr ⟨i :: before, t, after, g', by rw [hpath]; rfl, ?_, hhides⟩
        rw [Frame.follow_of_ok hcode hg]
        exact hg'
    · exact .inr ⟨[], i, s :: rest, f, rfl, rfl, hhides⟩

/-- After a successful analysis no path runs out of stack entries or fails in another way, except
that it can meet an entry of another width, and that only if on the way it came to an instruction
whose entry frame knows nothing of an entry that is two wide on the path. -/
theorem follow_of_analyze (hcovers : a.Covers m) {rounds : Nat}
    (h : a.analyzeWithin rounds m = .ok result) :
    ∃ entry, a.Postfixpoint m result entry ∧ ∀ path, IsPath m.code path →
      (∃ g, m.header.entryFrame.follow a.expander m.code path = .ok g) ∨
        (∃ expected found, m.header.entryFrame.follow a.expander m.code path =
          .error (.invalidWidth expected found)) ∧
        ∃ before s after g, path = before ++ s :: after ∧
          m.header.entryFrame.follow a.expander m.code before = .ok g ∧ (entry s).Hides g := by
  obtain ⟨o, hknows⟩ := hcovers.exists_typeOrder
  obtain ⟨entry, hsolution⟩ := exists_solution hknows h
  refine ⟨entry, hsolution.postfixpoint hknows, ?_⟩
  rintro path ⟨hpos, hhead, hchain⟩
  obtain ⟨rest, rfl⟩ : ∃ rest, path = 0 :: rest := by
    cases path with
    | nil => cases hhead
    | cons first rest => exact ⟨rest, by rw [Option.some.inj hhead]⟩
  have hreach := Reachable.zero hpos
  have hstart := hsolution.start (List.length_pos_iff.1 hpos)
  rcases hsolution.follow_or_invalidWidth hreach hchain hstart.weight_le with hend | hinvalid
  · exact .inl hend
  · have hfits := TypeOrder.fits_of_le hstart.stack rfl
    exact (hsolution.follow_or_hides hreach hchain hfits).imp id fun hhides => ⟨hinvalid, hhides⟩

/-- One way to the label brings a value that is two wide, the other one a value of width one, and
the label is followed by an instruction that takes a value of width one. -/
def forgotten : Method where
  header := ⟨.object, "run", .ofBits _ 8, [], none⟩
  code := [.push .int, .branch (.zero .eq) "wide", .push .int, .goto "join", .label "wide",
    .push .long, .label "join", .pop, .returnVoid]

theorem exists_analysis_forgotten : ∃ result, analyze ⟨none, none⟩ forgotten = .ok result := by
  have hok : (analyze ⟨none, none⟩ forgotten).isOk = true := by decide
  cases h : analyze ⟨none, none⟩ forgotten with
  | error e =>
    rw [h] at hok
    cases hok
  | ok result => exact ⟨result, rfl⟩

theorem forgotten_analyzed : ∃ result entry, analyze ⟨none, none⟩ forgotten = .ok result ∧
    Postfixpoint ⟨none, none⟩ forgotten result entry ∧ ∀ path, IsPath forgotten.code path →
      (∃ g, forgotten.header.entryFrame.follow none forgotten.code path = .ok g) ∨
        (∃ expected found, forgotten.header.entryFrame.follow none forgotten.code path =
          .error (.invalidWidth expected found)) ∧
        ∃ before s after g, path = before ++ s :: after ∧
          forgotten.header.entryFrame.follow none forgotten.code before = .ok g ∧
            (entry s).Hides g := by
  obtain ⟨result, h⟩ := exists_analysis_forgotten
  obtain ⟨entry, hpost, hpaths⟩ := follow_of_analyze (.none none forgotten) h
  exact ⟨result, entry, h, hpost, hpaths⟩

/-- A successful analysis does not promise that no path meets an entry of another width. -/
theorem not_forall_paths_keep_widths :
    ¬ ∀ (expander : Option Expander) (m : Method) (result : Analysis),
      analyze ⟨none, expander⟩ m = .ok result → ∀ path, IsPath m.code path → ∀ error,
        m.header.entryFrame.follow expander m.code path = .error error →
          error ≠ .emptyStack ∧ ∀ expected found, error ≠ .invalidWidth expected found := by
  intro hall
  obtain ⟨result, h⟩ := exists_analysis_forgotten
  have hpath : IsPath forgotten.code [0, 1, 4, 5, 6, 7] := by
    have hflow : ∀ i s targets, (forgotten.code[i]?.map fun instruction =>
        successors forgotten.code i instruction) = some (.ok targets) → s ∈ targets →
        Flows forgotten.code i s := by
      intro i s targets h hmem
      obtain ⟨instruction, hcode, htargets⟩ := Option.map_eq_some_iff.1 h
      exact ⟨instruction, targets, hcode, htargets, hmem⟩
    refine ⟨by decide, rfl, ?_⟩
    simp only [List.isChain_cons_cons]
    exact ⟨hflow 0 1 [1] rfl (by decide), hflow 1 4 [4, 2] rfl (by decide),
      hflow 4 5 [5] rfl (by decide), hflow 5 6 [6] rfl (by decide), hflow 6 7 [7] rfl (by decide),
      .singleton 7⟩
  have hfollow : forgotten.header.entryFrame.follow none forgotten.code [0, 1, 4, 5, 6, 7] =
      .error (.invalidWidth 1 2) := by decide
  exact (hall none forgotten result h _ hpath _ hfollow).2 1 2 rfl

end Analyzer

end MethodLocals
