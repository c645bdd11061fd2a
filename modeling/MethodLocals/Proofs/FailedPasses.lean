import MethodLocals.Proofs.InPlace
import MethodLocals.Proofs.PassOrder

/-! Passes that fail. A visit that is stopped leaves everything as it was, so a failing pass leaves what
the same pass over the elements before the failing one leaves, except that the stage stays. -/

namespace MethodLocals

/-- What is found in a list comes from one position, and what is found before it from before there. -/
theorem exists_of_filterMap_zipIdx {α β : Type} {find : α × Nat → Option β} {items : List α}
    {before after : List β} {found : β}
    (h : items.zipIdx.filterMap find = before ++ found :: after) :
    ∃ n < items.length, (∃ item, find (item, n) = some found) ∧
      (items.take n).zipIdx.filterMap find = before ∧
      (items.take (n + 1)).zipIdx.filterMap find = before ++ [found] := by
  obtain ⟨front, back, hzip, hbefore, hback⟩ := List.filterMap_eq_append_iff.1 h
  obtain ⟨passed, _, rest, rfl, hpassed, hfound, -⟩ := List.filterMap_eq_cons_iff.1 hback
  rw [← List.append_assoc] at hzip
  obtain ⟨first, last, rfl, hfirst, hlast⟩ := List.zipIdx_eq_append_iff.1 hzip
  obtain ⟨item, tail, rfl, rfl, -⟩ := List.zipIdx_eq_cons_iff.1 hlast.symm
  rw [Nat.zero_add] at hfound
  have hfront : first.zipIdx.filterMap find = before := by
    rw [← hfirst, List.filterMap_append, List.filterMap_eq_nil_iff.2 hpassed, List.append_nil, hbefore]
  refine ⟨first.length, by simp, ⟨item, hfound⟩, by rw [List.take_left, hfront], ?_⟩
  rw [List.take_length_add_append, List.take_succ_cons, List.take_zero, List.zipIdx_append,
    List.filterMap_append, hfront]
  simp [hfound]

namespace Call

/-- The elements that a pass goes through, by their positions. -/
def source? : Call → Option (Nat → Element)
  | .parameters _ => some .parameter
  | .code _ | .refine _ _ => some .instruction
  | .receiver _ | .references _ _ | .resolve _ _ | .use _ _ _ _ | .clear => none

def size : Call → Nat
  | .parameters ps => ps.length
  | .code body | .refine body _ => body.length
  | .receiver _ | .references _ _ | .resolve _ _ | .use _ _ _ _ | .clear => 0

/-- The pass through the first elements only, with the same analysis. -/
def cut (n : Nat) : Call → Call
  | .parameters ps => .parameters (ps.take n)
  | .code body => .code (body.take n)
  | .refine body analysis => .refine (body.take n) analysis
  | c => c

theorem source?_cut (c : Call) (n : Nat) : (c.cut n).source? = c.source? := by cases c <;> rfl

theorem pass?_cut (c : Call) (n : Nat) : (c.cut n).pass? = c.pass? := by cases c <;> rfl

theorem visits_parameters (ps : List Parameter) : (Call.parameters ps).visits =
    ps.zipIdx.filterMap fun item => some (.parameter item.1 item.2) := by
  simp [visits, plan, parametersTask]

theorem visits_code (body : List Instruction) : (Call.code body).visits =
    body.zipIdx.filterMap fun item => item.1.variableRef.map (.access item.2) := by
  simp [visits, plan, codeTask, variableRefs, List.map_filterMap, Function.comp_def]

theorem visits_refine (body : List Instruction) (analysis : Analysis) :
    (Call.refine body analysis).visits = body.zipIdx.filterMap fun item =>
      (item.1.variableRef.filter (!·.type.isPrimitive)).map fun ref =>
        .reference item.2 ref.name (analysis.refinedType item.2 ref.name) := by
  simp [visits, plan, refineTask, Table.referenceAccesses, variableRefs, List.map_filterMap,
    List.filter_filterMap, Option.filter_map, Function.comp_def]

variable {c : Call} {source : Nat → Element} {before after : List Visit} {v : Visit}

theorem plan_of_source? (hc : c.source? = some source) :
    ∃ pass, c.pass? = some pass ∧ c.plan = ⟨false, [⟨some pass, c.visits⟩], none⟩ := by
  obtain ⟨pass, hpass, hfailure⟩ : ∃ pass, c.pass? = some pass ∧ c.plan.failure = none := by
    cases c <;> simp_all [source?, pass?, plan]
  rcases plan_of_pass? hpass with ⟨e, hplan⟩ | hplan
  · simp [hplan] at hfailure
  · exact ⟨pass, hpass, hplan⟩

theorem plan_cut {pass : Pass} (hc : c.source? = some source) (hpass : c.pass? = some pass) (n : Nat) :
    (c.cut n).plan = ⟨false, [⟨some pass, (c.cut n).visits⟩], none⟩ := by
  obtain ⟨pass', hpass', hplan⟩ := plan_of_source? ((c.source?_cut n).trans hc)
  rw [c.pass?_cut, hpass] at hpass'
  cases hpass'
  exact hplan

/-- A visit of a pass is made for one element, and the visits before it for the elements before. -/
theorem visits_cut (hc : c.source? = some source) (h : c.visits = before ++ v :: after) :
    ∃ n < c.size, v.element = source n ∧ (c.cut n).visits = before ∧
      (c.cut (n + 1)).visits = before ++ [v] := by
  cases c with
  | parameters ps =>
    cases hc
    rw [visits_parameters] at h
    obtain ⟨n, hlt, ⟨p, hp⟩, hbefore, hnext⟩ := exists_of_filterMap_zipIdx h
    cases hp
    exact ⟨n, hlt, rfl, (visits_parameters _).trans hbefore, (visits_parameters _).trans hnext⟩
  | code body =>
    cases hc
    rw [visits_code] at h
    obtain ⟨n, hlt, ⟨i, hi⟩, hbefore, hnext⟩ := exists_of_filterMap_zipIdx h
    obtain ⟨ref, -, rfl⟩ := Option.map_eq_some_iff.1 hi
    exact ⟨n, hlt, rfl, (visits_code _).trans hbefore, (visits_code _).trans hnext⟩
  | refine body analysis =>
    cases hc
    rw [visits_refine] at h
    obtain ⟨n, hlt, ⟨i, hi⟩, hbefore, hnext⟩ := exists_of_filterMap_zipIdx h
    obtain ⟨ref, -, rfl⟩ := Option.map_eq_some_iff.1 hi
    exact ⟨n, hlt, rfl, (visits_refine _ _).trans hbefore, (visits_refine _ _).trans hnext⟩
  | receiver | references | resolve | use | clear => cases hc

end Call

namespace Callee

variable {σ : Type}

/-- A pass fails at an element. Through the elements before it the pass ends well and leaves the same,
but for the stage, and the elements after it make no difference. -/
structure FailsAt (k : Callee σ) (x : σ) (c : Call) (n : Nat) : Prop where
  lt_size : n < c.size
  stage : k.stage (k.call x c).1 = k.stage x
  before : ∃ pass, c.pass? = some pass ∧
    k.call x (c.cut n) = (k.withStage (k.call x c).1 pass.after, none)
  first : k.call x (c.cut (n + 1)) = k.call x c

structure FailsCleanly (k : Callee σ) (x : σ) : Prop where
  /-- A pass fails at the element that its error names. -/
  pass : ∀ c source e, c.source? = some source → (k.call x c).2 = some (.failed e) →
    ∃ n, e.element = source n ∧ k.FailsAt x c n
  /-- A use that is stopped changes nothing. -/
  use : ∀ slot name type source stop, (k.call x (.use slot name type source)).2 = some stop →
    (k.call x (.use slot name type source)).1 = x ∧ stop.IsAbout source

/-- Whether calls leave anything half done depends on what they come to. -/
theorem FailsCleanly.of_call_eq {k k' : Callee σ} {x : σ} (h : k.FailsCleanly x)
    (hstage : k'.stage = k.stage) (hwithStage : k'.withStage = k.withStage)
    (hcall : ∀ c, k'.call x c = k.call x c) : k'.FailsCleanly x where
  pass c source e hc he := by
    rw [hcall] at he
    obtain ⟨n, hn, hfails⟩ := h.pass c source e hc he
    refine ⟨n, hn, hfails.lt_size, ?_, ?_, ?_⟩
    · rw [hstage, hcall, hfails.stage]
    · simpa only [hcall, hwithStage] using hfails.before
    · rw [hcall, hcall, hfails.first]
  use slot name type source stop hstop := by
    rw [hcall] at hstop ⊢
    exact h.use slot name type source stop hstop

end Callee

structure Storage.Atomic {σ : Type} (s : Storage σ) : Prop extends s.Staged where
  unchanged : ∀ x v stop, (s.visit x v).2 = some stop → (s.visit x v).1 = x

namespace Storage.Atomic

variable {σ : Type} {s : Storage σ}

/-- Visits that are stopped are made up to some visit, and that one changes nothing. -/
theorem exists_stopped (h : s.Atomic) {x y : σ} {visits : List Visit} {stop : Stop}
    (hstop : s.visitAll x visits = (y, some stop)) :
    ∃ before v after, visits = before ++ v :: after ∧ s.visitAll x before = (y, none) ∧
      s.visit y v = (y, some stop) := by
  induction visits generalizing x with
  | nil => cases hstop
  | cons v rest ih =>
    rw [visitAll, proceed] at hstop
    cases hv : (s.visit x v).2 with
    | none =>
      rw [hv] at hstop
      obtain ⟨before, w, after, rfl, hbefore, hw⟩ := ih hstop
      refine ⟨v :: before, w, after, rfl, ?_, hw⟩
      rw [visitAll, proceed, hv]
      exact hbefore
    | some stop' =>
      rw [hv] at hstop
      have hy : (s.visit x v).1 = y := congrArg Prod.fst hstop
      rw [h.unchanged x v stop' hv] at hy
      subst hy
      exact ⟨[], v, rest, rfl, rfl, hstop⟩

/-- A pass that fails was made at its stage, and left off at some visit. -/
theorem exists_failed (h : s.Atomic) {x : σ} {c : Call} {pass : Pass} {e : CompileError}
    (hplan : c.plan = ⟨false, [⟨some pass, c.visits⟩], none⟩)
    (he : (s.call x c).2 = some (.failed e)) :
    s.stage x = pass.before ∧ ∃ y before v after, s.call x c = (y, some (.failed e)) ∧
      c.visits = before ++ v :: after ∧ s.visitAll x before = (y, none) ∧
      s.visit y v = (y, some (.failed e)) := by
  have hcall : s.call x c = s.perform x ⟨some pass, c.visits⟩ := by
    rw [call, hplan, carryOut_singleton]
  have hstage : s.stage x = pass.before := by
    by_contra hne
    rw [hcall, s.perform_of_stage_ne hne] at he
    cases he
  rw [s.perform_of_stage hstage] at hcall
  cases hvisits : s.visitAll x c.visits with
  | mk y stop? =>
    rw [hvisits] at hcall
    cases stop? with
    | none => simp [hcall, proceed] at he
    | some stop =>
      have hy : s.call x c = (y, some stop) := hcall
      obtain rfl : stop = .failed e := by simpa [hy] using he
      obtain ⟨before, v, after, hsplit, hbefore, hv⟩ := h.exists_stopped hvisits
      exact ⟨hstage, y, before, v, after, hy, hsplit, hbefore, hv⟩

theorem failsAt (h : s.Atomic) {x : σ} {c : Call} {source : Nat → Element} {e : CompileError}
    (hc : c.source? = some source) (he : (s.call x c).2 = some (.failed e)) :
    ∃ n, e.element = source n ∧ s.callee.FailsAt x c n := by
  obtain ⟨pass, hpass, hplan⟩ := Call.plan_of_source? hc
  obtain ⟨hstage, y, before, v, after, hcall, hsplit, hbefore, hv⟩ := h.exists_failed hplan he
  obtain ⟨n, hlt, helement, hn, hnext⟩ := Call.visits_cut hc hsplit
  have habout : e.element = v.element := h.isAbout y v _ (congrArg Prod.snd hv)
  have hcut : ∀ n, s.call x (c.cut n) =
      proceed (s.visitAll x (c.cut n).visits) fun x => (s.withStage x pass.after, none) := by
    intro n
    rw [call, Call.plan_cut hc hpass, carryOut_singleton, s.perform_of_stage hstage]
  refine ⟨n, habout.trans helement, hlt, ?_, ⟨pass, hpass, ?_⟩, ?_⟩
  · have hkept := (h.visitAll x before).1
    rw [hbefore] at hkept
    show s.stage (s.call x c).1 = s.stage x
    rw [hcall, hkept]
  · show s.call x (c.cut n) = (s.withStage (s.call x c).1 pass.after, none)
    rw [hcut, hn, hbefore, hcall]
    rfl
  · show s.call x (c.cut (n + 1)) = s.call x c
    rw [hcut, hnext, s.visitAll_append, hbefore, hcall]
    simp [proceed, visitAll, hv]

theorem failsCleanly (h : s.Atomic) (x : σ) : s.callee.FailsCleanly x where
  pass _ _ _ hc he := h.failsAt hc he
  use slot name type source stop hstop := by
    have hcall : s.call x (.use slot name type source) =
        s.visit x (.use ⟨slot, name, type, source, false⟩) :=
      (s.carryOut_singleton x _).trans (proceed_done _)
    show (s.call x (.use slot name type source)).1 = x ∧ _
    simp only [callee, hcall] at hstop ⊢
    exact ⟨h.unchanged x _ stop hstop, h.isAbout x _ stop hstop⟩

end Storage.Atomic

theorem Table.storage_atomic : storage.Atomic where
  toStaged := storage_staged
  unchanged t v stop hstop := by
    dsimp only [storage] at hstop ⊢
    cases hv : (t.choose v).bind t.use with
    | error e => rfl
    | ok t' => simp [hv] at hstop

theorem Arena.storage_atomic (allocate : Allocator) : (storage allocate).Atomic where
  toStaged := storage_staged allocate
  unchanged a v stop hstop := by
    dsimp only [storage] at hstop ⊢
    cases hv : (a.choose v).bind (a.commit allocate) with
    | error stop' => rfl
    | ok a' => simp [hv] at hstop

theorem Arena.Reserves.failsCleanly {allocate : Allocator} {reserve : Use → Change Unit}
    (h : Reserves allocate reserve) (calls : List Call) :
    (inPlaceWith reserve).callee.FailsCleanly ((inPlaceWith reserve).ofCalls calls) := by
  have hlinked := (h.simulates.ofCalls calls).2
  have hclean := (storage_atomic allocate).failsCleanly ((inPlaceWith reserve).ofCalls calls)
  exact hclean.of_call_eq rfl rfl (h.call_inPlaceWith hlinked)

/-- Nothing is left half done by a call that fails, neither in a table of slots nor in an arena that
calls have filled and that is changed in place. It makes no difference there how slots are committed,
nor for what reason they may not be. -/
theorem failsCleanly_of_calls :
    (∀ t : Table, Table.callee.FailsCleanly t) ∧
      (∀ calls : List Call, Arena.inPlace.callee.FailsCleanly (Arena.inPlace.ofCalls calls)) ∧
        ∀ (allocate : Allocator) (calls : List Call),
          (Arena.inPlaceWith (Arena.reserveWith allocate)).callee.FailsCleanly
            ((Arena.inPlaceWith (Arena.reserveWith allocate)).ofCalls calls) := by
  refine ⟨fun t => ?_, Arena.reserves_reserveInPlace.failsCleanly, fun allocate => ?_⟩
  · rw [Table.callee_eq]
    exact Table.storage_atomic.failsCleanly t
  · exact (Arena.reserves_reserveWith allocate).failsCleanly

end MethodLocals
