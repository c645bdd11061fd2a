import MethodLocals.Proofs.Arena

/-! The order of the passes. A pass that ends well moves a table one stage on, one that is stopped
leaves the stage, and one at another stage than its own leaves everything. So the stage tells, after
any calls, which passes have ended well since the table was last cleared. -/

namespace MethodLocals

def Stage.next? : Stage → Option Stage
  | .empty => some .receiverBound
  | .receiverBound => some .parametersBound
  | .parametersBound => some .syntacticallyResolved
  | .syntacticallyResolved => some .refined
  | .refined => none

def Stage.passes : Stage → List Pass
  | .empty => []
  | .receiverBound => [.receiver]
  | .parametersBound => [.receiver, .parameters]
  | .syntacticallyResolved => [.receiver, .parameters, .code]
  | .refined => [.receiver, .parameters, .code, .references]

def Stage.reachedBy (passes : List Pass) : Stage := (passes.getLast?.map Pass.after).getD .empty

@[simp] theorem Stage.reachedBy_passes (stage : Stage) : reachedBy stage.passes = stage := by
  cases stage <;> rfl

theorem Pass.next?_before (pass : Pass) : pass.before.next? = some pass.after := by
  cases pass <;> rfl

theorem Pass.passes_after (pass : Pass) : pass.after.passes = pass.before.passes ++ [pass] := by
  cases pass <;> rfl

namespace Call

def pass? : Call → Option Pass
  | .receiver _ => some .receiver
  | .parameters _ => some .parameters
  | .code _ => some .code
  | .references _ _ | .refine _ _ => some .references
  | .resolve _ _ | .use _ _ _ _ | .clear => none

/-- The calls that a resolution makes; any other call makes itself only. -/
def parts : Call → List Call
  | .resolve analyze m => [.clear, .receiver m.header, .parameters m.header.parameters,
      .code m.code, .references analyze m]
  | c => [c]

def IsResolution : Call → Prop
  | .resolve _ _ => True
  | _ => False

def visits (c : Call) : List Visit := c.plan.tasks.flatMap Task.visits

/-- A pass works through one task, unless its analysis has failed. -/
theorem plan_of_pass? {c : Call} {pass : Pass} (hc : c.pass? = some pass) :
    (∃ e, c.plan = ⟨false, [], some e⟩) ∨ c.plan = ⟨false, [⟨some pass, c.visits⟩], none⟩ := by
  cases c with
  | receiver h => cases hc; simp [visits, plan, receiverTask]
  | parameters ps => cases hc; simp [visits, plan, parametersTask]
  | code body => cases hc; simp [visits, plan, codeTask]
  | refine body analysis => cases hc; simp [visits, plan, refineTask]
  | references analyze m =>
    cases hc
    have hplan : (Call.references analyze m).plan = .withReferences false [] analyze m := rfl
    rw [visits, hplan, Plan.withReferences]
    cases analyze m <;> simp [refineTask]
  | resolve | use | clear => cases hc

theorem not_isResolution_of_mem_parts {c d : Call} (h : d ∈ c.parts) : ¬ d.IsResolution := by
  cases c <;> simp only [parts, List.mem_cons, List.not_mem_nil, or_false] at h
  case resolve => rcases h with rfl | rfl | rfl | rfl | rfl <;> exact not_false
  all_goals
    rw [h]
    exact not_false

end Call

/-- The passes that have ended well, after one more call that ended well or was stopped. -/
def note (passes : List Pass) : Call × Option Stop → List Pass
  | (_, some _) => passes
  | (.clear, none) => []
  | (c, none) => passes ++ c.pass?.toList

def passesSinceClear (history : List (Call × Option Stop)) : List Pass := history.foldl note []

theorem note_of_pass? {c : Call} {pass : Pass} (hc : c.pass? = some pass) (passes : List Pass) :
    note passes (c, none) = passes ++ [pass] := by
  cases c <;> simp_all [note, Call.pass?]

structure Callee (σ : Type) where
  empty : σ
  stage : σ → Stage
  withStage : σ → Stage → σ
  call : σ → Call → σ × Option Stop

def Storage.callee {σ : Type} (s : Storage σ) : Callee σ := ⟨s.empty, s.stage, s.withStage, s.call⟩

def Table.callee : Callee Table where
  empty := .empty
  stage := Table.stage
  withStage t stage := { t with stage }
  call t c := stopped (t.call c)

theorem Table.callee_eq : Table.callee = storage.callee := by
  have hcall : (fun t c => stopped (Table.call t c)) = storage.call := by
    funext t c
    exact (call_storage t c).symm
  rw [callee, hcall]
  rfl

namespace Callee

variable {σ : Type}

/-- Makes calls in turn up to the first one that is stopped. -/
def inTurn (k : Callee σ) (x : σ) : List Call → σ × Option Stop
  | [] => (x, none)
  | c :: rest => Storage.proceed (k.call x c) (k.inTurn · rest)

def made (k : Callee σ) (x : σ) : List Call → List (Call × Option Stop)
  | [] => []
  | c :: rest => (c, (k.call x c).2) :: match (k.call x c).2 with
    | none => k.made (k.call x c).1 rest
    | some _ => []

/-- What happens during any calls. A call that is stopped does not keep later ones from being made, and
a resolution is told by the calls that it makes. -/
def history (k : Callee σ) (x : σ) : List Call → List (Call × Option Stop)
  | [] => []
  | c :: rest => k.made x c.parts ++ k.history (k.call x c).1 rest

def after (k : Callee σ) (x : σ) (calls : List Call) : σ :=
  calls.foldl (fun x c => (k.call x c).1) x

structure KeepsOrder (k : Callee σ) : Prop where
  /-- A pass that ends well starts at its own stage and moves it one step on. -/
  done : ∀ x c pass, c.pass? = some pass → (k.call x c).2 = none →
    k.stage x = pass.before ∧ k.stage (k.call x c).1 = pass.after ∧
      (k.stage x).next? = some (k.stage (k.call x c).1)
  /-- A pass that is stopped leaves the stage alone. -/
  stopped : ∀ x c pass stop, c.pass? = some pass → (k.call x c).2 = some stop →
    k.stage (k.call x c).1 = k.stage x
  /-- A pass at another stage than its own leaves everything alone and is refused, though a failing
  analysis is reported first. -/
  refused : ∀ x c pass, c.pass? = some pass → k.stage x ≠ pass.before →
    k.call x c = (x, some ((c.plan.failure.map .failed).getD (.outOfOrder pass)))
  /-- No pass is refused at its own stage. -/
  not_refused : ∀ x c pass other, c.pass? = some pass → k.stage x = pass.before →
    (k.call x c).2 ≠ some (.outOfOrder other)
  use : ∀ x slot name type source, k.stage (k.call x (.use slot name type source)).1 = k.stage x
  clear : ∀ x, k.call x .clear = (k.empty, none)
  stage_empty : k.stage k.empty = .empty
  /-- A resolution clears and then makes the four passes up to the first one that is stopped. -/
  resolve : ∀ x analyze m,
    k.call x (.resolve analyze m) = k.inTurn x (Call.resolve analyze m).parts

structure TracksPasses (k : Callee σ) : Prop where
  /-- A resolution leaves the stage that the last pass reached that ended well. -/
  resolve : ∀ x analyze m, k.stage (k.call x (.resolve analyze m)).1 =
    .reachedBy (passesSinceClear (k.made x (Call.resolve analyze m).parts))
  /-- The passes that ended well since the last clear are those that lead to the stage, each once and
  in their order. -/
  history : ∀ calls, passesSinceClear (k.history k.empty calls) =
    (k.stage (k.after k.empty calls)).passes

namespace KeepsOrder

variable {k : Callee σ}

/-- One call changes the passes that ended well as it changes the stage. -/
theorem note_call (h : k.KeepsOrder) (x : σ) {c : Call} (hc : ¬ c.IsResolution) :
    note (k.stage x).passes (c, (k.call x c).2) = (k.stage (k.call x c).1).passes := by
  have hpass : ∀ pass, c.pass? = some pass →
      note (k.stage x).passes (c, (k.call x c).2) = (k.stage (k.call x c).1).passes := by
    intro pass hc
    cases hstop : (k.call x c).2 with
    | none =>
      obtain ⟨hbefore, hafter, -⟩ := h.done x c pass hc hstop
      rw [note_of_pass? hc, hbefore, hafter, pass.passes_after]
    | some stop => rw [h.stopped x c pass stop hc hstop, note]
  cases c with
  | receiver header => exact hpass .receiver rfl
  | parameters ps => exact hpass .parameters rfl
  | code code => exact hpass .code rfl
  | references analyze m => exact hpass .references rfl
  | refine code analysis => exact hpass .references rfl
  | resolve analyze m => exact absurd trivial hc
  | use slot name type source =>
    rw [h.use]
    cases (k.call x (.use slot name type source)).2 <;> simp [note, Call.pass?]
  | clear => simp [h.clear, h.stage_empty, note, Stage.passes]

/-- Calls in turn, none of them a resolution, change the passes that ended well as they change the
stage. -/
theorem foldl_made (h : k.KeepsOrder) {calls : List Call} (hcalls : ∀ c ∈ calls, ¬ c.IsResolution)
    (x : σ) : (k.made x calls).foldl note (k.stage x).passes =
      (k.stage (k.inTurn x calls).1).passes := by
  induction calls generalizing x with
  | nil => rfl
  | cons c rest ih =>
    obtain ⟨hc, hrest⟩ := List.forall_mem_cons.1 hcalls
    rw [made, inTurn, List.foldl_cons, h.note_call x hc, Storage.proceed]
    cases (k.call x c).2 with
    | none => exact ih hrest _
    | some stop => rfl

theorem call_eq_inTurn (h : k.KeepsOrder) (x : σ) (c : Call) : k.call x c = k.inTurn x c.parts := by
  cases c with
  | resolve analyze m => exact h.resolve x analyze m
  | receiver | parameters | code | references | refine | use | clear =>
    exact (Storage.proceed_done _).symm

theorem foldl_made_parts (h : k.KeepsOrder) (x : σ) (c : Call) :
    (k.made x c.parts).foldl note (k.stage x).passes = (k.stage (k.call x c).1).passes := by
  rw [h.call_eq_inTurn]
  exact h.foldl_made (fun d => Call.not_isResolution_of_mem_parts) x

/-- Whatever calls are made, the passes that ended well change as the stage does. -/
theorem foldl_history (h : k.KeepsOrder) (calls : List Call) (x : σ) :
    (k.history x calls).foldl note (k.stage x).passes = (k.stage (k.after x calls)).passes := by
  induction calls generalizing x with
  | nil => rfl
  | cons c rest ih =>
    rw [history, List.foldl_append, h.foldl_made_parts]
    exact ih _

theorem tracksPasses (h : k.KeepsOrder) : k.TracksPasses where
  resolve x analyze m := by
    -- a resolution clears first, so nothing that ended well before it counts
    have hclear : passesSinceClear (k.made x (Call.resolve analyze m).parts) =
        (k.made x (Call.resolve analyze m).parts).foldl note (k.stage x).passes := by
      simp [passesSinceClear, Call.parts, made, h.clear, note]
    rw [hclear, h.foldl_made_parts, Stage.reachedBy_passes]
  history calls := by
    rw [passesSinceClear, ← h.foldl_history, h.stage_empty, Stage.passes]

end KeepsOrder

end Callee

def Visit.element : Visit → Element
  | .use u => u.source
  | .parameter _ index => .parameter index
  | .access index _ | .reference index _ _ => .instruction index

/-- Can a visit for an element be stopped like this? An error names the element, and a visit minds no
order of passes. -/
def Stop.IsAbout (element : Element) : Stop → Prop
  | .failed e => e.element = element
  | .outOfOrder _ => False
  | .overflow | .noRecord _ | .noUsage _ => True

structure Storage.Staged {σ : Type} (s : Storage σ) : Prop where
  stage_empty : s.stage s.empty = .empty
  stage_withStage : ∀ x stage, s.stage (s.withStage x stage) = stage
  stage_visit : ∀ x v, s.stage (s.visit x v).1 = s.stage x
  isAbout : ∀ x v stop, (s.visit x v).2 = some stop → stop.IsAbout v.element

namespace Storage

variable {σ : Type} {s : Storage σ}

inductive PassEnd (s : Storage σ) (x : σ) (c : Call) (pass : Pass) : Prop
  | analysisFailed (e : CompileError) : c.plan.failure = some e →
      s.call x c = (x, some (.failed e)) → PassEnd s x c pass
  | refused : c.plan.failure = none → s.stage x ≠ pass.before →
      s.call x c = (x, some (.outOfOrder pass)) → PassEnd s x c pass
  | stopped (y : σ) (stop : Stop) : s.stage x = pass.before → s.call x c = (y, some stop) →
      s.stage y = s.stage x → (∀ other, stop ≠ .outOfOrder other) → PassEnd s x c pass
  | done (y : σ) : s.stage x = pass.before → s.call x c = (s.withStage y pass.after, none) →
      PassEnd s x c pass

namespace Staged

theorem visitAll (h : s.Staged) (x : σ) (visits : List Visit) :
    s.stage (s.visitAll x visits).1 = s.stage x ∧
      ∀ stop, (s.visitAll x visits).2 = some stop → ∃ v ∈ visits, stop.IsAbout v.element := by
  induction visits generalizing x with
  | nil => simp [Storage.visitAll]
  | cons v rest ih =>
    rw [Storage.visitAll, proceed]
    cases hv : (s.visit x v).2 with
    | none =>
      obtain ⟨hstage, hstop⟩ := ih (s.visit x v).1
      refine ⟨hstage.trans (h.stage_visit x v), fun stop hrest => ?_⟩
      obtain ⟨w, hw, habout⟩ := hstop stop hrest
      exact ⟨w, List.mem_cons_of_mem v hw, habout⟩
    | some stop =>
      refine ⟨h.stage_visit x v, fun stop' hstop => ?_⟩
      exact ⟨v, List.mem_cons_self, h.isAbout x v stop' hstop⟩

theorem passEnd (h : s.Staged) {c : Call} {pass : Pass} (hc : c.pass? = some pass) (x : σ) :
    s.PassEnd x c pass := by
  rcases Call.plan_of_pass? hc with ⟨e, hplan⟩ | hplan
  · exact .analysisFailed e (by rw [hplan]) (by rw [call, hplan]; rfl)
  · have hcall : s.call x c = s.perform x ⟨some pass, c.visits⟩ := by
      rw [call, hplan, carryOut_singleton]
    by_cases hstage : s.stage x = pass.before
    · obtain ⟨hkept, hstop⟩ := h.visitAll x c.visits
      have hperform := hcall.trans (s.perform_of_stage hstage c.visits)
      cases hvisits : s.visitAll x c.visits with
      | mk y stop? =>
        rw [hvisits] at hperform hkept hstop
        cases stop? with
        | none => exact .done y hstage hperform
        | some stop =>
          obtain ⟨v, -, habout⟩ := hstop stop rfl
          refine .stopped y stop hstage hperform hkept fun other hother => ?_
          rw [hother] at habout
          exact habout
    · exact .refused (by rw [hplan]) hstage (hcall.trans (s.perform_of_stage_ne hstage c.visits))

theorem keepsOrder (h : s.Staged) : s.callee.KeepsOrder where
  done x c pass hc hdone := by
    show s.stage x = _ ∧ s.stage (s.call x c).1 = _ ∧
      (s.stage x).next? = some (s.stage (s.call x c).1)
    cases h.passEnd hc x with
    | done y hbefore hcall =>
      rw [hcall, h.stage_withStage, hbefore]
      exact ⟨rfl, rfl, pass.next?_before⟩
    | analysisFailed e _ hcall | refused _ _ hcall | stopped y stop _ hcall =>
      simp [callee, hcall] at hdone
  stopped x c pass stop hc hstop := by
    show s.stage (s.call x c).1 = s.stage x
    cases h.passEnd hc x with
    | analysisFailed e _ hcall => rw [hcall]
    | refused _ _ hcall => rw [hcall]
    | stopped y stop _ hcall hstage => rw [hcall, hstage]
    | done y _ hcall => simp [callee, hcall] at hstop
  refused x c pass hc hstage := by
    show s.call x c = _
    cases h.passEnd hc x with
    | analysisFailed e hfailure hcall => simp [hfailure, hcall]
    | refused hfailure _ hcall => simp [hfailure, hcall]
    | stopped y stop hbefore => exact absurd hbefore hstage
    | done y hbefore => exact absurd hbefore hstage
  not_refused x c pass other hc hstage := by
    show (s.call x c).2 ≠ _
    cases h.passEnd hc x with
    | analysisFailed e _ hcall => simp [hcall]
    | refused _ hne => exact absurd hstage hne
    | stopped y stop _ hcall _ hstop => simpa [hcall] using hstop other
    | done y _ hcall => simp [hcall]
  use x slot name type source := by
    show s.stage (s.carryOut x _).1 = s.stage x
    rw [Call.plan, s.carryOut_singleton]
    exact (h.visitAll x _).1
  clear _ := rfl
  stage_empty := h.stage_empty
  resolve x analyze m := by
    show s.call x _ = _
    rw [s.call_resolve]
    simp only [Callee.inTurn, Call.parts, callee, proceed_done]
    simp only [call, Call.plan, carryOut_singleton]
    rfl

end Staged

end Storage

namespace Table

/-- A visit uses a slot for its own element, and a conflict of types names it. -/
theorem choose_isAbout (t : Table) (v : Visit) : match t.choose v with
    | .ok u => u.source = v.element
    | .error e => e.element = v.element := by
  cases v with
  | use | parameter | reference => rfl
  | access index ref =>
    rw [choose]
    cases t.named? ref.name with
    | none => rfl
    | some r =>
      dsimp only
      cases ref.access.recordedType (some r.last.type) ref.type <;> rfl

theorem storage_staged : storage.Staged where
  stage_empty := rfl
  stage_withStage _ _ := rfl
  stage_visit t v := by
    dsimp only [storage]
    cases t.choose v with
    | error e => rfl
    | ok u =>
      dsimp only [Except.bind]
      cases hu : t.use u with
      | error e => rfl
      | ok t' => exact stage_of_use hu
  isAbout t v stop hstop := by
    have hchoose := t.choose_isAbout v
    dsimp only [storage] at hstop
    cases hv : t.choose v with
    | error e =>
      rw [hv] at hstop hchoose
      cases hstop
      exact hchoose
    | ok u =>
      rw [hv] at hchoose
      rw [hv, Except.bind] at hstop
      cases hu : t.use u with
      | error e =>
        rw [hu] at hstop
        cases hstop
        obtain ⟨conflict, rfl⟩ := error_of_use hu
        exact hchoose
      | ok t' =>
        rw [hu] at hstop
        cases hstop

end Table

namespace Arena

variable {a a' : Arena} {allocate : Allocator} {u : Use} {stop : Stop}

theorem follow_isAbout (element : Element) {index : Nat} (h : a.follow index = .error stop) :
    stop.IsAbout element := by
  rw [follow] at h
  split at h <;> cases h
  exact trivial

theorem accessUse_isAbout (r : StoredRecord) (index : Nat) (ref : VariableRef) :
    match accessUse r index ref with
    | .ok u => u.source = .instruction index
    | .error stop => stop.IsAbout (.instruction index) := by
  rw [accessUse]
  cases r.usages.getLast? with
  | none => exact trivial
  | some last =>
    dsimp only
    cases ref.access.recordedType (some last.type) ref.type <;> rfl

/-- A visit uses a slot for its own element, and a conflict of types names it. -/
theorem choose_isAbout (a : Arena) (v : Visit) : match a.choose v with
    | .ok u => u.source = v.element
    | .error stop => stop.IsAbout v.element := by
  cases v with
  | use | parameter => rfl
  | access index ref =>
    rw [choose]
    cases a.byName.lookup ref.name with
    | none => rfl
    | some k =>
      dsimp only
      cases hr : a.follow k with
      | error stop => exact follow_isAbout _ hr
      | ok r => exact accessUse_isAbout r index ref
  | reference index name type =>
    rw [choose]
    cases a.byName.lookup name with
    | none => rfl
    | some k =>
      dsimp only
      cases hr : a.follow k with
      | error stop => exact follow_isAbout _ hr
      | ok r => rfl

theorem isAbout_of_commit_eq_error (h : a.commit allocate u = .error stop) :
    stop.IsAbout u.source := by
  rw [commit] at h
  cases hslots : allocate a.slots u.slot u.type.width with
  | error refusal =>
    rw [hslots] at h
    cases h
    cases refusal <;> simp [Refusal.stop, Stop.IsAbout]
  | ok slots =>
    simp only [hslots] at h
    split at h <;> cases h
    exact trivial

theorem locate_stage (a : Arena) (u : Use) : (a.locate u).1.stage = a.stage := by
  rw [locate]
  cases a.bySlot.lookup u.slot <;> rfl

theorem stage_of_commit_eq_ok (h : a.commit allocate u = .ok a') : a'.stage = a.stage := by
  rw [commit] at h
  cases hslots : allocate a.slots u.slot u.type.width with
  | error refusal => simp [hslots] at h
  | ok slots =>
    simp only [hslots] at h
    split at h <;> cases h
    exact locate_stage { a with slots } u

theorem storage_staged (allocate : Allocator) : (storage allocate).Staged where
  stage_empty := rfl
  stage_withStage _ _ := rfl
  stage_visit a v := by
    dsimp only [storage]
    cases a.choose v with
    | error stop => rfl
    | ok u =>
      dsimp only [Except.bind]
      cases hu : a.commit allocate u with
      | error stop => rfl
      | ok a' => exact stage_of_commit_eq_ok hu
  isAbout a v stop hstop := by
    have hchoose := a.choose_isAbout v
    dsimp only [storage] at hstop
    cases hv : a.choose v with
    | error stop =>
      rw [hv] at hstop hchoose
      cases hstop
      exact hchoose
    | ok u =>
      rw [hv] at hchoose
      rw [hv, Except.bind] at hstop
      cases hu : a.commit allocate u with
      | error stop =>
        rw [hu] at hstop
        cases hstop
        exact hchoose ▸ isAbout_of_commit_eq_error hu
      | ok a' =>
        rw [hu] at hstop
        cases hstop

end Arena

/-- The passes are made in order. On a table of slots, and on an arena of records whichever way slots
are committed, each call does to the stage what it should, and the stage tells which passes have
ended well since the last clear. -/
theorem callees_keep_order :
    (Table.callee.KeepsOrder ∧ Table.callee.TracksPasses) ∧
      ∀ allocate : Allocator,
        (Arena.storage allocate).callee.KeepsOrder ∧ (Arena.storage allocate).callee.TracksPasses := by
  have htable : Table.callee.KeepsOrder := Table.callee_eq ▸ Table.storage_staged.keepsOrder
  refine ⟨⟨htable, htable.tracksPasses⟩, fun allocate => ?_⟩
  have harena := (Arena.storage_staged allocate).keepsOrder
  exact ⟨harena, harena.tracksPasses⟩

end MethodLocals
