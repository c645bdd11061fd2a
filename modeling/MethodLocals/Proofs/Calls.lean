import MethodLocals.Proofs.Uses

/-! Calls on a table, in any order and whatever comes of them. A call visits variables one after the
other, and each visit leads to a use of some slot. How uses are kept is left open, so that different
ways to keep them can be compared visit by visit. -/

namespace MethodLocals

inductive Call where
  | receiver (h : Header)
  | parameters (parameters : List Parameter)
  | code (code : List Instruction)
  | references (analyze : FrameSource) (m : Method)
  | refine (code : List Instruction) (analysis : Analysis)
  | resolve (analyze : FrameSource) (m : Method)
  | use (slot : Nat) (name : String) (type : FieldType) (source : Element)
  | clear

namespace Table

/-- The table after a call, whether the call ends well or not. -/
def call (t : Table) : Call → Table × Outcome
  | .receiver h => t.bindReceiver h
  | .parameters parameters => t.bindParameters parameters
  | .code code => t.resolveCode code
  | .references analyze m => t.resolveReferences analyze m
  | .refine code analysis => t.refine code analysis
  | .resolve analyze m => resolve analyze m
  | .use slot name type source =>
    match t.use ⟨slot, name, type, source, false⟩ with
    | .error e => (t, .failed e)
    | .ok t' => (t', .done)
  | .clear => (empty, .done)

def ofCalls (calls : List Call) : Table := calls.foldl (fun t c => (t.call c).1) empty

end Table

/-- What ends a call early: an error, a pass out of order, or a fault that stops the program. -/
inductive Stop where
  | failed (error : CompileError)
  | outOfOrder (pass : Pass)
  /-- The slot after a value does not fit into a machine word. -/
  | overflow
  /-- There is no record at an index that is followed. -/
  | noRecord (index : Nat)
  /-- The last usage is asked for of a record without any. -/
  | noUsage (slot : Nat)
  deriving DecidableEq

def Outcome.stop? : Outcome → Option Stop
  | .done => none
  | .failed error => some (.failed error)
  | .outOfOrder pass => some (.outOfOrder pass)

/-- A visit to a variable. Which slot it uses depends on what has been used before. -/
inductive Visit where
  | use (u : Use)
  | parameter (p : Parameter) (index : Nat)
  | access (index : Nat) (ref : VariableRef)
  | reference (index : Nat) (name : String) (type : FieldType)

/-- Visits one after the other, as a pass or on their own. -/
structure Task where
  pass : Option Pass
  visits : List Visit

/-- What a call does: it may start over, then it works through tasks, and may fail after them. -/
structure Plan where
  restarts : Bool
  tasks : List Task
  failure : Option CompileError

def receiverTask (h : Header) : Task := ⟨some .receiver, (Table.receiverUses h).map .use⟩

def parametersTask (parameters : List Parameter) : Task :=
  ⟨some .parameters, parameters.zipIdx.map fun item => .parameter item.1 item.2⟩

def codeTask (code : List Instruction) : Task :=
  ⟨some .code, (variableRefs code).map fun item => .access item.1 item.2⟩

def refineTask (code : List Instruction) (analysis : Analysis) : Task :=
  ⟨some .references, (Table.referenceAccesses code).map fun item =>
    .reference item.1 item.2.name (analysis.refinedType item.1 item.2.name)⟩

/-- A failing analysis is reported whatever the stage is. -/
def Plan.withReferences (restarts : Bool) (tasks : List Task) (analyze : FrameSource) (m : Method) :
    Plan :=
  match analyze m with
  | .error e => ⟨restarts, tasks, some ⟨e.element, .analysis e.reason⟩⟩
  | .ok analysis => ⟨restarts, tasks ++ [refineTask m.code analysis], none⟩

def Call.plan : Call → Plan
  | .receiver h => ⟨false, [receiverTask h], none⟩
  | .parameters ps => ⟨false, [parametersTask ps], none⟩
  | .code body => ⟨false, [codeTask body], none⟩
  | .references analyze m => .withReferences false [] analyze m
  | .refine body analysis => ⟨false, [refineTask body analysis], none⟩
  | .resolve analyze m => .withReferences true
    [receiverTask m.header, parametersTask m.header.parameters, codeTask m.code] analyze m
  | .use slot name type source => ⟨false, [⟨none, [.use ⟨slot, name, type, source, false⟩]⟩], none⟩
  | .clear => ⟨true, [], none⟩

/-- A way to keep the uses of slots. -/
structure Storage (σ : Type) where
  empty : σ
  stage : σ → Stage
  withStage : σ → Stage → σ
  visit : σ → Visit → σ × Option Stop

namespace Storage

variable {σ τ : Type}

def proceed (result : σ × Option Stop) (next : σ → σ × Option Stop) : σ × Option Stop :=
  match result.2 with
  | some _ => result
  | none => next result.1

theorem proceed_done (result : σ × Option Stop) : proceed result (fun x => (x, none)) = result := by
  obtain ⟨x, stop⟩ := result
  cases stop <;> rfl

theorem proceed_proceed (result : σ × Option Stop) (next last : σ → σ × Option Stop) :
    proceed (proceed result next) last = proceed result fun x => proceed (next x) last := by
  obtain ⟨x, stop⟩ := result
  cases stop <;> rfl

def visitAll (s : Storage σ) (x : σ) : List Visit → σ × Option Stop
  | [] => (x, none)
  | v :: rest => proceed (s.visit x v) (s.visitAll · rest)

/-- A pass out of order visits nothing, and one that ends well moves the stage. -/
def perform (s : Storage σ) (x : σ) (task : Task) : σ × Option Stop :=
  match task.pass with
  | none => s.visitAll x task.visits
  | some pass =>
    if s.stage x ≠ pass.before then (x, some (.outOfOrder pass))
    else proceed (s.visitAll x task.visits) fun x => (s.withStage x pass.after, none)

theorem visitAll_append (s : Storage σ) (x : σ) (before after : List Visit) :
    s.visitAll x (before ++ after) = proceed (s.visitAll x before) (s.visitAll · after) := by
  induction before generalizing x with
  | nil => rfl
  | cons v rest ih =>
    rw [List.cons_append, visitAll, visitAll, proceed_proceed]
    simp only [ih]

theorem perform_of_stage (s : Storage σ) {x : σ} {pass : Pass} (h : s.stage x = pass.before)
    (visits : List Visit) : s.perform x ⟨some pass, visits⟩ =
      proceed (s.visitAll x visits) fun x => (s.withStage x pass.after, none) :=
  if_neg (not_not_intro h)

theorem perform_of_stage_ne (s : Storage σ) {x : σ} {pass : Pass} (h : s.stage x ≠ pass.before)
    (visits : List Visit) : s.perform x ⟨some pass, visits⟩ = (x, some (.outOfOrder pass)) :=
  if_pos h

def performAll (s : Storage σ) (x : σ) : List Task → σ × Option Stop
  | [] => (x, none)
  | task :: rest => proceed (s.perform x task) (s.performAll · rest)

theorem performAll_concat (s : Storage σ) (x : σ) (tasks : List Task) (task : Task) :
    s.performAll x (tasks ++ [task]) = proceed (s.performAll x tasks) (s.perform · task) := by
  induction tasks generalizing x with
  | nil => exact proceed_done _
  | cons first rest ih =>
    rw [List.cons_append, performAll, performAll, proceed_proceed]
    simp only [ih]

def carryOut (s : Storage σ) (x : σ) (plan : Plan) : σ × Option Stop :=
  proceed (s.performAll (if plan.restarts then s.empty else x) plan.tasks) fun x =>
    (x, plan.failure.map .failed)

def call (s : Storage σ) (x : σ) (c : Call) : σ × Option Stop := s.carryOut x c.plan

theorem carryOut_singleton (s : Storage σ) (x : σ) (task : Task) :
    s.carryOut x ⟨false, [task], none⟩ = s.perform x task :=
  (proceed_done _).trans (proceed_done _)

/-- What comes before the references is done first, whether they can be analysed or not. -/
theorem carryOut_withReferences (s : Storage σ) (restarts : Bool) (tasks : List Task)
    (analyze : FrameSource) (m : Method) (x : σ) :
    s.carryOut x (.withReferences restarts tasks analyze m) =
      proceed (s.performAll (if restarts then s.empty else x) tasks) fun x =>
        s.call x (.references analyze m) := by
  show _ = proceed _ fun x => s.carryOut x (.withReferences false [] analyze m)
  unfold Plan.withReferences
  cases analyze m with
  | error e => rfl
  | ok analysis =>
    simp only [List.nil_append, carryOut_singleton]
    exact (proceed_done _).trans (s.performAll_concat _ tasks _)

theorem call_resolve (s : Storage σ) (x : σ) (analyze : FrameSource) (m : Method) :
    s.call x (.resolve analyze m) =
      proceed (s.perform s.empty (receiverTask m.header)) fun x =>
        proceed (s.perform x (parametersTask m.header.parameters)) fun x =>
          proceed (s.perform x (codeTask m.code)) fun x => s.call x (.references analyze m) := by
  refine (s.carryOut_withReferences true _ analyze m x).trans ?_
  simp only [performAll, proceed_done, proceed_proceed, if_true]

def ofCalls (s : Storage σ) (calls : List Call) : σ :=
  calls.foldl (fun x c => (s.call x c).1) s.empty

def Related (R : σ → τ → Prop) (S : Stop → Stop → Prop) (a : σ × Option Stop)
    (b : τ × Option Stop) : Prop :=
  R a.1 b.1 ∧ Option.Rel S a.2 b.2

/-- One storage does what another one does: visits to related ones have related results. -/
structure Simulates (s : Storage σ) (t : Storage τ) (R : σ → τ → Prop) (S : Stop → Stop → Prop) :
    Prop where
  empty : R s.empty t.empty
  stage : ∀ {x y}, R x y → s.stage x = t.stage y
  withStage : ∀ {x y} (stage : Stage), R x y → R (s.withStage x stage) (t.withStage y stage)
  visit : ∀ {x y} (v : Visit), R x y → Related R S (s.visit x v) (t.visit y v)
  failed : ∀ e, S (.failed e) (.failed e)
  outOfOrder : ∀ pass, S (.outOfOrder pass) (.outOfOrder pass)

variable {R : σ → τ → Prop} {S : Stop → Stop → Prop} {s : Storage σ} {t : Storage τ}

theorem Related.stop_eq {a : σ × Option Stop} {b : τ × Option Stop} (h : Related R Eq a b) :
    a.2 = b.2 := by
  obtain ⟨x, stop⟩ := a
  obtain ⟨y, stop'⟩ := b
  obtain ⟨-, hstops⟩ := h
  cases hstops with
  | none => rfl
  | some heq => exact congrArg some heq

theorem Related.proceed {a : σ × Option Stop} {b : τ × Option Stop} {next : σ → σ × Option Stop}
    {next' : τ → τ × Option Stop} (h : Related R S a b)
    (hnext : ∀ {x y}, R x y → Related R S (next x) (next' y)) :
    Related R S (proceed a next) (Storage.proceed b next') := by
  obtain ⟨x, stop⟩ := a
  obtain ⟨y, stop'⟩ := b
  obtain ⟨hkept, hstops⟩ := h
  cases hstops with
  | none => exact hnext hkept
  | some hstop => exact ⟨hkept, .some hstop⟩

namespace Simulates

variable (h : s.Simulates t R S) {x : σ} {y : τ}

include h

theorem visitAll (hxy : R x y) (visits : List Visit) :
    Related R S (s.visitAll x visits) (t.visitAll y visits) := by
  induction visits generalizing x y with
  | nil => exact ⟨hxy, .none⟩
  | cons v rest ih => exact (h.visit v hxy).proceed ih

theorem perform (hxy : R x y) (task : Task) : Related R S (s.perform x task) (t.perform y task) := by
  unfold Storage.perform
  cases task.pass with
  | none => exact h.visitAll hxy task.visits
  | some pass =>
    dsimp only
    rw [h.stage hxy]
    split
    · exact ⟨hxy, .some (h.outOfOrder pass)⟩
    · exact (h.visitAll hxy task.visits).proceed fun hxy => ⟨h.withStage pass.after hxy, .none⟩

theorem performAll (hxy : R x y) (tasks : List Task) :
    Related R S (s.performAll x tasks) (t.performAll y tasks) := by
  induction tasks generalizing x y with
  | nil => exact ⟨hxy, .none⟩
  | cons task rest ih => exact (h.perform hxy task).proceed ih

/-- What every visit keeps, every call keeps. -/
theorem call (hxy : R x y) (c : Call) : Related R S (s.call x c) (t.call y c) := by
  have hstart : R (if c.plan.restarts then s.empty else x) (if c.plan.restarts then t.empty else y) := by
    split
    · exact h.empty
    · exact hxy
  refine (h.performAll hstart c.plan.tasks).proceed fun hxy => ⟨hxy, ?_⟩
  cases c.plan.failure with
  | none => exact .none
  | some e => exact .some (h.failed e)

theorem ofCalls (calls : List Call) : R (s.ofCalls calls) (t.ofCalls calls) := by
  have hfold : ∀ (calls : List Call) {x : σ} {y : τ}, R x y →
      R (calls.foldl (fun x c => (s.call x c).1) x) (calls.foldl (fun y c => (t.call y c).1) y) := by
    intro calls
    induction calls with
    | nil => exact fun hxy => hxy
    | cons c rest ih => exact fun hxy => ih (h.call hxy c).1
  exact hfold calls h.empty

end Simulates

end Storage

namespace Table

/-- The use that a visit leads to. A variable that has no slot yet gets the next free one. -/
def choose (t : Table) : Visit → Except CompileError Use
  | .use u => .ok u
  | .parameter p index => .ok ⟨t.slots.next, p.name, p.type, .parameter index, false⟩
  | .access index ref =>
    match t.named? ref.name with
    | none => .ok ⟨t.slots.next, ref.name, ref.type, .instruction index, false⟩
    | some r =>
      match ref.access.recordedType (some r.last.type) ref.type with
      | .ok type => .ok ⟨r.slot, ref.name, type, .instruction index, false⟩
      | .error conflict => .error ⟨.instruction index, .typeConflict r.slot ref.name conflict⟩
  | .reference index name type => .ok ⟨t.slotFor name, name, type, .instruction index, true⟩

/-- A table with the uses that it has accepted since it was empty. -/
def logging : Storage (Table × List Use) where
  empty := (.empty, [])
  stage x := x.1.stage
  withStage x stage := ({ x.1 with stage }, x.2)
  visit x v :=
    match x.1.choose v with
    | .error e => (x, some (.failed e))
    | .ok u =>
      match x.1.use u with
      | .error e => (x, some (.failed e))
      | .ok t => ((t, x.2 ++ [u]), none)

/-- The uses that calls have recorded since the table was last empty. -/
def recordedUses (calls : List Call) : List Use := (logging.ofCalls calls).2

def storage : Storage Table where
  empty := .empty
  stage := Table.stage
  withStage t stage := { t with stage }
  visit t v :=
    match (t.choose v).bind t.use with
    | .error e => (t, some (.failed e))
    | .ok t' => (t', none)

def stopped (result : Table × Outcome) : Table × Option Stop := (result.1, result.2.stop?)

theorem visitAll_storage {α : Type} {step : Table → α → Except CompileError Table}
    {visit : α → Visit} (hstep : ∀ t item, step t item = (t.choose (visit item)).bind t.use)
    (t : Table) (items : List α) : storage.visitAll t (items.map visit) =
      ((t.steps step items).1, (t.steps step items).2.map .failed) := by
  induction items generalizing t with
  | nil => rfl
  | cons item rest ih =>
    rw [List.map_cons, Storage.visitAll, steps, hstep, storage]
    dsimp only
    cases (t.choose (visit item)).bind t.use with
    | error e => rfl
    | ok t' => exact ih t'

theorem perform_storage {α : Type} {step : Table → α → Except CompileError Table}
    {visit : α → Visit} (hstep : ∀ t item, step t item = (t.choose (visit item)).bind t.use)
    (pass : Pass) (t : Table) (items : List α) :
    storage.perform t ⟨some pass, items.map visit⟩ = stopped (t.runPass pass step items) := by
  rw [Storage.perform, runPass]
  dsimp only
  rw [visitAll_storage hstep, show storage.stage t = t.stage from rfl]
  split
  · rfl
  · cases t.steps step items with
    | mk t' failure => cases failure <;> rfl

theorem perform_receiverTask (t : Table) (h : Header) :
    storage.perform t (receiverTask h) = stopped (t.bindReceiver h) :=
  perform_storage (fun _ _ => rfl) .receiver t _

theorem perform_parametersTask (t : Table) (ps : List Parameter) :
    storage.perform t (parametersTask ps) = stopped (t.bindParameters ps) :=
  perform_storage (fun _ _ => rfl) .parameters t _

theorem perform_codeTask (t : Table) (code : List Instruction) :
    storage.perform t (codeTask code) = stopped (t.resolveCode code) := by
  refine perform_storage (fun t item => ?_) .code t _
  rw [resolveAccess, choose]
  cases t.named? item.2.name with
  | none => rfl
  | some r =>
    dsimp only
    cases item.2.access.recordedType (some r.last.type) item.2.type <;> rfl

theorem perform_refineTask (t : Table) (code : List Instruction) (analysis : Analysis) :
    storage.perform t (refineTask code analysis) = stopped (t.refine code analysis) :=
  perform_storage (fun _ _ => rfl) .references t _

theorem stopped_andThen (result : Table × Outcome) (next : Table → Table × Outcome) :
    stopped (andThen result next) =
      Storage.proceed (stopped result) fun t => stopped (next t) := by
  obtain ⟨t, outcome⟩ := result
  cases outcome <;> rfl

theorem call_references (t : Table) (analyze : FrameSource) (m : Method) :
    storage.call t (.references analyze m) = stopped (t.resolveReferences analyze m) := by
  show storage.carryOut t (.withReferences false [] analyze m) = _
  unfold Plan.withReferences resolveReferences
  cases analyze m with
  | error e => rfl
  | ok analysis => exact (storage.carryOut_singleton t _).trans (perform_refineTask t m.code analysis)

theorem call_storage (t : Table) (c : Call) : storage.call t c = stopped (t.call c) := by
  cases c with
  | receiver h => exact (storage.carryOut_singleton t _).trans (perform_receiverTask t h)
  | parameters ps => exact (storage.carryOut_singleton t _).trans (perform_parametersTask t ps)
  | code code => exact (storage.carryOut_singleton t _).trans (perform_codeTask t code)
  | references analyze m => exact call_references t analyze m
  | refine code analysis =>
    exact (storage.carryOut_singleton t _).trans (perform_refineTask t code analysis)
  | resolve analyze m =>
    rw [storage.call_resolve, call, resolve, stopped_andThen, stopped_andThen, stopped_andThen,
      ← perform_receiverTask]
    simp only [← perform_parametersTask, ← perform_codeTask, ← call_references,
      Storage.proceed_proceed]
    rfl
  | use slot name type source =>
    refine (storage.carryOut_singleton t _).trans ?_
    rw [Storage.perform, call]
    refine (Storage.proceed_done _).trans ?_
    dsimp only [storage, choose, Except.bind]
    cases t.use ⟨slot, name, type, source, false⟩ <;> rfl
  | clear => rfl

theorem ofCalls_storage (calls : List Call) : storage.ofCalls calls = ofCalls calls := by
  have hcall : (fun (t : Table) c => (storage.call t c).1) = fun t c => (t.call c).1 := by
    funext t c
    rw [call_storage, stopped]
  rw [Storage.ofCalls, hcall]
  rfl

theorem logging_simulates :
    logging.Simulates storage (fun x t => x.1 = t ∧ Built x.2 t) Eq where
  empty := ⟨rfl, .empty⟩
  stage h := congrArg Table.stage h.1
  withStage stage h := ⟨by rw [← h.1]; rfl, h.2.stage stage⟩
  visit v h := by
    obtain ⟨rfl, hbuilt⟩ := h
    rename_i x
    dsimp only [logging, storage]
    cases x.1.choose v with
    | error e => exact ⟨⟨rfl, hbuilt⟩, .some rfl⟩
    | ok u =>
      dsimp only [Except.bind]
      cases hu : x.1.use u with
      | error e => exact ⟨⟨rfl, hbuilt⟩, .some rfl⟩
      | ok t => exact ⟨⟨rfl, hbuilt.use hu⟩, .none⟩
  failed _ := rfl
  outOfOrder _ := rfl

theorem built_ofCalls (calls : List Call) : Built (recordedUses calls) (ofCalls calls) := by
  rw [← ofCalls_storage]
  exact (logging_simulates.ofCalls calls).2

end Table

end MethodLocals
