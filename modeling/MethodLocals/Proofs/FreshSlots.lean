import Mathlib.Data.List.Chain
import MethodLocals.Proofs.History

/-! Slots while the passes run. Each step of a pass leads from one table to the next: a name that is
bound for the first time gets the slot after everything committed, code and references move no name,
and records stay in the order of their slots. -/

namespace MethodLocals

inductive PassCall where
  | receiver (h : Header)
  | parameters (parameters : List Parameter)
  | code (code : List Instruction)
  | references (code : List Instruction) (analysis : Analysis)

theorem Pass.after_ne_empty (pass : Pass) : pass.after ≠ .empty := by
  cases pass <;> simp [Pass.after]

theorem Record.le_of_slot_lt {a b : Record} (h : a.slot < b.slot) : a.le b = true := by
  have hlt : Ord.compare a.slot b.slot = .lt := Nat.compare_eq_lt.2 h
  simp [Record.le, Record.compare, hlt]

theorem Chosen.of_concat {us : List Use} {u : Use} (h : Chosen (us ++ [u])) :
    Chosen us ∧ u.Placed us := by
  refine ⟨h.of_append, ?_⟩
  have hplaced := h us.length u List.getElem?_concat_length
  rwa [List.take_left] at hplaced

namespace Table

def callPass (t : Table) : PassCall → Table × Outcome
  | .receiver h => t.bindReceiver h
  | .parameters parameters => t.bindParameters parameters
  | .code code => t.resolveCode code
  | .references code analysis => t.refine code analysis

/-- The tables on the way through some items: one after each step up to the first that fails, and one
for the end of the pass. Each comes with the pass that leads to it. -/
def stepped {α : Type} (pass : Pass) (step : Table → α → Except CompileError Table) (t : Table) :
    List α → List (Pass × Table)
  | [] => [(pass, { t with stage := pass.after })]
  | item :: rest =>
    match step t item with
    | .error _ => []
    | .ok next => (pass, next) :: next.stepped pass step rest

/-- The tables that a pass leads to. A pass out of order leads nowhere. -/
def passed {α : Type} (pass : Pass) (step : Table → α → Except CompileError Table) (t : Table)
    (items : List α) : List (Pass × Table) :=
  if t.stage ≠ pass.before then [] else t.stepped pass step items

def called (t : Table) : PassCall → List (Pass × Table)
  | .receiver h => t.passed .receiver use (receiverUses h)
  | .parameters parameters => t.passed .parameters bindParameter parameters.zipIdx
  | .code code => t.passed .code resolveAccess (variableRefs code)
  | .references code analysis =>
    t.passed .references (refineAccess analysis) (referenceAccesses code)

/-- The tables that calls one after the other lead to. Later calls go on from where a failed one
stopped. -/
def course (t : Table) : List PassCall → List (Pass × Table)
  | [] => []
  | c :: rest => t.called c ++ (t.callPass c).1.course rest

def ofPasses (calls : List PassCall) : Table := calls.foldl (fun t c => (t.callPass c).1) empty

/-- The names have slots of their own, and the records stand in the order of their slots. -/
structure Orderly (t : Table) : Prop where
  distinct : ∀ name other slot, t.slotOf? name = some slot → t.slotOf? other = some slot →
    name = other
  increasing : t.records.Pairwise (·.slot < ·.slot)
  sorted_eq : t.sorted = t.records

def BindsNext (t t' : Table) : Prop :=
  ∀ name slot, t.slotOf? name = none → t'.slotOf? name = some slot → slot = t.maxLocals

def Keeps (t t' : Table) : Prop :=
  ∀ name slot, t.slotOf? name = some slot → t'.slotOf? name = some slot

structure MovesTo (t : Table) (pass : Pass) (t' : Table) : Prop where
  bindsNext : t.BindsNext t'
  keeps : pass = .code ∨ pass = .references → t.Keeps t'

variable {us : List Use} {u : Use} {t t' : Table} {pass : Pass}

theorem stage_of_resolveAccess {item : Nat × VariableRef} (h : t.resolveAccess item = .ok t') :
    t'.stage = t.stage := by
  rw [resolveAccess] at h
  split at h
  · exact stage_of_use h
  · split at h
    · exact stage_of_use h
    · cases h

theorem stage_steps {α : Type} {step : Table → α → Except CompileError Table}
    (hstep : ∀ {t t' item}, step t item = .ok t' → t'.stage = t.stage) (t : Table) (items : List α) :
    (t.steps step items).1.stage = t.stage := by
  induction items generalizing t with
  | nil => rfl
  | cons item rest ih =>
    rw [steps]
    cases hs : step t item with
    | error e => rfl
    | ok next => exact (ih next).trans (hstep hs)

theorem stage_runPass {α : Type} {step : Table → α → Except CompileError Table}
    (hstep : ∀ {t t' item}, step t item = .ok t' → t'.stage = t.stage) (pass : Pass) (t : Table)
    (items : List α) : (t.runPass pass step items).1.stage = t.stage ∨
      (t.runPass pass step items).1.stage = pass.after := by
  unfold runPass
  split
  · exact .inl rfl
  · dsimp only
    split
    · exact .inl (stage_steps hstep t items)
    · exact .inr rfl

theorem stage_bindReceiver_empty (h : Header) :
    (empty.bindReceiver h).1.stage = .receiverBound := by
  unfold bindReceiver receiverUses
  cases h.isStatic <;> rfl

/-- Only the receiver pass leaves the beginning. -/
theorem eq_empty_of_runPass {α : Type} {step : Table → α → Except CompileError Table}
    (hstep : ∀ {t t' item}, step t item = .ok t' → t'.stage = t.stage) (hpass : pass ≠ .receiver)
    (hstart : t.stage = .empty → t = empty) {items : List α}
    (hstage : (t.runPass pass step items).1.stage = .empty) :
    (t.runPass pass step items).1 = empty := by
  rcases stage_runPass hstep pass t items with hkept | hmoved
  · obtain rfl := hstart (hkept.symm.trans hstage)
    cases pass with
    | receiver => exact absurd rfl hpass
    | parameters | code | references => rfl
  · exact absurd (hmoved.symm.trans hstage) pass.after_ne_empty

theorem eq_empty_of_callPass {c : PassCall} (hstart : t.stage = .empty → t = empty)
    (hstage : (t.callPass c).1.stage = .empty) : (t.callPass c).1 = empty := by
  cases c with
  | receiver h =>
    by_cases hempty : t.stage = .empty
    · obtain rfl := hstart hempty
      rw [callPass, stage_bindReceiver_empty] at hstage
      cases hstage
    · have hkept : t.bindReceiver h = (t, .outOfOrder .receiver) := if_pos hempty
      rw [callPass, hkept] at hstage
      exact absurd hstage hempty
  | parameters parameters => exact eq_empty_of_runPass stage_of_use (by simp) hstart hstage
  | code code => exact eq_empty_of_runPass stage_of_resolveAccess (by simp) hstart hstage
  | references code analysis => exact eq_empty_of_runPass stage_of_use (by simp) hstart hstage

/-- A use opens a slot after all others or returns to one that has a record. -/
theorem Built.pairwise_slot_lt (h : Built us t) (hchosen : Chosen us) :
    (t.records.map Record.slot).Pairwise (· < ·) := by
  induction h with
  | empty => exact .nil
  | @use us t t' u ht hu ih =>
    obtain ⟨hus, hplaced⟩ := Chosen.of_concat hchosen
    obtain ⟨-, -, rfl⟩ := use_eq_ok_iff.1 hu
    have hslots : ∀ slot, slot ∈ t.records.map Record.slot ↔ ∃ v ∈ us, v.slot = slot := by
      intro slot
      rw [ht.slots_eq, List.mem_eraseDups, List.mem_map]
    rw [slots_place]
    split
    · exact ih hus
    · rename_i hnew
      refine List.pairwise_append.2 ⟨ih hus, List.pairwise_singleton _ _, ?_⟩
      intro slot hslot other hother
      obtain ⟨v, hv, rfl⟩ := (hslots slot).1 hslot
      rw [List.mem_singleton.1 hother]
      cases hplaced with
      | fresh _ hle _ =>
        have hwidth := v.type.width_eq_one_or_two
        have hv := hle v hv
        omega
      | again _ hfind hsame =>
        exact absurd ((hslots _).2 ⟨_, List.mem_reverse.1 (List.mem_of_find?_eq_some hfind), hsame⟩)
          hnew
  | stage _ _ ih => exact ih hchosen

theorem Built.slotOf?_concat (h : Built us t) (h' : Built (us ++ [u]) t') (name : String) :
    t'.slotOf? name = if u.name = name then some u.slot else t.slotOf? name := by
  rw [h'.slotOf?_eq, h.slotOf?_eq, List.reverse_append, List.reverse_singleton,
    List.singleton_append, List.find?_cons]
  by_cases hname : u.name = name <;> simp [hname]

theorem movesTo_withStage (t : Table) (pass : Pass) (stage : Stage) :
    t.MovesTo pass { t with stage } where
  bindsNext name slot hnone hsome := by
    rw [show slotOf? { t with stage } name = t.slotOf? name from rfl, hnone] at hsome
    cases hsome
  keeps _ _ _ hslot := hslot

namespace Laid

theorem orderly (h : Laid us t) : t.Orderly := by
  have hincreasing : t.records.Pairwise (·.slot < ·.slot) :=
    List.pairwise_map.1 (h.built.pairwise_slot_lt h.chosen)
  refine ⟨fun name other slot hname hother => ?_, hincreasing, ?_⟩
  · obtain ⟨i, u, hi, rfl, hu, -⟩ := h.exists_last_use hname
    obtain ⟨j, v, hj, rfl, hv, -⟩ := h.exists_last_use hother
    exact h.chosen.name_eq_of_slot_eq (List.mem_of_getElem? hi) (List.mem_of_getElem? hj)
      (hu.trans hv.symm)
  · exact List.mergeSort_of_pairwise (hincreasing.imp Record.le_of_slot_lt)

/-- The slot that everything before lies under is the next free one. -/
theorem next_eq (h : Laid us t) {slot : Nat} (hle : ∀ v ∈ us, v.slot + v.type.width ≤ slot)
    (hmem : slot ≠ 0 → ∃ v ∈ us, v.slot + v.type.width = slot) : slot = t.slots.next := by
  have haccounts := h.built.accounts
  apply Nat.le_antisymm
  · by_cases hzero : slot = 0
    · omega
    · obtain ⟨v, hv, rfl⟩ := hmem hzero
      exact haccounts.le_next v.commit (List.mem_map_of_mem hv)
  · by_cases hzero : t.slots.next = 0
    · omega
    · obtain ⟨c, hc, hnext⟩ := haccounts.next_mem hzero
      obtain ⟨v, hv, rfl⟩ := List.mem_map.1 hc
      exact hnext ▸ hle v hv

theorem bindsNext (h : Laid us t) (h' : Laid (us ++ [u]) t') : t.BindsNext t' := by
  intro name slot hnone hsome
  rw [h.built.slotOf?_concat h'.built] at hsome
  split at hsome
  · rename_i hname
    obtain rfl := Option.some.inj hsome
    cases (Chosen.of_concat h'.chosen).2 with
    | fresh _ hle hmem => exact h.next_eq hle hmem
    | again _ hfind _ =>
      rw [h.built.slotOf?_eq, ← hname, hfind] at hnone
      cases hnone
  · rw [hnone] at hsome
    cases hsome

theorem keeps (h : Laid us t) (h' : Laid (us ++ [u]) t') (hbinds : u.occurrence.binds = false) :
    t.Keeps t' := by
  intro name slot hsome
  rw [h.built.slotOf?_concat h'.built]
  split
  · rename_i hname
    rw [h.built.slotOf?_eq, ← hname] at hsome
    obtain ⟨v, hv, rfl⟩ := Option.map_eq_some_iff.1 hsome
    cases (Chosen.of_concat h'.chosen).2 with
    | fresh hopens _ _ =>
      have hvname : v.name = u.name := by simpa using List.find?_some hv
      have hmem := List.mem_reverse.1 (List.mem_of_find?_eq_some hv)
      rcases hopens with hopens | hnew
      · rw [hbinds] at hopens
        cases hopens
      · exact absurd hvname (hnew v.occurrence (List.mem_map_of_mem hmem))
    | again _ hfind hsame =>
      obtain rfl := Option.some.inj (hfind.symm.trans hv)
      exact congrArg some hsame.symm
  · exact hsome

theorem movesTo (h : Laid us t) (h' : Laid (us ++ [u]) t')
    (hbinds : pass = .code ∨ pass = .references → u.occurrence.binds = false) :
    t.MovesTo pass t' where
  bindsNext := h.bindsNext h'
  keeps hpass := h.keeps h' (hbinds hpass)

end Laid

def Advances (a b : Pass × Table) : Prop := a.2.MovesTo b.1 b.2 ∧ ∃ us, Laid us b.2

section Steps

variable {α : Type} {step : Table → α → Except CompileError Table}

/-- Every step of the pass makes a use, and over code and references it binds no name anew. -/
def Lays (pass : Pass) (step : Table → α → Except CompileError Table) : Prop :=
  ∀ us t t' item, Laid us t → step t item = .ok t' → ∃ u,
    (pass = .code ∨ pass = .references → u.occurrence.binds = false) ∧ Laid (us ++ [u]) t'

theorem bindParameter_lays : Lays .parameters bindParameter := by
  intro us t t' item h hs
  obtain ⟨u, -, hlaid⟩ := h.bindParameter hs
  exact ⟨u, by simp, hlaid⟩

theorem resolveAccess_lays : Lays .code resolveAccess := by
  intro us t t' item h hs
  obtain ⟨u, hu, hlaid⟩ := h.resolveAccess hs
  exact ⟨u, fun _ => congrArg (·.occurrence.binds) hu, hlaid⟩

theorem refineAccess_lays (analysis : Analysis) : Lays .references (refineAccess analysis) := by
  intro us t t' item h hs
  obtain ⟨u, hu, hlaid⟩ := h.refineAccess hs
  exact ⟨u, fun _ => congrArg (·.occurrence.binds) hu, hlaid⟩

theorem Laid.isChain_stepped (hstep : Lays pass step) (h : Laid us t) (before : Pass)
    (items : List α) :
    ((before, t) :: t.stepped pass step items).IsChain Advances := by
  induction items generalizing us t before with
  | nil =>
    exact List.isChain_cons_cons.2
      ⟨⟨movesTo_withStage t pass pass.after, us, h.withStage _⟩, List.isChain_singleton _⟩
  | cons item rest ih =>
    rw [stepped]
    cases hs : step t item with
    | error e => exact List.isChain_singleton _
    | ok next =>
      obtain ⟨u, hbinds, hnext⟩ := hstep us t next item h hs
      exact List.isChain_cons_cons.2 ⟨⟨h.movesTo hnext hbinds, _, hnext⟩, ih hnext pass⟩

theorem getLast?_stepped (pass before : Pass) (t : Table) (items : List α) :
    ((before, t) :: t.stepped pass step items).getLast?.map Prod.snd =
      some (match t.steps step items with
        | (result, none) => { result with stage := pass.after }
        | (result, some _) => result) := by
  induction items generalizing t before with
  | nil => rfl
  | cons item rest ih =>
    rw [stepped, steps]
    cases hs : step t item with
    | error e => rfl
    | ok next =>
      dsimp only
      rw [List.getLast?_cons_cons]
      exact ih pass next

theorem getLast?_passed (pass before : Pass) (t : Table) (items : List α) :
    ((before, t) :: t.passed pass step items).getLast?.map Prod.snd =
      some (t.runPass pass step items).1 := by
  unfold passed runPass
  split
  · rfl
  · rw [getLast?_stepped]
    cases t.steps step items with
    | mk result failure => cases failure <;> rfl

theorem Laid.isChain_passed (hstep : Lays pass step) (h : Laid us t) (before : Pass)
    (items : List α) :
    ((before, t) :: t.passed pass step items).IsChain Advances := by
  unfold passed
  split
  · exact List.isChain_singleton _
  · exact h.isChain_stepped hstep before items

end Steps

/-- A call goes through tables that the steps of its pass lead to. -/
theorem Laid.isChain_called (h : Laid us t) (hstart : t.stage = .empty → t = empty)
    (before : Pass) (c : PassCall) : ((before, t) :: t.called c).IsChain Advances := by
  cases c with
  | receiver header =>
    rw [called, passed]
    split
    · exact List.isChain_singleton _
    · rename_i hempty
      obtain rfl := hstart (not_not.1 hempty)
      unfold receiverUses
      split
      · exact List.isChain_cons_cons.2
          ⟨⟨movesTo_withStage _ _ _, _, laid_empty.withStage _⟩, List.isChain_singleton _⟩
      · rw [stepped]
        cases hu : empty.use ⟨0, receiverName, .object header.owner, .definition, false⟩ with
        | error e => exact List.isChain_singleton _
        | ok next =>
          have hnext := laid_empty.use_next rfl (.inl rfl) hu
          exact List.isChain_cons_cons.2 ⟨⟨laid_empty.movesTo hnext (by simp), _, hnext⟩,
            List.isChain_cons_cons.2 ⟨⟨movesTo_withStage _ _ _, _, hnext.withStage _⟩,
              List.isChain_singleton _⟩⟩
  | parameters parameters => exact h.isChain_passed bindParameter_lays before _
  | code code => exact h.isChain_passed resolveAccess_lays before _
  | references code analysis => exact h.isChain_passed (refineAccess_lays analysis) before _

theorem getLast?_called (before : Pass) (t : Table) (c : PassCall) :
    ((before, t) :: t.called c).getLast?.map Prod.snd = some (t.callPass c).1 := by
  cases c with
  | receiver h => exact getLast?_passed .receiver before t _
  | parameters parameters => exact getLast?_passed .parameters before t _
  | code code => exact getLast?_passed .code before t _
  | references code analysis => exact getLast?_passed .references before t _

theorem Advances.exists_laid {a : Pass × Table} {rest : List (Pass × Table)}
    (h : (a :: rest).IsChain Advances) (hlaid : ∃ us, Laid us a.2) :
    ∀ b ∈ a :: rest, ∃ us, Laid us b.2 :=
  h.induction (fun b => ∃ us, Laid us b.2) _ (fun _ _ hadvances _ => hadvances.2) fun _ => hlaid

theorem isChain_course (hlaid : ∃ us, Laid us t) (hstart : t.stage = .empty → t = empty)
    (before : Pass) (calls : List PassCall) :
    ((before, t) :: t.course calls).IsChain Advances ∧
      ((before, t) :: t.course calls).getLast?.map Prod.snd =
        some (calls.foldl (fun t c => (t.callPass c).1) t) := by
  induction calls generalizing t before with
  | nil => exact ⟨List.isChain_singleton _, rfl⟩
  | cons c rest ih =>
    obtain ⟨us, h⟩ := hlaid
    have hcalled := h.isChain_called hstart before c
    obtain ⟨⟨pass, next⟩, hlast, hnext⟩ := Option.map_eq_some_iff.1 (getLast?_called before t c)
    obtain rfl : next = (t.callPass c).1 := hnext
    obtain ⟨hchain, hend⟩ := ih (Advances.exists_laid hcalled ⟨us, h⟩ _ (List.mem_of_getLast? hlast))
      (eq_empty_of_callPass hstart) pass
    rw [course, ← List.cons_append]
    refine ⟨List.isChain_append.2 ⟨hcalled, (List.isChain_cons.1 hchain).2, ?_⟩, ?_⟩
    · rintro a ha b hb
      obtain rfl := Option.some.inj (hlast.symm.trans ha)
      exact (List.isChain_cons.1 hchain).1 b hb
    · rw [List.getLast?_append, hlast, List.foldl_cons, ← hend, List.getLast?_cons]
      cases (course _ rest).getLast? <;> rfl

/-- Wherever the passes stand, names have slots of their own and records go up, and each step gives a
name that it binds for the first time the next free slot. Steps over code move no name. -/
theorem orderly_of_passes (calls : List PassCall) :
    ((.receiver, empty) :: empty.course calls).getLast?.map Prod.snd = some (ofPasses calls) ∧
      (∀ point ∈ (.receiver, empty) :: empty.course calls, point.2.Orderly) ∧
      ((.receiver, empty) :: empty.course calls).IsChain fun a b => a.2.MovesTo b.1 b.2 := by
  obtain ⟨hchain, hend⟩ := isChain_course ⟨_, laid_empty⟩ (fun _ => rfl) .receiver calls
  refine ⟨hend, fun point hpoint => ?_, hchain.imp fun _ _ hadvances => hadvances.1⟩
  obtain ⟨us, h⟩ := Advances.exists_laid hchain ⟨_, laid_empty⟩ point hpoint
  exact h.orderly

end Table

end MethodLocals
