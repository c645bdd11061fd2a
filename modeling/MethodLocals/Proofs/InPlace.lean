import MethodLocals.Proofs.ArenaTable

/-! An arena that is changed in place. What has been changed when a visit is stopped stays changed, so
it is the order of the steps that makes a visit change everything it should or nothing. -/

namespace MethodLocals

namespace Arena

/-- Steps on an arena. What was changed before they are stopped stays changed. -/
abbrev Change (α : Type) := ExceptT Stop (StateM Arena) α

namespace Change

variable {α β : Type}

def on (steps : Change α) (a : Arena) : Except Stop α × Arena := (ExceptT.run steps).run a

@[simp] theorem on_pure (value : α) (a : Arena) : on (pure value) a = (.ok value, a) := rfl

@[simp] theorem on_throw (stop : Stop) (a : Arena) : on (throw stop : Change α) a = (.error stop, a) :=
  rfl

@[simp] theorem on_get (a : Arena) : on get a = (.ok a, a) := rfl

@[simp] theorem on_modify (f : Arena → Arena) (a : Arena) : on (modify f) a = (.ok (), f a) := rfl

@[simp] theorem on_bind (steps : Change α) (next : α → Change β) (a : Arena) :
    on (steps >>= next) a = match on steps a with
      | (.ok value, a') => on (next value) a'
      | (.error stop, a') => (.error stop, a') := by
  show (ExceptT.run steps >>= ExceptT.bindCont next).run a = _
  rw [StateT.run_bind, on]
  cases (ExceptT.run steps).run a with
  | mk result a' => cases result <;> rfl

end Change

def reserveInPlace (u : Use) : Change Unit := do
  match (← get).slots.conflict u.slot u.type.width with
  | some conflict => throw (.failed ⟨u.source, .allocation conflict⟩)
  | none =>
    if u.type.width = 2 then
      modify fun a => { a with slots := { a.slots with wide := a.slots.wide.insert u.slot } }
    if (← get).slots.high ≤ u.slot then
      modify fun a => { a with slots := { a.slots with high := u.slot } }
      modify fun a =>
        { a with slots := { a.slots with next := max a.slots.next (u.slot + u.type.width) } }

def locateInPlace (u : Use) : Change Nat := do
  match (← get).bySlot.lookup u.slot with
  | some index => return index
  | none =>
    modify fun a => { a with records := a.records ++ [.fresh u.slot u.name] }
    let index := (← get).records.length - 1
    modify fun a => { a with bySlot := (u.slot, index) :: a.bySlot }
    return index

def touchInPlace (index : Nat) (u : Use) : Change Unit := do
  match (← get).records[index]? with
  | none => throw (.noRecord index)
  | some r => modify fun a => { a with records := a.records.set index (r.touch u) }

/-- Commits the slot of a use at once, whichever way slots are committed. -/
def reserveWith (allocate : Allocator) (u : Use) : Change Unit := do
  match allocate (← get).slots u.slot u.type.width with
  | .error refusal => throw (refusal.stop u.source)
  | .ok slots => modify fun a => { a with slots }

def commitInPlace (reserve : Use → Change Unit) (u : Use) : Change Unit := do
  reserve u
  let index ← locateInPlace u
  touchInPlace index u
  modify fun a => { a with byName := Table.bind u.name index a.byName }

def visitInPlace (reserve : Use → Change Unit) (v : Visit) : Change Unit := do
  match (← get).choose v with
  | .error stop => throw stop
  | .ok u => commitInPlace reserve u

/-- An arena that is changed in place, with the steps that commit a slot left open. -/
def inPlaceWith (reserve : Use → Change Unit) : Storage Arena where
  empty := .empty
  stage := Arena.stage
  withStage a stage := { a with stage }
  visit a v :=
    match (visitInPlace reserve v).on a with
    | (.ok _, a') => (a', none)
    | (.error stop, a') => (a', some stop)

def inPlace : Storage Arena := inPlaceWith reserveInPlace

/-- The steps commit what the allocator says, and change nothing where it refuses. -/
def Reserves (allocate : Allocator) (reserve : Use → Change Unit) : Prop :=
  ∀ (a : Arena) (u : Use), (reserve u).on a = match allocate a.slots u.slot u.type.width with
    | .error refusal => (.error (refusal.stop u.source), a)
    | .ok slots => (.ok (), { a with slots })

variable {a : Arena} {u : Use} {allocate : Allocator} {reserve : Use → Change Unit}

theorem reserves_reserveWith (allocate : Allocator) : Reserves allocate (reserveWith allocate) := by
  intro a u
  unfold reserveWith
  simp only [Change.on_bind, Change.on_get]
  cases allocate a.slots u.slot u.type.width <;> rfl

/-- A slot is checked before anything is changed. -/
theorem on_reserveInPlace (a : Arena) (u : Use) :
    (reserveInPlace u).on a = match a.slots.reserve u.slot u.type.width with
      | .error conflict => (.error (.failed ⟨u.source, .allocation conflict⟩), a)
      | .ok slots => (.ok (), { a with slots }) := by
  unfold reserveInPlace SlotSpace.reserve
  simp only [Change.on_bind, Change.on_get]
  cases a.slots.conflict u.slot u.type.width with
  | some conflict => simp
  | none =>
    by_cases hwide : u.type.width = 2 <;> by_cases hhigh : a.slots.high ≤ u.slot <;>
      simp [SlotSpace.commit, hwide, hhigh]

theorem reserves_reserveInPlace : Reserves .unbounded reserveInPlace := by
  intro a u
  rw [on_reserveInPlace, Allocator.unbounded]
  cases a.slots.reserve u.slot u.type.width <;> rfl

theorem on_locateInPlace (a : Arena) (u : Use) :
    (locateInPlace u).on a = (.ok (a.locate u).2, (a.locate u).1) := by
  unfold locateInPlace locate
  simp only [Change.on_bind, Change.on_get]
  cases a.bySlot.lookup u.slot with
  | some index => rfl
  | none =>
    simp only [Change.on_bind, Change.on_modify, Change.on_get, Change.on_pure, List.length_append,
      List.length_singleton, Nat.add_sub_cancel]

/-- Only a missing record is noticed too late: any other commit changes everything or nothing. -/
theorem Reserves.on_commitInPlace (h : Reserves allocate reserve)
    (hstop : ∀ stop, a.commit allocate u = .error stop → ¬ stop.IsBrokenLink) :
    (commitInPlace reserve u).on a = match a.commit allocate u with
      | .error stop => (.error stop, a)
      | .ok a' => (.ok (), a') := by
  unfold commitInPlace touchInPlace
  unfold commit at hstop ⊢
  simp only [Change.on_bind, Change.on_get, h a u]
  cases hslots : allocate a.slots u.slot u.type.width with
  | error refusal => rfl
  | ok slots =>
    simp only [hslots, on_locateInPlace] at hstop ⊢
    cases hr : ({ a with slots }.locate u).1.records[({ a with slots }.locate u).2]? with
    | none =>
      rw [hr] at hstop
      exact absurd trivial (hstop _ rfl)
    | some r => simp

theorem Reserves.visit_inPlaceWith (h : Reserves allocate reserve) (hlinked : a.Linked) (v : Visit) :
    (inPlaceWith reserve).visit a v = (storage allocate).visit a v := by
  dsimp only [inPlaceWith, storage, visitInPlace]
  simp only [Change.on_bind, Change.on_get]
  cases a.choose v with
  | error stop => rfl
  | ok u =>
    have hstop : ∀ stop, a.commit allocate u = .error stop → ¬ stop.IsBrokenLink := by
      intro stop hu
      apply (hlinked.visit allocate (.use u)).2
      simp [storage, choose, Except.bind, hu]
    simp only [Except.bind, h.on_commitInPlace hstop]
    cases a.commit allocate u <;> rfl

/-- On linked arenas it makes no difference whether a visit changes them in place. -/
theorem Reserves.simulates (h : Reserves allocate reserve) :
    (inPlaceWith reserve).Simulates (storage allocate) (fun x y => x = y ∧ x.Linked) Eq where
  empty := ⟨rfl, linked_empty⟩
  stage h := congrArg Arena.stage h.1
  withStage stage h := ⟨by rw [h.1]; rfl, h.2.withStage stage⟩
  visit v hxy := by
    obtain ⟨rfl, hlinked⟩ := hxy
    rw [Storage.Related, h.visit_inPlaceWith hlinked]
    refine ⟨⟨rfl, (hlinked.visit allocate v).1⟩, ?_⟩
    cases ((storage allocate).visit _ v).2 with
    | none => exact .none
    | some stop => exact .some rfl
  failed _ := rfl
  outOfOrder _ := rfl

theorem Reserves.call_inPlaceWith (h : Reserves allocate reserve) (hlinked : a.Linked) (c : Call) :
    (inPlaceWith reserve).call a c = (storage allocate).call a c := by
  have hcall := h.simulates.call ⟨rfl, hlinked⟩ c
  exact Prod.ext hcall.1.1 hcall.stop_eq

end Arena

end MethodLocals
