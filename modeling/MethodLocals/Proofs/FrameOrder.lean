import MethodLocals.Proofs.FrameMerge
import Mathlib.Data.List.Forall2

/-! The order of frames. A frame absorbs the frames below it, and those are the ones that it has
taken in before: a merge only makes a frame larger. -/

namespace MethodLocals

namespace TypeOrder

variable {inheritance : Option Inheritance} (o : TypeOrder inheritance)

/-- The order of what variables hold. A variable that is not there lies below one that nothing is
known of, and below no other. -/
inductive LocalLe : Option Value → Option Value → Prop
  | absent : LocalLe none none
  | top : LocalLe none (some .top)
  | value {v w : Value} (h : o.ValueLe v w) : LocalLe (some v) (some w)

structure FrameLe (f g : Frame) : Prop where
  stack : List.Forall₂ o.ValueLe f.stack g.stack
  locals : ∀ name, o.LocalLe (f.get? name) (g.get? name)

structure KnownFrame (f : Frame) : Prop where
  stack : ∀ v ∈ f.stack, o.KnownValue v
  locals : ∀ name v, f.get? name = some v → o.KnownValue v

variable {o}

theorem LocalLe.trans {x y z : Option Value} (hxy : o.LocalLe x y) (hyz : o.LocalLe y z) :
    o.LocalLe x z := by
  cases hxy with
  | absent => exact hyz
  | top =>
    cases hyz with
    | value h =>
      cases h with
      | refl => exact .top
      | top => exact .top
      | ref hv => cases hv
  | value h =>
    cases hyz with
    | value h' => exact .value (h.trans h')

theorem FrameLe.trans {f g h : Frame} (hfg : o.FrameLe f g) (hgh : o.FrameLe g h) :
    o.FrameLe f h where
  stack := by
    obtain ⟨hfg, -⟩ := hfg
    obtain ⟨hgh, -⟩ := hgh
    generalize f.stack = vs at hfg ⊢
    generalize g.stack = ws at hfg hgh
    generalize h.stack = us at hgh ⊢
    induction hfg generalizing us with
    | nil =>
      cases hgh
      exact .nil
    | cons hv _ ih =>
      cases hgh with
      | cons hw hws => exact .cons (hv.trans hw) (ih _ hws)
  locals name := (hfg.locals name).trans (hgh.locals name)

theorem FrameLe.refl (o : TypeOrder inheritance) (f : Frame) : o.FrameLe f f where
  stack := List.forall₂_same.2 fun v _ => .refl v
  locals name := by
    cases f.get? name with
    | none => exact .absent
    | some v => exact .value (.refl v)

theorem le_of_mergeValue {v w u : Value} (hv : o.KnownValue v) (hw : o.KnownValue w)
    (h : v.merge inheritance w = .ok u) :
    o.KnownValue u ∧ o.ValueLe v u ∧ o.ValueLe w u := by
  obtain ⟨u', hmerge, hspec⟩ := exists_mergeValue hv hw
  rw [h] at hmerge
  obtain rfl := Except.ok.inj hmerge
  exact hspec

theorem le_of_stacksMerge {vs ws us : List Value} (h : StacksMerge inheritance vs ws us)
    (hvs : ∀ v ∈ vs, o.KnownValue v) (hws : ∀ w ∈ ws, o.KnownValue w) :
    (∀ u ∈ us, o.KnownValue u) ∧ List.Forall₂ o.ValueLe vs us ∧ List.Forall₂ o.ValueLe ws us := by
  induction h with
  | nil => exact ⟨hvs, .nil, .nil⟩
  | cons hv hs ih =>
    rw [List.forall_mem_cons] at hvs hws
    obtain ⟨hknown, hvu, hwu⟩ := le_of_mergeValue hvs.1 hws.1 hv
    obtain ⟨hrest, hvsu, hwsu⟩ := ih hvs.2 hws.2
    exact ⟨List.forall_mem_cons.2 ⟨hknown, hrest⟩, .cons hvu hvsu, .cons hwu hwsu⟩

theorem le_of_joins {x y z : Option Value} (h : Joins inheritance x y z)
    (hx : ∀ v, x = some v → o.KnownValue v) (hy : ∀ v, y = some v → o.KnownValue v) :
    (∀ v, z = some v → o.KnownValue v) ∧ o.LocalLe x z ∧ o.LocalLe y z := by
  have htop : ∀ v, some Value.top = some v → o.KnownValue v := by
    rintro v ⟨⟩ name hmem
    cases hmem
  cases h with
  | both h =>
    obtain ⟨hknown, hv, hw⟩ := le_of_mergeValue (hx _ rfl) (hy _ rfl) h
    refine ⟨?_, .value hv, .value hw⟩
    rintro u ⟨⟩
    exact hknown
  | left v => exact ⟨htop, .value (.top v), .top⟩
  | right w => exact ⟨htop, .top, .value (.top w)⟩
  | neither => exact ⟨hx, .absent, .absent⟩

theorem le_of_merges {f g r : Frame} (hf : o.KnownFrame f) (hg : o.KnownFrame g)
    (h : f.Merges inheritance g r) : o.KnownFrame r ∧ o.FrameLe f r ∧ o.FrameLe g r := by
  obtain ⟨hstack, hfr, hgr⟩ := le_of_stacksMerge h.stack hf.stack hg.stack
  have hjoin := fun name => le_of_joins (h.locals name) (hf.locals name) (hg.locals name)
  exact ⟨⟨hstack, fun name => (hjoin name).1⟩, ⟨hfr, fun name => (hjoin name).2.1⟩,
    ⟨hgr, fun name => (hjoin name).2.2⟩⟩

theorem stacksMerge_of_le {vs ws : List Value} (hvs : ∀ v ∈ vs, o.KnownValue v)
    (hws : ∀ w ∈ ws, o.KnownValue w) (hle : List.Forall₂ o.ValueLe ws vs) :
    StacksMerge inheritance vs ws vs := by
  induction hle with
  | nil => exact .nil
  | cons hw _ ih =>
    rw [List.forall_mem_cons] at hvs hws
    exact .cons (mergeValue_of_le hvs.1 hws.1 hw) (ih hvs.2 hws.2)

theorem joins_of_le {x y : Option Value} (hx : ∀ v, x = some v → o.KnownValue v)
    (hy : ∀ v, y = some v → o.KnownValue v) (hle : o.LocalLe y x) :
    Joins inheritance x y x := by
  cases hle with
  | absent => exact .neither
  | top => exact .left .top
  | value h => exact .both (mergeValue_of_le (hx _ rfl) (hy _ rfl) h)

theorem merge_of_frameLe {f g : Frame} (hf : o.KnownFrame f) (hg : o.KnownFrame g)
    (hle : o.FrameLe g f) : f.merge inheritance g = (f, .ok false) := by
  refine Frame.merge_eq_ok_iff.2 ⟨⟨stacksMerge_of_le hf.stack hg.stack hle.stack, ?_⟩, by simp⟩
  exact fun name => joins_of_le (hf.locals name) (hg.locals name) (hle.locals name)

end TypeOrder

end MethodLocals
