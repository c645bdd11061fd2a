import MethodLocals.Proofs.Execution
import Mathlib.Algebra.GroupWithZero.Nat

/-! What decides whether actions go well on a stack: the widths of its entries do, and their sum
alone rules out that the stack runs empty. -/

namespace MethodLocals

theorem Value.width_eq_one_or_two (v : Value) : v.width = 1 ∨ v.width = 2 := by
  cases v <;> simp [width]

namespace Frame

/-- The widths of the stack entries, from the top. -/
def widths (f : Frame) : List Nat := f.stack.map Value.width

def weight (f : Frame) : Nat := f.widths.sum

theorem weight_of_stack {f : Frame} {v : Value} {rest : List Value} (hf : f.stack = v :: rest) :
    f.weight = v.width + weight ⟨f.locals, rest⟩ := by
  simp [weight, widths, hf]

theorem exists_stack_of_widths {f e : Frame} (h : f.widths = e.widths) {v : Value}
    {rest : List Value} (he : e.stack = v :: rest) :
    ∃ w rest', f.stack = w :: rest' ∧ w.width = v.width ∧
      widths ⟨f.locals, rest'⟩ = widths ⟨e.locals, rest⟩ := by
  rw [widths, widths, he, List.map_cons, List.map_eq_cons_iff] at h
  obtain ⟨w, rest', hf, hw, hrest⟩ := h
  exact ⟨w, rest', hf, hw, hrest⟩

@[simp] theorem widths_push (f : Frame) (v : Value) : (f.push v).widths = v.width :: f.widths := rfl

@[simp] theorem widths_set (f : Frame) (name : String) (v : Value) :
    (f.set name v).widths = f.widths := rfl

/-- What is pushed of a variable has the width of a reference. -/
theorem width_loaded (f : Frame) (name : String) : (f.loaded name).width = 1 := by
  unfold loaded
  split
  · rename_i v _
    cases v <;> rfl
  · rfl

theorem width_elementOf (v : Value) : v.elementOf.width = 1 := by
  unfold Value.elementOf
  split <;> rfl

theorem width_afterConstructor (receiver v : Value) :
    (receiver.afterConstructor v).width = v.width := by
  refine Value.afterConstructor_eq_of_class Value.width (fun c hc => ?_) v
  cases receiver <;> first | rfl | cases hc

theorem widths_construct (f : Frame) (receiver : Value) :
    (f.construct receiver).widths = f.widths := by
  rw [widths, stack_construct, List.map_map, widths]
  exact List.map_congr_left fun v _ => width_afterConstructor receiver v

end Frame

namespace Action

theorem exists_does_of_widths {action : Action} {f e e' : Frame} (hdoes : action.Does e e')
    (h : f.widths = e.widths) : ∃ g, action.Does f g ∧ g.widths = e'.widths := by
  cases hdoes with
  | push v => exact ⟨_, .push v, by simp [h]⟩
  | pop he =>
    obtain ⟨w, rest, hf, hw, hrest⟩ := Frame.exists_stack_of_widths h he
    exact ⟨_, hw ▸ .pop hf, hrest⟩
  | popWide he hv =>
    obtain ⟨w, rest, hf, hw, hrest⟩ := Frame.exists_stack_of_widths h he
    exact ⟨_, .popWide hf (hw ▸ hv), hrest⟩
  | popTwo he hv hw =>
    obtain ⟨v', rest, hf, hv', hrest⟩ := Frame.exists_stack_of_widths h he
    obtain ⟨w', rest', hrest', hw', hend⟩ := Frame.exists_stack_of_widths hrest rfl
    obtain rfl : rest = w' :: rest' := hrest'
    exact ⟨_, .popTwo hf (hv'.trans hv) (hw'.trans hw), hend⟩
  | dup he hv =>
    obtain ⟨v', rest, hf, hv', hrest⟩ := Frame.exists_stack_of_widths h he
    refine ⟨_, .dup hf (hv'.trans hv), ?_⟩
    simpa [Frame.widths, hv'] using hrest
  | swap he hv hw =>
    obtain ⟨v', rest, hf, hv', hrest⟩ := Frame.exists_stack_of_widths h he
    obtain ⟨w', rest', hrest', hw', hend⟩ := Frame.exists_stack_of_widths hrest rfl
    obtain rfl : rest = w' :: rest' := hrest'
    refine ⟨_, .swap hf (hv'.trans hv) (hw'.trans hw), ?_⟩
    simpa [Frame.widths, hv', hw'] using hend
  | loadRef name => exact ⟨_, .loadRef name, by simp [h, Frame.width_loaded]⟩
  | set name v => exact ⟨_, .set name v, h⟩
  | storeTop name he hv =>
    obtain ⟨v', rest, hf, hv', hrest⟩ := Frame.exists_stack_of_widths h he
    exact ⟨_, .storeTop name hf (hv'.trans hv), hrest⟩
  | element he hv =>
    obtain ⟨v', rest, hf, hv', hrest⟩ := Frame.exists_stack_of_widths h he
    refine ⟨_, .element hf (hv'.trans hv), ?_⟩
    simpa [Frame.widths, Frame.width_elementOf] using hrest
  | construct he hv =>
    obtain ⟨v', rest, hf, hv', hrest⟩ := Frame.exists_stack_of_widths h he
    refine ⟨_, .construct hf (hv'.trans hv), ?_⟩
    rw [Frame.widths_construct, Frame.widths_construct]
    exact hrest

/-- How wide the entries are together that an action takes, and those that it brings up instead;
neither depends on the stack. -/
def taken : Action → Nat
  | pop width => width
  | popPair | swap => 2
  | dup | storeTop _ | element | construct => 1
  | push _ | loadRef _ | set _ _ | fail _ => 0

def brought : Action → Nat
  | push v => v.width
  | dup | swap => 2
  | loadRef _ | element => 1
  | pop _ | popPair | set _ _ | storeTop _ | construct | fail _ => 0

theorem weight_of_does {action : Action} {f g : Frame} (h : action.Does f g) :
    f.weight + action.brought = g.weight + action.taken := by
  have hconstruct : ∀ (f : Frame) (v : Value), (f.construct v).weight = f.weight := fun f v => by
    rw [Frame.weight, Frame.widths_construct, Frame.weight]
  cases h with
  | push v => simp [Frame.weight, brought, taken, Nat.add_comm]
  | pop hf =>
    rw [Frame.weight_of_stack hf, brought, taken]
    omega
  | @popWide v rest hf hv =>
    have hwidth := v.width_eq_one_or_two
    rw [Frame.weight_of_stack hf, brought, taken]
    omega
  | popTwo hf hv hw =>
    rw [Frame.weight_of_stack hf, Frame.weight_of_stack (f := ⟨f.locals, _ :: _⟩) rfl, hv, hw,
      brought, taken]
    dsimp only
    omega
  | dup hf hv =>
    simp [Frame.weight, Frame.widths, hf, hv, brought, taken]
    omega
  | swap hf hv hw =>
    simp [Frame.weight, Frame.widths, hf, hv, hw, brought, taken]
  | loadRef name => simp [Frame.weight, Frame.width_loaded, brought, taken, Nat.add_comm]
  | set name v => rfl
  | storeTop name hf hv =>
    simp [Frame.weight, Frame.widths, hf, hv, brought, taken, Nat.add_comm]
  | element hf hv =>
    simp [Frame.weight, Frame.widths, hf, hv, Frame.width_elementOf, brought, taken]
  | construct hf hv =>
    rw [hconstruct, Frame.weight_of_stack hf, hv, brought, taken]
    omega

/-- On a stack that is not empty, only the width of the top can be wrong. -/
theorem exists_top_or_invalidWidth {f : Frame} (hpos : 0 < f.weight) (width : Nat) :
    (∃ v rest, f.stack = v :: rest ∧ v.width = width) ∨
      ∃ found, f.popWidth width = .error (.invalidWidth width found) := by
  cases hf : f.stack with
  | nil => simp [Frame.weight, Frame.widths, hf] at hpos
  | cons v rest =>
    by_cases hv : v.width = width
    · exact .inl ⟨v, rest, rfl, hv⟩
    · exact .inr ⟨v.width, by rw [Frame.popWidth_of_stack hf, if_neg hv]⟩

/-- A stack with two entries to take has them, or one of them has another width. -/
theorem exists_two_or_invalidWidth {f : Frame} (htwo : 2 ≤ f.weight) {v : Value}
    {rest : List Value} (hf : f.stack = v :: rest) (hv : v.width = 1) :
    (∃ w rest', rest = w :: rest' ∧ w.width = 1) ∨
      ∃ found, Frame.popWidth ⟨f.locals, rest⟩ 1 = .error (.invalidWidth 1 found) := by
  rw [Frame.weight_of_stack hf, hv] at htwo
  exact exists_top_or_invalidWidth (f := ⟨f.locals, rest⟩) (by omega) 1

/-- An action that goes well on some stack goes well on every stack that is as wide, or finds a
value of another width there. -/
theorem exists_does_or_invalidWidth {action : Action} {f e e' : Frame} (hdoes : action.Does e e')
    (hle : e.weight ≤ f.weight) : (∃ g, action.Does f g) ∨
      ∃ expected found, action.run f = .error (.invalidWidth expected found) := by
  have hweight := weight_of_does hdoes
  have hfail : ∀ {width : Nat} {next : Value × Frame → Frame},
      (∃ found, f.popWidth width = .error (.invalidWidth width found)) →
      ∃ expected found, (f.popWidth width).map next = .error (.invalidWidth expected found) := by
    rintro width next ⟨found, h⟩
    exact ⟨width, found, by rw [h]; rfl⟩
  have htop : ∀ {v : Value} {rest : List Value}, e.stack = v :: rest → ∀ width,
      (∃ w rest', f.stack = w :: rest' ∧ w.width = width) ∨
        ∃ found, f.popWidth width = .error (.invalidWidth width found) := by
    intro v rest he width
    have hwidth := v.width_eq_one_or_two
    rw [Frame.weight_of_stack he] at hle
    exact exists_top_or_invalidWidth (by omega) width
  have hpair : action = .popPair → (∃ g, action.Does f g) ∨
      ∃ expected found, action.run f = .error (.invalidWidth expected found) := by
    rintro rfl
    rw [brought, taken] at hweight
    cases hf : f.stack with
    | nil =>
      have hzero : f.weight = 0 := by simp [Frame.weight, Frame.widths, hf]
      omega
    | cons v rest =>
      by_cases hv : v.width = 1
      · rcases exists_two_or_invalidWidth (by omega) hf hv with ⟨w, rest', rfl, hw⟩ | ⟨found, herr⟩
        · exact .inl ⟨_, .popTwo hf hv hw⟩
        · exact .inr ⟨1, found, by simp [run, Frame.pop, hf, hv, herr, Except.map]⟩
      · exact .inl ⟨_, .popWide hf hv⟩
  cases hdoes with
  | push v => exact .inl ⟨_, .push v⟩
  | @pop v rest he =>
    refine (htop he v.width).imp ?_ hfail
    rintro ⟨w, rest', hf, hw⟩
    rw [← hw]
    exact ⟨_, .pop hf⟩
  | popWide => exact hpair rfl
  | popTwo => exact hpair rfl
  | dup he =>
    refine (htop he 1).imp ?_ hfail
    rintro ⟨w, rest', hf, hw⟩
    exact ⟨_, .dup hf hw⟩
  | swap he hv hw =>
    have htwo : 2 ≤ e.weight := by
      simp only [Frame.weight, Frame.widths, he, List.map_cons, List.sum_cons, hv, hw]
      omega
    rcases htop he 1 with ⟨v, rest, hf, hv⟩ | ⟨found, herr⟩
    · rcases exists_two_or_invalidWidth (by omega) hf hv with ⟨w, rest', rfl, hw⟩ | ⟨found, herr⟩
      · exact .inl ⟨_, .swap hf hv hw⟩
      · exact .inr ⟨1, found, by simp [run, Frame.popWidth_of_stack hf, hv, herr, Except.map]⟩
    · exact .inr ⟨1, found, by simp [run, herr]⟩
  | loadRef name => exact .inl ⟨_, .loadRef name⟩
  | set name v => exact .inl ⟨_, .set name v⟩
  | storeTop name he =>
    refine (htop he 1).imp ?_ hfail
    rintro ⟨w, rest', hf, hw⟩
    exact ⟨_, .storeTop name hf hw⟩
  | element he =>
    refine (htop he 1).imp ?_ hfail
    rintro ⟨w, rest', hf, hw⟩
    exact ⟨_, .element hf hw⟩
  | construct he =>
    refine (htop he 1).imp ?_ hfail
    rintro ⟨w, rest', hf, hw⟩
    exact ⟨_, .construct hf hw⟩

end Action

namespace Frame

theorem exists_runAll_of_widths {actions : List Action} {f e e' : Frame}
    (h : e.runAll actions = .ok e') (hwidths : f.widths = e.widths) :
    ∃ g, f.runAll actions = .ok g ∧ g.widths = e'.widths := by
  induction actions generalizing f e with
  | nil =>
    obtain rfl := Except.ok.inj h
    exact ⟨f, rfl, hwidths⟩
  | cons action rest ih =>
    obtain ⟨e₁, hfirst, hrest⟩ := runAll_cons_eq_ok_iff.1 h
    obtain ⟨f₁, hdoes, hwidths₁⟩ := Action.exists_does_of_widths hfirst hwidths
    obtain ⟨g, hg, hend⟩ := ih hrest hwidths₁
    exact ⟨g, runAll_cons_eq_ok_iff.2 ⟨f₁, hdoes, hg⟩, hend⟩

/-- Actions that go well on some stack never run out of entries on a stack that is as wide, which
stays as wide. -/
theorem exists_runAll_or_invalidWidth {actions : List Action} {f e e' : Frame}
    (h : e.runAll actions = .ok e') (hle : e.weight ≤ f.weight) :
    (∃ g, f.runAll actions = .ok g ∧ e'.weight ≤ g.weight) ∨
      ∃ expected found, f.runAll actions = .error (.invalidWidth expected found) := by
  induction actions generalizing f e with
  | nil =>
    obtain rfl := Except.ok.inj h
    exact .inl ⟨f, rfl, hle⟩
  | cons action rest ih =>
    obtain ⟨e₁, hdoes, hrest⟩ := runAll_cons_eq_ok_iff.1 h
    rcases Action.exists_does_or_invalidWidth hdoes hle with ⟨f₁, hf₁⟩ | ⟨expected, found, herr⟩
    · have he := Action.weight_of_does hdoes
      have hf := Action.weight_of_does hf₁
      rw [runAll, Action.run_of_does hf₁]
      exact ih hrest (by omega)
    · exact .inr ⟨expected, found, by rw [runAll, herr]⟩

end Frame

end MethodLocals
