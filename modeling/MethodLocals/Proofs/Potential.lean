import MethodLocals.Analysis
import MethodLocals.Proofs.Execution
import MethodLocals.Proofs.Ranks
import Mathlib.Algebra.Order.BigOperators.Group.List
import Mathlib.Algebra.Order.Group.Nat
import Mathlib.Algebra.GroupWithZero.Nat

/-! How often an entry frame can still change. A merge that changes a frame adds a variable or takes
some value up, and takes no value down, so the ranks of all places together go down. -/

namespace MethodLocals

def Action.localName? : Action → Option String
  | set name _ | storeTop name => some name
  | _ => none

/-- The variables that a method can have: the receiver, parameters, and what its actions set. -/
def Analyzer.localNames (a : Analyzer) (m : Method) : List String :=
  receiverName :: m.header.parameters.map (·.name) ++
    m.code.flatMap fun i => (i.actions a.expander).filterMap Action.localName?

namespace Frame

variable {f g r : Frame} {names : List String}

def NamesIn (names : List String) (f : Frame) : Prop :=
  ∀ name, f.get? name ≠ none → name ∈ names

theorem NamesIn.set (h : f.NamesIn names) {name : String} (hname : name ∈ names) (v : Value) :
    (f.set name v).NamesIn names := by
  intro other hother
  rw [Frame.get?_set] at hother
  split at hother
  · rename_i heq
    exact heq ▸ hname
  · exact h other hother

theorem Merges.namesIn {inheritance : Option Inheritance} (h : f.Merges inheritance g r)
    (hf : f.NamesIn names) (hg : g.NamesIn names) : r.NamesIn names := by
  intro name hname
  by_cases hold : f.get? name = none
  · apply hg name
    intro hnew
    apply hname
    have hjoins := h.locals name
    rw [hold, hnew] at hjoins
    generalize r.get? name = z at hjoins
    cases hjoins
    rfl
  · exact hf name hold

theorem NamesIn.does {action : Action} (h : f.NamesIn names) (hdoes : action.Does f g)
    (hname : ∀ name, action.localName? = some name → name ∈ names) : g.NamesIn names := by
  cases hdoes with
  | set name v => exact h.set (hname name rfl) v
  | storeTop name hf => exact NamesIn.set (f := ⟨f.locals, _⟩) h (hname name rfl) _
  | @construct v rest hf =>
    intro name hne
    rw [get?_construct, Ne, Option.map_eq_none_iff] at hne
    exact h name hne
  | _ => exact h

theorem length_does {action : Action} (hdoes : action.Does f g) :
    g.stack.length ≤ f.stack.length + 1 := by
  cases hdoes with
  | pop hf | popWide hf | popTwo hf | dup hf | swap hf | element hf =>
    simp only [hf, List.length_cons]
    omega
  | storeTop name hf =>
    simp only [hf, List.length_cons]
    omega
  | construct hf =>
    rw [stack_construct, List.length_map, hf, List.length_cons]
    dsimp only
    omega
  | push v => exact Nat.le_refl _
  | loadRef name => exact Nat.le_refl _
  | set name v => exact Nat.le_succ _

theorem length_runAll {actions : List Action} (h : f.runAll actions = .ok g) :
    g.stack.length ≤ f.stack.length + actions.length := by
  induction actions generalizing f with
  | nil =>
    obtain rfl := Except.ok.inj h
    exact Nat.le_refl _
  | cons action rest ih =>
    obtain ⟨f', hdoes, hafter⟩ := runAll_cons_eq_ok_iff.1 h
    have hstep := length_does hdoes
    have hrest := ih hafter
    rw [List.length_cons]
    omega

/-- Each value of the frame is kept or replaced by one of smaller rank; no variable is lost. -/
structure Rises (rank : Value → Nat) (f r : Frame) : Prop where
  stack : List.Forall₂ (fun v u => u = v ∨ rank u < rank v) f.stack r.stack
  locals : ∀ name v, f.get? name = some v →
    ∃ u, r.get? name = some u ∧ (u = v ∨ rank u < rank v)

end Frame

namespace TypeRank

variable {inheritance : Option Inheritance} (k : TypeRank inheritance)

/-- A variable that is not there can still be added, and then go up from the bottom. -/
def localRank : Option Value → Nat
  | none => k.limit + 1
  | some v => k.valueRank v

/-- How often the places of a frame can still change together. -/
def potential (names : List String) (f : Frame) : Nat :=
  (f.stack.map k.valueRank).sum + (names.map fun name => k.localRank (f.get? name)).sum

variable {k} {f g r : Frame} {names : List String}

theorem rises_of_stacksMerge (k : TypeRank inheritance) {vs ws us : List Value}
    (h : StacksMerge inheritance vs ws us) :
    List.Forall₂ (fun v u => u = v ∨ k.valueRank u < k.valueRank v) vs us := by
  induction h with
  | nil => exact .nil
  | cons hv _ ih => exact .cons (k.rises_of_merge hv) ih

theorem rises_of_merges (k : TypeRank inheritance) (h : f.Merges inheritance g r) :
    f.Rises k.valueRank r where
  stack := k.rises_of_stacksMerge h.stack
  locals name v hv := by
    have hjoins := h.locals name
    rw [hv] at hjoins
    generalize f.get? name = x at hv
    generalize g.get? name = y at hjoins
    generalize hz : r.get? name = z at hjoins
    cases hjoins with
    | both hmerge => exact ⟨_, rfl, k.rises_of_merge hmerge⟩
    | left => exact ⟨.top, rfl, (k.eq_top_or_rank_pos v).imp Eq.symm id⟩

theorem stack_eq_or_sum_lt {vs us : List Value}
    (h : List.Forall₂ (fun v u => u = v ∨ k.valueRank u < k.valueRank v) vs us) :
    us = vs ∨ (us.map k.valueRank).sum < (vs.map k.valueRank).sum := by
  induction h with
  | nil => exact .inl rfl
  | @cons v u vs us hv _ ih =>
    simp only [List.map_cons, List.sum_cons]
    rcases hv with rfl | hlt
    · rcases ih with rfl | hrest
      · exact .inl rfl
      · exact .inr (by omega)
    · rcases ih with rfl | hrest
      · exact .inr (by omega)
      · exact .inr (by omega)

theorem localRank_le (h : f.Rises k.valueRank r) (name : String) :
    r.get? name = f.get? name ∨ k.localRank (r.get? name) < k.localRank (f.get? name) := by
  cases hf : f.get? name with
  | none =>
    cases hr : r.get? name with
    | none => exact .inl rfl
    | some u => exact .inr (Nat.lt_succ_of_le (k.valueRank_le u))
  | some v =>
    obtain ⟨u, hu, hrises⟩ := h.locals name v hf
    rw [hu]
    exact hrises.imp (congrArg some) id

/-- A frame that changes by going up loses potential. -/
theorem potential_lt (h : f.Rises k.valueRank r) (hnames : r.NamesIn names) (hne : r ≠ f) :
    k.potential names r < k.potential names f := by
  have hle : ∀ name ∈ names, k.localRank (r.get? name) ≤ k.localRank (f.get? name) :=
    fun name _ => (localRank_le h name).elim (fun heq => by rw [heq]) Nat.le_of_lt
  have hlocals := List.sum_le_sum hle
  rw [potential, potential]
  rcases stack_eq_or_sum_lt h.stack with hstack | hstack
  · have hex : ∃ name, r.get? name ≠ f.get? name := by
      by_contra hall
      apply hne
      have heq : r.locals = f.locals := Locals.eq_of_get?_eq fun name => by
        by_contra hname
        exact hall ⟨name, hname⟩
      cases r
      cases f
      simp_all
    obtain ⟨name, hname⟩ := hex
    have hlt := (localRank_le h name).resolve_left hname
    have hmem : name ∈ names := by
      apply hnames name
      intro hnone
      cases hf : f.get? name with
      | none => exact hname (hnone.trans hf.symm)
      | some v =>
        obtain ⟨u, hu, -⟩ := h.locals name v hf
        rw [hnone] at hu
        cases hu
    have hsum := List.sum_lt_sum _ _ hle ⟨name, hmem, hlt⟩
    rw [hstack]
    omega
  · omega

theorem potential_le (k : TypeRank inheritance) (names : List String) (f : Frame) :
    k.potential names f ≤ (f.stack.length + names.length) * (k.limit + 1) := by
  have hstack := List.sum_le_card_nsmul (f.stack.map k.valueRank) (k.limit + 1) fun x hx => by
    obtain ⟨v, -, rfl⟩ := List.mem_map.1 hx
    exact Nat.le_succ_of_le (k.valueRank_le v)
  have hlocals := List.sum_le_card_nsmul (names.map fun name => k.localRank (f.get? name))
    (k.limit + 1) fun x hx => by
      obtain ⟨name, -, rfl⟩ := List.mem_map.1 hx
      cases f.get? name with
      | none => exact Nat.le_refl _
      | some v => exact Nat.le_succ_of_le (k.valueRank_le v)
  rw [List.length_map, Nat.nsmul_eq_mul] at hstack hlocals
  rw [potential, Nat.add_mul]
  omega

end TypeRank

end MethodLocals
