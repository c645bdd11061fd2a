import MethodLocals.Proofs.Acyclic
import MethodLocals.Proofs.Execution

/-! Expansions inside of expansions. Where they end, the bound on how deep they are nested does not
matter: the actions of an instruction are those that the expansions stand for. -/

namespace MethodLocals

abbrev Expansion := String → Except String (List Instruction)

def Expansion.Contains (expand : Expansion) (outer inner : String) : Prop :=
  ∃ body, expand outer = .ok body ∧ .expression inner ∈ body

/-- No expansion leads back to itself, or on and on to ever new expressions. -/
def Expansion.Grounded (expand : Expansion) : Prop :=
  WellFounded fun inner outer => expand.Contains outer inner

/-- The actions that an instruction stands for when all expressions are expanded, however deep. -/
inductive Instruction.Unfolds (expand : Option Expansion) : Instruction → List Action → Prop
  | own {i : Instruction} (h : ∀ text, i ≠ expression text) : Unfolds expand i i.ownActions
  | missing (text : String) (h : expand = none) :
    Unfolds expand (expression text) [.fail (.unexpandedExpression text)]
  | failed {f : Expansion} {text reason : String} (hf : expand = some f)
    (h : f text = .error reason) : Unfolds expand (expression text) [.fail (.expansion reason)]
  | expanded {f : Expansion} {text : String} {body : List Instruction}
    {unfold : Instruction → List Action} (hf : expand = some f) (h : f text = .ok body)
    (hbody : ∀ i ∈ body, Unfolds expand i (unfold i)) :
    Unfolds expand (expression text) (body.flatMap unfold)

namespace Instruction

variable {expand : Option Expansion} {e : Expander} {text : String} {i : Instruction}

theorem Unfolds.unique {xs ys : List Action} (hx : i.Unfolds expand xs)
    (hy : i.Unfolds expand ys) : xs = ys := by
  induction hx generalizing ys with
  | own h =>
    cases hy with
    | own => rfl
    | _ => exact absurd rfl (h _)
  | missing text h =>
    cases hy with
    | own h' => exact absurd rfl (h' _)
    | missing => rfl
    | failed hf => rw [h] at hf; cases hf
    | expanded hf => rw [h] at hf; cases hf
  | failed hf h =>
    cases hy with
    | own h' => exact absurd rfl (h' _)
    | missing _ hnone => rw [hf] at hnone; cases hnone
    | failed hf' h' =>
      obtain rfl := Option.some.inj (hf.symm.trans hf')
      obtain rfl := Except.error.inj (h.symm.trans h')
      rfl
    | expanded hf' h' =>
      obtain rfl := Option.some.inj (hf.symm.trans hf')
      cases h.symm.trans h'
  | expanded hf h hbody ih =>
    cases hy with
    | own h' => exact absurd rfl (h' _)
    | missing _ hnone => rw [hf] at hnone; cases hnone
    | failed hf' h' =>
      obtain rfl := Option.some.inj (hf.symm.trans hf')
      cases h.symm.trans h'
    | expanded hf' h' hbody' =>
      obtain rfl := Option.some.inj (hf.symm.trans hf')
      obtain rfl := Except.ok.inj (h.symm.trans h')
      rw [List.flatMap_def, List.flatMap_def]
      exact congrArg _ (List.map_congr_left fun j hj => ih j hj (hbody' j hj))

theorem actionsWithin_none (depth : Nat) :
    (expression text).actionsWithin none depth = [.fail (.unexpandedExpression text)] := by
  unfold actionsWithin
  rfl

theorem actionsWithin_error {reason : String} (h : e.expand text = .error reason) (depth : Nat) :
    (expression text).actionsWithin (some e) depth = [.fail (.expansion reason)] := by
  unfold actionsWithin
  simp only [h]

theorem actionsWithin_ok {body : List Instruction} (h : e.expand text = .ok body) (depth : Nat) :
    (expression text).actionsWithin (some e) (depth + 1) =
      body.flatMap (·.actionsWithin (some e) depth) := by
  rw [actionsWithin.eq_def]
  simp only [h]

theorem exists_expansion {expander : Option Expander} {depth : Nat}
    (hfail : ∀ error, .fail error ∉ (expression text).actionsWithin expander depth) :
    ∃ e body below, expander = some e ∧ e.expand text = .ok body ∧ depth = below + 1 := by
  cases expander with
  | none => exact absurd (by simp [actionsWithin_none]) (hfail (.unexpandedExpression text))
  | some e =>
    cases hexpand : e.expand text with
    | error reason =>
      exact absurd (by simp [actionsWithin_error hexpand]) (hfail (.expansion reason))
    | ok body =>
      cases depth with
      | zero =>
        refine absurd ?_ (hfail (.expansion s!"expansion of '{text}' does not end"))
        unfold actionsWithin
        simp [hexpand]
      | succ below => exact ⟨e, body, below, rfl, hexpand, rfl⟩

theorem unfolds_of_ne_expression (h : ∀ text, i ≠ expression text) (expander : Option Expander)
    (depth : Nat) : i.Unfolds expand (i.actionsWithin expander depth) := by
  rw [actionsWithin_of_ne_expression h]
  exact .own h

theorem unfolds_none (i : Instruction) (depth : Nat) :
    i.Unfolds none (i.actionsWithin none depth) := by
  by_cases hi : ∃ text, i = expression text
  · obtain ⟨text, rfl⟩ := hi
    rw [actionsWithin_none]
    exact .missing text rfl
  · exact unfolds_of_ne_expression (fun text heq => hi ⟨text, heq⟩) none depth

/-- A bound on the nesting is enough if it exceeds a measure that goes down with every level. -/
theorem unfolds_of_measure (measure : String → Nat)
    (hmeasure : ∀ {outer inner}, Expansion.Contains e.expand outer inner →
      (∃ body, e.expand inner = .ok body) → measure inner < measure outer) {depth : Nat}
    (hdepth : ∀ text body, i = expression text → e.expand text = .ok body → measure text < depth) :
    i.Unfolds (some e.expand) (i.actionsWithin (some e) depth) := by
  induction depth generalizing i with
  | zero =>
    by_cases hi : ∃ text, i = expression text
    · obtain ⟨text, rfl⟩ := hi
      cases hexpand : e.expand text with
      | error reason =>
        rw [actionsWithin_error hexpand]
        exact .failed rfl hexpand
      | ok body => exact absurd (hdepth text body rfl hexpand) (Nat.not_lt_zero _)
    · exact unfolds_of_ne_expression (fun text heq => hi ⟨text, heq⟩) _ _
  | succ depth ih =>
    by_cases hi : ∃ text, i = expression text
    · obtain ⟨text, rfl⟩ := hi
      cases hexpand : e.expand text with
      | error reason =>
        rw [actionsWithin_error hexpand]
        exact .failed rfl hexpand
      | ok body =>
        have hlt := hdepth text body rfl hexpand
        rw [actionsWithin_ok hexpand]
        refine .expanded rfl hexpand fun j hj => ih ?_
        rintro inner body' rfl hinner
        have hdown := hmeasure ⟨body, hexpand, hj⟩ ⟨body', hinner⟩
        omega
    · exact unfolds_of_ne_expression (fun text heq => hi ⟨text, heq⟩) _ _

theorem exists_common_bound {α : Type} {P : α → Nat → Prop} {l : List α}
    (h : ∀ x ∈ l, ∃ bound, ∀ n, bound ≤ n → P x n) : ∃ bound, ∀ x ∈ l, ∀ n, bound ≤ n → P x n := by
  induction l with
  | nil => exact ⟨0, by simp⟩
  | cons x xs ih =>
    rw [List.forall_mem_cons] at h
    obtain ⟨first, hfirst⟩ := h.1
    obtain ⟨rest, hrest⟩ := ih h.2
    refine ⟨first + rest, List.forall_mem_cons.2 ⟨fun n hn => hfirst n (by omega), ?_⟩⟩
    exact fun y hy n hn => hrest y hy n (by omega)

/-- Expansions that end are nested no deeper than some bound, from one instruction on. -/
theorem exists_depth {f : Expansion} (hf : f.Grounded) (i : Instruction) :
    ∃ depth, ∀ d, depth ≤ d → ∀ nesting,
      i.Unfolds (some f) (i.actionsWithin (some ⟨f, nesting⟩) d) := by
  have hother : ∀ i : Instruction, (∀ text, i ≠ expression text) → ∃ depth, ∀ d, depth ≤ d →
      ∀ nesting, i.Unfolds (some f) (i.actionsWithin (some ⟨f, nesting⟩) d) :=
    fun i hi => ⟨0, fun d _ nesting => unfolds_of_ne_expression hi _ d⟩
  have hexpression : ∀ text, ∃ depth, ∀ d, depth ≤ d → ∀ nesting,
      (expression text).Unfolds (some f)
        ((expression text).actionsWithin (some ⟨f, nesting⟩) d) := by
    intro text
    induction text using hf.induction with
    | _ text ih =>
      cases hexpand : f text with
      | error reason =>
        refine ⟨0, fun d _ nesting => ?_⟩
        rw [actionsWithin_error (e := ⟨f, nesting⟩) hexpand]
        exact .failed rfl hexpand
      | ok body =>
        have hbody : ∀ j ∈ body, ∃ depth, ∀ d, depth ≤ d → ∀ nesting,
            j.Unfolds (some f) (j.actionsWithin (some ⟨f, nesting⟩) d) := by
          intro j hj
          by_cases hj' : ∃ inner, j = expression inner
          · obtain ⟨inner, rfl⟩ := hj'
            exact ih inner ⟨body, hexpand, hj⟩
          · exact hother j fun inner heq => hj' ⟨inner, heq⟩
        obtain ⟨depth, hdepth⟩ := exists_common_bound hbody
        refine ⟨depth + 1, fun d hd nesting => ?_⟩
        obtain ⟨below, rfl⟩ := Nat.exists_eq_add_of_le' (Nat.lt_of_lt_of_le (Nat.succ_pos _) hd)
        rw [actionsWithin_ok (e := ⟨f, nesting⟩) hexpand]
        exact .expanded rfl hexpand fun j hj => hdepth j hj below (by omega) nesting
  by_cases hi : ∃ text, i = expression text
  · obtain ⟨text, rfl⟩ := hi
    exact hexpression text
  · exact hother i fun text heq => hi ⟨text, heq⟩

end Instruction

/-- With a bound on the nesting that is large enough for a body, the actions of its instructions are
those that the expansions stand for. -/
theorem Expansion.exists_nesting {expand : Option Expansion}
    (h : ∀ f, expand = some f → f.Grounded) (code : List Instruction) :
    ∃ nesting, ∀ n, nesting ≤ n → ∀ i ∈ code,
      i.Unfolds expand (i.actions (expand.map (Expander.mk · n))) := by
  cases expand with
  | none => exact ⟨0, fun n _ i _ => i.unfolds_none _⟩
  | some f =>
    obtain ⟨nesting, hnesting⟩ := Instruction.exists_common_bound (l := code)
      fun i _ => Instruction.exists_depth (h f rfl) i
    exact ⟨nesting, fun n hn i hi => hnesting i hi n hn n⟩

namespace Expander

variable {entries : List (String × Except String (List Instruction))}

theorem exists_entry_of_expand {text : String} {body : List Instruction}
    (h : (ofEntries entries).expand text = .ok body) : ∃ entry ∈ entries, entry.1 = text := by
  unfold ofEntries at h
  dsimp only at h
  cases hlookup : entries.lookup text with
  | none => simp [hlookup] at h
  | some expansion =>
    obtain ⟨entry, hmem, hbeq⟩ := List.lookup_isSome_iff.1 (Option.isSome_of_eq_some hlookup)
    exact ⟨entry, hmem, (eq_of_beq hbeq).symm⟩

/-- Finitely many entries have no endless expansions unless one leads back to itself. -/
theorem grounded_ofEntries (hacyclic : ∀ text,
      ¬ Relation.TransGen (Expansion.Contains (ofEntries entries).expand) text text) :
    Expansion.Grounded (ofEntries entries).expand := by
  refine ⟨fun text => ?_⟩
  induction hcount :
    countAbove (Expansion.Contains (ofEntries entries).expand) Prod.fst entries text
    using Nat.strongRecOn generalizing text with
  | _ count ih =>
    refine ⟨text, fun inner hcontains => ?_⟩
    by_cases hinner : ∃ body, (ofEntries entries).expand inner = .ok body
    · obtain ⟨body, hbody⟩ := hinner
      obtain ⟨entry, hmem, hkey⟩ := exists_entry_of_expand hbody
      exact ih _ (hcount ▸ countAbove_lt hacyclic (.single hcontains) hmem hkey) inner rfl
    · refine ⟨inner, fun deeper hdeeper => ?_⟩
      obtain ⟨body, hbody, -⟩ := hdeeper
      exact absurd ⟨body, hbody⟩ hinner

/-- They are nested no deeper than there are entries. -/
theorem unfolds_ofEntries (hacyclic : ∀ text,
      ¬ Relation.TransGen (Expansion.Contains (ofEntries entries).expand) text text)
    (i : Instruction) :
    i.Unfolds (some (ofEntries entries).expand) (i.actions (some (ofEntries entries))) := by
  refine i.unfolds_of_measure
    (countAbove (Expansion.Contains (ofEntries entries).expand) Prod.fst entries) ?_ ?_
  · rintro outer inner hcontains ⟨body, hinner⟩
    obtain ⟨entry, hmem, hkey⟩ := exists_entry_of_expand hinner
    exact countAbove_lt hacyclic (.single hcontains) hmem hkey
  · rintro text body - hexpand
    obtain ⟨entry, hmem, hkey⟩ := exists_entry_of_expand hexpand
    exact countAbove_lt_length hacyclic hmem hkey

end Expander

end MethodLocals
