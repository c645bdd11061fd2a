import MethodLocals.Frame
import MethodLocals.Proofs.ValueOrder
import Mathlib.Tactic.ByContra

/-! What two frames merge into, place by place: each entry of the stack and each variable holds what
the two values there merge into. -/

namespace MethodLocals

/-- What a variable holds where two frames meet, given what it holds in each of them; nothing is
known of one that only one frame has. -/
inductive Joins (inheritance : Option Inheritance) :
    Option Value → Option Value → Option Value → Prop
  | both {v w u : Value} (h : v.merge inheritance w = .ok u) :
    Joins inheritance (some v) (some w) (some u)
  | left (v : Value) : Joins inheritance (some v) none (some .top)
  | right (w : Value) : Joins inheritance none (some w) (some .top)
  | neither : Joins inheritance none none none

inductive StacksMerge (inheritance : Option Inheritance) :
    List Value → List Value → List Value → Prop
  | nil : StacksMerge inheritance [] [] []
  | cons {v w u : Value} {vs ws us : List Value} (h : v.merge inheritance w = .ok u)
    (hs : StacksMerge inheritance vs ws us) :
    StacksMerge inheritance (v :: vs) (w :: ws) (u :: us)

variable {inheritance : Option Inheritance}

theorem Joins.unique {x y a b : Option Value} (ha : Joins inheritance x y a)
    (hb : Joins inheritance x y b) : a = b := by
  cases ha with
  | both h =>
    cases hb with
    | both h' =>
      rw [h] at h'
      rw [Except.ok.inj h']
  | left => cases hb; rfl
  | right => cases hb; rfl
  | neither => cases hb; rfl

theorem StacksMerge.unique {vs ws us us' : List Value} (h : StacksMerge inheritance vs ws us)
    (h' : StacksMerge inheritance vs ws us') : us = us' := by
  induction h generalizing us' with
  | nil => cases h'; rfl
  | cons hv _ ih =>
    cases h' with
    | cons hv' hs' =>
      rw [hv] at hv'
      rw [Except.ok.inj hv', ih hs']

theorem StacksMerge.length_eq {vs ws us : List Value} (h : StacksMerge inheritance vs ws us) :
    vs.length = ws.length ∧ us.length = vs.length := by
  induction h with
  | nil => exact ⟨rfl, rfl⟩
  | cons _ _ ih => simp [ih.1, ih.2]

namespace Locals

/-- Changes that all succeed change each entry on its own. -/
theorem lookup_updateEntries {change : String → Value → Except MissingClass Value}
    {l : List (String × Value)} (h : (updateEntries change l).2 = none) (name : String) :
    (l.lookup name = none ∧ (updateEntries change l).1.lookup name = none) ∨
      ∃ v u, l.lookup name = some v ∧ change name v = .ok u ∧
        (updateEntries change l).1.lookup name = some u := by
  induction l with
  | nil => exact .inl ⟨rfl, rfl⟩
  | cons entry rest ih =>
    obtain ⟨first, held⟩ := entry
    unfold updateEntries at h ⊢
    cases hchange : change first held with
    | error e => simp [hchange] at h
    | ok changed =>
      simp only [hchange] at h ⊢
      by_cases heq : name = first
      · subst heq
        exact .inr ⟨held, changed, by simp, hchange, by simp⟩
      · have hbeq : (name == first) = false := beq_eq_false_iff_ne.2 heq
        simpa [List.lookup_cons, hbeq] using ih h

theorem exists_error_of_updateEntries {change : String → Value → Except MissingClass Value}
    {l : List (String × Value)} {e : MissingClass} (h : (updateEntries change l).2 = some e) :
    ∃ entry ∈ l, change entry.1 entry.2 = .error e := by
  induction l with
  | nil => cases h
  | cons entry rest ih =>
    obtain ⟨first, held⟩ := entry
    unfold updateEntries at h
    cases hchange : change first held with
    | error e' =>
      simp only [hchange, Option.some.injEq] at h
      subst h
      exact ⟨(first, held), List.mem_cons_self, hchange⟩
    | ok changed =>
      simp only [hchange] at h
      obtain ⟨found, hmem, herror⟩ := ih h
      exact ⟨found, List.mem_cons_of_mem _ hmem, herror⟩

theorem get?_foldl_set (value : Value) (names : List String) (l : Locals) (name : String) :
    (names.foldl (fun acc name => acc.set name value) l).get? name =
      if name ∈ names then some value else l.get? name := by
  induction names generalizing l with
  | nil => simp
  | cons first rest ih =>
    rw [List.foldl_cons, ih, get?_set]
    by_cases hmem : name ∈ rest
    · simp [hmem]
    · simp [hmem]

theorem mem_names_iff (l : Locals) (name : String) : name ∈ l.names ↔ l.get? name ≠ none := by
  rw [get?, Ne, List.lookup_eq_none_iff]
  simp only [names, List.mem_map, bne_iff_ne]
  constructor
  · rintro ⟨entry, hmem, rfl⟩ hnone
    exact hnone entry hmem rfl
  · intro hnone
    by_contra hnot
    exact hnone fun entry hmem heq => hnot ⟨entry, hmem, heq.symm⟩

/-- Entries are found under their names, as no name has two of them. -/
theorem get?_of_mem_entries (l : Locals) {entry : String × Value} (h : entry ∈ l.entries) :
    l.get? entry.1 = some entry.2 := by
  obtain ⟨entries, hsorted⟩ := l
  unfold get?
  induction entries with
  | nil => cases h
  | cons first rest ih =>
    obtain ⟨other, held⟩ := first
    have hbelow := List.pairwise_cons.1 hsorted
    rcases List.mem_cons.1 h with rfl | hmem
    · simp
    · have hlt := hbelow.1 entry.1 (List.mem_map_of_mem hmem)
      have hne : entry.1 ≠ other := by
        intro heq
        rw [heq] at hlt
        exact String.lt_irrefl _ hlt
      have hbeq : (entry.1 == other) = false := beq_eq_false_iff_ne.2 hne
      simpa [List.lookup_cons, hbeq] using ih hbelow.2 hmem

theorem joins_of_merge {l other r : Locals} (h : l.merge inheritance other = (r, none))
    (name : String) : Joins inheritance (l.get? name) (other.get? name) (r.get? name) := by
  rw [merge] at h
  split at h
  · cases h
  · rename_i hupdated
    obtain rfl := (Prod.mk.inj h).1
    have hown := lookup_updateEntries hupdated name
    rw [get?_foldl_set]
    rcases hown with ⟨hnone, hkept⟩ | ⟨v, u, hv, hchange, hu⟩
    · have hl : l.get? name = none := hnone
      cases ho : other.get? name with
      | none =>
        have hnot : name ∉ other.names := fun hmem => (mem_names_iff other name).1 hmem ho
        rw [if_neg fun hmem => hnot (List.mem_filter.1 hmem).1, hl]
        rw [show Locals.get? ⟨_, _⟩ name = none from hkept]
        exact .neither
      | some w =>
        have hmem : name ∈ other.names := (mem_names_iff other name).2 (by rw [ho]; simp)
        rw [if_pos (List.mem_filter.2 ⟨hmem, by simp [hl]⟩), hl]
        exact .right w
    · have hl : l.get? name = some v := hv
      rw [if_neg fun hmem => by simpa [hl] using (List.mem_filter.1 hmem).2, hl]
      unfold mergeEntry at hchange
      cases ho : other.get? name with
      | none =>
        simp only [ho, Except.ok.injEq] at hchange
        subst hchange
        rw [show Locals.get? ⟨_, _⟩ name = some .top from hu]
        exact .left v
      | some w =>
        simp only [ho] at hchange
        rw [show Locals.get? ⟨_, _⟩ name = some u from hu]
        exact .both hchange

/-- Locals fail to merge only at a variable that both sides have. -/
theorem exists_error_of_merge {l other r : Locals} {e : MissingClass}
    (h : l.merge inheritance other = (r, some e)) :
    ∃ name v w, l.get? name = some v ∧ other.get? name = some w ∧
      v.merge inheritance w = .error e := by
  rw [merge] at h
  split at h
  · rename_i found hupdated
    obtain rfl := Option.some.inj (Prod.mk.inj h).2
    obtain ⟨entry, hmem, herror⟩ := exists_error_of_updateEntries hupdated
    unfold mergeEntry at herror
    cases ho : other.get? entry.1 with
    | none => simp [ho] at herror
    | some w =>
      simp only [ho] at herror
      exact ⟨entry.1, entry.2, w, l.get?_of_mem_entries hmem, ho, herror⟩
  · cases (Prod.mk.inj h).2

theorem merge_eq_of_joins {l other r : Locals}
    (h : ∀ name, Joins inheritance (l.get? name) (other.get? name) (r.get? name)) :
    l.merge inheritance other = (r, none) := by
  cases hmerge : l.merge inheritance other with
  | mk r' error =>
    cases error with
    | some e =>
      obtain ⟨name, v, w, hv, hw, herror⟩ := exists_error_of_merge hmerge
      have hjoins := h name
      rw [hv, hw] at hjoins
      generalize r.get? name = x at hjoins
      cases hjoins with
      | both hok => rw [hok] at herror; cases herror
    | none =>
      have heq : r' = r :=
        eq_of_get?_eq fun name => (joins_of_merge hmerge name).unique (h name)
      rw [heq]

end Locals

namespace Frame

theorem mergeStacks_eq_none_iff {vs ws us : List Value} (hlen : vs.length = ws.length) :
    mergeStacks inheritance vs ws = (us, none) ↔ StacksMerge inheritance vs ws us := by
  induction vs generalizing ws us with
  | nil =>
    obtain rfl := List.eq_nil_of_length_eq_zero hlen.symm
    simp only [mergeStacks, Prod.mk.injEq, and_true]
    constructor
    · rintro rfl
      exact .nil
    · rintro ⟨⟩
      rfl
  | cons v vs ih =>
    cases ws with
    | nil => cases hlen
    | cons w ws =>
      have ih := @ih ws
      simp only [List.length_cons, Nat.add_right_cancel_iff] at hlen
      unfold mergeStacks
      cases hbelow : mergeStacks inheritance vs ws with
      | mk below error =>
        rw [hbelow] at ih
        constructor
        · intro h
          cases error with
          | some e => simp at h
          | none =>
            cases hv : v.merge inheritance w with
            | error e => simp [hv] at h
            | ok u =>
              simp only [hv, Prod.mk.injEq, and_true] at h
              subst h
              exact .cons hv ((ih hlen).1 rfl)
        · rintro (_ | ⟨hv, hs⟩)
          obtain ⟨rfl, rfl⟩ := Prod.mk.inj ((ih hlen).2 hs)
          simp [hv]

/-- A successful merge, place by place; it says whether it changed the frame. -/
structure Merges (inheritance : Option Inheritance) (f other r : Frame) : Prop where
  stack : StacksMerge inheritance f.stack other.stack r.stack
  locals : ∀ name, Joins inheritance (f.get? name) (other.get? name) (r.get? name)

theorem merge_eq_ok_iff {f other r : Frame} {changed : Bool} :
    f.merge inheritance other = (r, .ok changed) ↔
      Merges inheritance f other r ∧ changed = decide (r ≠ f) := by
  rw [merge, mergeParts]
  by_cases hlen : f.stack.length = other.stack.length
  · rw [if_neg (not_not_intro hlen)]
    cases hstack : mergeStacks inheritance f.stack other.stack with
    | mk stack error =>
      cases error with
      | some e =>
        simp only [Prod.mk.injEq, reduceCtorEq, and_false, false_iff, not_and]
        intro hmerges
        rw [(mergeStacks_eq_none_iff hlen).2 hmerges.stack] at hstack
        cases (Prod.mk.inj hstack).2
      | none =>
        have hstacks := (mergeStacks_eq_none_iff hlen).1 hstack
        cases hlocals : f.locals.merge inheritance other.locals with
        | mk locals error =>
          cases error with
          | some e =>
            simp only [Option.map_some, Prod.mk.injEq, reduceCtorEq, and_false, false_iff,
              not_and]
            intro hmerges
            rw [Locals.merge_eq_of_joins hmerges.locals] at hlocals
            cases (Prod.mk.inj hlocals).2
          | none =>
            simp only [Option.map_none, Prod.mk.injEq, Except.ok.injEq]
            constructor
            · rintro ⟨rfl, rfl⟩
              exact ⟨⟨hstacks, Locals.joins_of_merge hlocals⟩, rfl⟩
            · rintro ⟨hmerges, rfl⟩
              have heq : Frame.mk locals stack = r := by
                have hr := Locals.merge_eq_of_joins hmerges.locals
                rw [hlocals] at hr
                have hs := hstacks.unique hmerges.stack
                cases r
                simp_all
              subst heq
              exact ⟨rfl, rfl⟩
  · rw [if_pos hlen]
    simp only [Prod.mk.injEq, reduceCtorEq, and_false, false_iff, not_and]
    intro hmerges
    exact absurd hmerges.stack.length_eq.1 hlen

variable {f g : Frame}

/-- Frames merge if their stacks do and so does each variable that both of them have. -/
theorem exists_merges_iff : (∃ r, f.Merges inheritance g r) ↔
    (∃ stack, StacksMerge inheritance f.stack g.stack stack) ∧
      ∀ name v w, f.get? name = some v → g.get? name = some w →
        ∃ u, v.merge inheritance w = .ok u := by
  constructor
  · rintro ⟨r, hmerges⟩
    refine ⟨⟨r.stack, hmerges.stack⟩, fun name v w hv hw => ?_⟩
    have hjoins := hmerges.locals name
    rw [hv, hw] at hjoins
    generalize r.get? name = x at hjoins
    cases hjoins with
    | both hu => exact ⟨_, hu⟩
  · rintro ⟨⟨stack, hstack⟩, hvariables⟩
    cases hlocals : f.locals.merge inheritance g.locals with
    | mk locals error =>
      cases error with
      | none => exact ⟨⟨locals, stack⟩, hstack, Locals.joins_of_merge hlocals⟩
      | some e =>
        obtain ⟨name, v, w, hv, hw, herror⟩ := Locals.exists_error_of_merge hlocals
        obtain ⟨u, hu⟩ := hvariables name v w hv hw
        rw [hu] at herror
        cases herror

/-- A merge of stacks of one height fails only for want of a class. -/
theorem merge_of_not_merges (hlength : f.stack.length = g.stack.length)
    (hnot : ¬ ∃ r, f.Merges inheritance g r) :
    ∃ c, (f.merge inheritance g).2 = .error (.missingClass c) := by
  rw [merge, mergeParts, if_neg (not_not_intro hlength)]
  cases hstack : mergeStacks inheritance f.stack g.stack with
  | mk stack error =>
    cases error with
    | some c => exact ⟨c, rfl⟩
    | none =>
      cases hlocals : f.locals.merge inheritance g.locals with
      | mk locals error =>
        cases error with
        | some c => exact ⟨c, rfl⟩
        | none =>
          have hstacks := (mergeStacks_eq_none_iff hlength).1 hstack
          exact absurd ⟨⟨locals, stack⟩, hstacks, Locals.joins_of_merge hlocals⟩ hnot

theorem merge_of_length_ne (hlength : f.stack.length ≠ g.stack.length) :
    f.merge inheritance g =
      (f, .error (.heightMismatch f.stack.length g.stack.length)) := by
  rw [merge, mergeParts, if_pos hlength]

end Frame

end MethodLocals
