import Mathlib.Logic.Relation

/-! Counting what an acyclic relation leads to. On a finite list the count goes down with every
step, which bounds how many steps there can be. -/

namespace MethodLocals

variable {α β : Type} {r : β → β → Prop} {key : α → β} {l : List α} {b c : β}

open Classical in
noncomputable def countAbove (r : β → β → Prop) (key : α → β) (l : List α) (b : β) : Nat :=
  l.countP fun x => Relation.TransGen r b (key x)

theorem countP_lt {p q : α → Bool} (himp : ∀ x ∈ l, p x = true → q x = true) {x : α} (hx : x ∈ l)
    (hq : q x = true) (hp : p x = false) : l.countP p < l.countP q := by
  induction l with
  | nil => cases hx
  | cons y ys ih =>
    rw [List.forall_mem_cons] at himp
    have hle : ys.countP p ≤ ys.countP q := List.countP_mono_left himp.2
    rw [List.countP_cons, List.countP_cons]
    rcases List.mem_cons.1 hx with rfl | hmem
    · simp only [hp, hq, if_true]
      simp only [Bool.false_eq_true, if_false]
      omega
    · have hlt := ih himp.2 hmem
      by_cases hy : p y = true
      · rw [if_pos hy, if_pos (himp.1 hy)]
        omega
      · rw [if_neg hy]
        omega

open Classical in
theorem countAbove_lt (hacyclic : ∀ b, ¬ Relation.TransGen r b b)
    (hbc : Relation.TransGen r b c) {x : α} (hx : x ∈ l) (hkey : key x = c) :
    countAbove r key l c < countAbove r key l b := by
  refine countP_lt (fun y _ hy => ?_) hx ?_ ?_
  · exact decide_eq_true (hbc.trans (of_decide_eq_true hy))
  · exact decide_eq_true (hkey ▸ hbc)
  · exact decide_eq_false (hkey ▸ hacyclic c)

open Classical in
theorem countAbove_lt_length (hacyclic : ∀ b, ¬ Relation.TransGen r b b) {x : α} (hx : x ∈ l)
    (hkey : key x = b) : countAbove r key l b < l.length := by
  have hlt : countAbove r key l b < l.countP fun _ => true :=
    countP_lt (fun _ _ _ => rfl) hx rfl (decide_eq_false (hkey ▸ hacyclic b))
  rwa [List.countP_true] at hlt

end MethodLocals
