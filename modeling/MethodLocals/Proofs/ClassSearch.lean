import Mathlib.Logic.Relation
import MethodLocals.ClassGraph

/-! The search for a super type follows the edges of known classes and nothing else. It meets each
type once, so its answers are exact on every finite graph. -/

namespace MethodLocals.ClassGraph

variable {g : ClassGraph} {toInterface : Bool} {a b : BinaryName}

def Knows (g : ClassGraph) (name : BinaryName) : Prop := ∃ c, g.find? name = some c

/-- `b` stands right above `a`, which is known. -/
def Edge (g : ClassGraph) (toInterface : Bool) (a b : BinaryName) : Prop :=
  ∃ c, g.find? a = some c ∧ b ∈ c.edges toInterface

def Reaches (g : ClassGraph) (toInterface : Bool) : BinaryName → BinaryName → Prop :=
  Relation.ReflTransGen (g.Edge toInterface)

theorem mem_classes_of_find? {d : ClassInfo} (h : g.find? a = some d) :
    d ∈ g.classes ∧ d.name = a := by
  unfold find? at h
  exact ⟨List.mem_of_find?_eq_some h, by simpa using List.find?_some h⟩

theorem edge_true_iff : g.Edge true a b ↔
    ∃ c, g.find? a = some c ∧ (c.superclass = some b ∨ b ∈ c.interfaces) := by
  simp [Edge, ClassInfo.edges, ClassInfo.superTypes]

theorem edge_false_iff : g.Edge false a b ↔ ∃ c, g.find? a = some c ∧ c.superclass = some b := by
  simp [Edge, ClassInfo.edges]

theorem Edge.toTrue (h : g.Edge toInterface a b) : g.Edge true a b := by
  cases toInterface with
  | true => exact h
  | false =>
    obtain ⟨c, hc, hb⟩ := edge_false_iff.1 h
    exact edge_true_iff.2 ⟨c, hc, .inl hb⟩

theorem Reaches.toTrue (h : g.Reaches toInterface a b) :
    g.Reaches true a b := by
  induction h with
  | refl => exact .refl
  | tail _ hedge ih => exact ih.tail hedge.toTrue

theorem mem_superTypes_of_mem_edges {d : ClassInfo} (h : a ∈ d.edges toInterface) :
    a ∈ d.superTypes := by
  unfold ClassInfo.edges at h
  split at h
  · exact h
  · exact List.mem_append_left _ h

theorem mem_targets_of_find? {d : ClassInfo} (hd : g.find? b = some d) (h : a ∈ d.superTypes) :
    a ∈ g.targets := List.mem_flatMap.2 ⟨d, (mem_classes_of_find? hd).1, h⟩

theorem mem_pending_enqueue {names pending unmet : List BinaryName} {x : BinaryName} :
    x ∈ (enqueue names pending unmet).1 ↔ x ∈ pending ∨ (x ∈ names ∧ x ∈ unmet) := by
  induction names generalizing pending unmet with
  | nil => simp [enqueue]
  | cons name names ih =>
    unfold enqueue
    by_cases hx : x = name
    · subst hx
      by_cases hmem : x ∈ unmet <;> simp [hmem, ih]
    · split <;> simp [ih, hx]

theorem mem_unmet_enqueue {names pending unmet : List BinaryName} {x : BinaryName} :
    x ∈ (enqueue names pending unmet).2 ↔ x ∈ unmet ∧ x ∉ names := by
  induction names generalizing pending unmet with
  | nil => simp [enqueue]
  | cons name names ih =>
    unfold enqueue
    by_cases hx : x = name
    · subst hx
      by_cases hmem : x ∈ unmet <;> simp [hmem, ih]
    · split <;> simp [ih, hx]

/-- What the search meets next is pending already or one edge further. -/
theorem exists_reaches_of_enqueue {name m : BinaryName} {c : ClassInfo}
    {rest unmet : List BinaryName} (hc : g.find? name = some c)
    (h : ∃ p ∈ (enqueue (c.edges toInterface) rest unmet).1, g.Reaches toInterface p m) :
    ∃ p ∈ name :: rest, g.Reaches toInterface p m := by
  obtain ⟨p, hp, hreach⟩ := h
  rcases mem_pending_enqueue.1 hp with hp | ⟨hp, -⟩
  · exact ⟨p, List.mem_cons_of_mem _ hp, hreach⟩
  · exact ⟨name, List.mem_cons_self, hreach.head ⟨c, hc, hp⟩⟩

theorem reaches_of_search_eq_true {target : BinaryName} {pending unmet : List BinaryName}
    (h : g.search toInterface target pending unmet = .ok true) :
    ∃ p ∈ pending, g.Reaches toInterface p target := by
  fun_induction search g toInterface target pending unmet with
  | case1 => simp at h
  | case2 name => exact ⟨target, List.mem_cons_self, .refl⟩
  | case3 => simp at h
  | case4 unmet name rest _ c hc next ih => exact exists_reaches_of_enqueue hc (ih h)

theorem missing_of_search_eq_error {target : BinaryName} {pending unmet : List BinaryName}
    {e : MissingClass} (h : g.search toInterface target pending unmet = .error e) :
    ¬ g.Knows e.name ∧ ∃ p ∈ pending, g.Reaches toInterface p e.name := by
  fun_induction search g toInterface target pending unmet with
  | case1 => simp at h
  | case2 => simp at h
  | case3 unmet name rest _ hnone =>
    obtain rfl : ⟨name⟩ = e := by simpa using h
    refine ⟨?_, name, List.mem_cons_self, .refl⟩
    rintro ⟨c, hc⟩
    rw [hnone] at hc
    cases hc
  | case4 unmet name rest _ c hc next ih => exact ⟨(ih h).1, exists_reaches_of_enqueue hc (ih h).2⟩

/-- The types in a set are known, the target is not among them, and the edges from them stay in a
larger set. -/
structure Explored (g : ClassGraph) (toInterface : Bool) (target : BinaryName)
    (seen met : BinaryName → Prop) : Prop where
  known : ∀ n, seen n → g.Knows n
  ne : ∀ n, seen n → n ≠ target
  edge : ∀ n m, seen n → g.Edge toInterface n m → met m

theorem Explored.closed {target a b : BinaryName} {all : BinaryName → Prop}
    (h : g.Explored toInterface target all all) (ha : all a) (hab : g.Reaches toInterface a b) :
    all b := by
  induction hab with
  | refl => exact ha
  | tail _ hedge ih => exact h.edge _ _ ih hedge

/-- A search that fails has seen everything that can be reached. -/
theorem explored_of_search_eq_false {target : BinaryName} {pending unmet : List BinaryName}
    (h : g.search toInterface target pending unmet = .ok false) (seen : BinaryName → Prop)
    (hseen : g.Explored toInterface target seen fun m => seen m ∨ m ∈ pending)
    (hunmet : ∀ n m, g.Edge toInterface n m → m ∈ unmet ∨ seen m ∨ m ∈ pending) :
    ∃ all, g.Explored toInterface target all all ∧ (∀ n, seen n → all n) ∧
      ∀ p ∈ pending, all p := by
  fun_induction search g toInterface target pending unmet generalizing seen with
  | case1 =>
    refine ⟨seen, ⟨hseen.known, hseen.ne, fun n m hn hm => ?_⟩, fun _ hn => hn, by simp⟩
    simpa using hseen.edge n m hn hm
  | case2 => simp at h
  | case3 => simp at h
  | case4 unmet name rest hne c hc next ih =>
    have hpending : ∀ m, m ∈ next.1 ↔ m ∈ rest ∨ (m ∈ c.edges toInterface ∧ m ∈ unmet) :=
      fun m => mem_pending_enqueue
    have hold : ∀ m, seen m ∨ m ∈ name :: rest → (seen m ∨ m = name) ∨ m ∈ next.1 := by
      intro m hm
      rw [hpending]
      rcases hm with hm | hm
      · exact .inl (.inl hm)
      · rcases List.mem_cons.1 hm with rfl | hm
        · exact .inl (.inr rfl)
        · exact .inr (.inl hm)
    have hseen' : g.Explored toInterface target (fun m => seen m ∨ m = name)
        fun m => (seen m ∨ m = name) ∨ m ∈ next.1 := by
      refine ⟨?_, ?_, ?_⟩
      · rintro n (hn | rfl)
        · exact hseen.known n hn
        · exact ⟨c, hc⟩
      · rintro n (hn | rfl)
        · exact hseen.ne n hn
        · exact hne
      · rintro n m (hn | rfl) hm
        · exact hold m (hseen.edge n m hn hm)
        · rcases hunmet n m hm with hu | hm'
          · obtain ⟨d, hd, hmem⟩ := hm
            rw [hc, Option.some.injEq] at hd
            exact .inr ((hpending m).2 (.inr ⟨hd ▸ hmem, hu⟩))
          · exact hold m hm'
    have hunmet' : ∀ n m, g.Edge toInterface n m →
        m ∈ next.2 ∨ (seen m ∨ m = name) ∨ m ∈ next.1 := by
      intro n m hm
      rcases hunmet n m hm with hu | hm'
      · by_cases hedge : m ∈ c.edges toInterface
        · exact .inr (.inr ((hpending m).2 (.inr ⟨hedge, hu⟩)))
        · exact .inl (mem_unmet_enqueue.2 ⟨hu, hedge⟩)
      · exact .inr (hold m hm')
    obtain ⟨all, hall, hsub, hpend⟩ := ih h _ hseen' hunmet'
    refine ⟨all, hall, fun n hn => hsub n (.inl hn), ?_⟩
    intro p hp
    rcases List.mem_cons.1 hp with rfl | hp
    · exact hsub p (.inr rfl)
    · exact hpend p ((hpending p).2 (.inl hp))

def leadsToInterface (g : ClassGraph) (super : BinaryName) : Bool :=
  (g.find? super).elim false ClassInfo.isInterface

theorem isAssignable_self (g : ClassGraph) (name : BinaryName) :
    g.isAssignable name name = .ok true := by
  simp [isAssignable]

theorem isAssignable_object (g : ClassGraph) (name : BinaryName) :
    g.isAssignable name .object = .ok true := by
  simp [isAssignable]

/-- An answer that is yes has a way up to show for it. -/
theorem reaches_of_isAssignable {sub super : BinaryName} (h : g.isAssignable sub super = .ok true) :
    super = .object ∨ g.Reaches (g.leadsToInterface super) sub super := by
  unfold isAssignable at h
  split at h
  · rename_i heq
    rcases heq with rfl | rfl
    · exact .inr .refl
    · exact .inl rfl
  · split at h
    · cases h
    · rename_i c hc
      obtain ⟨p, hp, hreach⟩ := reaches_of_search_eq_true h
      rw [List.mem_singleton.1 hp] at hreach
      rw [leadsToInterface, hc]
      exact .inr hreach

/-- An answer that is no has explored everything above the type. -/
theorem explored_of_isAssignable {sub super : BinaryName} (h : g.isAssignable sub super = .ok false) :
    super ≠ .object ∧
      ∃ all, g.Explored (g.leadsToInterface super) super all all ∧ all sub := by
  unfold isAssignable at h
  split at h
  · cases h
  · rename_i hne
    split at h
    · cases h
    · rename_i c hc
      rw [leadsToInterface, hc]
      have htargets : ∀ n m, g.Edge c.isInterface n m →
          m ∈ g.targets.filter (· ≠ sub) ∨ False ∨ m ∈ [sub] := by
        rintro n m ⟨d, hd, hm⟩
        by_cases hms : m = sub
        · exact .inr (.inr (by simp [hms]))
        · have hmem := mem_targets_of_find? hd (mem_superTypes_of_mem_edges hm)
          exact .inl (List.mem_filter.2 ⟨hmem, by simpa using hms⟩)
      obtain ⟨all, hall, -, hsub⟩ := explored_of_search_eq_false h (fun _ => False)
        ⟨fun _ hn => hn.elim, fun _ hn => hn.elim, fun _ _ hn => hn.elim⟩ htargets
      exact ⟨fun e => hne (.inr e), all, hall, hsub sub (by simp)⟩

theorem not_reaches_of_isAssignable {sub super : BinaryName}
    (h : g.isAssignable sub super = .ok false) :
    super ≠ .object ∧ ¬ g.Reaches (g.leadsToInterface super) sub super := by
  obtain ⟨hne, all, hall, hsub⟩ := explored_of_isAssignable h
  exact ⟨hne, fun hreach => hall.ne super (hall.closed hsub hreach) rfl⟩

theorem knows_of_reaches_of_isAssignable {sub super name : BinaryName}
    (h : g.isAssignable sub super = .ok false)
    (hreach : g.Reaches (g.leadsToInterface super) sub name) : g.Knows name := by
  obtain ⟨-, all, hall, hsub⟩ := explored_of_isAssignable h
  exact hall.known name (hall.closed hsub hreach)

theorem missing_of_isAssignable {sub super : BinaryName} {e : MissingClass}
    (h : g.isAssignable sub super = .error e) :
    ¬ g.Knows e.name ∧
      (e.name = super ∨ g.Reaches (g.leadsToInterface super) sub e.name) := by
  unfold isAssignable at h
  split at h
  · cases h
  · split at h
    · rename_i hnone
      obtain rfl : ⟨super⟩ = e := by simpa using h
      refine ⟨?_, .inl rfl⟩
      rintro ⟨c, hc⟩
      rw [hnone] at hc
      cases hc
    · rename_i c hc
      obtain ⟨hmissing, p, hp, hreach⟩ := missing_of_search_eq_error h
      rw [List.mem_singleton.1 hp] at hreach
      rw [leadsToInterface, hc]
      exact ⟨hmissing, .inr hreach⟩

end MethodLocals.ClassGraph
