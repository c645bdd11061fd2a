import MethodLocals.Value

/-! The local variables of a frame, by name. The entries are kept in the order of their names, so
two sets of locals that hold the same values are equal. -/

namespace MethodLocals

structure Locals where
  entries : List (String × Value)
  sorted : (entries.map Prod.fst).Pairwise (· < ·)
  deriving DecidableEq

namespace Locals

def empty : Locals := ⟨[], .nil⟩

def get? (l : Locals) (name : String) : Option Value := l.entries.lookup name

def names (l : Locals) : List String := l.entries.map Prod.fst

def setEntry (name : String) (value : Value) : List (String × Value) → List (String × Value)
  | [] => [(name, value)]
  | (other, held) :: rest =>
    if name < other then (name, value) :: (other, held) :: rest
    else if name = other then (name, value) :: rest
    else (other, held) :: setEntry name value rest

theorem mem_names_setEntry {name other : String} {value : Value} {l : List (String × Value)} :
    other ∈ (setEntry name value l).map Prod.fst ↔ other = name ∨ other ∈ l.map Prod.fst := by
  induction l with
  | nil => simp [setEntry]
  | cons entry rest ih =>
    obtain ⟨first, held⟩ := entry
    rw [setEntry]
    split
    · simp
    · split
      · simp_all
      · simp only [List.map_cons, List.mem_cons, ih]
        grind

theorem sorted_setEntry (name : String) (value : Value) {l : List (String × Value)}
    (h : (l.map Prod.fst).Pairwise (· < ·)) :
    ((setEntry name value l).map Prod.fst).Pairwise (· < ·) := by
  induction l with
  | nil => simp [setEntry]
  | cons entry rest ih =>
    obtain ⟨first, held⟩ := entry
    simp only [List.map_cons, List.pairwise_cons] at h
    rw [setEntry]
    split
    · rename_i hlt
      simp only [List.map_cons, List.pairwise_cons, List.mem_cons, forall_eq_or_imp]
      exact ⟨⟨hlt, fun x hx => String.lt_trans hlt (h.1 x hx)⟩, h⟩
    · split
      · rename_i heq
        subst heq
        simpa using h
      · rename_i hnlt hne
        simp only [List.map_cons, List.pairwise_cons, mem_names_setEntry, forall_eq_or_imp]
        refine ⟨⟨?_, h.1⟩, ih h.2⟩
        exact String.not_le.1 fun hle => hne (String.le_antisymm hle (String.not_lt.1 hnlt))

def set (l : Locals) (name : String) (value : Value) : Locals :=
  ⟨setEntry name value l.entries, sorted_setEntry name value l.sorted⟩

theorem lookup_eq_none_of_lt {name : String} {l : List (String × Value)}
    (h : ∀ other ∈ l.map Prod.fst, name < other) : l.lookup name = none := by
  rw [List.lookup_eq_none_iff]
  intro entry hmem
  have hlt := h entry.1 (List.mem_map_of_mem hmem)
  rw [bne_iff_ne]
  rintro rfl
  exact String.lt_irrefl _ hlt

theorem lookup_cons_eq_none_of_lt {name other : String} {value : Value}
    {l : List (String × Value)} (hlt : name < other) (h : ∀ x ∈ l.map Prod.fst, other < x) :
    ((other, value) :: l).lookup name = none := by
  apply lookup_eq_none_of_lt
  intro x hx
  rcases List.mem_cons.1 hx with rfl | hx
  · exact hlt
  · exact String.lt_trans hlt (h x hx)

theorem eq_of_lookup_eq {l m : List (String × Value)} (hl : (l.map Prod.fst).Pairwise (· < ·))
    (hm : (m.map Prod.fst).Pairwise (· < ·)) (h : ∀ name, l.lookup name = m.lookup name) :
    l = m := by
  induction l generalizing m with
  | nil =>
    cases m with
    | nil => rfl
    | cons entry rest =>
      obtain ⟨y, w⟩ := entry
      simpa using h y
  | cons first l ih =>
    obtain ⟨x, v⟩ := first
    cases m with
    | nil => simpa using h x
    | cons second m =>
      obtain ⟨y, w⟩ := second
      simp only [List.map_cons, List.pairwise_cons] at hl hm
      have hxy : x = y := by
        rcases Classical.em (x < y) with hlt | hnlt
        · have hx := h x
          rw [lookup_cons_eq_none_of_lt hlt hm.1] at hx
          simp at hx
        · rcases Classical.em (y < x) with hgt | hngt
          · have hy := h y
            rw [lookup_cons_eq_none_of_lt hgt hl.1] at hy
            simp at hy
          · exact String.le_antisymm (String.not_lt.1 hngt) (String.not_lt.1 hnlt)
      subst hxy
      have hvw : v = w := by simpa using h x
      subst hvw
      congr 1
      refine ih hl.2 hm.2 fun name => ?_
      rcases Classical.em (name = x) with rfl | hne
      · rw [lookup_eq_none_of_lt hl.1, lookup_eq_none_of_lt hm.1]
      · have hbeq : (name == x) = false := beq_eq_false_iff_ne.2 hne
        simpa [List.lookup_cons, hbeq] using h name

/-- Locals are determined by what their variables hold. -/
theorem eq_of_get?_eq {a b : Locals} (h : ∀ name, a.get? name = b.get? name) : a = b := by
  cases a with
  | mk l hl =>
    cases b with
    | mk m hm =>
      congr 1
      exact eq_of_lookup_eq hl hm h

def map (f : Value → Value) (l : Locals) : Locals :=
  ⟨l.entries.map fun (name, value) => (name, f value), by
    simpa [List.map_map, Function.comp_def] using l.sorted⟩

theorem lookup_setEntry (name other : String) (value : Value) (l : List (String × Value)) :
    (setEntry name value l).lookup other =
      if other = name then some value else l.lookup other := by
  induction l with
  | nil => simp only [setEntry, List.lookup_cons, List.lookup_nil]; grind
  | cons entry rest ih =>
    obtain ⟨first, held⟩ := entry
    rw [setEntry]
    split
    · simp only [List.lookup_cons]; grind
    · split
      · simp only [List.lookup_cons]; grind
      · simp only [List.lookup_cons, ih]; grind

theorem get?_set (l : Locals) (name other : String) (value : Value) :
    (l.set name value).get? other = if other = name then some value else l.get? other :=
  lookup_setEntry name other value l.entries

@[simp] theorem get?_set_self (l : Locals) (name : String) (value : Value) :
    (l.set name value).get? name = some value := by simp [get?_set]

theorem lookup_map (f : Value → Value) (name : String) (l : List (String × Value)) :
    (l.map fun (name, value) => (name, f value)).lookup name = (l.lookup name).map f := by
  induction l with
  | nil => rfl
  | cons entry rest ih =>
    obtain ⟨first, held⟩ := entry
    simp only [List.map_cons, List.lookup_cons]
    split
    · rfl
    · exact ih

@[simp] theorem get?_map (f : Value → Value) (l : Locals) (name : String) :
    (l.map f).get? name = (l.get? name).map f := lookup_map f name l.entries

/-- Changes entries one after the other, the first name first, and stops where a change fails; the
entries before that stay changed. -/
def updateEntries (change : String → Value → Except MissingClass Value) :
    List (String × Value) → List (String × Value) × Option MissingClass
  | [] => ([], none)
  | (name, value) :: rest =>
    match change name value with
    | .error e => ((name, value) :: rest, some e)
    | .ok changed =>
      let tail := updateEntries change rest
      ((name, changed) :: tail.1, tail.2)

theorem names_updateEntries (change : String → Value → Except MissingClass Value)
    (l : List (String × Value)) : (updateEntries change l).1.map Prod.fst = l.map Prod.fst := by
  induction l with
  | nil => rfl
  | cons entry rest ih =>
    obtain ⟨name, value⟩ := entry
    rw [updateEntries]
    split <;> simp [ih]

/-- What a variable holds where two frames meet; nothing is known of one that only one frame has. -/
def mergeEntry (inheritance : Option Inheritance) (other : Locals) (name : String)
    (value : Value) : Except MissingClass Value :=
  match other.get? name with
  | some incoming => value.merge inheritance incoming
  | none => .ok .top

/-- The locals where `other` flows in: own variables are merged, in the order of their names, and
then the variables that only `other` has are added, with nothing known of them. -/
def merge (inheritance : Option Inheritance) (l other : Locals) : Locals × Option MissingClass :=
  let updated := updateEntries (mergeEntry inheritance other) l.entries
  let own : Locals := ⟨updated.1, by rw [names_updateEntries]; exact l.sorted⟩
  match updated.2 with
  | some e => (own, some e)
  | none =>
    ((other.names.filter (l.get? · = none)).foldl (fun acc name => acc.set name .top) own, none)

end Locals

end MethodLocals
