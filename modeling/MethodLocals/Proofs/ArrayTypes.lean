import MethodLocals.Descriptor.Reader

/-! Array types and the types of their components. Making an array type and taking the type of its
components undo each other, as often as either is done, although an array type is not stored as
one type inside of another: its dimensions are counted, one less than there are. As the count is a
machine word, some types have the most dimensions that there can be, and making an array of one of
them starts over. That is all that goes wrong. -/

namespace MethodLocals

variable {r : RefType} {s t : FieldType} {n : Nat}

/-- How many dimensions a type has. There can be one more than a machine word holds. -/
def RefType.depth : RefType → Nat
  | .object _ => 0
  | .array extra _ => extra.toNat + 1

def FieldType.depth : FieldType → Nat
  | .base _ => 0
  | .ref r => r.depth

def FieldType.innermost : FieldType → ElementType
  | .base b => .base b
  | .ref (.object name) => .object name
  | .ref (.array _ element) => element

theorem FieldType.depth_le (t : FieldType) : t.depth ≤ UInt64.size := by
  rcases t with b | name | ⟨extra, element⟩
  · exact Nat.zero_le _
  · exact Nat.zero_le _
  · exact extra.toNat_lt_size

theorem toNat_sub_one_add_one {extra : UInt64} (h : extra ≠ 0) :
    (extra - 1).toNat + 1 = extra.toNat := by
  have hpos : 1 ≤ extra.toNat := Nat.one_le_iff_ne_zero.2 fun hzero => h (UInt64.toNat_inj.1 hzero)
  have hle : 1 ≤ extra := UInt64.le_iff_toNat_le.2 hpos
  rw [UInt64.toNat_sub_of_le extra 1 hle]
  exact Nat.sub_add_cancel hpos

namespace RefType

theorem depth_of_component (h : r.component = some t) : r.depth = t.depth + 1 := by
  rcases component_cases h with ⟨element, rfl, rfl⟩ | ⟨extra, element, hextra, rfl, rfl⟩
  · cases element <;> rfl
  · rw [FieldType.depth, depth, depth, toNat_sub_one_add_one hextra]

theorem arrayOf_of_component (h : r.component = some t) : arrayOf t = r := by
  rcases component_cases h with ⟨element, rfl, rfl⟩ | ⟨extra, element, -, rfl, rfl⟩
  · cases element <;> rfl
  · rw [arrayOf, UInt64.sub_add_cancel]

theorem component_arrayOf (h : t.depth < UInt64.size) : (arrayOf t).component = some t := by
  rcases t with b | name | ⟨extra, element⟩
  · rfl
  · rfl
  · have hsucc : (extra + 1).toNat = extra.toNat + 1 := by
      rw [UInt64.toNat_add]
      exact Nat.mod_eq_of_lt h
    have hextra : extra + 1 ≠ 0 := fun hzero => by simp [hzero] at hsucc
    rw [arrayOf, component, if_neg hextra, UInt64.add_sub_cancel]

/-- An array type is told by the type of its components, and that is any type but those that have
the most dimensions. -/
theorem component_eq_some_iff :
    r.component = some t ↔ arrayOf t = r ∧ t.depth < UInt64.size := by
  constructor
  · intro h
    have hle := (FieldType.ref r).depth_le
    have hdepth := depth_of_component h
    exact ⟨arrayOf_of_component h, by simp only [FieldType.depth] at hle; omega⟩
  · rintro ⟨rfl, h⟩
    exact component_arrayOf h

theorem component_eq_none_iff : r.component = none ↔ ∃ name, r = .object name := by
  rcases r with name | ⟨extra, element⟩
  · simp [component]
  · simp only [component, reduceCtorEq, exists_false, iff_false]
    split <;> simp

theorem isArray_iff : r.isArray = true ↔ ∃ t, r.component = some t := by
  cases h : r.component with
  | none =>
    obtain ⟨name, rfl⟩ := component_eq_none_iff.1 h
    simp [isArray]
  | some t =>
    cases r with
    | object name => cases h
    | array extra element => simp [isArray]

theorem depth_arrayOf (h : t.depth < UInt64.size) : (arrayOf t).depth = t.depth + 1 :=
  depth_of_component (component_arrayOf h)

end RefType

namespace FieldType

theorem component_eq_some_iff :
    t.component = some s ↔ .ref (.arrayOf s) = t ∧ s.depth < UInt64.size := by
  cases t with
  | base b => simp [component]
  | ref r => simp [component, RefType.component_eq_some_iff]

theorem wrap_succ (t : FieldType) (n : Nat) : t.wrap (n + 1) = .ref (.arrayOf (t.wrap n)) := by
  induction n generalizing t with
  | zero => rfl
  | succ n ih => exact ih _

theorem depth_wrap (h : n + t.depth ≤ UInt64.size) : (t.wrap n).depth = n + t.depth := by
  induction n with
  | zero => rw [wrap, Nat.zero_add]
  | succ n ih =>
    have hn := ih (by omega)
    have hnext : (t.wrap (n + 1)).depth = (t.wrap n).depth + 1 := by
      rw [wrap_succ]
      exact RefType.depth_arrayOf (by omega)
    omega

/-- Dimensions are not lost unless there are too many. -/
theorem depth_wrap_iff : (t.wrap n).depth = n + t.depth ↔ n + t.depth ≤ UInt64.size :=
  ⟨fun h => h ▸ depth_le _, depth_wrap⟩

def unwrap (t : FieldType) : Nat → Option FieldType
  | 0 => some t
  | n + 1 => t.component.bind (·.unwrap n)

/-- Taking component types and making arrays of what is left undo each other. -/
theorem unwrap_eq_some_iff :
    t.unwrap n = some s ↔ n + s.depth ≤ UInt64.size ∧ s.wrap n = t := by
  induction n generalizing t with
  | zero => simp [unwrap, wrap, s.depth_le, eq_comm]
  | succ n ih =>
    rw [unwrap, wrap_succ, Option.bind_eq_some_iff]
    simp only [component_eq_some_iff, ih]
    constructor
    · rintro ⟨u, ⟨rfl, hlt⟩, hle, rfl⟩
      rw [depth_wrap hle] at hlt
      exact ⟨by omega, rfl⟩
    · rintro ⟨hle, rfl⟩
      have hn : n + s.depth ≤ UInt64.size := by omega
      exact ⟨s.wrap n, ⟨rfl, by rw [depth_wrap hn]; omega⟩, hn, rfl⟩

theorem dimensions_eq (t : FieldType) : t.dimensions = .ofNat t.depth := by
  rcases t with b | name | ⟨extra, element⟩
  · rfl
  · rfl
  · show extra + 1 = .ofNat (extra.toNat + 1)
    rw [UInt64.ofNat_add, UInt64.ofNat_toNat]
    rfl

theorem dimensions_toNat (h : t.depth < UInt64.size) : t.dimensions.toNat = t.depth := by
  rw [dimensions_eq, UInt64.toNat_ofNat_of_lt' h]

theorem dimensions_wrap_iff :
    (t.wrap n).dimensions.toNat = n + t.depth ↔ n + t.depth < UInt64.size := by
  constructor
  · intro h
    exact h ▸ UInt64.toNat_lt_size _
  · intro h
    have hdepth := depth_wrap (Nat.le_of_lt h)
    rw [dimensions_toNat (hdepth ▸ h), hdepth]

theorem innermost_wrap (t : FieldType) (n : Nat) : (t.wrap n).innermost = t.innermost := by
  induction n with
  | zero => rfl
  | succ n ih =>
    rw [wrap_succ, ← ih]
    rcases t.wrap n with b | name | ⟨extra, element⟩ <;> rfl

theorem chars_eq (t : FieldType) : t.chars = List.replicate t.depth '[' ++ t.innermost.chars := by
  rcases t with b | name | ⟨extra, element⟩ <;> rfl

theorem chars_wrap_iff :
    (t.wrap n).chars = List.replicate n '[' ++ t.chars ↔ n + t.depth ≤ UInt64.size := by
  rw [chars_eq, chars_eq t, innermost_wrap, ← List.append_assoc, List.replicate_append_replicate,
    List.append_left_inj, ← depth_wrap_iff]
  exact ⟨fun h => by simpa using congrArg List.length h, fun h => by rw [h]⟩

theorem componentChain_of_component (h : t.component = some s) :
    t.componentChain = s :: s.componentChain := by
  cases t with
  | base b => cases h
  | ref r =>
    rcases RefType.component_cases h with ⟨element, rfl, rfl⟩ | ⟨extra, element, hextra, rfl, rfl⟩
    · cases element <;> rfl
    · rw [componentChain, ← toNat_sub_one_add_one hextra, ElementType.wrappings, UInt64.ofNat_toNat,
        componentChain]

theorem componentChain_of_component_eq_none (h : t.component = none) : t.componentChain = [] := by
  rcases t with b | r
  · rfl
  · obtain ⟨name, rfl⟩ := RefType.component_eq_none_iff.1 h
    rfl

/-- What the chain holds is what is left after one step, two steps and so on. -/
theorem getElem?_componentChain (t : FieldType) (n : Nat) :
    t.componentChain[n]? = t.unwrap (n + 1) := by
  induction n generalizing t with
  | zero =>
    rw [unwrap]
    cases h : t.component with
    | none => rw [componentChain_of_component_eq_none h]; rfl
    | some s => rw [componentChain_of_component h]; rfl
  | succ n ih =>
    rw [unwrap]
    cases h : t.component with
    | none => rw [componentChain_of_component_eq_none h]; rfl
    | some s => rw [componentChain_of_component h, List.getElem?_cons_succ, ih]; rfl

/-- What making arrays `n` times comes to. The component types on the way back lead to the type itself
if the dimensions can be counted at all, and the text has one bracket more for each; to tell their
number a machine word must hold it. -/
structure Unwraps (t : FieldType) (n : Nat) : Prop where
  unwrap_iff : ∀ s, s.unwrap n = some t ↔ n + t.depth ≤ UInt64.size ∧ s = t.wrap n
  dimensions_eq : n + t.depth < UInt64.size →
    (t.wrap n).dimensions.toNat = n + t.dimensions.toNat
  dimensions_iff : (t.wrap n).dimensions.toNat = n + t.depth ↔ n + t.depth < UInt64.size
  render_iff : Descriptor.render (t.wrap n) =
    String.ofList (List.replicate n '[') ++ Descriptor.render t ↔ n + t.depth ≤ UInt64.size
  listed : t.componentChain[n]? = t.unwrap (n + 1)

theorem unwraps (t : FieldType) (n : Nat) : t.Unwraps n where
  unwrap_iff s := by rw [unwrap_eq_some_iff, eq_comm (a := s)]
  dimensions_eq h := by
    have ht : t.depth < UInt64.size := Nat.lt_of_le_of_lt (Nat.le_add_left _ n) h
    rw [dimensions_toNat ht]
    exact dimensions_wrap_iff.2 h
  dimensions_iff := dimensions_wrap_iff
  render_iff := by
    rw [Descriptor.render, Descriptor.render, ← String.ofList_append, String.ofList_inj]
    exact chars_wrap_iff
  listed := getElem?_componentChain t n

end FieldType

/-- A type is an array type if it is made of the type of its components; all others are classes, and
have none. -/
structure RefType.Rewraps (r : RefType) : Prop where
  isArray_iff : r.isArray = true ↔ ∃ t, r.component = some t ∧ arrayOf t = r
  component_iff : ∀ t, r.component = some t ↔ arrayOf t = r ∧ t.depth < UInt64.size
  component_none_iff : r.component = none ↔ ∃ name, r = .object name

/-- Making array types and taking component types are exact inverses, however often it is done, up to
the types that have as many dimensions as can be counted. -/
theorem arrays_undo_components (t : FieldType) (n : Nat) (r : RefType) :
    t.Unwraps n ∧ r.Rewraps := by
  refine ⟨t.unwraps n, ?_, fun _ => RefType.component_eq_some_iff, RefType.component_eq_none_iff⟩
  rw [RefType.isArray_iff]
  exact exists_congr fun t => ⟨fun h => ⟨h, RefType.arrayOf_of_component h⟩, And.left⟩

/-- An array of the type with the most dimensions has only one. -/
theorem not_forall_arrays_unwrap : ¬ ∀ (t : FieldType) (n : Nat), 1 ≤ n →
    (t.wrap n).unwrap n = some t ∧
      (t.wrap n).dimensions.toNat = n + t.dimensions.toNat ∧
      Descriptor.render (t.wrap n) =
        String.ofList (List.replicate n '[') ++ Descriptor.render t := by
  intro h
  have hunwrap := (h (.ref (.array 18446744073709551615 (.base .int))) 1 (Nat.le_refl 1)).1
  revert hunwrap
  decide

end MethodLocals
