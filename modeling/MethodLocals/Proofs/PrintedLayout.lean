import MethodLocals.Layout
import MethodLocals.Proofs.FreshSlots
import MethodLocals.Proofs.InStep
import MethodLocals.Proofs.ParameterLayout
import MethodLocals.Proofs.RoundTrip

/-! The printed layout of a method. Whatever names the parameters are given, each of them takes a slot
of its own and keeps its record, so that there is one row for each of them and one for the receiver,
and the rows come in the order in which they are declared. -/

namespace MethodLocals

namespace Layout

structure Entry where
  slot : Nat
  name : String
  type : FieldType
  deriving DecidableEq

def blanks (n : Nat) : String := String.ofList (List.replicate n ' ')

/-- The slot stands at the right of its column and the name at the left of its own. A name that is
longer than the column is not cut, and longs and doubles are marked as wide. -/
def Entry.text (e : Entry) : String :=
  let slot := toString e.slot
  blanks (5 - slot.length) ++ slot ++ "  " ++ (e.name ++ blanks (24 - e.name.length)) ++ " " ++
    Descriptor.render e.type ++
      if e.type = .base .long ∨ e.type = .base .double then " (wide)" else ""

def sideBySide (slot : Nat) : List Parameter → List Entry
  | [] => []
  | p :: rest => ⟨slot, p.name, p.type⟩ :: sideBySide (slot + p.type.width) rest

/-- The receiver, if there is one, and the parameters. The first ones have the given names, and the
other ones are called by their positions. -/
def declared (owner : BinaryName) (isStatic : Bool) (types : List FieldType)
    (names : List String) : List Parameter :=
  (if isStatic then [] else [⟨receiverName, .object owner⟩]) ++
    types.mapIdx fun k type => ⟨if hk : k < names.length then names[k] else s!"arg{k}", type⟩

end Layout

variable {us : List Use} {t : Table}

def Use.declares (u : Use) : Parameter := ⟨u.name, u.type⟩

def Use.entry (u : Use) : Layout.Entry := ⟨u.slot, u.name, u.type⟩

theorem Chosen.slot_eq_totalWidth (h : Chosen us)
    (hbinds : ∀ u ∈ us, u.occurrence.binds = true) {i : Nat} {u : Use} (hu : us[i]? = some u) :
    u.slot = totalWidth ((us.map Use.type).take i) := by
  induction i using Nat.strong_induction_on generalizing u with
  | _ i ih =>
    have hend : ∀ j v, j < i → us[j]? = some v →
        v.slot + v.type.width = totalWidth ((us.map Use.type).take (j + 1)) := by
      intro j v hj hv
      rw [ih j hj hv, List.take_add_one, List.getElem?_map, hv, totalWidth_append]
      rfl
    cases h i u hu with
    | again hnot =>
      rw [hbinds u (List.mem_of_getElem? hu)] at hnot
      cases hnot
    | fresh _ hafter htouches =>
      -- The use touches one of those before it, and it lies behind the last one of them.
      apply Nat.le_antisymm
      · by_cases hzero : u.slot = 0
        · omega
        · obtain ⟨v, hv, htouch⟩ := htouches hzero
          obtain ⟨j, hj⟩ := List.mem_iff_getElem?.1 hv
          rw [List.getElem?_take] at hj
          split at hj
          · rename_i hji
            rw [← htouch, hend j v hji hj]
            exact totalWidth_take_mono hji
          · cases hj
      · cases i with
        | zero => exact Nat.zero_le _
        | succ i =>
          have hlt : i < us.length := by
            have hlt := (List.getElem?_eq_some_iff.1 hu).1
            omega
          have hlast := List.getElem?_eq_getElem hlt
          rw [← hend i us[i] (Nat.lt_succ_self i) hlast]
          refine hafter us[i] (List.mem_iff_getElem?.2 ⟨i, ?_⟩)
          rw [List.getElem?_take_of_lt (Nat.lt_succ_self i), hlast]

theorem map_entry_eq_sideBySide {slot : Nat} (hslots : ∀ i u, us[i]? = some u →
    u.slot = slot + totalWidth ((us.map Use.type).take i)) :
    us.map Use.entry = Layout.sideBySide slot (us.map Use.declares) := by
  induction us generalizing slot with
  | nil => rfl
  | cons u us ih =>
    have hslot : u.slot = slot := hslots 0 u rfl
    rw [List.map_cons, List.map_cons, Layout.sideBySide, Use.entry, hslot]
    refine congrArg _ (ih fun i v hv => ?_)
    rw [hslots (i + 1) v hv, List.map_cons, List.take_succ_cons, Nat.add_assoc]
    rfl

namespace Table

theorem place_of_fresh {u : Use} {records : List Record}
    (hfresh : ∀ r ∈ records, r.slot ≠ u.slot) : place u records = records ++ [.ofUse u] := by
  induction records with
  | nil => rfl
  | cons r rest ih =>
    rw [List.forall_mem_cons] at hfresh
    rw [place, if_neg hfresh.1, ih hfresh.2, List.cons_append]

theorem Built.records_eq (h : Built us t) (hslots : us.Pairwise (·.slot < ·.slot)) :
    t.records = us.map Record.ofUse := by
  induction h with
  | empty => rfl
  | @use us t t' u _ hu ih =>
    rw [List.pairwise_append] at hslots
    obtain ⟨hbefore, -, hbelow⟩ := hslots
    obtain ⟨-, -, rfl⟩ := use_eq_ok_iff.1 hu
    change place u t.records = _
    rw [ih hbefore, List.map_append]
    refine place_of_fresh fun r hr => ?_
    obtain ⟨v, hv, rfl⟩ := List.mem_map.1 hr
    exact Nat.ne_of_lt (hbelow v hv u List.mem_cons_self)
  | stage _ _ ih => exact ih hslots

/-- Receiver and parameters that fit are all bound, and take the slots that the descriptor asks
for. -/
theorem exists_bound_of_fits (h : Header) (hfits : h.parameterLength ≤ localLimit) :
    ∃ t₁ t, empty.bindReceiver h = (t₁, .done) ∧ t₁.bindParameters h.parameters = (t, .done) ∧
      t.maxLocals = h.parameterLength := by
  obtain ⟨t₁, hreceiver, hstage, hseats⟩ := exists_seats_bindReceiver h
  have hzero : h.parameterSlot 0 ≤ localLimit := Nat.le_trans (h.parameterSlot_le 0) hfits
  have hrun := runPass_of_stage .parameters Table.bindParameter hstage h.parameters.zipIdx
  rcases hseats.steps hzero with ⟨-, t, ht, hall⟩ | ⟨k, p, t, hp, -, hfull, -⟩
  · rw [List.drop_zero] at ht
    rw [ht] at hrun
    exact ⟨t₁, _, hreceiver, hrun,
      hall.next_eq.trans (Header.parameterSlot_of_length_le (Nat.le_refl _))⟩
  · have hle := h.parameterSlot_le (k + 1)
    rw [Header.parameterSlot_succ hp] at hle
    omega

end Table

namespace Layout

theorem pushn_eq_append_blanks (text : String) (n : Nat) : text.pushn ' ' n = text ++ blanks n := by
  rw [← String.toList_inj, String.toList_append, blanks, String.toList_ofList]
  induction n with
  | zero =>
    rw [List.replicate_zero, List.append_nil]
    rfl
  | succ n ih =>
    change ((text.pushn ' ' n).push ' ').toList = _
    rw [String.toList_push, ih, List.replicate_succ', List.append_assoc]

theorem padLeft_eq (width : Nat) (text : String) :
    padLeft width text = blanks (width - text.length) ++ text := by
  rw [padLeft, pushn_eq_append_blanks, String.empty_append]

theorem padRight_eq (width : Nat) (text : String) :
    padRight width text = text ++ blanks (width - text.length) :=
  pushn_eq_append_blanks text _

theorem row_ofUse (u : Use) : row (.ofUse u) = u.entry.text := by
  have hwide : u.isWide = true ↔ u.type = .base .long ∨ u.type = .base .double := by
    rw [u.isWide_iff, FieldType.width_eq_two_iff]
  have hmark : (if u.isWide then " (wide)" else "") =
      if u.type = .base .long ∨ u.type = .base .double then " (wide)" else "" :=
    if_congr hwide rfl rfl
  rw [row, Entry.text, Use.entry, Record.ofUse, hmark, Use.usage, padLeft_eq, padRight_eq]

variable {owner : BinaryName} {isStatic : Bool} {d : MethodDescriptor} {names : List String}

theorem isStatic_header : (header owner isStatic d names).isStatic = isStatic := by
  have hflags : ∀ isStatic : Bool, (MethodFlags.ofList
      (MethodFlag.public :: if isStatic then [MethodFlag.static] else [])).isStatic = isStatic := by
    decide
  exact hflags isStatic

theorem descriptor_header : (header owner isStatic d names).descriptor = d := by
  have htypes : (nameParameters d.parameters names).map Parameter.type = d.parameters := by
    rw [nameParameters, List.map_map]
    exact List.zipIdx_map_fst 0 d.parameters
  exact congrArg (MethodDescriptor.mk · d.returns) htypes

theorem nameParameters_eq_mapIdx (types : List FieldType) (names : List String) :
    nameParameters types names = types.mapIdx fun k type =>
      ⟨if hk : k < names.length then names[k] else s!"arg{k}", type⟩ := by
  rw [List.mapIdx_eq_zipIdx_map]
  refine List.map_congr_left fun item _ => ?_
  by_cases hk : item.2 < names.length
  · simp [hk]
  · simp [hk, defaultName]

theorem map_declares_eq (hus : us.map Use.mention = (header owner isStatic d names).bindings) :
    us.map Use.declares = declared owner isStatic d.parameters names := by
  have hmention : us.map Use.declares =
      (us.map Use.mention).map fun m => ⟨m.name, m.usage.type⟩ := by
    rw [List.map_map]
    rfl
  rw [hmention, hus, Header.bindings, List.map_append, List.map_map, declared,
    ← nameParameters_eq_mapIdx]
  congr 1
  · rw [Header.receiverMentions, isStatic_header]
    cases isStatic <;> rfl
  · exact List.zipIdx_map_fst 0 _

theorem rows_eq (hus : us.map Use.mention = (header owner isStatic d names).bindings)
    (hlaid : t.Laid us) : rows t = (sideBySide 0 (declared owner isStatic d.parameters names)).map
      Entry.text ++ [s!"max_locals = {t.maxLocals}"] := by
  have hbinds : ∀ u ∈ us, u.occurrence.binds = true := fun u hu =>
    (Header.binds_of_mem_bindings (hus ▸ List.mem_map_of_mem hu)).2
  have hentries : us.map Use.entry = sideBySide 0 (us.map Use.declares) :=
    map_entry_eq_sideBySide fun i u hu => by
      rw [hlaid.chosen.slot_eq_totalWidth hbinds hu, Nat.zero_add]
  rw [rows, hlaid.orderly.sorted_eq, hlaid.built.records_eq (hlaid.chosen.pairwise_slot_lt hbinds),
    ← map_declares_eq hus, ← hentries, List.map_map, List.map_map]
  exact congrArg (· ++ _) (List.map_congr_left fun u _ => row_ofUse u)

/-- The table is printed whole whatever names the parameters are given, unless these are too many,
and then nothing is. -/
theorem render_prints_declared (owner : BinaryName) (isStatic : Bool) (d : MethodDescriptor)
    (names : List String) :
    (names.length ≤ d.parameters.length → d.parameterLength (!isStatic) ≤ localLimit →
      render ⟨owner.text, isStatic, Descriptor.render d, names⟩ =
        .ok ((sideBySide 0 (declared owner isStatic d.parameters names)).map Entry.text ++
          [s!"max_locals = {d.parameterLength (!isStatic)}"])) ∧
    (d.parameters.length < names.length →
      render ⟨owner.text, isStatic, Descriptor.render d, names⟩ =
        .error (.tooManyNames names.length d.parameters.length)) := by
  have howner : BinaryName.ofString owner.text = .ok owner := BinaryName.ofString_eq_ok_iff.2 rfl
  have hdescriptor : Descriptor.parse (Descriptor.render d) = .ok d :=
    Descriptor.parse_eq_ok_iff.2 rfl
  rw [render, table, howner]
  dsimp only
  rw [hdescriptor]
  dsimp only
  refine ⟨fun hnames hfits => ?_, fun hmany => ?_⟩
  · have hlength : (header owner isStatic d names).parameterLength =
        d.parameterLength (!isStatic) := by
      rw [Header.parameterLength, descriptor_header, isStatic_header]
    obtain ⟨t₁, t, hreceiver, hparameters, hnext⟩ :=
      Table.exists_bound_of_fits (header owner isStatic d names) (hlength ▸ hfits)
    obtain ⟨us, hus, hlaid⟩ := Table.exists_uses_of_bind hreceiver hparameters
    have hbind : bind (header owner isStatic d names) = (t, .done) := by
      rw [bind, Table.andThen, hreceiver]
      exact hparameters
    rw [if_neg (Nat.not_lt.2 hnames), hbind, ← hlength, ← hnext]
    exact congrArg Except.ok (rows_eq hus hlaid)
  · rw [if_pos hmany]
    rfl

def longIntDouble : MethodDescriptor := ⟨[.base .long, .int, .base .double], none⟩

/-- A given name is that of the receiver, and another one is the default name of the last
parameter. -/
theorem longIntDouble_printed :
    render ⟨"java/lang/Object", false, "(JID)V", ["this", "arg2"]⟩ = .ok
        ["    0  this                     Ljava/lang/Object;",
          "    1  this                     J (wide)",
          "    3  arg2                     I",
          "    4  arg2                     D (wide)",
          "max_locals = 6"] ∧
      render ⟨"java/lang/Object", true, "(JID)V", ["a", "b", "c", "d"]⟩ =
        .error (.tooManyNames 4 3) := by
  have hrows : (sideBySide 0 (declared .object false longIntDouble.parameters
      ["this", "arg2"])).map Entry.text = ["    0  this                     Ljava/lang/Object;",
        "    1  this                     J (wide)", "    3  arg2                     I",
        "    4  arg2                     D (wide)"] := by decide
  have hprinted := (render_prints_declared .object false longIntDouble ["this", "arg2"]).1
    (by decide) (by decide)
  rw [hrows] at hprinted
  exact ⟨hprinted,
    (render_prints_declared .object true longIntDouble ["a", "b", "c", "d"]).2 (by decide)⟩

end Layout

end MethodLocals
