import MethodLocals.Proofs.CommonClass
import MethodLocals.Proofs.FrameOrder

/-! A merge of frames that works in place. Values are stored one at a time where they differ from what
is held, and a flag is raised whenever one is; in the end the flag tells whether the frame is another
one. What two frames merge into takes in both of them. -/

namespace MethodLocals

/-- Stores new values in a row of places, one after the other, and raises the flag where one differs
from the value that is held. The first value that cannot be found ends this. -/
def Value.storeEach {κ : Type} (change : κ → Value → Except MissingClass Value) (changed : Bool) :
    List (κ × Value) → List (κ × Value) × Bool × Option MissingClass
  | [] => ([], changed, none)
  | (key, held) :: rest =>
    match change key held with
    | .error e => ((key, held) :: rest, changed, some e)
    | .ok value =>
      let stored := if value ≠ held then (value, true) else (held, changed)
      let tail := storeEach change stored.2 rest
      ((key, stored.1) :: tail.1, tail.2)

namespace Value

variable {κ : Type} (change : κ → Value → Except MissingClass Value)

theorem keys_storeEach (changed : Bool) (row : List (κ × Value)) :
    (storeEach change changed row).1.map Prod.fst = row.map Prod.fst := by
  induction row generalizing changed with
  | nil => rfl
  | cons place rest ih =>
    obtain ⟨key, held⟩ := place
    rw [storeEach]
    split
    · rfl
    · exact congrArg (key :: ·) (ih _)

theorem flag_storeEach (changed : Bool) (row : List (κ × Value)) :
    (storeEach change changed row).2.1 = true ↔
      changed = true ∨ (storeEach change changed row).1 ≠ row := by
  induction row generalizing changed with
  | nil => simp [storeEach]
  | cons place rest ih =>
    obtain ⟨key, held⟩ := place
    rw [storeEach]
    split
    · simp
    · rename_i value _
      by_cases hvalue : value = held
      · simp [hvalue, ih]
      · simp [hvalue, ih]

theorem storeEach_append (changed : Bool) (front back : List (κ × Value)) :
    storeEach change changed (front ++ back) =
      match storeEach change changed front with
      | (row, flag, some e) => (row ++ back, flag, some e)
      | (row, flag, none) =>
        let tail := storeEach change flag back
        (row ++ tail.1, tail.2) := by
  induction front generalizing changed with
  | nil => rfl
  | cons place rest ih =>
    obtain ⟨key, held⟩ := place
    rw [List.cons_append, storeEach, storeEach]
    cases change key held with
    | error e => rfl
    | ok value =>
      dsimp only
      rw [ih]
      generalize storeEach change (if value ≠ held then (value, true) else (held, changed)).2 rest =
        stored
      obtain ⟨row, flag, _ | e⟩ := stored <;> rfl

end Value

variable (inheritance : Option Inheritance)

namespace Locals

/-- Adds the variables that are not there yet, with nothing known of them, and raises the flag for
each of them. -/
def addEach (changed : Bool) : List String → Locals → Locals × Bool
  | [], l => (l, changed)
  | name :: rest, l =>
    if l.get? name = none then addEach true rest (l.set name .top) else addEach changed rest l

/-- The own variables are merged in the order of their names. -/
def mergeOwn (changed : Bool) (l other : Locals) : Locals × Bool × Option MissingClass :=
  let row := Value.storeEach (mergeEntry inheritance other) changed l.entries
  (⟨row.1, by rw [Value.keys_storeEach]; exact l.sorted⟩, row.2)

/-- After the own variables those are added that only `other` has. -/
def mergeInPlace (changed : Bool) (l other : Locals) : Locals × Bool × Option MissingClass :=
  match l.mergeOwn inheritance changed other with
  | (own, changed, some e) => (own, changed, some e)
  | (own, changed, none) =>
    let added := addEach changed other.names own
    (added.1, added.2, none)

theorem storeEach_entries (change : String → Value → Except MissingClass Value) (changed : Bool)
    (entries : List (String × Value)) :
    (Value.storeEach change changed entries).1 = (updateEntries change entries).1 ∧
      (Value.storeEach change changed entries).2.2 = (updateEntries change entries).2 := by
  induction entries generalizing changed with
  | nil => exact ⟨rfl, rfl⟩
  | cons entry rest ih =>
    obtain ⟨name, held⟩ := entry
    rw [Value.storeEach, updateEntries]
    cases change name held with
    | error e => exact ⟨rfl, rfl⟩
    | ok value =>
      have hstored : (if value ≠ held then (value, true) else (held, changed)).1 = value := by
        by_cases hvalue : value = held <;> simp [hvalue]
      dsimp only
      rw [hstored, (ih _).1, (ih _).2]
      exact ⟨rfl, rfl⟩

theorem addEach_eq (changed : Bool) {names : List String} (hnames : names.Nodup) (l : Locals) :
    addEach changed names l =
      ((names.filter (l.get? · = none)).foldl (fun acc name => acc.set name .top) l,
        changed || decide (names.filter (l.get? · = none) ≠ [])) := by
  induction names generalizing changed l with
  | nil => simp [addEach]
  | cons name rest ih =>
    obtain ⟨hnot, hrest⟩ := List.nodup_cons.1 hnames
    rw [addEach]
    split
    · rename_i hnone
      have hsame : rest.filter ((l.set name .top).get? · = none) =
          rest.filter (l.get? · = none) := by
        refine List.filter_congr fun other hother => ?_
        have hne : other ≠ name := by
          rintro rfl
          exact hnot hother
        rw [get?_set, if_neg hne]
      rw [ih true hrest, hsame, List.filter_cons_of_pos (by simpa using hnone)]
      simp
    · rename_i hsome
      rw [ih changed hrest, List.filter_cons_of_neg (by simpa using hsome)]

theorem names_nodup (l : Locals) : l.names.Nodup := by
  refine l.sorted.imp fun hlt => ?_
  rintro rfl
  exact String.lt_irrefl _ hlt

/-- Locals to which variables are added are the ones that they were before exactly if there are none
to be added. -/
theorem foldl_set_eq_iff {l own : Locals} {names : List String}
    (hnames : ∀ name ∈ names, l.get? name = none) :
    names.foldl (fun acc name => acc.set name .top) own = l ↔ own = l ∧ names = [] := by
  constructor
  · intro heq
    have hnone : names = [] := List.eq_nil_iff_forall_not_mem.2 fun name hname => by
      have hget := get?_foldl_set .top names own name
      rw [heq, hnames name hname, if_pos hname] at hget
      cases hget
    subst hnone
    exact ⟨heq, rfl⟩
  · rintro ⟨rfl, rfl⟩
    rfl

theorem entries_inj {a b : Locals} : a.entries = b.entries ↔ a = b := by
  cases a
  cases b
  exact (mk.injEq ..).symm.to_iff

/-- Variables are there before the own ones are merged exactly if they are afterwards. -/
theorem get?_eq_none_iff {l own : Locals} (hnames : own.names = l.names) (name : String) :
    own.get? name = none ↔ l.get? name = none := by
  rw [← not_iff_not, ← Ne, ← Ne, ← mem_names_iff, ← mem_names_iff, hnames]

/-- The locals that a merge in place leaves are those of a merge, and unless a class is missing the
flag is up in the end if it was up before or they are others. -/
theorem mergeInPlace_eq (changed : Bool) (l other : Locals) :
    (l.mergeInPlace inheritance changed other).1 = (l.merge inheritance other).1 ∧
      (l.mergeInPlace inheritance changed other).2.2 = (l.merge inheritance other).2 ∧
      ((l.merge inheritance other).2 = none →
        ((l.mergeInPlace inheritance changed other).2.1 = true ↔
          changed = true ∨ (l.merge inheritance other).1 ≠ l)) := by
  obtain ⟨hrow, herror⟩ := storeEach_entries (mergeEntry inheritance other) changed l.entries
  have hflag := Value.flag_storeEach (mergeEntry inheritance other) changed l.entries
  have hkeys := Value.keys_storeEach (mergeEntry inheritance other) changed l.entries
  have hown : (l.mergeOwn inheritance changed other).1.entries =
      (updateEntries (mergeEntry inheritance other) l.entries).1 := hrow
  change (l.mergeOwn inheritance changed other).2.2 = _ at herror
  change (l.mergeOwn inheritance changed other).2.1 = true ↔
    changed = true ∨ (l.mergeOwn inheritance changed other).1.entries ≠ l.entries at hflag
  change (l.mergeOwn inheritance changed other).1.names = l.names at hkeys
  rw [mergeInPlace, merge]
  generalize l.mergeOwn inheritance changed other = stored at hown herror hflag hkeys ⊢
  obtain ⟨own, flag, error⟩ := stored
  dsimp only at hown herror hflag hkeys ⊢
  have hsame : ∀ h, ⟨(updateEntries (mergeEntry inheritance other) l.entries).1, h⟩ = own :=
    fun _ => entries_inj.1 hown.symm
  rw [← herror]
  simp only [hsame]
  cases error with
  | some e => exact ⟨rfl, rfl, fun hnone => absurd hnone (Option.some_ne_none e)⟩
  | none =>
    have hfilter : other.names.filter (own.get? · = none) =
        other.names.filter (l.get? · = none) :=
      List.filter_congr fun name _ => by rw [decide_eq_decide, get?_eq_none_iff hkeys]
    dsimp only
    rw [addEach_eq flag other.names_nodup, hfilter]
    refine ⟨rfl, rfl, fun _ => ?_⟩
    dsimp only
    rw [Bool.or_eq_true, decide_eq_true_iff, hflag, Ne, entries_inj, Ne, Ne, foldl_set_eq_iff,
      not_and_or, or_assoc]
    intro name hname
    simpa using (List.mem_filter.1 hname).2

end Locals

namespace Frame

/-- The entries of a stack, the lowest one first, each with the value that flows into it. -/
def places (vs ws : List Value) : List (Value × Value) := (ws.zip vs).reverse

theorem places_cons (v w : Value) (vs ws : List Value) :
    places (v :: vs) (w :: ws) = places vs ws ++ [(w, v)] := by
  simp [places]

theorem map_snd_places {us ws : List Value} (hlength : us.length = ws.length) :
    ((places us ws).map Prod.snd).reverse = us := by
  rw [places, List.map_reverse, List.reverse_reverse, List.map_snd_zip (Nat.le_of_eq hlength)]

theorem places_inj {vs us ws : List Value} (hvs : vs.length = ws.length)
    (hus : us.length = ws.length) : places us ws = places vs ws ↔ us = vs := by
  constructor
  · intro heq
    rw [← map_snd_places hus, heq, map_snd_places hvs]
  · rintro rfl
    rfl

def mergeStacksInPlace (vs ws : List Value) : List Value × Bool × Option MissingClass :=
  let row := Value.storeEach (fun w v => v.merge inheritance w) false (places vs ws)
  ((row.1.map Prod.snd).reverse, row.2)

def mergeInPlace (f other : Frame) : Frame × Except FlowError Bool :=
  if f.stack.length ≠ other.stack.length then
    (f, .error (.heightMismatch f.stack.length other.stack.length))
  else
    match mergeStacksInPlace inheritance f.stack other.stack with
    | (stack, _, some e) => (⟨f.locals, stack⟩, .error (.missingClass e))
    | (stack, changed, none) =>
      match f.locals.mergeInPlace inheritance changed other.locals with
      | (locals, _, some e) => (⟨locals, stack⟩, .error (.missingClass e))
      | (locals, changed, none) => (⟨locals, stack⟩, .ok changed)

theorem length_mergeStacks (vs ws : List Value) :
    (mergeStacks inheritance vs ws).1.length = vs.length := by
  induction vs generalizing ws with
  | nil => rfl
  | cons v vs ih =>
    cases ws with
    | nil => rfl
    | cons w ws =>
      rw [mergeStacks]
      split
      · simp [ih]
      · split <;> simp [ih]

theorem storeEach_places (changed : Bool) {vs ws : List Value} (hlength : vs.length = ws.length) :
    (Value.storeEach (fun w v => v.merge inheritance w) changed (places vs ws)).1 =
        places (mergeStacks inheritance vs ws).1 ws ∧
      (Value.storeEach (fun w v => v.merge inheritance w) changed (places vs ws)).2.2 =
        (mergeStacks inheritance vs ws).2 := by
  induction vs generalizing ws with
  | nil =>
    obtain rfl := List.eq_nil_of_length_eq_zero hlength.symm
    exact ⟨rfl, rfl⟩
  | cons v vs ih =>
    cases ws with
    | nil => cases hlength
    | cons w ws =>
      obtain ⟨hrow, herror⟩ := ih (Nat.succ.inj hlength)
      rw [places_cons, Value.storeEach_append, mergeStacks]
      generalize Value.storeEach (fun w v => v.merge inheritance w) changed (places vs ws) = stored
        at hrow herror
      obtain ⟨row, flag, error⟩ := stored
      dsimp only at hrow herror ⊢
      rw [← herror]
      subst hrow
      cases error with
      | some e => simp [places_cons]
      | none =>
        dsimp only
        rw [Value.storeEach]
        cases v.merge inheritance w with
        | error e => simp [places_cons]
        | ok value => by_cases hvalue : value = v <;> simp [places_cons, hvalue, Value.storeEach]

theorem mergeStacksInPlace_eq {vs ws : List Value} (hlength : vs.length = ws.length) :
    (mergeStacksInPlace inheritance vs ws).1 = (mergeStacks inheritance vs ws).1 ∧
      (mergeStacksInPlace inheritance vs ws).2.2 = (mergeStacks inheritance vs ws).2 ∧
      ((mergeStacksInPlace inheritance vs ws).2.1 = true ↔
        (mergeStacks inheritance vs ws).1 ≠ vs) := by
  obtain ⟨hrow, herror⟩ := storeEach_places inheritance false hlength
  have hmerged := (length_mergeStacks inheritance vs ws).trans hlength
  refine ⟨?_, herror, ?_⟩
  · rw [mergeStacksInPlace, hrow, map_snd_places hmerged]
  · rw [mergeStacksInPlace, Value.flag_storeEach, hrow, Ne, places_inj hlength hmerged]
    simp

theorem mergeInPlace_eq (f g : Frame) :
    f.mergeInPlace inheritance g = f.merge inheritance g := by
  by_cases hlength : f.stack.length = g.stack.length
  · obtain ⟨hstack, hstackError, hstackFlag⟩ :=
      mergeStacksInPlace_eq inheritance hlength
    rw [← hstack] at hstackFlag
    have hmerged := (Prod.ext hstack hstackError :
      (_, (mergeStacksInPlace inheritance f.stack g.stack).2.2) = _)
    rw [mergeInPlace, if_neg (not_not_intro hlength), merge]
    generalize hparts : f.mergeParts inheritance g = parts
    rw [mergeParts, if_neg (not_not_intro hlength), ← hmerged] at hparts
    generalize mergeStacksInPlace inheritance f.stack g.stack = merged at hstackFlag hparts ⊢
    obtain ⟨stack, changed, _ | e⟩ := merged
    · obtain ⟨hlocals, hlocalsError, hlocalsFlag⟩ :=
        f.locals.mergeInPlace_eq inheritance changed g.locals
      rw [← hlocals, ← hlocalsError] at hlocalsFlag
      dsimp only at hparts ⊢
      rw [← hlocals, ← hlocalsError] at hparts
      subst hparts
      generalize f.locals.mergeInPlace inheritance changed g.locals = merged at hlocalsFlag ⊢
      obtain ⟨locals, changed, _ | e⟩ := merged
      -- the flag goes through the stack and then through the locals, so it is up if either changed
      · have hflag := hlocalsFlag rfl
        dsimp only [Option.map_none] at hstackFlag hflag ⊢
        have hchanged : changed = decide ((⟨locals, stack⟩ : Frame) ≠ f) := by
          cases f
          rw [Bool.eq_iff_iff, decide_eq_true_iff, hflag, hstackFlag]
          simp only [ne_eq, mk.injEq, not_and_or, or_comm]
        rw [hchanged]
      · rfl
    · subst hparts
      rfl
  · rw [mergeInPlace, if_pos hlength, merge_of_length_ne hlength]

end Frame

variable {inheritance}

namespace Frame

def classNames (f : Frame) : List BinaryName :=
  f.stack.flatMap Value.classNames ++ f.locals.entries.flatMap fun entry => entry.2.classNames

/-- There is no inheritance, or it is that of a well-formed graph in which all classes are known that
two frames mention, those of literals included. -/
inductive CoveredBy (f g : Frame) : Option Inheritance → Prop
  | none : CoveredBy f g .none
  | graph {graph : ClassGraph} (hgraph : graph.WellFormed)
    (hnames : ∀ name ∈ f.classNames ++ g.classNames, graph.Knows name) :
    CoveredBy f g (some graph.inheritance)

structure MergesTruthfully (inheritance : Option Inheritance) (f g : Frame) : Prop where
  /-- Stacks of different heights do not merge, and the frame stays as it is. -/
  heights_differ : f.stack.length ≠ g.stack.length →
    f.merge inheritance g = (f, .error (.heightMismatch f.stack.length g.stack.length))
  /-- Otherwise each place holds what the values there merge into, and the frame that results takes
  in both frames without a further change. -/
  heights_agree : f.stack.length = g.stack.length → ∃ r changed,
    f.merge inheritance g = (r, .ok changed) ∧ Merges inheritance f g r ∧
      (changed = true ↔ r ≠ f) ∧
      r.merge inheritance f = (r, .ok false) ∧ r.merge inheritance g = (r, .ok false)
  /-- The flag that is raised in place, change by change, is the one that is told. -/
  in_place : f.mergeInPlace inheritance g = f.merge inheritance g

end Frame

namespace TypeOrder

variable {o : TypeOrder inheritance} {f g : Frame}

theorem knownFrame_of_classNames (h : ∀ name ∈ f.classNames, o.Known name) : o.KnownFrame f where
  stack v hv name hname :=
    h name (List.mem_append_left _ (List.mem_flatMap.2 ⟨v, hv, hname⟩))
  locals x v hv name hname := by
    obtain ⟨before, after, hentries, -⟩ := List.lookup_eq_some_iff.1 hv
    refine h name (List.mem_append_right _ (List.mem_flatMap.2 ⟨(x, v), ?_, hname⟩))
    rw [hentries]
    simp

/-- Known values have an upper bound each, so that known stacks of one height have one. -/
theorem exists_stacksMerge {vs ws : List Value} (hlength : vs.length = ws.length)
    (hvs : ∀ v ∈ vs, o.KnownValue v) (hws : ∀ w ∈ ws, o.KnownValue w) :
    ∃ us, StacksMerge inheritance vs ws us := by
  induction vs generalizing ws with
  | nil =>
    obtain rfl := List.eq_nil_of_length_eq_zero hlength.symm
    exact ⟨[], .nil⟩
  | cons v vs ih =>
    cases ws with
    | nil => cases hlength
    | cons w ws =>
      rw [List.forall_mem_cons] at hvs hws
      obtain ⟨us, hus⟩ := ih (Nat.succ.inj hlength) hvs.2 hws.2
      obtain ⟨u, hu, -⟩ := exists_mergeValue hvs.1 hws.1
      exact ⟨u :: us, .cons hu hus⟩

theorem exists_merges (hlength : f.stack.length = g.stack.length) (hf : o.KnownFrame f)
    (hg : o.KnownFrame g) : ∃ r, f.Merges inheritance g r := by
  refine Frame.exists_merges_iff.2 ⟨exists_stacksMerge hlength hf.stack hg.stack, ?_⟩
  intro name v w hv hw
  obtain ⟨u, hu, -⟩ := exists_mergeValue (hf.locals name v hv) (hg.locals name w hw)
  exact ⟨u, hu⟩

end TypeOrder

namespace Frame

variable {f g : Frame}

theorem CoveredBy.exists_typeOrder (h : CoveredBy f g inheritance) :
    ∃ o : TypeOrder inheritance, o.KnownFrame f ∧ o.KnownFrame g := by
  cases h with
  | none =>
    exact ⟨.flat, TypeOrder.knownFrame_of_classNames fun _ _ => trivial,
      TypeOrder.knownFrame_of_classNames fun _ _ => trivial⟩
  | graph hgraph hnames =>
    exact ⟨hgraph.typeOrder,
      TypeOrder.knownFrame_of_classNames fun name h => hnames name (List.mem_append_left _ h),
      TypeOrder.knownFrame_of_classNames fun name h => hnames name (List.mem_append_right _ h)⟩

/-- A merge of frames is an upper bound of both, and says truthfully whether it changed anything. -/
theorem mergesTruthfully_of_coveredBy (h : CoveredBy f g inheritance) :
    MergesTruthfully inheritance f g where
  heights_differ := merge_of_length_ne
  heights_agree hlength := by
    obtain ⟨o, hf, hg⟩ := h.exists_typeOrder
    obtain ⟨r, hmerges⟩ := TypeOrder.exists_merges hlength hf hg
    obtain ⟨hr, hfr, hgr⟩ := TypeOrder.le_of_merges hf hg hmerges
    refine ⟨r, decide (r ≠ f), merge_eq_ok_iff.2 ⟨hmerges, rfl⟩, hmerges, decide_eq_true_iff, ?_, ?_⟩
    · exact TypeOrder.merge_of_frameLe hr hf hfr
    · exact TypeOrder.merge_of_frameLe hr hg hgr
  in_place := mergeInPlace_eq inheritance f g

def divisionFailed : Frame :=
  ⟨(Locals.empty.set "cause" (.object (.object .arithmeticException))).set "count" .int,
    [.textConstant "zero", .int]⟩

def programFailed : Frame :=
  ⟨(Locals.empty.set "cause" (.object (.object .errorClass))).set "rest" .null, [.null, .int]⟩

theorem divisionFailed_merges :
    ∃ r changed, divisionFailed.merge (some ClassGraph.empty.insertLibrary.inheritance)
        programFailed = (r, .ok changed) ∧
      r.get? "cause" = some (.object (.object .throwable)) ∧ r.get? "count" = some .top ∧
      r.get? "rest" = some .top ∧ r.stack = [.object .stringClass, .int] ∧
      MergesTruthfully (some ClassGraph.empty.insertLibrary.inheritance) divisionFailed
        programFailed := by
  have hcovered : CoveredBy divisionFailed programFailed
      (some ClassGraph.empty.insertLibrary.inheritance) := by
    refine .graph ClassGraph.library_wellFormed ?_
    have hknown : ∀ name ∈ divisionFailed.classNames ++ programFailed.classNames,
        (ClassGraph.empty.insertLibrary.find? name).isSome = true := by decide +kernel
    exact fun name hname => Option.isSome_iff_exists.1 (hknown name hname)
  have hok : (divisionFailed.merge (some ClassGraph.empty.insertLibrary.inheritance)
      programFailed).2 = .ok true := by decide +kernel
  refine ⟨_, true, Prod.ext rfl hok, ?_, ?_, ?_, ?_, mergesTruthfully_of_coveredBy hcovered⟩
  all_goals decide +kernel

end Frame

end MethodLocals
