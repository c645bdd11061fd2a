import Mathlib.Data.List.TakeWhile
import Mathlib.Logic.Function.Defs
import MethodLocals.Descriptor.Reader
import MethodLocals.Proofs.NameGrammar

/-! Reading and writing descriptors undo each other. A reader gives a value exactly if the text starts
with what is written of that value, and it leaves what follows. So no descriptor is the beginning of
another one, and descriptors that stand side by side are read back one after the other. -/

namespace MethodLocals

variable {cs rest : List Char}

/-- Reading a value takes exactly what is written of it. -/
class LawfulDescriptor (α : Type) [Descriptor α] : Prop where
  read_eq_ok_iff : ∀ {cs rest : List Char} {d : α},
    Descriptor.read cs = (.ok d, rest) ↔ cs = Descriptor.chars d ++ rest

theorem BaseType.read_eq_ok_iff {b : BaseType} :
    BaseType.read cs = (.ok b, rest) ↔ cs = b.chars ++ rest := by
  cases cs with
  | nil => simp [BaseType.read, BaseType.chars]
  | cons c tail =>
    rw [BaseType.read, BaseType.chars, List.singleton_append, List.cons.injEq,
      ← BaseType.ofLetter_eq_some_iff]
    cases hletter : BaseType.ofLetter c <;> simp

theorem BinaryName.readName_eq_ok_iff {name : BinaryName} :
    BinaryName.readName cs = (.ok name, rest) ↔ cs = name.text.toList ++ ';' :: rest := by
  constructor
  · intro h
    unfold BinaryName.readName at h
    split at h
    · cases h
    · rename_i c tail hdrop
      split at h
      · rename_i found hname
        obtain ⟨rfl, rfl⟩ : found = name ∧ tail = rest := by simpa using h
        have hc : c = ';' := by
          have hhead := List.head?_dropWhile_not (fun c : Char => decide (c ≠ ';')) cs
          rw [hdrop] at hhead
          simpa using hhead
        have hsplit := List.takeWhile_append_dropWhile (p := fun c => decide (c ≠ ';')) (l := cs)
        rw [hdrop, hc] at hsplit
        rw [← BinaryName.ofString_eq_ok_iff.1 hname, String.toList_ofList, hsplit]
      · cases h
  · rintro rfl
    have hname : ∀ c ∈ name.text.toList, decide (c ≠ ';') = true :=
      fun c hc => decide_eq_true (name.ne_semicolon hc)
    have hofString : BinaryName.ofString name.text = .ok name := BinaryName.ofString_eq_ok_iff.2 rfl
    rw [BinaryName.readName, List.dropWhile_append_of_pos hname, List.takeWhile_append_of_pos hname]
    simp [hofString]

theorem BinaryName.read_eq_ok_iff {name : BinaryName} :
    BinaryName.read cs = (.ok name, rest) ↔ cs = name.chars ++ rest := by
  cases cs with
  | nil => simp [BinaryName.read, BinaryName.chars]
  | cons c tail =>
    rw [BinaryName.read, BinaryName.chars, List.cons_append, List.cons_append, List.cons.injEq,
      List.append_assoc, List.singleton_append, ← BinaryName.readName_eq_ok_iff]
    split
    · rename_i hc
      simp [hc]
    · rename_i hc
      simp [hc]

namespace ElementType

/-- Innermost elements are never written with a bracket in front. -/
theorem exists_chars_eq (element : ElementType) :
    ∃ c tail, element.chars = c :: tail ∧ c ≠ '[' ∧ (c = 'L' ↔ ∃ name, element = .object name) := by
  cases element with
  | object name => exact ⟨'L', _, rfl, by decide, by simp⟩
  | base b => exact ⟨b.letter, [], rfl, by cases b <;> decide, by cases b <;> simp [BaseType.letter]⟩

theorem read_eq_ok_iff {element : ElementType} :
    ElementType.read cs = (.ok element, rest) ↔ cs = element.chars ++ rest := by
  rw [ElementType.read]
  constructor
  · intro h
    split at h
    · obtain ⟨name, hread, rfl⟩ := ReadResult.map_eq_ok.1 h
      exact BinaryName.read_eq_ok_iff.1 hread
    · obtain ⟨b, hread, rfl⟩ := ReadResult.map_eq_ok.1 h
      exact BaseType.read_eq_ok_iff.1 hread
  · intro h
    obtain ⟨c, tail, hchars, -, hobject⟩ := element.exists_chars_eq
    have hhead : cs.head? = some 'L' ↔ ∃ name, element = .object name := by
      rw [h, hchars, List.cons_append, List.head?_cons, Option.some.injEq, hobject]
    cases element with
    | object name =>
      rw [if_pos (hhead.2 ⟨name, rfl⟩)]
      exact ReadResult.map_eq_ok.2 ⟨name, BinaryName.read_eq_ok_iff.2 h, rfl⟩
    | base b =>
      rw [if_neg fun hc => by simpa using hhead.1 hc]
      exact ReadResult.map_eq_ok.2 ⟨b, BaseType.read_eq_ok_iff.2 h, rfl⟩

end ElementType

/-- As many brackets as a machine word counts are read before what stands behind them. -/
theorem RefType.read_brackets {n : Nat} (hn : n < UInt64.size) (hcs : cs.head? ≠ some '[') :
    RefType.read ('[' :: (List.replicate n '[' ++ cs)) =
      ReadResult.map (.array (.ofNat n)) (ElementType.read cs) := by
  have hbrackets : ∀ c ∈ List.replicate n '[', decide (c = '[') = true :=
    fun c hc => decide_eq_true (List.eq_of_mem_replicate hc)
  have hbehind : cs.takeWhile (· = '[') = [] ∧ cs.dropWhile (· = '[') = cs := by
    cases cs <;> simp_all
  have hcount : ((List.replicate n '[' ++ cs).takeWhile (· = '[')).length = n := by
    rw [List.takeWhile_append_of_pos hbrackets, hbehind.1, List.append_nil, List.length_replicate]
  rw [RefType.read, if_neg (by decide), if_pos rfl, hcount, if_pos hn,
    List.dropWhile_append_of_pos hbrackets, hbehind.2]

theorem RefType.read_eq_ok_iff {r : RefType} :
    RefType.read cs = (.ok r, rest) ↔ cs = r.chars ++ rest := by
  constructor
  · intro h
    cases cs with
    | nil => cases h
    | cons c tail =>
      rw [RefType.read] at h
      split at h
      · rename_i hc
        obtain ⟨name, hread, rfl⟩ := ReadResult.map_eq_ok.1 h
        rw [hc, BinaryName.readName_eq_ok_iff.1 hread]
        simp [RefType.chars, BinaryName.chars]
      · split at h
        · rename_i hc
          split at h
          · rename_i hfits
            obtain ⟨element, hread, rfl⟩ := ReadResult.map_eq_ok.1 h
            have hbrackets : tail.takeWhile (· = '[') =
                List.replicate (tail.takeWhile (· = '[')).length '[' :=
              List.eq_replicate_iff.2
                ⟨rfl, fun c hmem => by simpa using List.mem_takeWhile_imp hmem⟩
            have hsplit := List.takeWhile_append_dropWhile (p := fun c => decide (c = '[')) (l := tail)
            rw [ElementType.read_eq_ok_iff.1 hread] at hsplit
            rw [RefType.chars, UInt64.toNat_ofNat_of_lt' hfits, List.replicate_succ, ← hbrackets, hc,
              List.cons_append, List.cons_append, List.append_assoc, hsplit]
          · cases h
        · cases h
  · rintro rfl
    cases r with
    | object name =>
      have hread : BinaryName.readName (name.text.toList ++ ';' :: rest) = (.ok name, rest) :=
        BinaryName.readName_eq_ok_iff.2 rfl
      simp [RefType.chars, BinaryName.chars, RefType.read, hread, ReadResult.map, Except.map]
    | array extra element =>
      obtain ⟨c, tail, hchars, hbracket, -⟩ := element.exists_chars_eq
      have hbehind : (element.chars ++ rest).head? ≠ some '[' := by
        simpa [hchars] using hbracket
      rw [RefType.chars, List.replicate_succ, List.cons_append, List.cons_append, List.append_assoc,
        RefType.read_brackets extra.toNat_lt_size hbehind, UInt64.ofNat_toNat]
      exact ReadResult.map_eq_ok.2 ⟨element, ElementType.read_eq_ok_iff.2 rfl, rfl⟩

namespace FieldType

/-- What a type is written with at the front tells whether it is primitive. -/
theorem exists_chars_eq (t : FieldType) :
    ∃ c tail, t.chars = c :: tail ∧
      ((∃ b, t = .base b ∧ c = b.letter ∧ tail = []) ∨
        (∃ r, t = .ref r ∧ BaseType.ofLetter c = none ∧ (c = 'L' ∨ c = '['))) := by
  rcases t with b | name | ⟨extra, element⟩
  · exact ⟨b.letter, [], rfl, .inl ⟨b, rfl, rfl, rfl⟩⟩
  · exact ⟨'L', _, rfl, .inr ⟨_, rfl, rfl, .inl rfl⟩⟩
  · exact ⟨'[', _, rfl, .inr ⟨_, rfl, rfl, .inr rfl⟩⟩

theorem ne_of_chars_eq {t : FieldType} {c : Char} {tail : List Char} (h : t.chars = c :: tail) :
    c ≠ ')' ∧ c ≠ 'V' := by
  obtain ⟨c', tail', h', hfront⟩ := t.exists_chars_eq
  obtain ⟨rfl, rfl⟩ := List.cons.inj (h.symm.trans h')
  rcases hfront with ⟨b, -, rfl, -⟩ | ⟨r, -, -, rfl | rfl⟩
  · cases b <;> decide
  · decide
  · decide

theorem read_eq_ok_iff {t : FieldType} :
    FieldType.read cs = (.ok t, rest) ↔ cs = t.chars ++ rest := by
  constructor
  · intro h
    cases cs with
    | nil => cases h
    | cons c tail =>
      rw [FieldType.read] at h
      split at h
      · rename_i b hletter
        obtain ⟨rfl, rfl⟩ : .base b = t ∧ tail = rest := by simpa using h
        rw [BaseType.ofLetter_eq_some_iff.1 hletter]
        rfl
      · split at h
        · obtain ⟨r, hread, rfl⟩ := ReadResult.map_eq_ok.1 h
          exact RefType.read_eq_ok_iff.1 hread
        · cases h
  · rintro rfl
    obtain ⟨c, tail, hchars, ⟨b, rfl, rfl, rfl⟩ | ⟨r, rfl, hletter, hc⟩⟩ := t.exists_chars_eq
    · simp [hchars, FieldType.read]
    · have hread : RefType.read (c :: (tail ++ rest)) = (.ok r, rest) :=
        RefType.read_eq_ok_iff.2 (congrArg (· ++ rest) hchars.symm)
      rw [hchars, List.cons_append, FieldType.read, hletter]
      dsimp only
      rw [if_pos hc]
      exact ReadResult.map_eq_ok.2 ⟨r, hread, rfl⟩

end FieldType

theorem readParameters_eq_ok_iff {ts : List FieldType} :
    readParameters cs = (.ok ts, rest) ↔ cs = ts.flatMap FieldType.chars ++ ')' :: rest := by
  constructor
  · intro h
    fun_induction readParameters cs generalizing ts with
    | case1 => cases h
    | case2 tail =>
      obtain ⟨rfl, rfl⟩ : [] = ts ∧ tail = rest := by simpa using h
      rfl
    | case3 => cases h
    | case4 c tail _ t rest' hread _ ih =>
      obtain ⟨ts, hts, rfl⟩ := ReadResult.map_eq_ok.1 h
      rw [FieldType.read_eq_ok_iff.1 hread, ih hts, List.flatMap_cons, List.append_assoc]
  · rintro rfl
    induction ts with
    | nil => simp [readParameters]
    | cons t ts ih =>
      obtain ⟨c, tail, hchars, -⟩ := t.exists_chars_eq
      have hread : FieldType.read (c :: (tail ++ (ts.flatMap FieldType.chars ++ ')' :: rest))) =
          (.ok t, ts.flatMap FieldType.chars ++ ')' :: rest) :=
        FieldType.read_eq_ok_iff.2 (congrArg (· ++ _) hchars.symm)
      rw [List.flatMap_cons, List.append_assoc, hchars, List.cons_append, readParameters,
        if_neg (FieldType.ne_of_chars_eq hchars).1]
      split
      · rename_i e rest' herror
        rw [hread] at herror
        cases herror
      · rename_i t' rest' ht
        obtain ⟨rfl, rfl⟩ : t = t' ∧ _ = rest' := by simpa using hread.symm.trans ht
        exact ReadResult.map_eq_ok.2 ⟨ts, ih, rfl⟩

theorem readReturn_eq_ok_iff {t : Option FieldType} :
    readReturn cs = (.ok t, rest) ↔ cs = returnChars t ++ rest := by
  constructor
  · intro h
    cases cs with
    | nil => cases h
    | cons c tail =>
      rw [readReturn] at h
      split at h
      · rename_i hc
        obtain ⟨rfl, rfl⟩ : none = t ∧ tail = rest := by simpa using h
        rw [hc]
        rfl
      · obtain ⟨t, hread, rfl⟩ := ReadResult.map_eq_ok.1 h
        exact FieldType.read_eq_ok_iff.1 hread
  · rintro rfl
    cases t with
    | none => rfl
    | some t =>
      obtain ⟨c, tail, hchars, -⟩ := t.exists_chars_eq
      have hread : FieldType.read (c :: (tail ++ rest)) = (.ok t, rest) :=
        FieldType.read_eq_ok_iff.2 (congrArg (· ++ rest) hchars.symm)
      rw [returnChars, hchars, List.cons_append, readReturn,
        if_neg (FieldType.ne_of_chars_eq hchars).2]
      exact ReadResult.map_eq_ok.2 ⟨t, hread, rfl⟩

theorem MethodDescriptor.read_eq_ok_iff {d : MethodDescriptor} :
    MethodDescriptor.read cs = (.ok d, rest) ↔ cs = d.chars ++ rest := by
  constructor
  · intro h
    cases cs with
    | nil => cases h
    | cons c tail =>
      rw [MethodDescriptor.read] at h
      split at h
      · rename_i hc
        split at h
        · cases h
        · rename_i parameters rest' hparameters
          obtain ⟨t, hreturn, rfl⟩ := ReadResult.map_eq_ok.1 h
          rw [hc, readParameters_eq_ok_iff.1 hparameters, readReturn_eq_ok_iff.1 hreturn]
          simp [MethodDescriptor.chars]
      · cases h
  · rintro rfl
    obtain ⟨parameters, t⟩ := d
    have hparameters : readParameters (parameters.flatMap FieldType.chars ++
        ')' :: (returnChars t ++ rest)) = (.ok parameters, returnChars t ++ rest) :=
      readParameters_eq_ok_iff.2 rfl
    rw [MethodDescriptor.chars, List.cons_append, List.cons_append, List.append_assoc,
      List.cons_append, MethodDescriptor.read, if_pos rfl, hparameters]
    exact ReadResult.map_eq_ok.2 ⟨t, readReturn_eq_ok_iff.2 rfl, rfl⟩

instance : LawfulDescriptor BaseType := ⟨BaseType.read_eq_ok_iff⟩

instance : LawfulDescriptor BinaryName := ⟨BinaryName.read_eq_ok_iff⟩

instance : LawfulDescriptor RefType := ⟨RefType.read_eq_ok_iff⟩

instance : LawfulDescriptor FieldType := ⟨FieldType.read_eq_ok_iff⟩

instance : LawfulDescriptor MethodDescriptor := ⟨MethodDescriptor.read_eq_ok_iff⟩

namespace Descriptor

open LawfulDescriptor

structure Exact (α : Type) [Descriptor α] : Prop where
  read_iff : ∀ (cs : List Char) (d : α) (rest : List Char),
    read cs = (.ok d, rest) ↔ cs = chars d ++ rest
  parse_iff : ∀ (text : String) (d : α), parse text = .ok d ↔ text = render d
  injective : Function.Injective (render : α → String)
  eq_of_isPrefix : ∀ d e : α, chars d <+: chars e → d = e
  scan_iff : ∀ (cs : List Char) (ds : List α), scan cs = ⟨ds, none, []⟩ ↔ cs = ds.flatMap chars
  scan_append : ∀ (ds : List α) (cs : List Char), scan (ds.flatMap chars ++ cs) =
    ⟨ds ++ (scan cs : Scan α).items, (scan cs : Scan α).failure, (scan cs : Scan α).rest⟩

variable {α : Type} [Descriptor α] {d e : α} {ds : List α}

theorem scan_of_read {rest : List Char} (h : read cs = (.ok d, rest)) :
    (scan cs : Scan α) =
      ⟨d :: (scan rest : Scan α).items, (scan rest : Scan α).failure, (scan rest : Scan α).rest⟩ := by
  cases cs with
  | nil =>
    have hlt := read_shorter h
    cases hlt
  | cons c tail =>
    rw [scan]
    split
    · rename_i heq
      rw [h] at heq
      cases heq
    · rename_i heq
      rw [h] at heq
      cases heq
      rfl

variable [LawfulDescriptor α]

theorem parse_eq_ok_iff {text : String} : parse text = .ok d ↔ text = render d := by
  have hread : read text.toList = (.ok d, []) ↔ text.toList = chars d ++ [] := read_eq_ok_iff
  rw [List.append_nil] at hread
  rw [render, ← String.toList_inj, String.toList_ofList, ← hread, parse]
  split
  · rename_i heq
    simp [heq]
  · rename_i heq
    simp [heq]
  · rename_i heq
    simp [heq]

theorem render_injective : Function.Injective (render : α → String) := by
  intro d e h
  exact Except.ok.inj ((parse_eq_ok_iff.2 rfl).symm.trans (parse_eq_ok_iff.2 h))

/-- No descriptor is the beginning of another one. -/
theorem eq_of_chars_isPrefix (h : chars d <+: chars e) : d = e := by
  obtain ⟨rest, hrest⟩ := h
  have hd := read_eq_ok_iff.2 hrest.symm
  have he := read_eq_ok_iff.2 (chars e).append_nil.symm
  exact Except.ok.inj (congrArg Prod.fst (hd.symm.trans he))

theorem scan_flatMap_append (ds : List α) (cs : List Char) : scan (ds.flatMap chars ++ cs) =
    ⟨ds ++ (scan cs : Scan α).items, (scan cs : Scan α).failure, (scan cs : Scan α).rest⟩ := by
  induction ds with
  | nil => rfl
  | cons d ds ih =>
    have hread : read ((d :: ds).flatMap chars ++ cs) = (.ok d, ds.flatMap chars ++ cs) :=
      read_eq_ok_iff.2 (by rw [List.flatMap_cons, List.append_assoc])
    rw [scan_of_read hread, ih]
    rfl

theorem scan_eq_iff : scan cs = ⟨ds, none, []⟩ ↔ cs = ds.flatMap chars := by
  constructor
  · intro h
    fun_induction scan (α := α) cs generalizing ds with
    | case1 =>
      obtain rfl : [] = ds := congrArg Scan.items h
      rfl
    | case2 c tail e rest hread => cases congrArg Scan.failure h
    | case3 c tail d rest hread _ found =>
      rename_i ih
      obtain ⟨rfl, hfailure, hrest⟩ := Scan.mk.inj h
      have hfound : found = ⟨found.items, none, []⟩ := by rw [← hfailure, ← hrest]
      rw [read_eq_ok_iff.1 hread, ih hfound, List.flatMap_cons]
  · rintro rfl
    have hscan := scan_flatMap_append ds []
    rw [List.append_nil] at hscan
    rw [hscan, scan, List.append_nil]

theorem exact_of_lawful (α : Type) [Descriptor α] [LawfulDescriptor α] : Exact α where
  read_iff _ _ _ := read_eq_ok_iff
  parse_iff _ _ := parse_eq_ok_iff
  injective := render_injective
  eq_of_isPrefix _ _ := eq_of_chars_isPrefix
  scan_iff _ _ := scan_eq_iff
  scan_append := scan_flatMap_append

/-- All descriptors are read back exactly as they are written. -/
theorem reads_what_is_written :
    Exact BaseType ∧ Exact BinaryName ∧ Exact RefType ∧ Exact FieldType ∧ Exact MethodDescriptor :=
  ⟨exact_of_lawful _, exact_of_lawful _, exact_of_lawful _, exact_of_lawful _, exact_of_lawful _⟩

end Descriptor

end MethodLocals
