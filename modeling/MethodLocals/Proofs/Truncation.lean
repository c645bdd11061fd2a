import MethodLocals.Proofs.RoundTrip

/-! Texts that end too early, and texts that go on too long. What is written of a descriptor can be
cut anywhere behind its first character, and what is left is reported as truncated by whichever
reader runs out of characters; what is added to a descriptor is reported as left over. -/

namespace MethodLocals

variable {cs ys zs rest : List Char} {c : Char}

/-- The characters are a text that goes on after them. -/
def IsCut (cs text : List Char) : Prop := ∃ c rest, text = cs ++ c :: rest

namespace IsCut

/-- Two texts side by side are cut either inside of the first one or behind all of it. -/
theorem of_append (h : IsCut cs (ys ++ zs)) :
    IsCut cs ys ∨ ∃ ds, cs = ys ++ ds ∧ IsCut ds zs := by
  obtain ⟨c, rest, heq⟩ := h
  rcases List.append_eq_append_iff.1 heq with ⟨ds, rfl, hzs⟩ | ⟨between, hys, hbetween⟩
  · exact .inr ⟨ds, rfl, c, rest, hzs⟩
  · cases between with
    | nil => exact .inr ⟨[], by rw [hys, List.append_nil, List.append_nil], c, rest, hbetween.symm⟩
    | cons first between =>
      obtain ⟨rfl, -⟩ := List.cons.inj hbetween
      exact .inl ⟨c, between, hys⟩

theorem of_cons (h : IsCut cs (c :: zs)) : cs = [] ∨ ∃ ds, cs = c :: ds ∧ IsCut ds zs := by
  obtain ⟨next, rest, heq⟩ := h
  cases cs with
  | nil => exact .inl rfl
  | cons first ds =>
    obtain ⟨rfl, hzs⟩ := List.cons.inj heq
    exact .inr ⟨ds, rfl, next, rest, hzs⟩

theorem of_singleton (h : IsCut cs [c]) : cs = [] := by
  rcases h.of_cons with hempty | ⟨ds, -, next, rest, heq⟩
  · exact hempty
  · simp at heq

theorem isPrefix (h : IsCut cs zs) : cs <+: zs := by
  obtain ⟨c, rest, rfl⟩ := h
  exact List.prefix_append cs (c :: rest)

theorem of_isPrefix (h : cs <+: zs) (hne : cs ≠ zs) : IsCut cs zs := by
  obtain ⟨rest, rfl⟩ := h
  cases rest with
  | nil => exact absurd (List.append_nil cs).symm hne
  | cons c rest => exact ⟨c, rest, rfl⟩

end IsCut

def ReadResult.EndsEarly {α : Type} (r : ReadResult α) : Prop :=
  ∃ e, r.1 = .error e ∧ e.isTruncation = true

theorem ReadResult.EndsEarly.map {α β : Type} {r : ReadResult α} (h : r.EndsEarly) (f : α → β) :
    (r.map f).EndsEarly := by
  obtain ⟨e, he, htruncation⟩ := h
  exact ⟨e, by rw [ReadResult.map, he]; rfl, htruncation⟩

open ReadResult

theorem BaseType.endsEarly_read {b : BaseType} (h : IsCut cs b.chars) :
    EndsEarly (BaseType.read cs) := by
  rw [h.of_singleton]
  exact ⟨.missingBaseType, rfl, rfl⟩

/-- The name is not looked at before its semicolon is there. -/
theorem BinaryName.endsEarly_readName {name : BinaryName}
    (h : IsCut cs (name.text.toList ++ [';'])) : EndsEarly (BinaryName.readName cs) := by
  have hname : IsCut cs name.text.toList ∨ cs = name.text.toList := by
    refine h.of_append.imp_right ?_
    rintro ⟨ds, rfl, hds⟩
    rw [hds.of_singleton, List.append_nil]
  have hmem : ∀ c ∈ cs, c ∈ name.text.toList :=
    hname.elim (fun hcut _ hc => hcut.isPrefix.subset hc) fun heq _ hc => heq ▸ hc
  have hdrop : cs.dropWhile (fun c => decide (c ≠ ';')) = [] :=
    List.dropWhile_eq_nil_iff.2 fun c hc => decide_eq_true (name.ne_semicolon (hmem c hc))
  rw [BinaryName.readName, hdrop]
  exact ⟨.missingTerminator _, rfl, rfl⟩

theorem BinaryName.endsEarly_read {name : BinaryName} (hne : cs ≠ []) (h : IsCut cs name.chars) :
    EndsEarly (BinaryName.read cs) := by
  rcases h.of_cons with hempty | ⟨ds, rfl, hds⟩
  · exact absurd hempty hne
  · rw [BinaryName.read, if_pos rfl]
    exact endsEarly_readName hds

/-- Innermost elements of which nothing is left are read as a base type. -/
theorem ElementType.endsEarly_read_nil : EndsEarly (ElementType.read []) :=
  ⟨.missingBaseType, rfl, rfl⟩

theorem ElementType.endsEarly_read {element : ElementType} (h : IsCut cs element.chars) :
    EndsEarly (ElementType.read cs) := by
  cases element with
  | base b =>
    rw [h.of_singleton]
    exact endsEarly_read_nil
  | object name =>
    rcases h.of_cons with rfl | ⟨ds, rfl, -⟩
    · exact endsEarly_read_nil
    · rw [ElementType.read, List.head?_cons, if_pos rfl]
      exact (BinaryName.endsEarly_read (List.cons_ne_nil _ _) h).map _

theorem RefType.endsEarly_read {r : RefType} (h : IsCut cs r.chars) :
    EndsEarly (RefType.read cs) := by
  cases r with
  | object name =>
    rcases h.of_cons with rfl | ⟨ds, rfl, hds⟩
    · exact ⟨.missingRefType, rfl, rfl⟩
    · rw [RefType.read, if_pos rfl]
      exact (BinaryName.endsEarly_readName hds).map _
  | array extra element =>
    rcases h.of_cons with rfl | ⟨ds, rfl, hds⟩
    · exact ⟨.missingRefType, rfl, rfl⟩
    · -- Only brackets are left, or some of what stands behind all of them.
      rcases hds.of_append with hbrackets | ⟨es, rfl, hes⟩
      · obtain ⟨hle, hds⟩ := List.prefix_replicate_iff.1 hbrackets.isPrefix
        have hfits : ds.length < UInt64.size := Nat.lt_of_le_of_lt hle extra.toNat_lt_size
        rw [hds, ← List.append_nil (List.replicate ds.length '['), read_brackets hfits (by simp)]
        exact ElementType.endsEarly_read_nil.map _
      · obtain ⟨first, tail, hchars, hfirst, -⟩ := element.exists_chars_eq
        have hbehind : es.head? ≠ some '[' := by
          rcases (hchars ▸ hes).of_cons with rfl | ⟨es, rfl, -⟩
          · simp
          · simpa using hfirst
        rw [read_brackets extra.toNat_lt_size hbehind]
        exact (ElementType.endsEarly_read hes).map _

theorem FieldType.endsEarly_read {t : FieldType} (h : IsCut cs t.chars) :
    EndsEarly (FieldType.read cs) := by
  obtain ⟨c, tail, hchars, hfront⟩ := t.exists_chars_eq
  rcases (hchars ▸ h).of_cons with rfl | ⟨ds, rfl, -⟩
  · exact ⟨.missingFieldType, rfl, rfl⟩
  · rcases hfront with ⟨b, rfl, -, -⟩ | ⟨r, rfl, hletter, hc⟩
    · cases h.of_singleton
    · rw [FieldType.read, hletter]
      dsimp only
      rw [if_pos hc]
      exact (RefType.endsEarly_read h).map _

/-- What is left of parameters is read up to the one that was cut, if it is not all of them that are
left and only their end is missing. -/
theorem endsEarly_readParameters {ts : List FieldType}
    (h : IsCut cs (ts.flatMap FieldType.chars ++ [')'])) : EndsEarly (readParameters cs) := by
  have hnil : EndsEarly (readParameters []) := ⟨.missingClosing, by rw [readParameters], rfl⟩
  induction ts generalizing cs with
  | nil =>
    rw [h.of_singleton]
    exact hnil
  | cons t ts ih =>
    obtain ⟨c, tail, hchars, -⟩ := t.exists_chars_eq
    have hclosing := (FieldType.ne_of_chars_eq hchars).1
    rw [List.flatMap_cons, List.append_assoc] at h
    rcases h.of_append with hcut | ⟨ds, rfl, hds⟩
    · rcases (hchars ▸ hcut).of_cons with rfl | ⟨es, rfl, -⟩
      · exact hnil
      · obtain ⟨e, he, htruncation⟩ := FieldType.endsEarly_read hcut
        refine ⟨e, ?_, htruncation⟩
        rw [readParameters, if_neg hclosing]
        split
        · rename_i e' rest' hread
          rw [hread] at he
          exact congrArg Except.error (Except.error.inj he)
        · rename_i t' rest' hread
          rw [hread] at he
          cases he
    · have hread : FieldType.read (t.chars ++ ds) = (.ok t, ds) := FieldType.read_eq_ok_iff.2 rfl
      rw [hchars, List.cons_append] at hread ⊢
      rw [readParameters, if_neg hclosing]
      split
      · rename_i e rest' herror
        rw [hread] at herror
        cases herror
      · rename_i t' rest' ht
        obtain ⟨-, rfl⟩ := Prod.mk.inj (hread.symm.trans ht)
        exact (ih hds).map _

theorem endsEarly_readReturn {t : Option FieldType} (h : IsCut cs (returnChars t)) :
    EndsEarly (readReturn cs) := by
  cases t with
  | none =>
    rw [h.of_singleton]
    exact ⟨.missingFieldType, rfl, rfl⟩
  | some t =>
    obtain ⟨c, tail, hchars, -⟩ := t.exists_chars_eq
    have hcut : IsCut cs t.chars := h
    rcases (hchars ▸ hcut).of_cons with rfl | ⟨ds, rfl, -⟩
    · exact ⟨.missingFieldType, rfl, rfl⟩
    · rw [readReturn, if_neg (FieldType.ne_of_chars_eq hchars).2]
      exact (FieldType.endsEarly_read hcut).map _

theorem MethodDescriptor.endsEarly_read {d : MethodDescriptor} (hne : cs ≠ [])
    (h : IsCut cs d.chars) : EndsEarly (MethodDescriptor.read cs) := by
  rcases h.of_cons with hempty | ⟨ds, rfl, hds⟩
  · exact absurd hempty hne
  · change IsCut ds (d.parameters.flatMap FieldType.chars ++ ')' :: returnChars d.returns) at hds
    rw [List.append_cons] at hds
    rw [MethodDescriptor.read, if_pos rfl]
    rcases hds.of_append with hparameters | ⟨es, rfl, hes⟩
    · obtain ⟨e, he, htruncation⟩ := endsEarly_readParameters hparameters
      refine ⟨e, ?_, htruncation⟩
      split
      · rename_i e' rest' hread
        rw [hread] at he
        exact congrArg Except.error (Except.error.inj he)
      · rename_i parameters rest' hread
        rw [hread] at he
        cases he
    · have hread : readParameters (d.parameters.flatMap FieldType.chars ++ [')'] ++ es) =
          (.ok d.parameters, es) := readParameters_eq_ok_iff.2 (by simp)
      rw [hread]
      exact (endsEarly_readReturn hes).map _

/-- A descriptor that is cut behind its first character is read as a text that ends too early. -/
class ReportsTruncation (α : Type) [Descriptor α] : Prop where
  endsEarly_read : ∀ {cs : List Char} {d : α}, cs ≠ [] → IsCut cs (Descriptor.chars d) →
    EndsEarly (Descriptor.read cs : ReadResult α)

instance : ReportsTruncation BaseType := ⟨fun _ => BaseType.endsEarly_read⟩

instance : ReportsTruncation BinaryName := ⟨BinaryName.endsEarly_read⟩

instance : ReportsTruncation RefType := ⟨fun _ => RefType.endsEarly_read⟩

instance : ReportsTruncation FieldType := ⟨fun _ => FieldType.endsEarly_read⟩

instance : ReportsTruncation MethodDescriptor := ⟨MethodDescriptor.endsEarly_read⟩

namespace Descriptor

structure TellsTruncation (α : Type) [Descriptor α] : Prop where
  truncated : ∀ (d : α) (text : String), text ≠ "" → text ≠ render d →
    text.toList <+: (render d).toList →
      ∃ e, (parse text : Except DescriptorError α) = .error e ∧ e.isTruncation = true
  extended : ∀ (d : α) (extra : String), extra ≠ "" →
    ∃ e, (parse (render d ++ extra) : Except DescriptorError α) = .error e ∧
      e.isTruncation = false

variable {α : Type} [Descriptor α]

theorem parse_eq_error_of_read {text : String} {e : DescriptorError}
    (h : (read text.toList : ReadResult α).1 = .error e) :
    (parse text : Except DescriptorError α) = .error e := by
  rw [parse]
  split
  · rename_i heq
    rw [heq] at h
    rw [Except.error.inj h]
  · rename_i heq
    rw [heq] at h
    cases h
  · rename_i heq
    rw [heq] at h
    cases h

/-- Nothing but the first character added is reported. -/
theorem parse_render_append [LawfulDescriptor α] (d : α) {extra : String} {c : Char}
    {tail : List Char} (hextra : extra.toList = c :: tail) :
    (parse (render d ++ extra) : Except DescriptorError α) = .error (.leftover c) := by
  have hread : read (render d ++ extra).toList = (.ok d, c :: tail) := by
    rw [LawfulDescriptor.read_eq_ok_iff, String.toList_append, render, String.toList_ofList, hextra]
  rw [parse, hread]

theorem tellsTruncation_of_lawful (α : Type) [Descriptor α] [LawfulDescriptor α]
    [ReportsTruncation α] : TellsTruncation α where
  truncated d text hne hproper hprefix := by
    rw [render, String.toList_ofList] at hprefix
    have hcut : IsCut text.toList (chars d) := by
      refine .of_isPrefix hprefix fun heq => hproper ?_
      rw [render, ← heq, String.ofList_toList]
    obtain ⟨e, he, htruncation⟩ :=
      ReportsTruncation.endsEarly_read (fun hempty => hne (String.toList_eq_nil_iff.1 hempty)) hcut
    exact ⟨e, parse_eq_error_of_read he, htruncation⟩
  extended d extra hne := by
    obtain ⟨c, tail, hextra⟩ := List.exists_cons_of_ne_nil (mt String.toList_eq_nil_iff.1 hne)
    exact ⟨.leftover c, parse_render_append d hextra, rfl⟩

/-- All readers of descriptors tell truncated texts from other ones that they refuse. -/
theorem parse_tells_truncation :
    TellsTruncation BaseType ∧ TellsTruncation BinaryName ∧ TellsTruncation RefType ∧
      TellsTruncation FieldType ∧ TellsTruncation MethodDescriptor :=
  ⟨tellsTruncation_of_lawful _, tellsTruncation_of_lawful _, tellsTruncation_of_lawful _,
    tellsTruncation_of_lawful _, tellsTruncation_of_lawful _⟩

/-- Nothing at all is not taken for the beginning of a class name, as no reader has looked for one
before the capital L. -/
example : (parse "" : Except DescriptorError BinaryName) = .error .expectedClass ∧
    (parse "L" : Except DescriptorError BinaryName) = .error (.missingTerminator "") := by
  decide

end Descriptor

end MethodLocals
