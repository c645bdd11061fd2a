import MethodLocals.Name

/-! Which texts are names, and what is reported of the others. Checking a text segment by segment
comes to a condition on its characters alone: the reserved ones do not occur, and slashes stand
between other characters. The first fault of the first faulty segment is the one reported. -/

namespace MethodLocals

variable {cs : List Char} {segs : List (List Char)} {c : Char} {e : NameError} {text : String}

def reservedChars : List Char := ['.', ';', '[', '/']

theorem isReserved_iff : isReserved c = true ↔ c ∈ reservedChars := by
  simp [isReserved, reservedChars, or_assoc]

theorem find?_isReserved_iff : cs.find? isReserved = some c ↔
    ∃ before after, cs = before ++ c :: after ∧ (∀ d ∈ before, d ∉ reservedChars) ∧
      c ∈ reservedChars := by
  simp only [List.find?_eq_some_iff_append, ← isReserved_iff, Bool.not_eq_true, Bool.not_eq_true']
  grind

section Segments

theorem segments_eq_splitOn (cs : List Char) : segments cs = cs.splitOn '/' := by
  induction cs with
  | nil => rfl
  | cons c cs ih =>
    rw [segments, ih, List.splitOn_cons_eq_if_modifyHead]
    simp only [beq_iff_eq]
    split
    · rfl
    · cases hsplit : cs.splitOn '/' with
      | nil => exact absurd hsplit (List.splitOn_ne_nil _ _)
      | cons segment rest => rfl

theorem segments_cons_slash (cs : List Char) : segments ('/' :: cs) = [] :: segments cs := by
  rw [segments, if_pos rfl]

theorem segments_cons (hc : c ≠ '/') (cs : List Char) :
    segments (c :: cs) = (segments cs).modifyHead (c :: ·) := by
  simp [segments_eq_splitOn, List.splitOn_cons_eq_if_modifyHead, hc]

theorem exists_segments_eq_cons (cs : List Char) : ∃ seg rest, segments cs = seg :: rest := by
  rw [segments_eq_splitOn]
  exact List.exists_cons_of_ne_nil (List.splitOn_ne_nil _ _)

theorem flatten_segments (cs : List Char) : (segments cs).flatten = cs.filter (· ≠ '/') := by
  induction cs with
  | nil => rfl
  | cons c cs ih =>
    by_cases hc : c = '/'
    · subst hc
      simpa [segments_cons_slash] using ih
    · obtain ⟨seg, rest, hsegs⟩ := exists_segments_eq_cons cs
      rw [hsegs] at ih
      simpa [segments_cons hc, hsegs, hc] using ih

theorem exists_mem_segments_iff : (∃ seg ∈ segments cs, c ∈ seg) ↔ c ∈ cs ∧ c ≠ '/' := by
  rw [← List.mem_flatten, flatten_segments, List.mem_filter, decide_eq_true_iff]

/-- Segments are told by three things: there is at least one, no slash is in any of them, and they
make up the text with slashes between them. -/
theorem segments_eq_iff :
    segments cs = segs ↔ segs ≠ [] ∧ (∀ seg ∈ segs, '/' ∉ seg) ∧ ['/'].intercalate segs = cs := by
  constructor
  · rintro rfl
    refine ⟨?_, fun seg hseg hslash => ?_, ?_⟩
    · rw [segments_eq_splitOn]
      exact List.splitOn_ne_nil _ _
    · exact (exists_mem_segments_iff.1 ⟨seg, hseg, hslash⟩).2 rfl
    · rw [segments_eq_splitOn, List.intercalate_splitOn]
  · rintro ⟨hne, hslash, rfl⟩
    rw [segments_eq_splitOn, List.splitOn_intercalate _ hslash hne]

theorem segments_toList_iff {parts : List String} :
    segments text.toList = parts.map String.toList ↔
      parts ≠ [] ∧ (∀ part ∈ parts, '/' ∉ part.toList) ∧ text = "/".intercalate parts := by
  have hslash : "/".toList = ['/'] := rfl
  rw [segments_eq_iff, ← String.toList_inj, String.toList_intercalate, hslash, List.forall_mem_map,
    eq_comm (a := text.toList), Ne, List.map_eq_nil_iff]

theorem exists_segments_eq_map (text : String) :
    ∃ parts : List String, segments text.toList = parts.map String.toList :=
  ⟨(segments text.toList).map String.ofList, by simp⟩

/-- Behind the first segment, an empty one lies between two slashes or behind the last one. -/
theorem nil_notMem_tail_segments_iff :
    [] ∉ (segments cs).tail ↔ cs.getLast? ≠ some '/' ∧ ¬ ['/', '/'] <:+: cs := by
  induction cs with
  | nil => simp [segments]
  | cons c cs ih =>
    rw [List.infix_cons_iff, List.cons_prefix_cons]
    by_cases hc : c = '/'
    · subst hc
      rw [segments_cons_slash, List.tail_cons]
      cases cs with
      | nil => simp [segments]
      | cons d cs =>
        rw [List.getLast?_cons_cons]
        by_cases hd : d = '/'
        · subst hd
          simp [segments_cons_slash, List.cons_prefix_cons]
        · obtain ⟨seg, rest, hsegs⟩ := exists_segments_eq_cons cs
          rw [segments_cons hd, hsegs] at ih ⊢
          simpa [List.cons_prefix_cons, Ne.symm hd] using ih
    · have hlast : (c :: cs).getLast? ≠ some '/' ↔ cs.getLast? ≠ some '/' := by
        cases cs with
        | nil => simp [hc]
        | cons d cs => rw [List.getLast?_cons_cons]
      rw [segments_cons hc, List.tail_modifyHead, ih, hlast]
      simp [Ne.symm hc]

/-- The first segment is empty if the text is, or if a slash is first in it. -/
theorem nil_notMem_segments_iff : [] ∉ segments cs ↔
    cs ≠ [] ∧ cs.head? ≠ some '/' ∧ cs.getLast? ≠ some '/' ∧ ¬ ['/', '/'] <:+: cs := by
  rw [← nil_notMem_tail_segments_iff]
  cases cs with
  | nil => simp [segments]
  | cons c cs =>
    by_cases hc : c = '/'
    · simp [hc, segments_cons_slash]
    · obtain ⟨seg, rest, hsegs⟩ := exists_segments_eq_cons cs
      simp [segments_cons hc, hsegs, hc]

end Segments

section Checks

theorem checkUnqualified_eq_ok_iff :
    checkUnqualified cs = .ok () ↔ cs ≠ [] ∧ ∀ c ∈ cs, c ∉ reservedChars := by
  unfold checkUnqualified
  split
  · rename_i hempty
    simp [hempty]
  · rename_i hne
    split
    · rename_i c hfound
      have hreserved := isReserved_iff.1 (List.find?_some hfound)
      have hmem := List.mem_of_find?_eq_some hfound
      constructor
      · intro h
        cases h
      · rintro ⟨-, hall⟩
        exact absurd hreserved (hall c hmem)
    · rename_i hnone
      rw [List.find?_eq_none] at hnone
      exact ⟨fun _ => ⟨hne, fun c hc hreserved => hnone c hc (isReserved_iff.2 hreserved)⟩,
        fun _ => rfl⟩

theorem checkSegments_eq_ok_iff :
    checkSegments segs = .ok () ↔ ∀ seg ∈ segs, checkUnqualified seg = .ok () := by
  induction segs with
  | nil => simp [checkSegments]
  | cons seg segs ih =>
    rw [List.forall_mem_cons, checkSegments]
    cases hseg : checkUnqualified seg with
    | error e => simp
    | ok => simpa using ih

theorem checkSegments_append {valid : List (List Char)}
    (hvalid : ∀ seg ∈ valid, checkUnqualified seg = .ok ()) (segs : List (List Char)) :
    checkSegments (valid ++ segs) = checkSegments segs := by
  induction valid with
  | nil => rfl
  | cons seg valid ih =>
    obtain ⟨hseg, hvalid⟩ := List.forall_mem_cons.1 hvalid
    rw [List.cons_append, checkSegments, hseg]
    exact ih hvalid

/-- What is reported is what is wrong with the first segment with which something is wrong. -/
theorem checkSegments_eq_error_iff : checkSegments segs = .error e ↔
    ∃ valid seg rest, segs = valid ++ seg :: rest ∧
      (∀ s ∈ valid, checkUnqualified s = .ok ()) ∧ checkUnqualified seg = .error e := by
  constructor
  · intro h
    induction segs with
    | nil => cases h
    | cons seg segs ih =>
      rw [checkSegments] at h
      cases hseg : checkUnqualified seg with
      | error e' =>
        rw [hseg] at h
        exact ⟨[], seg, segs, rfl, by simp, hseg.trans h⟩
      | ok =>
        rw [hseg] at h
        obtain ⟨valid, faulty, rest, rfl, hvalid, hfaulty⟩ := ih h
        exact ⟨seg :: valid, faulty, rest, rfl, List.forall_mem_cons.2 ⟨hseg, hvalid⟩, hfaulty⟩
  · rintro ⟨valid, seg, rest, rfl, hvalid, hseg⟩
    rw [checkSegments_append hvalid, checkSegments, hseg]

/-- The empty text has an empty segment, so that it needs no case of its own. -/
theorem checkBinary_eq_ok_iff :
    checkBinary cs = .ok () ↔ ∀ seg ∈ segments cs, checkUnqualified seg = .ok () := by
  unfold checkBinary
  split
  · rename_i hempty
    subst hempty
    simp [segments, checkUnqualified]
  · exact checkSegments_eq_ok_iff

end Checks

/-- What is wrong with a text that is no member name: it is empty, or there is a reserved character
in it, of which the first one counts. -/
inductive UnqualifiedName.Fault (text : String) : NameError → Prop
  | empty (htext : text = "") : Fault text .emptySegment
  | reserved {before after : List Char} {c : Char} (htext : text.toList = before ++ c :: after)
      (hbefore : ∀ d ∈ before, d ∉ reservedChars) (hc : c ∈ reservedChars) :
      Fault text (.reserved text c)

theorem checkUnqualified_eq_error_iff :
    checkUnqualified text.toList = .error e ↔ UnqualifiedName.Fault text e := by
  unfold checkUnqualified
  constructor
  · intro h
    split at h
    · rename_i hempty
      obtain rfl := Except.error.inj h
      exact .empty (String.toList_eq_nil_iff.1 hempty)
    · split at h
      · rename_i c hfound
        obtain ⟨before, after, htext, hbefore, hc⟩ := find?_isReserved_iff.1 hfound
        obtain rfl := Except.error.inj h
        rw [String.ofList_toList]
        exact .reserved htext hbefore hc
      · cases h
  · rintro (htext | @⟨before, after, c, htext, hbefore, hc⟩)
    · rw [if_pos (String.toList_eq_nil_iff.2 htext)]
    · have hne : text.toList ≠ [] := by simp [htext]
      rw [if_neg hne, find?_isReserved_iff.2 ⟨before, after, htext, hbefore, hc⟩,
        String.ofList_toList]

theorem UnqualifiedName.exists_ofString_iff :
    (∃ name, ofString text = .ok name) ↔ checkUnqualified text.toList = .ok () := by
  unfold ofString
  split
  · rename_i hvalid
    simp [hvalid]
  · rename_i e herror
    simp [herror]

namespace BinaryName

theorem ofString_eq_ok_iff {name : BinaryName} : ofString text = .ok name ↔ text = name.text := by
  obtain ⟨held, hvalid⟩ := name
  unfold ofString
  split
  · simp
  · rename_i e herror
    constructor
    · intro h
      cases h
    · rintro rfl
      rw [hvalid] at herror
      cases herror

theorem exists_ofString_iff :
    (∃ name, ofString text = .ok name) ↔ checkBinary text.toList = .ok () := by
  constructor
  · rintro ⟨name, hname⟩
    exact ofString_eq_ok_iff.1 hname ▸ name.valid
  · intro hvalid
    exact ⟨⟨text, hvalid⟩, ofString_eq_ok_iff.2 rfl⟩

theorem ofString_eq_error_iff : ofString text = .error e ↔ checkBinary text.toList = .error e := by
  unfold ofString
  split
  · rename_i hvalid
    simp [hvalid]
  · rename_i e' herror
    simp [herror]

/-- How a class name is spelled: there is no dot, no semicolon and no opening bracket in it, and
slashes stand neither at its ends nor side by side. -/
structure Spelled (text : String) : Prop where
  ne_empty : text ≠ ""
  free : ∀ c ∈ text.toList, c ≠ '.' ∧ c ≠ ';' ∧ c ≠ '['
  not_first : text.toList.head? ≠ some '/'
  not_last : text.toList.getLast? ≠ some '/'
  not_doubled : ¬ ['/', '/'] <:+: text.toList

theorem checkBinary_eq_ok_iff_spelled : checkBinary text.toList = .ok () ↔ Spelled text := by
  have hfree : (∀ seg ∈ segments text.toList, ∀ c ∈ seg, c ∉ reservedChars) ↔
      ∀ c ∈ text.toList, c ≠ '.' ∧ c ≠ ';' ∧ c ≠ '[' := by
    rw [← List.forall_mem_flatten, flatten_segments]
    simp only [List.mem_filter, reservedChars]
    grind
  have hnonempty : (∀ seg ∈ segments text.toList, seg ≠ []) ↔ [] ∉ segments text.toList :=
    ⟨fun h hmem => h [] hmem rfl, fun h seg hseg hempty => h (hempty ▸ hseg)⟩
  have hne : text.toList ≠ [] ↔ text ≠ "" := not_congr String.toList_eq_nil_iff
  simp only [checkBinary_eq_ok_iff, checkUnqualified_eq_ok_iff, forall_and, hfree, hnonempty,
    nil_notMem_segments_iff, hne]
  constructor
  · rintro ⟨⟨hempty, hfirst, hlast, hdoubled⟩, hfree⟩
    exact ⟨hempty, by grind, hfirst, hlast, hdoubled⟩
  · rintro ⟨hempty, hfree, hfirst, hlast, hdoubled⟩
    exact ⟨⟨hempty, hfirst, hlast, hdoubled⟩, by grind⟩

/-- The character that ends a class name in a descriptor never stands in one. -/
theorem ne_semicolon (name : BinaryName) {c : Char} (hc : c ∈ name.text.toList) : c ≠ ';' :=
  ((checkBinary_eq_ok_iff_spelled.1 name.valid).free c hc).2.1

/-- What is wrong with a text that is no class name: it is empty, or something is wrong with one of
the segments between its slashes, of which the first one counts. -/
inductive Fault (text : String) : NameError → Prop
  | empty (htext : text = "") : Fault text .emptyName
  | segment {valid rest : List String} {seg : String} {e : NameError} (hne : text ≠ "")
      (htext : text = "/".intercalate (valid ++ seg :: rest))
      (hslash : ∀ s ∈ valid ++ seg :: rest, '/' ∉ s.toList)
      (hvalid : ∀ s ∈ valid, ∃ name, UnqualifiedName.ofString s = .ok name)
      (hfault : UnqualifiedName.Fault seg e) : Fault text e

theorem checkBinary_eq_error_iff : checkBinary text.toList = .error e ↔ Fault text e := by
  unfold checkBinary
  constructor
  · intro h
    split at h
    · rename_i hempty
      obtain rfl := Except.error.inj h
      exact .empty (String.toList_eq_nil_iff.1 hempty)
    · rename_i hne
      obtain ⟨valid, seg, rest, hsegs, hvalid, hfault⟩ := checkSegments_eq_error_iff.1 h
      obtain ⟨parts, hparts⟩ := exists_segments_eq_map text
      rw [hparts] at hsegs
      obtain ⟨valid, others, rfl, rfl, hothers⟩ := List.map_eq_append_iff.1 hsegs
      obtain ⟨seg, rest, rfl, rfl, rfl⟩ := List.map_eq_cons_iff.1 hothers
      obtain ⟨-, hslash, htext⟩ := segments_toList_iff.1 hparts
      refine .segment (mt String.toList_eq_nil_iff.2 hne) htext hslash (fun s hs => ?_)
        (checkUnqualified_eq_error_iff.1 hfault)
      exact UnqualifiedName.exists_ofString_iff.2 (hvalid _ (List.mem_map_of_mem hs))
  · rintro (htext | @⟨valid, rest, seg, e, hne, htext, hslash, hvalid, hfault⟩)
    · rw [if_pos (String.toList_eq_nil_iff.2 htext)]
    · have hparts := segments_toList_iff.2 ⟨by simp, hslash, htext⟩
      rw [if_neg (mt String.toList_eq_nil_iff.1 hne), hparts]
      refine checkSegments_eq_error_iff.2 ⟨valid.map String.toList, seg.toList,
        rest.map String.toList, by simp, fun s hs => ?_, checkUnqualified_eq_error_iff.2 hfault⟩
      obtain ⟨part, hpart, rfl⟩ := List.mem_map.1 hs
      exact UnqualifiedName.exists_ofString_iff.1 (hvalid part hpart)

theorem checkBinary_eq_ok_iff_exists_parts : checkBinary text.toList = .ok () ↔
    ∃ parts : List String, parts ≠ [] ∧
      (∀ part ∈ parts, ∃ name, UnqualifiedName.ofString part = .ok name) ∧
      text = "/".intercalate parts := by
  simp only [checkBinary_eq_ok_iff, UnqualifiedName.exists_ofString_iff]
  constructor
  · intro hvalid
    obtain ⟨parts, hparts⟩ := exists_segments_eq_map text
    obtain ⟨hne, -, htext⟩ := segments_toList_iff.1 hparts
    rw [hparts, List.forall_mem_map] at hvalid
    exact ⟨parts, hne, hvalid, htext⟩
  · rintro ⟨parts, hne, hvalid, htext⟩
    have hslash : ∀ part ∈ parts, '/' ∉ part.toList := fun part hpart hmem =>
      (checkUnqualified_eq_ok_iff.1 (hvalid part hpart)).2 '/' hmem (by decide)
    rw [segments_toList_iff.2 ⟨hne, hslash, htext⟩, List.forall_mem_map]
    exact hvalid

structure DecidedByGrammar (text : String) : Prop where
  spelled_iff : (∃ name, ofString text = .ok name) ↔ Spelled text
  parts_iff : (∃ name, ofString text = .ok name) ↔ ∃ parts : List String, parts ≠ [] ∧
    (∀ part ∈ parts, ∃ name, UnqualifiedName.ofString part = .ok name) ∧
    text = "/".intercalate parts
  text_eq : ∀ name, ofString text = .ok name → name.text = text
  fault_iff : ∀ e, ofString text = .error e ↔ Fault text e

/-- All texts are decided by the grammar of class names. -/
theorem decidedByGrammar (text : String) : DecidedByGrammar text where
  spelled_iff := exists_ofString_iff.trans checkBinary_eq_ok_iff_spelled
  parts_iff := exists_ofString_iff.trans checkBinary_eq_ok_iff_exists_parts
  text_eq _ h := (ofString_eq_ok_iff.1 h).symm
  fault_iff _ := ofString_eq_error_iff.trans checkBinary_eq_error_iff

/-- The first fault of the first faulty segment is reported, whatever comes behind it. -/
example : ofString "a/b;c[/.//" = .error (.reserved "b;c[" ';') := rfl

end BinaryName

end MethodLocals
