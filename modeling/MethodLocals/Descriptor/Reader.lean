import MethodLocals.Descriptor

/-! Reading descriptors from a stream of characters. A reader says what it found and which
characters it left, on failure too: most readers look at a character before they take it, while
base types and class names take the character that they refuse. -/

namespace MethodLocals

inductive DescriptorError where
  | leftover (c : Char)
  | missingBaseType
  | invalidBaseType (c : Char)
  | expectedClass
  | missingTerminator (name : String)
  | invalidName (error : NameError)
  | missingRefType
  | invalidRefType (c : Char)
  | tooManyBrackets
  | missingFieldType
  | invalidFieldType (c : Char)
  | expectedOpening
  | missingClosing
  deriving DecidableEq

/-- The text ended where more was needed. -/
def DescriptorError.isTruncation : DescriptorError → Bool
  | .missingBaseType | .missingTerminator _ | .missingRefType | .missingFieldType
  | .missingClosing => true
  | .leftover _ | .invalidBaseType _ | .expectedClass | .invalidName _ | .invalidRefType _
  | .tooManyBrackets | .invalidFieldType _ | .expectedOpening => false

def DescriptorError.message : DescriptorError → String
  | .leftover c => s!"Unexpected leftover input '{c}'"
  | .missingBaseType => "Missing base type character"
  | .invalidBaseType c => s!"Invalid base type character '{c}'"
  | .expectedClass => "Expected object type to start with `L`"
  | .missingTerminator name => s!"Missing terminator for 'L{name}'"
  | .invalidName error => error.message
  | .missingRefType => "Missing reference type"
  | .invalidRefType c => s!"Invalid reference type character '{c}'"
  | .tooManyBrackets => "attempt to add with overflow"
  | .missingFieldType => "Missing field type"
  | .invalidFieldType c => s!"Invalid field type character '{c}'"
  | .expectedOpening => "Expected '(' for method"
  | .missingClosing => "Expected ')' for method"

/-- What was read and the characters that are left. -/
abbrev ReadResult (α : Type) := Except DescriptorError α × List Char

def ReadResult.map {α β : Type} (f : α → β) (r : ReadResult α) : ReadResult β :=
  (r.1.map f, r.2)

def BaseType.read : List Char → ReadResult BaseType
  | [] => (.error .missingBaseType, [])
  | c :: cs =>
    match BaseType.ofLetter c with
    | some b => (.ok b, cs)
    | none => (.error (.invalidBaseType c), cs)

/-- Reads a class name up to its semicolon; the name is checked once the semicolon is found. -/
def BinaryName.readName (cs : List Char) : ReadResult BinaryName :=
  match cs.dropWhile (· ≠ ';') with
  | [] => (.error (.missingTerminator (String.ofList cs)), [])
  | _ :: rest =>
    match BinaryName.ofString (String.ofList (cs.takeWhile (· ≠ ';'))) with
    | .ok name => (.ok name, rest)
    | .error e => (.error (.invalidName e), rest)

def BinaryName.read : List Char → ReadResult BinaryName
  | [] => (.error .expectedClass, [])
  | c :: cs => if c = 'L' then BinaryName.readName cs else (.error .expectedClass, cs)

def ElementType.read (cs : List Char) : ReadResult ElementType :=
  if cs.head? = some 'L' then ReadResult.map .object (BinaryName.read cs)
  else ReadResult.map .base (BaseType.read cs)

/-- Brackets are counted in a machine word. That there are too many of them is an error which no text
that is held in memory is long enough for. -/
def RefType.read : List Char → ReadResult RefType
  | [] => (.error .missingRefType, [])
  | c :: cs =>
    if c = 'L' then ReadResult.map .object (BinaryName.readName cs)
    else if c = '[' then
      if (cs.takeWhile (· = '[')).length < UInt64.size then
        ReadResult.map (.array (.ofNat (cs.takeWhile (· = '[')).length))
          (ElementType.read (cs.dropWhile (· = '[')))
      else (.error .tooManyBrackets, cs.drop UInt64.size)
    else (.error (.invalidRefType c), c :: cs)

def FieldType.read : List Char → ReadResult FieldType
  | [] => (.error .missingFieldType, [])
  | c :: cs =>
    match BaseType.ofLetter c with
    | some b => (.ok (.base b), cs)
    | none =>
      if c = 'L' ∨ c = '[' then ReadResult.map .ref (RefType.read (c :: cs))
      else (.error (.invalidFieldType c), c :: cs)

theorem ReadResult.map_eq_ok {α β : Type} {f : α → β} {r : ReadResult α} {b : β}
    {rest : List Char} : r.map f = (.ok b, rest) ↔ ∃ a, r = (.ok a, rest) ∧ f a = b := by
  rcases r with ⟨_ | a, cs⟩
  · simp [ReadResult.map, Except.map]
  · simp only [ReadResult.map, Except.map, Prod.mk.injEq, Except.ok.injEq]
    grind

theorem BaseType.read_shorter {cs rest : List Char} {b : BaseType}
    (h : BaseType.read cs = (.ok b, rest)) : rest.length < cs.length := by
  unfold BaseType.read at h
  split at h
  · simp at h
  · split at h <;> simp_all

theorem BinaryName.readName_shorter {cs rest : List Char} {name : BinaryName}
    (h : BinaryName.readName cs = (.ok name, rest)) : rest.length < cs.length := by
  unfold BinaryName.readName at h
  split at h
  · simp at h
  · rename_i c tail heq
    have hle := (List.dropWhile_suffix (l := cs) (· ≠ ';')).length_le
    rw [heq, List.length_cons] at hle
    split at h
    · cases h
      omega
    · cases h

theorem BinaryName.read_shorter {cs rest : List Char} {name : BinaryName}
    (h : BinaryName.read cs = (.ok name, rest)) : rest.length < cs.length := by
  unfold BinaryName.read at h
  split at h
  · simp at h
  · split at h
    · have := BinaryName.readName_shorter h
      simp only [List.length_cons]
      omega
    · simp at h

theorem ElementType.read_shorter {cs rest : List Char} {element : ElementType}
    (h : ElementType.read cs = (.ok element, rest)) : rest.length < cs.length := by
  unfold ElementType.read at h
  split at h <;> obtain ⟨_, h, _⟩ := ReadResult.map_eq_ok.1 h
  · exact BinaryName.read_shorter h
  · exact BaseType.read_shorter h

theorem RefType.read_shorter {cs rest : List Char} {r : RefType}
    (h : RefType.read cs = (.ok r, rest)) : rest.length < cs.length := by
  unfold RefType.read at h
  split at h
  · simp at h
  · rename_i c tail
    simp only [List.length_cons]
    split at h
    · obtain ⟨_, h, _⟩ := ReadResult.map_eq_ok.1 h
      have := BinaryName.readName_shorter h
      omega
    · split at h
      · split at h
        · obtain ⟨_, h, _⟩ := ReadResult.map_eq_ok.1 h
          have := ElementType.read_shorter h
          have := (List.dropWhile_suffix (l := tail) (· = '[')).length_le
          omega
        · simp at h
      · simp at h

theorem FieldType.read_shorter {cs rest : List Char} {t : FieldType}
    (h : FieldType.read cs = (.ok t, rest)) : rest.length < cs.length := by
  unfold FieldType.read at h
  split at h
  · simp at h
  · split at h
    · simp_all
    · split at h
      · obtain ⟨_, h, _⟩ := ReadResult.map_eq_ok.1 h
        exact RefType.read_shorter h
      · simp at h

/-- Reads parameter types up to the closing parenthesis, which is taken. -/
def readParameters (cs : List Char) : ReadResult (List FieldType) :=
  match cs with
  | [] => (.error .missingClosing, [])
  | c :: tail =>
    if c = ')' then (.ok [], tail)
    else match h : FieldType.read (c :: tail) with
      | (.error e, rest) => (.error e, rest)
      | (.ok t, rest) =>
        have := FieldType.read_shorter h
        ReadResult.map (t :: ·) (readParameters rest)
termination_by cs.length
decreasing_by exact this

def readReturn : List Char → ReadResult (Option FieldType)
  | [] => (.error .missingFieldType, [])
  | c :: cs => if c = 'V' then (.ok none, cs) else ReadResult.map some (FieldType.read (c :: cs))

def MethodDescriptor.read : List Char → ReadResult MethodDescriptor
  | [] => (.error .expectedOpening, [])
  | c :: cs =>
    if c = '(' then
      match readParameters cs with
      | (.error e, rest) => (.error e, rest)
      | (.ok parameters, rest) => ReadResult.map (MethodDescriptor.mk parameters) (readReturn rest)
    else (.error .expectedOpening, c :: cs)

theorem readParameters_shorter {cs rest : List Char} {ts : List FieldType}
    (h : readParameters cs = (.ok ts, rest)) : rest.length < cs.length := by
  fun_induction readParameters cs generalizing ts with
  | case1 => simp at h
  | case2 => simp_all
  | case3 => simp at h
  | case4 c tail _ t rest' hread _ ih =>
    obtain ⟨_, h, _⟩ := ReadResult.map_eq_ok.1 h
    have := ih h
    have := FieldType.read_shorter hread
    omega

theorem readReturn_shorter {cs rest : List Char} {t : Option FieldType}
    (h : readReturn cs = (.ok t, rest)) : rest.length < cs.length := by
  unfold readReturn at h
  split at h
  · simp at h
  · split at h
    · simp_all
    · obtain ⟨_, h, _⟩ := ReadResult.map_eq_ok.1 h
      exact FieldType.read_shorter h

theorem MethodDescriptor.read_shorter {cs rest : List Char} {d : MethodDescriptor}
    (h : MethodDescriptor.read cs = (.ok d, rest)) : rest.length < cs.length := by
  unfold MethodDescriptor.read at h
  split at h
  · simp at h
  · split at h
    · split at h
      · simp at h
      · rename_i hp
        obtain ⟨_, h, _⟩ := ReadResult.map_eq_ok.1 h
        have := readParameters_shorter hp
        have := readReturn_shorter h
        simp only [List.length_cons]
        omega
    · simp at h

/-- Values with a written form that can be read back. A reader that succeeds has taken something. -/
class Descriptor (α : Type) where
  chars : α → List Char
  read : List Char → ReadResult α
  read_shorter : ∀ {cs rest : List Char} {d : α}, read cs = (.ok d, rest) →
    rest.length < cs.length

instance : Descriptor BaseType := ⟨BaseType.chars, BaseType.read, BaseType.read_shorter⟩

instance : Descriptor BinaryName := ⟨BinaryName.chars, BinaryName.read, BinaryName.read_shorter⟩

instance : Descriptor RefType := ⟨RefType.chars, RefType.read, RefType.read_shorter⟩

instance : Descriptor FieldType := ⟨FieldType.chars, FieldType.read, FieldType.read_shorter⟩

instance : Descriptor MethodDescriptor :=
  ⟨MethodDescriptor.chars, MethodDescriptor.read, MethodDescriptor.read_shorter⟩

namespace Descriptor

variable {α : Type} [Descriptor α]

def render (d : α) : String := String.ofList (chars d)

/-- Reads a text that holds one descriptor and nothing else. -/
def parse (text : String) : Except DescriptorError α :=
  match (read text.toList : ReadResult α) with
  | (.error e, _) => .error e
  | (.ok d, []) => .ok d
  | (.ok _, c :: _) => .error (.leftover c)

/-- What reading one descriptor after the other has found, and where it stopped. -/
structure Scan (α : Type) where
  items : List α
  failure : Option DescriptorError
  rest : List Char

/-- Reads descriptors until the characters are used up or one cannot be read. -/
def scan (cs : List Char) : Scan α :=
  match cs with
  | [] => ⟨[], none, []⟩
  | c :: tail =>
    match h : (read (c :: tail) : ReadResult α) with
    | (.error e, rest) => ⟨[], some e, rest⟩
    | (.ok d, rest) =>
      have := read_shorter h
      let found := scan rest
      ⟨d :: found.items, found.failure, found.rest⟩
termination_by cs.length
decreasing_by exact this

end Descriptor

end MethodLocals
