/-! The lines of a text. A line ends with a line feed, or with a carriage return and a line feed;
what follows the last end is a line unless it is empty. -/

namespace MethodLocals

/-- Puts a character in front of the first line. -/
def extendFirst (c : Char) : List (List Char) → List (List Char)
  | [] => [[c]]
  | line :: rest => (c :: line) :: rest

def splitLines : List Char → List (List Char)
  | [] => []
  | '\n' :: rest => [] :: splitLines rest
  | '\r' :: '\n' :: rest => [] :: splitLines rest
  | c :: rest => extendFirst c (splitLines rest)

def linesOf (text : String) : List String := (splitLines text.toList).map String.ofList

theorem notMem_of_mem_extendFirst {c : Char} (differs : c ≠ '\n') {lines : List (List Char)}
    (clean : ∀ line ∈ lines, '\n' ∉ line) : ∀ line ∈ extendFirst c lines, '\n' ∉ line := by
  cases lines with
  | nil => simpa [extendFirst] using differs.symm
  | cons first rest =>
    simp only [List.mem_cons, forall_eq_or_imp] at clean
    simpa [extendFirst, differs.symm, clean.1] using clean.2

/-- No line holds a line feed. -/
theorem lineFeed_notMem_of_mem_splitLines (text : List Char) :
    ∀ line ∈ splitLines text, '\n' ∉ line := by
  fun_induction splitLines text with
  | case1 => simp
  | case2 rest ih => simpa using ih
  | case3 rest ih => simpa using ih
  | case4 c rest isLineFeed _ ih =>
    exact notMem_of_mem_extendFirst isLineFeed ih

/-- A text without a line feed is a line. -/
theorem splitLines_of_notMem {text : List Char} (nonempty : text ≠ []) (clean : '\n' ∉ text) :
    splitLines text = [text] := by
  fun_induction splitLines text with
  | case1 => contradiction
  | case2 rest ih => simp at clean
  | case3 rest ih => simp at clean
  | case4 c rest _ _ ih =>
    simp only [List.mem_cons, not_or] at clean
    cases rest with
    | nil => simp [splitLines, extendFirst]
    | cons d rest => simp [ih (by simp) clean.2, extendFirst]

end MethodLocals
