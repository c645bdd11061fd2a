import MethodLocals.Text.Combining
import MethodLocals.Text.Ignorable
import MethodLocals.Text.Unprintable

/-! Text in quotes. A quote or a backslash inside is written after a backslash, and a character that
cannot be seen by itself by its short name or its number. -/

namespace MethodLocals

/-- The halfwidth voicing marks follow another character, and still have a width of their own. -/
def isHalfwidthMark (c : Char) : Bool := c = '\uff9e' || c = '\uff9f'

/-- Can the character be seen by itself? -/
def isVisible (c : Char) : Bool :=
  !CharSet.unprintable.contains c && !CharSet.ignorable.contains c &&
    (!CharSet.combining.contains c || isHalfwidthMark c)

/-- Up to the last control character, the visible ones are those from the space to the tilde. -/
theorem isVisible_iff_of_lt {c : Char} (low : c.toNat < 0xa0) :
    isVisible c = true ↔ 0x20 ≤ c.toNat ∧ c.toNat ≤ 0x7e := by
  have all : ∀ n < 0xa0, isVisible (.ofNat n) = true ↔ 0x20 ≤ n ∧ n ≤ 0x7e := by decide +kernel
  simpa using all c.toNat low

/-- The number of a character in hexadecimal digits between braces. -/
def numberedEscape (c : Char) : List Char :=
  ['\\', 'u', '\x7b'] ++ Nat.toDigits 16 c.toNat ++ ['\x7d']

def escapeChar (c : Char) : List Char :=
  if c = '"' then ['\\', '"']
  else if c = '\\' then ['\\', '\\']
  else if c = '\n' then ['\\', 'n']
  else if c = '\t' then ['\\', 't']
  else if c = '\r' then ['\\', 'r']
  else if c = '\x00' then ['\\', '0']
  else if isVisible c then [c]
  else numberedEscape c

def quote (text : String) : String :=
  String.ofList ('"' :: text.toList.flatMap escapeChar ++ ['"'])

end MethodLocals
