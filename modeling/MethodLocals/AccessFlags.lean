/-! Access flags. A flag set is a word in which only bits of known flags are set. -/

namespace MethodLocals

structure Flag where
  name : String
  bit : UInt16
  deriving DecidableEq

def flagMask (known : List Flag) : UInt16 := known.foldr (fun f bits => f.bit ||| bits) 0

/-- Sets of the known flags. -/
structure Flags (known : List Flag) where
  bits : UInt16
  known_bits : bits &&& flagMask known = bits
  deriving DecidableEq

namespace Flags

variable {known : List Flag}

/-- Bits that stand for no known flag are dropped. -/
def ofBits (known : List Flag) (bits : UInt16) : Flags known :=
  ⟨bits &&& flagMask known, by rw [UInt16.and_assoc, UInt16.and_self]⟩

def covers (known : List Flag) (bits : UInt16) : Bool := bits &&& flagMask known = bits

def has (flags : Flags known) (flag : Flag) : Bool := flags.bits &&& flag.bit = flag.bit

/-- The set flags in the order in which they are declared. -/
def toList (flags : Flags known) : List Flag := known.filter flags.has

def render (flags : Flags known) : String :=
  if flags.toList = [] then "(empty)" else " | ".intercalate (flags.toList.map Flag.name)

@[simp] theorem ofBits_bits (flags : Flags known) : ofBits known flags.bits = flags := by
  cases flags with
  | mk bits h => simp [ofBits, h]

end Flags

namespace ClassFlag

def «public» : Flag := ⟨"PUBLIC", 0x0001⟩
def final : Flag := ⟨"FINAL", 0x0010⟩
def super : Flag := ⟨"SUPER", 0x0020⟩
def interface : Flag := ⟨"INTERFACE", 0x0200⟩
def abstract : Flag := ⟨"ABSTRACT", 0x0400⟩
def synthetic : Flag := ⟨"SYNTHETIC", 0x1000⟩
def annotation : Flag := ⟨"ANNOTATION", 0x2000⟩
def enum : Flag := ⟨"ENUM", 0x4000⟩
def module : Flag := ⟨"MODULE", 0x8000⟩

def all : List Flag :=
  [«public», final, super, interface, abstract, synthetic, annotation, enum, module]

end ClassFlag

namespace MethodFlag

def «public» : Flag := ⟨"PUBLIC", 0x0001⟩
def «private» : Flag := ⟨"PRIVATE", 0x0002⟩
def «protected» : Flag := ⟨"PROTECTED", 0x0004⟩
def static : Flag := ⟨"STATIC", 0x0008⟩
def final : Flag := ⟨"FINAL", 0x0010⟩
def synchronized : Flag := ⟨"SYNCHRONIZED", 0x0020⟩
def bridge : Flag := ⟨"BRIDGE", 0x0040⟩
def varargs : Flag := ⟨"VARARGS", 0x0080⟩
def native : Flag := ⟨"NATIVE", 0x0100⟩
def abstract : Flag := ⟨"ABSTRACT", 0x0400⟩
def strict : Flag := ⟨"STRICT", 0x0800⟩
def synthetic : Flag := ⟨"SYNTHETIC", 0x1000⟩

def all : List Flag :=
  [«public», «private», «protected», static, final, synchronized, bridge, varargs, native,
    abstract, strict, synthetic]

end MethodFlag

abbrev ClassFlags := Flags ClassFlag.all

abbrev MethodFlags := Flags MethodFlag.all

def ClassFlags.ofList (flags : List Flag) : ClassFlags := .ofBits _ (flagMask flags)

def MethodFlags.ofList (flags : List Flag) : MethodFlags := .ofBits _ (flagMask flags)

def ClassFlags.isInterface (flags : ClassFlags) : Bool := flags.has ClassFlag.interface

/-- A static method has no receiver. -/
def MethodFlags.isStatic (flags : MethodFlags) : Bool := flags.has MethodFlag.static

end MethodLocals
