import MethodLocals.Descriptor

/-! Instructions with symbolic variables and jump targets. Immediate numbers are left out: neither
slots nor frames depend on them. -/

namespace MethodLocals

inductive Constant where
  | number (kind : NumberKind)
  | text (value : String)
  | classLiteral (type : RefType)
  deriving DecidableEq

inductive ArithmeticOp where
  | iadd | isub | imul | ladd | lsub | lmul | fadd | dadd
  deriving DecidableEq

inductive Conversion where
  | i2l | i2f | i2d | l2i
  deriving DecidableEq

inductive FieldAccess where
  | getStatic | putStatic | getField | putField
  deriving DecidableEq

inductive InvokeKind where
  | virtual | special | static | interface
  deriving DecidableEq

inductive Comparison where
  | eq | ge | gt | le | lt | ne
  deriving DecidableEq

/-- What a conditional jump looks at. -/
inductive Condition where
  | zero (comparison : Comparison)
  | ints (comparison : Comparison)
  | references (equal : Bool)
  | null (isNull : Bool)
  deriving DecidableEq

structure FieldRef where
  owner : BinaryName
  name : UnqualifiedName
  type : FieldType
  deriving DecidableEq

structure MethodRef where
  owner : BinaryName
  name : UnqualifiedName
  descriptor : MethodDescriptor
  deriving DecidableEq

inductive Instruction where
  | label (name : String)
  | nop
  | pushNull
  | push (kind : NumberKind)
  | ldc (constant : Constant)
  | load (kind : NumberKind) (name : String)
  | loadRef (name : String)
  | store (kind : NumberKind) (name : String)
  | storeRef (name : String)
  | increment (name : String)
  | pop
  | pop2
  | dup
  | swap
  | arithmetic (op : ArithmeticOp)
  | convert (conversion : Conversion)
  | new (name : BinaryName)
  | newArray (element : BaseType)
  | newRefArray (element : RefType)
  | arrayLength
  | loadElement
  | storeElement
  | checkCast (type : RefType)
  | instanceOf (type : RefType)
  | field (access : FieldAccess) (ref : FieldRef)
  | invoke (kind : InvokeKind) (ref : MethodRef)
  | branch (condition : Condition) (target : String)
  | goto (target : String)
  | returnNumber (kind : NumberKind)
  | returnRef
  | returnVoid
  | throw
  | monitor (enter : Bool)
  | expression (text : String)
  deriving DecidableEq

inductive Access where
  | assign | update | read
  deriving DecidableEq

def Access.name : Access → String
  | .assign => "assign"
  | .update => "update"
  | .read => "read"

/-- One access of a variable, with the type that the instruction implies. -/
structure VariableRef where
  name : String
  type : FieldType
  access : Access
  deriving DecidableEq

/-- The operands of an operation and its result are of one kind. -/
def ArithmeticOp.kind : ArithmeticOp → NumberKind
  | .iadd | .isub | .imul => .int
  | .ladd | .lsub | .lmul => .long
  | .fadd => .float
  | .dadd => .double

def ArithmeticOp.mnemonic : ArithmeticOp → String
  | .iadd => "iadd"
  | .isub => "isub"
  | .imul => "imul"
  | .ladd => "ladd"
  | .lsub => "lsub"
  | .lmul => "lmul"
  | .fadd => "fadd"
  | .dadd => "dadd"

def Conversion.source : Conversion → NumberKind
  | .i2l | .i2f | .i2d => .int
  | .l2i => .long

def Conversion.target : Conversion → NumberKind
  | .i2l => .long
  | .i2f => .float
  | .i2d => .double
  | .l2i => .int

def Conversion.mnemonic : Conversion → String
  | .i2l => "i2l"
  | .i2f => "i2f"
  | .i2d => "i2d"
  | .l2i => "l2i"

def FieldAccess.mnemonic : FieldAccess → String
  | .getStatic => "getstatic"
  | .putStatic => "putstatic"
  | .getField => "getfield"
  | .putField => "putfield"

def InvokeKind.mnemonic : InvokeKind → String
  | .virtual => "invokevirtual"
  | .special => "invokespecial"
  | .static => "invokestatic"
  | .interface => "invokeinterface"

/-- Stack entries that a condition looks at, each of width one. -/
def Condition.operands : Condition → Nat
  | .zero _ | .null _ => 1
  | .ints _ | .references _ => 2

def Condition.mnemonic : Condition → String
  | .zero _ => "if"
  | .ints _ => "if_icmp"
  | .references _ => "if_acmp"
  | .null true => "ifnull"
  | .null false => "ifnonnull"

/-- The letter that an instruction for numbers of one kind starts with. -/
def NumberKind.letter : NumberKind → String
  | .int => "i"
  | .long => "l"
  | .float => "f"
  | .double => "d"

namespace Instruction

def mnemonic : Instruction → String
  | label _ => "label"
  | nop => "nop"
  | pushNull => "aconst_null"
  | push kind => kind.letter ++ "const"
  | ldc _ => "ldc"
  | load kind _ => kind.letter ++ "load"
  | loadRef _ => "aload"
  | store kind _ => kind.letter ++ "store"
  | storeRef _ => "astore"
  | increment _ => "iinc"
  | pop => "pop"
  | pop2 => "pop2"
  | dup => "dup"
  | swap => "swap"
  | arithmetic op => op.mnemonic
  | convert conversion => conversion.mnemonic
  | new _ => "new"
  | newArray _ => "newarray"
  | newRefArray _ => "anewarray"
  | arrayLength => "arraylength"
  | loadElement => "aaload"
  | storeElement => "aastore"
  | checkCast _ => "checkcast"
  | instanceOf _ => "instanceof"
  | field access _ => access.mnemonic
  | invoke kind _ => kind.mnemonic
  | branch condition _ => condition.mnemonic
  | goto _ => "goto"
  | returnNumber kind => kind.letter ++ "return"
  | returnRef => "areturn"
  | returnVoid => "return"
  | throw => "athrow"
  | monitor true => "monitorenter"
  | monitor false => "monitorexit"
  | expression _ => "expr"

def jumpTarget : Instruction → Option String
  | branch _ target => some target
  | goto target => some target
  | _ => none

def fallsThrough : Instruction → Bool
  | goto _ | returnNumber _ | returnRef | returnVoid | throw => false
  | _ => true

def declaredLabel : Instruction → Option String
  | label name => some name
  | _ => none

/-- The access of a variable that an instruction makes. References are implied to be of the class
of all objects. -/
def variableRef : Instruction → Option VariableRef
  | load kind x => some ⟨x, .ofKind kind, .read⟩
  | loadRef x => some ⟨x, .objectClass, .read⟩
  | store kind x => some ⟨x, .ofKind kind, .assign⟩
  | storeRef x => some ⟨x, .objectClass, .assign⟩
  | increment x => some ⟨x, .int, .update⟩
  | _ => none

end Instruction

/-- The accesses of variables in a body, each with the index of its instruction. -/
def variableRefs (code : List Instruction) : List (Nat × VariableRef) :=
  code.zipIdx.filterMap fun (instruction, i) => instruction.variableRef.map (i, ·)

end MethodLocals
