import PLZero.Text.Column
import PLZero.Text.IntegerText

namespace PLZero

inductive UnaryOp where
  | not | neg | comp
deriving DecidableEq, Repr

inductive BinaryOp where
  | add | sub | mul | div | rem
  | bor | band | bxor | lshift | rshift
  | lt | lte | equ | gte | gt | neq
  | lor | land
deriving DecidableEq, Repr

inductive Opcode where
  | unary (op : UnaryOp)
  | binary (op : BinaryOp)
  | pushConst | pushVar | eval | assign
  | call | enter | ret | retf | jump | jneq
deriving DecidableEq, Repr

namespace Opcode

/-- All opcodes in the order of their numbers, which begin at one. -/
def all : List Opcode :=
  [UnaryOp.not, .neg, .comp].map unary ++
    [BinaryOp.add, .sub, .mul, .div, .rem, .bor, .band, .bxor, .lshift, .rshift, .lt, .lte, .equ, .gte, .gt, .neq,
      .lor, .land].map binary ++
    [pushConst, pushVar, eval, assign, call, enter, ret, retf, jump, jneq]

def number (op : Opcode) : Nat :=
  all.idxOf op + 1

def ofNumber? (number : Int) : Option Opcode :=
  if 1 ≤ number then all[number.toNat - 1]? else none

def mnemonic : Opcode → String
  | unary .not => "not" | unary .neg => "neg" | unary .comp => "comp"
  | binary .add => "add" | binary .sub => "sub" | binary .mul => "mul" | binary .div => "div" | binary .rem => "rem"
  | binary .bor => "bor" | binary .band => "band" | binary .bxor => "bxor"
  | binary .lshift => "lshift" | binary .rshift => "rshift"
  | binary .lt => "lt" | binary .lte => "lte" | binary .equ => "equ"
  | binary .gte => "gte" | binary .gt => "gt" | binary .neq => "neq"
  | binary .lor => "lor" | binary .land => "land"
  | pushConst => "push_const" | pushVar => "push_var" | eval => "eval" | assign => "assign"
  | call => "call" | enter => "enter" | ret => "ret" | retf => "retf" | jump => "jump" | jneq => "jneq"

def name (op : Opcode) : String :=
  op.mnemonic.toUpper

def ofName? (name : String) : Option Opcode :=
  all.find? fun op => op.name = name

end Opcode

/-- What an instruction asks for: an opcode by name, or a number, which need not be that of an opcode. -/
inductive Operation where
  | named (op : Opcode)
  | number (number : Int)
deriving DecidableEq, Repr

namespace Operation

def opcode? : Operation → Option Opcode
  | named op => some op
  | number n => Opcode.ofNumber? n

def name : Operation → String
  | named op => op.name
  | number n => toString n

def mnemonic : Operation → String
  | named op => op.mnemonic
  | number n => toString n

/-- The integers that are written where the operation is. -/
def integers : Operation → List Int
  | named _ => []
  | number n => [n]

end Operation

/-- Static levels are stored in a byte. -/
def maxLevel : Nat := 255

structure Instruction where
  operation : Operation
  level : Fin (maxLevel + 1) := 0
  value : Int := 0
deriving DecidableEq, Repr

structure LevelOutOfRange where
  level : Int
deriving DecidableEq, Repr

def LevelOutOfRange.message (error : LevelOutOfRange) : String :=
  match Text.telling [error.level] s!"Instruction level out of range: {error.level}" with
  | .ok message => message
  | .error error => error.message

namespace Instruction

/-- An instruction for a level of any size. -/
def ofLevel (operation : Operation) (level value : Int) : Except LevelOutOfRange Instruction :=
  if inByte : 0 ≤ level ∧ level ≤ maxLevel then .ok ⟨operation, ⟨level.toNat, by omega⟩, value⟩ else .error ⟨level⟩

def render (instruction : Instruction) : String :=
  s!"Instruction({instruction.operation.name}, {instruction.level.val}, {instruction.value})"

/-- The instruction as it is shown, if its integers can be written. -/
def shown (instruction : Instruction) : Except Text.UnwritableInteger String :=
  Text.telling (instruction.operation.integers ++ [instruction.value]) instruction.render

end Instruction

/-- Which fields of an instruction its opcode uses. -/
inductive Operands where
  | none | value | levelAndValue
deriving DecidableEq, Repr

def Opcode.operands : Opcode → Operands
  | pushVar | call => .levelAndValue
  | pushConst | enter | ret | retf | jump | jneq => .value
  | _ => .none

def Operation.operands (operation : Operation) : Operands :=
  (operation.opcode?.map Opcode.operands).getD .none

/-- One line of a listing: the address, the mnemonic, and the fields that the opcode uses. -/
def Instruction.listing (address : Int) (instruction : Instruction) : String :=
  let line := Text.rightAligned 5 (toString address) ++ ": " ++ instruction.operation.mnemonic
  match instruction.operation.operands with
  | .levelAndValue => Text.leftAligned 18 line ++ s!"{instruction.level.val}, {instruction.value}"
  | .value => Text.leftAligned 18 line ++ toString instruction.value
  | .none => line

/-- The integers that are written in the line of a listing. -/
def Instruction.lineIntegers (address : Int) (instruction : Instruction) : List Int :=
  address :: instruction.operation.integers ++
    match instruction.operation.operands with
    | .levelAndValue | .value => [instruction.value]
    | .none => []

/-- The line of a listing, if its integers can be written. -/
def Instruction.disassemble (address : Int) (instruction : Instruction) : Except Text.UnwritableInteger String :=
  Text.telling (instruction.lineIntegers address) (instruction.listing address)

/-- The lines of a code segment, addresses counted from zero. -/
def listing (code : List Instruction) : String :=
  "\n".intercalate (code.mapIdx fun address instruction => instruction.listing address)

/-- The lines of a code segment from an address on, up to the first that cannot be written. -/
def disassembleFrom (address : Nat) : List Instruction → Except Text.UnwritableInteger (List String)
  | [] => .ok []
  | instruction :: code => do return (← instruction.disassemble address) :: (← disassembleFrom (address + 1) code)

/-- The listing of a code segment, if all integers in it can be written. -/
def disassemble (code : List Instruction) : Except Text.UnwritableInteger String :=
  (disassembleFrom 0 code).map "\n".intercalate

end PLZero
