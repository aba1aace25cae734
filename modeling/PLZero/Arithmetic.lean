import PLZero.Instruction
import PLZero.Word

namespace PLZero

def truth (condition : Bool) : Int :=
  if condition then 1 else 0

def UnaryOp.apply (a : Int) : UnaryOp → Int
  | not => truth (a = 0)
  | neg => toWord (-a)
  | comp => ~~~a

/-- The result of an operator, or nothing for a division by zero. Only arithmetic and shifts to the left can leave the
range of words, and only they wrap. -/
def BinaryOp.apply? (a b : Int) : BinaryOp → Option Int
  | add => toWord (a + b)
  | sub => toWord (a - b)
  | mul => toWord (a * b)
  | div => (quotient? a b).map toWord
  | rem => (remainder? a b).map toWord
  | bor => bitOr a b
  | band => bitAnd a b
  | bxor => bitXor a b
  | lshift => toWord (a <<< shiftDistance b)
  | rshift => a >>> shiftDistance b
  | lt => truth (a < b)
  | lte => truth (a ≤ b)
  | equ => truth (a = b)
  | gte => truth (b ≤ a)
  | gt => truth (b < a)
  | neq => truth (a ≠ b)
  | lor => truth (a ≠ 0 ∨ b ≠ 0)
  | land => truth (a ≠ 0 ∧ b ≠ 0)

end PLZero
