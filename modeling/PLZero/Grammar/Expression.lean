import PLZero.Grammar.Basic

namespace PLZero.Grammar

open Production

def disjunctive : FixedKind → Option BinaryOp
  | .or => some .lor
  | _ => none

def conjunctive : FixedKind → Option BinaryOp
  | .and => some .land
  | _ => none

def relational : FixedKind → Option BinaryOp
  | .eq => some .equ
  | .ne => some .neq
  | .lt => some .lt
  | .le => some .lte
  | .gt => some .gt
  | .ge => some .gte
  | _ => none

def adding : FixedKind → Option BinaryOp
  | .plus => some .add
  | .minus => some .sub
  | .pipe => some .bor
  | .caret => some .bxor
  | _ => none

def multiplying : FixedKind → Option BinaryOp
  | .star => some .mul
  | .slash => some .div
  | .percent => some .rem
  | .ampersand => some .band
  | .lshift => some .lshift
  | .rshift => some .rshift
  | _ => none

def complementing : FixedKind → Option UnaryOp
  | .not => some .not
  | .tilde => some .comp
  | _ => none

/-- Takes an operator of a class, if one stands there. -/
def acceptOperator {Op : Type} (operator : FixedKind → Option Op) : Production (Option Op) := do
  match (← token).kind with
  | .fixed kind =>
    match operator kind with
    | some op =>
      advance
      return some op
    | none => return none
  | _ => return none

/-- Operators of a class, each with an operand behind it, in at most the given number of rounds. -/
def operations (operator : FixedKind → Option BinaryOp) (operand : Rule) : (rounds : Nat) → Rule
  | 0 => return
  | rounds + 1 => do
    match ← acceptOperator operator with
    | some op =>
      operand
      discard (emit (.binary op))
      operations operator operand rounds
    | none => return

/-- Operands with operators of a class between them, grouped from the left. -/
def leftAssociative (operator : FixedKind → Option BinaryOp) (operand : Rule) : Rule := do
  operand
  operations operator operand (← bound)

def term (unary : Rule) : Rule :=
  leftAssociative multiplying unary

/-- A sign in front belongs to the first term as a whole. -/
def expression (unary : Rule) : Rule := do
  let negated ← check (.fixed .minus)
  if negated then advance
  else discard (accept .plus)
  term unary
  if negated then discard (emit (.unary .neg))
  operations adding (term unary) (← bound)

def relation (unary : Rule) : Rule := do
  if ← accept .oddKw then
    expression unary
    discard (emit .pushConst 0 1)
    discard (emit (.binary .band))
  else
    expression unary
    match ← acceptOperator relational with
    | some op =>
      expression unary
      discard (emit (.binary op))
    | none => return

def conjunction (unary : Rule) : Rule :=
  leftAssociative conjunctive (relation unary)

def condition (unary : Rule) : Rule :=
  leftAssociative disjunctive (conjunction unary)

/-- The arguments of a call behind the opening parenthesis. Returns their number. -/
def arguments (unary : Rule) : Production Nat := do
  if ← check (.fixed .rparen) then
    require .rparen
    return 0
  else
    let count ← commaSeparated (fun count => do expression unary; return count + 1) (← bound) 0
    require .rparen
    return count

/-- Calls a subroutine if it got the right number of arguments. -/
def call (scope : Scope) (symbol : Symbol) (count : Nat) : Rule :=
  if count = symbol.arity then discard (emit .call (scope.distance symbol.level) symbol.value)
  else report (.argumentCount symbol.name symbol.arity count)

/-- Arguments for something that cannot be called. -/
def strayArguments (unary : Rule) : Rule := do
  if ← accept .lparen then discard (arguments unary)

/-- A name used as a value. -/
def namedFactor (scope : Scope) (unary : Rule) (name : String) : Rule := do
  match ← resolve name with
  | none =>
    report (.undefined name)
    strayArguments unary
  | some symbol =>
    match symbol.kind with
    | .constant => discard (emit .pushConst 0 symbol.value)
    | .var =>
      discard (emit .pushVar (scope.distance symbol.level) symbol.value)
      discard (emit .eval)
    | .function =>
      if ← expect .lparen then
        let count ← arguments unary
        call scope symbol count
    | .procedure =>
      report (.procedureAsValue name)
      strayArguments unary

/-- Whether a token that is no factor is left for the construct around it. -/
def followsFactor : Token → Bool
  | .eof => true
  | .fixed kind =>
    kind ∈ [FixedKind.semicolon, .endKw, .period, .thenKw, .doKw, .untilKw, .elseKw, .rparen, .comma]
  | _ => false

def factor (scope : Scope) (unary : Rule) : Rule := do
  match ← token with
  | .identifier name =>
    advance
    namedFactor scope unary name
  | .integer value =>
    advance
    discard (emit .pushConst 0 (← literal value))
  | .fixed .lparen =>
    advance
    condition unary
    require .rparen
  | .real value =>
    report (.realNumber value)
    advance
  | found =>
    report (.expectedFactor found)
    unless followsFactor found do advance

/-- A factor under prefixed operators, nested at most to the given depth. -/
def unary (scope : Scope) : (depth : Nat) → Rule
  | 0 => abandon
  | depth + 1 => do
    match ← acceptOperator complementing with
    | some op =>
      unary scope depth
      discard (emit (.unary op))
    | none => factor scope (unary scope depth)

end PLZero.Grammar
