import PLZero.Grammar.Block
import PLZero.Proofs.Tree.Basic

namespace PLZero

/-- A reader of tokens: what it makes of the front of a list of tokens, and the tokens behind that. -/
def Parser (α : Type) :=
  List Token → Option (α × List Token)

/-- The first of the tokens that are left. Behind the last one stands the end of the source. -/
def currentToken (tokens : List Token) : Token :=
  tokens.headD .eof

@[simp] theorem currentToken_nil : currentToken [] = .eof := rfl

@[simp] theorem currentToken_cons (t : Token) (rest : List Token) : currentToken (t :: rest) = t := rfl

/-- The operator of a class that a token stands for. -/
def operatorOf {Op : Type} (operator : FixedKind → Option Op) (token : Token) : Option Op :=
  match token.kind with
  | .fixed kind => operator kind
  | _ => none

namespace Parser

instance : Monad Parser where
  pure a := fun tokens => some (a, tokens)
  bind p next := fun tokens => (p tokens).bind fun result => next result.1 result.2

@[simp] theorem pure_apply {α : Type} (a : α) (tokens : List Token) :
    (Pure.pure a : Parser α) tokens = some (a, tokens) := rfl

@[simp] theorem bind_apply {α β : Type} (p : Parser α) (next : α → Parser β) (tokens : List Token) :
    (p >>= next) tokens = (p tokens).bind fun result => next result.1 result.2 := rfl

@[simp] theorem ite_apply {α : Type} (c : Prop) [Decidable c] (p q : Parser α) (tokens : List Token) :
    (if c then p else q) tokens = if c then p tokens else q tokens := by
  split <;> rfl

def fail {α : Type} : Parser α :=
  fun _ => none

def accept (kind : FixedKind) : Parser Bool :=
  fun tokens =>
    if (currentToken tokens).kind = .fixed kind then some (true, tokens.tail) else some (false, tokens)

def require (kind : FixedKind) : Parser Unit :=
  fun tokens => if (currentToken tokens).kind = .fixed kind then some ((), tokens.tail) else none

def acceptOperator {Op : Type} (operator : FixedKind → Option Op) : Parser (Option Op) :=
  fun tokens =>
    match operatorOf operator (currentToken tokens) with
    | some op => some (some op, tokens.tail)
    | none => some (none, tokens)

def seesIdentifier : Parser Bool :=
  fun tokens => some (decide ((currentToken tokens).kind = .identifier), tokens)

def identifier : Parser String
  | .identifier name :: rest => some (name, rest)
  | _ => none

def integer : Parser Nat
  | .integer value :: rest => some (value, rest)
  | _ => none

section Phrases

/- More than there are tokens, and so more than any repetition has rounds. -/
variable (bound : Nat)

/-- Items with a comma between each two, in at most the given number of rounds. -/
def listed {α : Type} (item : Parser α) : (rounds : Nat) → Parser (List α)
  | 0 => return []
  | rounds + 1 => do
    let first ← item
    if ← accept .comma then return first :: (← listed item rounds) else return [first]

/-- Operators of a class, each with an operand behind it, grouped from the left. -/
def operations (operator : FixedKind → Option BinaryOp) (operand : Parser Expression) :
    (rounds : Nat) → Expression → Parser Expression
  | 0, left => return left
  | rounds + 1, left => do
    match ← acceptOperator operator with
    | some op => operations operator operand rounds (.binary op left (← operand))
    | none => return left

def leftAssociative (operator : FixedKind → Option BinaryOp) (operand : Parser Expression) : Parser Expression := do
  operations operator operand bound (← operand)

def term (unary : Parser Expression) : Parser Expression :=
  leftAssociative bound Grammar.multiplying unary

def expression (unary : Parser Expression) : Parser Expression := do
  if ← accept .minus then operations Grammar.adding (term bound unary) bound (.unary .neg (← term bound unary))
  else
    let _ ← accept .plus
    operations Grammar.adding (term bound unary) bound (← term bound unary)

def relation (unary : Parser Expression) : Parser Expression := do
  if ← accept .oddKw then return .odd (← expression bound unary)
  else
    let left ← expression bound unary
    match ← acceptOperator Grammar.relational with
    | some op => return .binary op left (← expression bound unary)
    | none => return left

def conjunction (unary : Parser Expression) : Parser Expression :=
  leftAssociative bound Grammar.conjunctive (relation bound unary)

def condition (unary : Parser Expression) : Parser Expression :=
  leftAssociative bound Grammar.disjunctive (conjunction bound unary)

/-- The arguments of a call behind the opening parenthesis, and the closing one. -/
def arguments (unary : Parser Expression) : Parser (List Expression) := do
  if ← accept .rparen then return []
  else
    let values ← listed (expression bound unary) bound
    require .rparen
    return values

def factor (unary : Parser Expression) : Parser Expression
  | .identifier name :: rest =>
    (do
      if ← accept .lparen then return Expression.call name (← arguments bound unary)
      else return Expression.name name : Parser Expression) rest
  | .integer value :: rest => some (.number value, rest)
  | .fixed .lparen :: rest =>
    (do
      let inner ← condition bound unary
      require .rparen
      return Expression.group inner : Parser Expression) rest
  | _ => none

def unary : (depth : Nat) → Parser Expression
  | 0 => fail
  | depth + 1 => do
    match ← acceptOperator Grammar.complementing with
    | some op => return .unary op (← unary depth)
    | none => factor bound (unary depth)

/-- The statements of a compound one behind `begin`, and the `end`. -/
def series (statement : Parser Statement) : (rounds : Nat) → Parser Statement
  | 0 => do
    require .endKw
    return .empty
  | rounds + 1 => do
    let first ← statement
    if ← accept .semicolon then return .sequence first (← series statement rounds)
    else
      require .endKw
      return first

def compound (statement : Parser Statement) : Parser Statement := do
  return .compound (← series statement bound)

/-- A statement that begins with a name, behind the name. -/
def named (unary : Parser Expression) (name : String) : Parser Statement := do
  if ← accept .lparen then return .call name (← arguments bound unary)
  else
    require .assign
    return .assignment name (← expression bound unary)

/-- A conditional statement behind `if`. An `else` belongs to the nearest `if`. -/
def conditional (unary : Parser Expression) (statement : Parser Statement) : Parser Statement := do
  let condition ← condition bound unary
  require .thenKw
  let consequent ← statement
  if ← accept .elseKw then return .ifElse condition consequent (← statement)
  else return .ifThen condition consequent

def whileLoop (unary : Parser Expression) (statement : Parser Statement) : Parser Statement := do
  let condition ← condition bound unary
  require .doKw
  return .whileDo condition (← statement)

def repeatLoop (unary : Parser Expression) (statement : Parser Statement) : Parser Statement := do
  let body ← statement
  require .untilKw
  return .repeatUntil body (← condition bound unary)

def statement : (depth : Nat) → Parser Statement
  | 0 => fail
  | depth + 1 => fun tokens =>
    match tokens with
    | .identifier name :: rest => named bound (unary bound depth) name rest
    | .fixed .beginKw :: rest => compound bound (statement depth) rest
    | .fixed .ifKw :: rest => conditional bound (unary bound depth) (statement depth) rest
    | .fixed .whileKw :: rest => whileLoop bound (unary bound depth) (statement depth) rest
    | .fixed .repeatKw :: rest => repeatLoop bound (unary bound depth) (statement depth) rest
    | _ => some (.empty, tokens)

def constant : Parser (String × Nat) := do
  let name ← identifier
  require .eq
  return (name, ← integer)

/-- Declarations behind a keyword with a semicolon behind them, or none. -/
def declarations {α : Type} (keyword : FixedKind) (item : Parser α) : Parser (List α) := do
  if ← accept keyword then
    let items ← listed item bound
    require .semicolon
    return items
  else return []

def parameterNames : Parser (List String) := do
  if ← seesIdentifier then listed identifier bound else return []

/-- The names of the parameters and the closing parenthesis. -/
def parameters : Parser (List String) := do
  let names ← parameterNames bound
  require .rparen
  return names

/-- A subroutine behind its keyword. -/
def subroutine (block : Parser Block) (kind : Routine) : Parser (Heading × Block) := do
  let name ← identifier
  require .lparen
  let parameters ← parameters bound
  let block ← block
  require .semicolon
  return (⟨kind, name, parameters⟩, block)

def subroutines (block : Parser Block) : (rounds : Nat) → Parser (List (Heading × Block))
  | 0 => return []
  | rounds + 1 => do
    if ← accept .procedureKw then return (← subroutine bound block .procedure) :: (← subroutines block rounds)
    else if ← accept .functionKw then return (← subroutine bound block .function) :: (← subroutines block rounds)
    else return []

def block : (depth : Nat) → Parser Block
  | 0 => fail
  | depth + 1 => do
    let constants ← declarations bound .constKw constant
    let vars ← declarations bound .varKw identifier
    let subroutines ← subroutines bound (block depth) bound
    return .mk constants vars subroutines (← statement bound depth)

def program (depth : Nat) : Parser Block := do
  let block ← block bound depth
  require .period
  return block

end Phrases

end Parser

/-- The tree of a program. No program nests deeper than it has tokens. -/
def parse (tokens : List Token) : Option Block :=
  match Parser.program (tokens.length + 1) (tokens.length + 1) tokens with
  | some (block, []) => some block
  | _ => none

end PLZero
