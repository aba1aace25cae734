import PLZero.Grammar.Expression

namespace PLZero.Grammar

open Production

/-- The slot that an assignment to a name stores into, as level distance and frame offset. The result of a function is
a slot only within the function. -/
def target? (scope : Scope) (name : String) : Option Symbol → Except Complaint (Int × Int)
  | none => .error (.undefined name)
  | some symbol =>
    match symbol.kind with
    | .var => .ok (scope.distance symbol.level, symbol.value)
    | .function =>
      if scope.owners.any fun owner => owner.1 = name ∧ owner.2 = symbol.level then
        .ok (scope.distance (symbol.level + 1), resultSlot)
      else .error (.foreignResult name)
    | .constant => .error (.constantAsTarget name)
    | .procedure => .error (.procedureAsTarget name)

/-- The right-hand side of an assignment, which is compiled also if it cannot be stored. -/
def assignment (scope : Scope) (unary : Rule) (name : String) (symbol : Option Symbol) : Rule := do
  match target? scope name symbol with
  | .error complaint =>
    report complaint
    expression unary
  | .ok (distance, offset) =>
    expression unary
    discard (emit .pushVar distance offset)
    discard (emit .assign)

/-- Why a name cannot be called as a statement. -/
def callComplaint? (name : String) : Option Symbol → Option Complaint
  | none => some (.undefined name)
  | some symbol =>
    match symbol.kind with
    | .procedure => none
    | .function => some (.functionAsStatement name)
    | _ => some (.notAProcedure name)

/-- A statement that begins with a name, behind the name. An equals sign passes for `:=` after a complaint. -/
def namedStatement (scope : Scope) (unary : Rule) (name : String) : Rule := do
  let symbol ← resolve name
  if ← accept .lparen then
    let complaint := callComplaint? name symbol
    complaint.forM report
    let count ← arguments unary
    match symbol, complaint with
    | some procedure, none => call scope procedure count
    | _, _ => return
  else
    let found ← token
    if found.kind = .fixed .assign then
      advance
      assignment scope unary name symbol
    else if found.kind = .fixed .eq then
      report (.expected (.fixed .assign) found)
      advance
      assignment scope unary name symbol
    else report (.expectedAssignmentOrCall name)

def startsStatement : Token → Bool
  | .identifier _ => true
  | .fixed kind => kind ∈ [FixedKind.beginKw, .ifKw, .whileKw, .repeatKw]
  | _ => false

/-- Statements behind `begin`. A missing semicolon is reported where the next statement starts. -/
def statements (statement : Rule) : (rounds : Nat) → Rule
  | 0 => return
  | rounds + 1 => do
    statement
    if ← accept .semicolon then statements statement rounds
    else
      let found ← token
      if startsStatement found then
        report (.expected (.fixed .semicolon) found)
        statements statement rounds

def conditional (unary statement : Rule) : Rule := do
  condition unary
  let skipJump ← emit .jneq
  require .thenKw
  statement
  if ← accept .elseKw then
    let endJump ← emit .jump
    patch skipJump (← here)
    statement
    patch endJump (← here)
  else patch skipJump (← here)

def whileLoop (unary statement : Rule) : Rule := do
  let start ← here
  condition unary
  let exitJump ← emit .jneq
  require .doKw
  statement
  discard (emit .jump 0 start)
  patch exitJump (← here)

def repeatLoop (unary statement : Rule) : Rule := do
  let start ← here
  statement
  require .untilKw
  condition unary
  discard (emit .jneq 0 start)

/-- A statement, nested at most to the given depth. Where none starts, it is empty. -/
def statement (scope : Scope) : (depth : Nat) → Rule
  | 0 => abandon
  | depth + 1 => do
    match ← token with
    | .identifier name =>
      advance
      namedStatement scope (unary scope depth) name
    | .fixed .beginKw =>
      advance
      statements (statement scope depth) (← bound)
      require .endKw
    | .fixed .ifKw =>
      advance
      conditional (unary scope depth) (statement scope depth)
    | .fixed .whileKw =>
      advance
      whileLoop (unary scope depth) (statement scope depth)
    | .fixed .repeatKw =>
      advance
      repeatLoop (unary scope depth) (statement scope depth)
    | _ => return

end PLZero.Grammar
