import PLZero.Frame
import PLZero.Production
import PLZero.Word

namespace PLZero.Grammar

open Production

abbrev Rule := Production Unit

def check (kind : TokenKind) : Production Bool :=
  return (← token).kind = kind

/-- Whether the current token is of the kind; if so it is taken. -/
def accept (kind : FixedKind) : Production Bool := do
  if ← check (.fixed kind) then
    advance
    return true
  else return false

/-- Takes a token of the kind. If another stands there, it is left in place. -/
def expect (kind : FixedKind) : Production Bool := do
  if ← accept kind then return true
  else
    report (.expected (.fixed kind) (← token))
    return false

def require (kind : FixedKind) : Rule :=
  discard (expect kind)

def expectIdentifier : Production (Option String) := do
  match ← token with
  | .identifier name =>
    advance
    return some name
  | found =>
    report (.expected .identifier found)
    return none

def expectInteger : Production (Option Nat) := do
  match ← token with
  | .integer value =>
    advance
    return some value
  | found =>
    report (.expected .integer found)
    return none

/-- The value of a literal that has been taken. One that does not fit a word counts as zero. -/
def literal (value : Nat) : Production Int := do
  if greatestWord < value then
    report (.outOfRange value)
    return 0
  else return value

/-- An item, and one more after each comma, in at most the given number of rounds. The items pass on a result. -/
def commaSeparated {α : Type} (item : α → Production α) : (rounds : Nat) → α → Production α
  | 0, result => return result
  | rounds + 1, result => do
    let result ← item result
    if ← accept .comma then commaSeparated item rounds result else return result

/-- The block that a rule belongs to: its level, and name and level of the subroutines around it, as far as their
declarations are in force. -/
structure Scope where
  level : Nat
  owners : List (String × Nat)
deriving DecidableEq, Repr

/-- How far up the blocks the level of a declaration lies. -/
def Scope.distance (scope : Scope) (level : Int) : Int :=
  scope.level - level

end PLZero.Grammar
