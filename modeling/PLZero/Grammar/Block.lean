import PLZero.Grammar.Statement

namespace PLZero.Grammar

open Production

/-- Declares a symbol unless its name is taken at the same level. -/
def declareNew (symbol : Symbol) : Production Bool := do
  if ← isDeclared symbol.name symbol.level then
    report (.alreadyDefined symbol.name)
    return false
  else
    declare symbol
    return true

def constantDeclaration (scope : Scope) : Rule := do
  match ← expectIdentifier with
  | none => return
  | some name =>
    require .eq
    match ← expectInteger with
    | none => return
    | some value =>
      let value ← literal value
      discard (declareNew { name, kind := .constant, level := scope.level, value })

/-- Declares a variable at a frame offset. Returns the next free one. -/
def variableDeclaration (scope : Scope) (offset : Nat) : Production Nat := do
  match ← expectIdentifier with
  | none => return offset
  | some name =>
    if ← declareNew { name, kind := .var, level := scope.level, value := offset } then
      if scope.level = 0 then addGlobal name offset
      return offset + 1
    else return offset

/-- One more name of a parameter list. -/
def parameter (names : List String) : Production (List String) := do
  match ← expectIdentifier with
  | none => return names
  | some name =>
    if name ∈ names then
      report (.duplicateParameter name)
      return names
    else return names ++ [name]

/-- The main program or the subroutine that a block is the body of. It has a key if its declaration is in force. -/
structure Owner where
  kind : SymbolKind
  key : Option (String × Nat)
  parameters : Nat
deriving DecidableEq, Repr

def Owner.setEntry (owner : Owner) (address : Nat) : Rule :=
  owner.key.forM fun (name, level) => setValue name level address

def Owner.returnOp (owner : Owner) : Opcode :=
  if owner.kind = .function then .retf else .ret

/-- Parameters lie below the frame, the last one at offset minus one. They belong to the body. -/
def declareParameters (level count : Nat) : (index : Nat) → List String → Rule
  | _, [] => return
  | index, name :: names => do
    discard (declareNew { name, kind := .var, level, value := (index : Int) - count })
    declareParameters level count (index + 1) names

/-- A procedure or function with its body. -/
def subroutine (block : Scope → Owner → Rule) (scope : Scope) (kind : SymbolKind) : Rule := do
  advance
  let name ← expectIdentifier
  let declared ← match name with
    | some name => declareNew { name, kind, level := scope.level }
    | none => pure false
  let key := if declared then name.map fun name => (name, scope.level) else none
  if maxLevel < scope.level + 1 then report .tooManyLevels
  require .lparen
  let parameters ← if ← check .identifier then commaSeparated parameter (← bound) [] else pure []
  require .rparen
  declareParameters (scope.level + 1) parameters.length 0 parameters
  key.forM fun (name, level) => setArity name level parameters.length
  block ⟨scope.level + 1, key.toList ++ scope.owners⟩ ⟨kind, key, parameters.length⟩
  require .semicolon

def subroutines (block : Scope → Owner → Rule) (scope : Scope) : (rounds : Nat) → Rule
  | 0 => return
  | rounds + 1 => do
    match ← token with
    | .fixed .procedureKw =>
      subroutine block scope .procedure
      subroutines block scope rounds
    | .fixed .functionKw =>
      subroutine block scope .function
      subroutines block scope rounds
    | _ => return

/-- A block, nested at most to the given depth. Subroutines within it call its owner by the jump in front, before the
entry behind them is known. -/
def block : (depth : Nat) → Scope → Owner → Rule
  | 0, _, _ => abandon
  | depth + 1, scope, owner => do
    let start ← emit .jump
    owner.setEntry start
    if ← accept .constKw then
      commaSeparated (fun _ => constantDeclaration scope) (← bound) ()
      require .semicolon
    let size ← if ← accept .varKw then
      let size ← commaSeparated (variableDeclaration scope) (← bound) frameSize
      require .semicolon
      pure size
    else pure frameSize
    subroutines (block depth) scope (← bound)
    let entry ← emit .enter 0 size
    patch start entry
    owner.setEntry entry
    statement scope depth
    discard (emit owner.returnOp 0 owner.parameters)
    purge scope.level

/-- A program whose constructs are nested at most to the given depth. -/
def program (depth : Nat) : Rule := do
  advance
  block depth ⟨0, []⟩ ⟨.procedure, none, 0⟩
  require .period
  let found ← token
  unless found.kind = .eof do report (.afterTheEnd found)

end PLZero.Grammar
