import PLZero.Arithmetic
import PLZero.Proofs.Scoping.WellFormed

namespace PLZero

/-- What a name stands for while a program runs. -/
inductive Declaration where
  | constant (value : Nat)
  | variable
  | routine (heading : Heading) (block : Block)

/-- The declarations in force, each block marked with the number of one of its activations. -/
abbrev Environment :=
  Context Nat Declaration

/-- What holds a value: a variable or a parameter, or the result of a function, in an activation. -/
inductive Place where
  | variable (activation : Nat) (name : String)
  | result (activation : Nat)
deriving DecidableEq, Repr

/-- The values of all places, and how many activations have begun. They are numbered from zero, and no number is used
twice. -/
structure Store where
  started : Nat
  values : Place → Int

/-- Why a program does not run to its end. -/
inductive Stop where
  | divisionByZero
  | outOfFuel
  /-- A name does not stand for what it is used as. -/
  | illFormed
deriving DecidableEq, Repr

/-- Runs of programs and of their parts. -/
abbrev Evaluation :=
  StateT Store (Except Stop)

/-- How the block of a subroutine is run: from where it is declared, with the values of its parameters. The result
counts for functions only. -/
abbrev Caller :=
  Environment → Heading → Block → List Int → Evaluation Int

namespace Store

def write (store : Store) (place : Place) (value : Int) : Store :=
  { store with values := fun other => if other = place then value else store.values other }

/-- A new activation begins: its parameters have the values of the arguments, its result is zero, and its variables
start with given values. -/
def begin (store : Store) (parameters : List String) (arguments : List Int) (vars : List String)
    (initial : Nat → Int) : Store where
  started := store.started + 1
  values
    | .variable activation name =>
      if activation = store.started then
        ((parameters.zip arguments ++ vars.mapIdx fun index name => (name, initial index)).lookup name).getD 0
      else store.values (.variable activation name)
    | .result activation => if activation = store.started then 0 else store.values (.result activation)

end Store

namespace Environment

variable (environment : Environment)

def value (name : String) : Evaluation Int := do
  match environment.find? name with
  | some ⟨_, .constant value, _⟩ => return value
  | some ⟨_, .variable, layer :: _⟩ => return (← get).values (.variable layer.mark name)
  | _ => throw .illFormed

/-- What an assignment to a name changes: a variable, or the result in the activation around of the function. -/
def target? (name : String) : Option Place :=
  match environment.find? name with
  | some ⟨_, .variable, layer :: _⟩ => some (.variable layer.mark name)
  | some ⟨distance + 1, .routine .., _⟩ => environment[distance]?.map fun layer => .result layer.mark
  | _ => none

def assign (name : String) (value : Int) : Evaluation Unit := do
  match environment.target? name with
  | some place => modify (·.write place value)
  | none => throw .illFormed

def invoke (call : Caller) (name : String) (arguments : List Int) : Evaluation Int := do
  match environment.find? name with
  | some ⟨_, .routine heading block, visible⟩ => call visible heading block arguments
  | _ => throw .illFormed

end Environment

/-- An operator applied to values, with a stop at a division by zero. -/
def BinaryOp.evaluate (op : BinaryOp) (a b : Int) : Evaluation Int :=
  match op.apply? a b with
  | some value => return value
  | none => throw .divisionByZero

mutual

/-- The value of an expression. All operands and arguments are evaluated, from left to right. -/
def Expression.evaluate (call : Caller) (environment : Environment) : Expression → Evaluation Int
  | .number value => return value
  | .name identifier => environment.value identifier
  | .call callee arguments => do
    let values ← Expression.evaluateAll call environment arguments
    environment.invoke call callee values
  | .group inner => inner.evaluate call environment
  | .unary op operand => do
    let a ← operand.evaluate call environment
    return op.apply a
  | .odd operand => do
    let a ← operand.evaluate call environment
    return bitAnd a 1
  | .binary op left right => do
    let a ← left.evaluate call environment
    let b ← right.evaluate call environment
    op.evaluate a b

def Expression.evaluateAll (call : Caller) (environment : Environment) : List Expression → Evaluation (List Int)
  | [] => return []
  | first :: rest => do
    let value ← first.evaluate call environment
    let values ← Expression.evaluateAll call environment rest
    return value :: values

end

namespace Evaluation

/-- Runs a body for as long as a condition holds before it, at most so many times. -/
def whileTrue (condition : Evaluation Int) (body : Evaluation Unit) : (rounds : Nat) → Evaluation Unit
  | 0 => throw .outOfFuel
  | rounds + 1 => do
    let value ← condition
    if value = 0 then return ()
    else
      body
      whileTrue condition body rounds

/-- Runs a body until a condition holds behind it, at most so many times. -/
def untilTrue (body : Evaluation Unit) (condition : Evaluation Int) : (rounds : Nat) → Evaluation Unit
  | 0 => throw .outOfFuel
  | rounds + 1 => do
    body
    let value ← condition
    if value = 0 then untilTrue body condition rounds else return ()

end Evaluation

/-- What a statement does, if no loop in it goes more rounds than given. -/
def Statement.execute (call : Caller) (rounds : Nat) (environment : Environment) : Statement → Evaluation Unit
  | .empty => return ()
  | .assignment target value => do
    let v ← value.evaluate call environment
    environment.assign target v
  | .call name arguments => do
    let values ← Expression.evaluateAll call environment arguments
    discard (environment.invoke call name values)
  | .sequence first rest => do
    first.execute call rounds environment
    rest.execute call rounds environment
  | .compound body => body.execute call rounds environment
  | .ifThen condition consequent => do
    let value ← condition.evaluate call environment
    if value = 0 then return () else consequent.execute call rounds environment
  | .ifElse condition consequent alternative => do
    let value ← condition.evaluate call environment
    if value = 0 then alternative.execute call rounds environment else consequent.execute call rounds environment
  | .whileDo condition body =>
    Evaluation.whileTrue (condition.evaluate call environment) (body.execute call rounds environment) rounds
  | .repeatUntil body condition =>
    Evaluation.untilTrue (body.execute call rounds environment) (condition.evaluate call environment) rounds

namespace Block

/-- All that is declared in a block, in order. -/
def declarations (owner : Option Heading) (block : Block) : List (String × Declaration) :=
  (parametersOf owner).map (·, .variable) ++ block.constants.map (fun c => (c.1, .constant c.2)) ++
    block.vars.map (·, .variable) ++ block.subroutines.map fun s => (s.1.name, .routine s.1 s.2)

/-- The environment of the statement of a block in an activation. -/
def environment (outer : Environment) (owner : Option Heading) (block : Block) (activation : Nat) : Environment :=
  (⟨activation, []⟩ : Layer _ _).declareAll (block.declarations owner) :: outer

/-- Runs a subroutine in a new activation. The choices tell the values that the variables of each activation start
with. No chain of calls may be longer than the fuel allows, nor any loop. -/
def run (choices : Nat → Nat → Int) : (fuel : Nat) → Caller
  | 0, _, _, _, _ => throw .outOfFuel
  | fuel + 1, outer, heading, block, arguments => do
    let number := (← get).started
    modify fun store => store.begin heading.parameters arguments block.vars (choices number)
    block.body.execute (run choices fuel) fuel (block.environment outer (some heading) number)
    return (← get).values (.result number)

/-- Runs a whole program, whose variables start at zero. -/
def runProgram (choices : Nat → Nat → Int) (fuel : Nat) (block : Block) : Evaluation Unit := do
  modify fun store => store.begin [] [] block.vars fun _ => 0
  block.body.execute (run choices fuel) fuel (block.environment [] none 0)

/-- The meaning of a program: the store that it leaves behind, or why it does not run to its end. -/
def meaning (choices : Nat → Nat → Int) (fuel : Nat) (block : Block) : Except Stop Store :=
  (·.2) <$> (block.runProgram choices fuel).run ⟨0, fun _ => 0⟩

end Block

end PLZero
