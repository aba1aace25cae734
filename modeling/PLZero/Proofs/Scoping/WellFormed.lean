import PLZero.Proofs.Scoping.Context
import PLZero.Proofs.Tree.Basic

namespace PLZero

/-- What a name may stand for. A subroutine is told by its sort and the number of its parameters. -/
inductive Meaning where
  | constant
  | variable
  | routine (kind : Routine) (arity : Nat)
deriving DecidableEq, Repr

/-- Declarations, each block marked with the name of the subroutine that it is the body of. -/
abbrev StaticContext :=
  Context (Option String) Meaning

/-- The static rules for expressions: literals fit in a word, a name used as a value is a constant or a variable, and a
call names a function and has as many arguments as that has parameters. -/
inductive Expression.WellFormed (context : StaticContext) : Expression → Prop
  | number {value : Nat} : (value : Int) ≤ greatestWord → WellFormed context (.number value)
  | constantName {name distance visible} : context.find? name = some ⟨distance, .constant, visible⟩ →
      WellFormed context (.name name)
  | variableName {name distance visible} : context.find? name = some ⟨distance, .variable, visible⟩ →
      WellFormed context (.name name)
  | call {name arguments distance visible} :
      context.find? name = some ⟨distance, .routine .function arguments.length, visible⟩ →
      (∀ a ∈ arguments, WellFormed context a) → WellFormed context (.call name arguments)
  | group {inner} : WellFormed context inner → WellFormed context (.group inner)
  | unary {op operand} : WellFormed context operand → WellFormed context (.unary op operand)
  | odd {operand} : WellFormed context operand → WellFormed context (.odd operand)
  | binary {op left right} : WellFormed context left → WellFormed context right →
      WellFormed context (.binary op left right)

/-- The static rules for statements. A name that is assigned to is a variable, or a function whose body is one of the
blocks around. A statement calls a procedure. -/
inductive Statement.WellFormed (context : StaticContext) : Statement → Prop
  | empty : WellFormed context .empty
  | assignment {target value distance visible} : context.find? target = some ⟨distance, .variable, visible⟩ →
      value.WellFormed context → WellFormed context (.assignment target value)
  | result {target value distance arity visible} :
      context.find? target = some ⟨distance + 1, .routine .function arity, visible⟩ →
      (context[distance]?).bind (·.mark) = some target →
      value.WellFormed context → WellFormed context (.assignment target value)
  | call {name distance visible} {arguments : List Expression} :
      context.find? name = some ⟨distance, .routine .procedure arguments.length, visible⟩ →
      (∀ a ∈ arguments, a.WellFormed context) → WellFormed context (.call name arguments)
  | sequence {first rest} : WellFormed context first → WellFormed context rest →
      WellFormed context (.sequence first rest)
  | compound {body} : WellFormed context body → WellFormed context (.compound body)
  | ifThen {condition consequent} : condition.WellFormed context → WellFormed context consequent →
      WellFormed context (.ifThen condition consequent)
  | ifElse {condition consequent alternative} : condition.WellFormed context → WellFormed context consequent →
      WellFormed context alternative → WellFormed context (.ifElse condition consequent alternative)
  | whileDo {condition body} : condition.WellFormed context → WellFormed context body →
      WellFormed context (.whileDo condition body)
  | repeatUntil {body condition} : WellFormed context body → condition.WellFormed context →
      WellFormed context (.repeatUntil body condition)

def Heading.meaning (heading : Heading) : Meaning :=
  .routine heading.kind heading.parameters.length

namespace Block

/-- The parameters of a block: those of the subroutine that it is the body of. The main program has none. -/
def parametersOf : Option Heading → List String
  | some heading => heading.parameters
  | none => []

/-- The parameters, constants and variables of a block. -/
def openingMeanings (owner : Option Heading) (constants : List (String × Nat)) (vars : List String) :
    List (String × Meaning) :=
  (parametersOf owner).map (·, .variable) ++ constants.map (fun c => (c.1, .constant)) ++
    vars.map (·, .variable)

def openingLayer (owner : Option Heading) (constants : List (String × Nat)) (vars : List String) :
    Layer (Option String) Meaning :=
  (⟨owner.map (·.name), []⟩ : Layer _ _).declareAll (openingMeanings owner constants vars)

mutual

/-- The static rules for a block within others: it has a level that an instruction can tell, its parameters, constants,
variables and subroutines have names of their own, its literals fit in a word, and its parts keep the rules with what
was declared before them. -/
def WellFormed (outer : StaticContext) (owner : Option Heading) : Block → Prop
  | .mk constants vars subroutines body =>
    outer.length ≤ maxLevel ∧
      (parametersOf owner ++ constants.map (·.1) ++ vars ++ subroutines.map (·.1.name)).Nodup ∧
      (∀ c ∈ constants, (c.2 : Int) ≤ greatestWord) ∧
      AllWellFormed outer (openingLayer owner constants vars) subroutines ∧
      body.WellFormed ((openingLayer owner constants vars).declareAll
        (subroutines.map fun s => (s.1.name, s.1.meaning)) :: outer)

def AllWellFormed (outer : StaticContext) (layer : Layer (Option String) Meaning) : List (Heading × Block) → Prop
  | [] => True
  | (heading, block) :: rest =>
    WellFormed (layer.declare heading.name heading.meaning :: outer) (some heading) block ∧
      AllWellFormed outer (layer.declare heading.name heading.meaning) rest

end

/-- The static rules for a whole program. -/
def IsProgram (block : Block) : Prop :=
  block.WellFormed [] none

end Block

end PLZero
