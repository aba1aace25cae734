import PLZero.Frame
import PLZero.Proofs.Scoping.WellFormed

namespace PLZero

/-- What a name stands for in code: the value of a constant, the offset of a variable in its frame, and the address at
which a subroutine is called. -/
inductive Binding where
  | constant (value : Nat)
  | variable (offset : Int)
  | routine (kind : Routine) (arity : Nat) (address : Nat)
deriving DecidableEq, Repr

def Binding.meaning : Binding → Meaning
  | .constant _ => .constant
  | .variable _ => .variable
  | .routine kind arity _ => .routine kind arity

abbrev CodeContext :=
  Context (Option String) Binding

/-- An instruction for an opcode. The level is a distance between blocks, which a byte can hold. -/
def Instruction.of (op : Opcode) (distance : Nat := 0) (value : Int := 0) : Instruction :=
  ⟨.named op, Fin.ofNat _ distance, value⟩

namespace CodeContext

def valueCode (context : CodeContext) (name : String) : List Instruction :=
  match context.find? name with
  | some ⟨_, .constant value, _⟩ => [.of .pushConst 0 value]
  | some ⟨distance, .variable offset, _⟩ => [.of .pushVar distance offset, .of .eval]
  | _ => []

def callCode (context : CodeContext) (name : String) : List Instruction :=
  match context.find? name with
  | some ⟨distance, .routine _ _ address, _⟩ => [.of .call distance address]
  | _ => []

/-- The address that is assigned to: a variable, or the result in the frame of the function. -/
def targetCode (context : CodeContext) (name : String) : List Instruction :=
  match context.find? name with
  | some ⟨distance, .variable offset, _⟩ => [.of .pushVar distance offset]
  | some ⟨distance + 1, .routine .., _⟩ => [.of .pushVar distance resultSlot]
  | _ => []

end CodeContext

mutual

/-- The code of an expression, operands from left to right. -/
def Expression.code (context : CodeContext) : Expression → List Instruction
  | .number value => [.of .pushConst 0 value]
  | .name identifier => context.valueCode identifier
  | .call callee arguments => Expression.codeAll context arguments ++ context.callCode callee
  | .group inner => inner.code context
  | .unary op operand => operand.code context ++ [.of (.unary op)]
  | .odd operand => operand.code context ++ [.of .pushConst 0 1, .of (.binary .band)]
  | .binary op left right => left.code context ++ right.code context ++ [.of (.binary op)]

def Expression.codeAll (context : CodeContext) : List Expression → List Instruction
  | [] => []
  | first :: rest => first.code context ++ Expression.codeAll context rest

end

/-- The code of a statement that begins at an address. -/
def Statement.code (context : CodeContext) : (start : Nat) → Statement → List Instruction
  | _, .empty => []
  | _, .assignment target value => value.code context ++ context.targetCode target ++ [.of .assign]
  | _, .call name arguments => Expression.codeAll context arguments ++ context.callCode name
  | start, .sequence first rest =>
    let firstCode := first.code context start
    firstCode ++ rest.code context (start + firstCode.length)
  | start, .compound body => body.code context start
  | start, .ifThen condition consequent =>
    let test := condition.code context
    let branch := consequent.code context (start + test.length + 1)
    test ++ .of .jneq 0 ↑(start + test.length + 1 + branch.length) :: branch
  | start, .ifElse condition consequent alternative =>
    let test := condition.code context
    let branch := consequent.code context (start + test.length + 1)
    let other := start + test.length + 1 + branch.length + 1
    let otherBranch := alternative.code context other
    test ++ .of .jneq 0 ↑other :: branch ++ .of .jump 0 ↑(other + otherBranch.length) :: otherBranch
  | start, .whileDo condition body =>
    let test := condition.code context
    let round := body.code context (start + test.length + 1)
    test ++ .of .jneq 0 ↑(start + test.length + 1 + round.length + 1) :: round ++ [.of .jump 0 start]
  | start, .repeatUntil body condition =>
    body.code context start ++ condition.code context ++ [.of .jneq 0 start]

def Heading.binding (heading : Heading) (address : Nat) : Binding :=
  .routine heading.kind heading.parameters.length address

namespace Block

/-- The offsets of parameters end just below the frame, those of variables begin behind its links and result. -/
def openingBindings (owner : Option Heading) (constants : List (String × Nat)) (vars : List String) :
    List (String × Binding) :=
  let parameters := parametersOf owner
  parameters.zipIdx.map (fun p => (p.1, .variable ((p.2 : Int) - parameters.length))) ++
    constants.map (fun c => (c.1, .constant c.2)) ++
      (vars.zipIdx frameSize).map (fun v => (v.1, .variable v.2))

def openingFrame (owner : Option Heading) (constants : List (String × Nat)) (vars : List String) :
    Layer (Option String) Binding :=
  (⟨owner.map (·.name), []⟩ : Layer _ _).declareAll (openingBindings owner constants vars)

def returnInstruction : Option Heading → Instruction
  | none => .of .ret
  | some heading =>
    match heading.kind with
    | .procedure => .of .ret 0 heading.parameters.length
    | .function => .of .retf 0 heading.parameters.length

mutual

/-- The entry and the code of a block. Subroutines within it call its owner by the jump in front, its own statement by
the entry: the context depends on that address. -/
def generate (outer : Nat → CodeContext) (owner : Option Heading) (start : Nat) : Block → Nat × List Instruction
  | .mk constants vars subroutines body =>
    let nested := generateAll (outer start) (openingFrame owner constants vars) (start + 1) subroutines
    let entry := start + 1 + nested.2.length
    (entry, .of .jump 0 entry :: nested.2 ++ .of .enter 0 ↑(frameSize + vars.length) ::
      body.code (nested.1 :: outer entry) (entry + 1) ++ [returnInstruction owner])

/-- The code of subroutines one after another, and the block with all of them declared. -/
def generateAll (outer : CodeContext) (layer : Layer (Option String) Binding) (start : Nat) :
    List (Heading × Block) → Layer (Option String) Binding × List Instruction
  | [] => (layer, [])
  | (heading, block) :: rest =>
    let first := generate (fun address => layer.declare heading.name (heading.binding address) :: outer)
      (some heading) start block
    let others := generateAll outer (layer.declare heading.name (heading.binding first.1))
      (start + first.2.length) rest
    (others.1, first.2 ++ others.2)

end

/-- The code of a whole program. -/
def program (block : Block) : List Instruction :=
  (block.generate (fun _ => []) none 0).2

/-- The variables of the main program with their addresses. -/
def globals (block : Block) : List (String × Nat) :=
  block.vars.zipIdx frameSize

end Block

end PLZero
