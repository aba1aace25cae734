import PLZero.Instruction
import PLZero.Token

namespace PLZero

/-- What can be wrong with a program. -/
inductive Complaint where
  | unknownCharacter (character : Char)
  | unterminatedComment (startLine : Nat)
  | expected (kind : TokenKind) (found : Token)
  | expectedFactor (found : Token)
  | expectedAssignmentOrCall (name : String)
  | afterTheEnd (found : Token)
  | tooDeep
  | tooManyLevels
  | outOfRange (value : Nat)
  | realNumber (value : Binary64)
  | alreadyDefined (name : String)
  | duplicateParameter (name : String)
  | undefined (name : String)
  | functionAsStatement (name : String)
  | notAProcedure (name : String)
  | procedureAsValue (name : String)
  | constantAsTarget (name : String)
  | procedureAsTarget (name : String)
  | foreignResult (name : String)
  | argumentCount (name : String) (arity : Int) (count : Nat)
deriving DecidableEq, Repr

def Complaint.message : Complaint → String
  | unknownCharacter c => s!"unexpected character {Text.quoted (String.singleton c)}"
  | unterminatedComment line => s!"unterminated comment starting on line {line}"
  | expected kind found => s!"expected '{kind.spelling}' but found {found.describe}"
  | expectedFactor found => s!"expected identifier, number or '(' but found {found.describe}"
  | expectedAssignmentOrCall name => s!"expected ':=' or '(' after '{name}'"
  | afterTheEnd found => s!"unexpected {found.describe} after the end of the program"
  | tooDeep => "program nested too deeply"
  | tooManyLevels => s!"blocks nested deeper than {maxLevel} levels"
  | outOfRange value => s!"integer literal {value} is out of range"
  | realNumber value => s!"real number {value.render} is not supported"
  | alreadyDefined name => s!"'{name}' is already defined"
  | duplicateParameter name => s!"duplicate parameter '{name}'"
  | undefined name => s!"undefined identifier '{name}'"
  | functionAsStatement name => s!"function '{name}' called as a procedure"
  | notAProcedure name => s!"'{name}' is not a procedure"
  | procedureAsValue name => s!"procedure '{name}' used in an expression"
  | constantAsTarget name => s!"cannot assign to constant '{name}'"
  | procedureAsTarget name => s!"cannot assign to procedure '{name}'"
  | foreignResult name => s!"cannot assign to function '{name}' outside its body"
  | argumentCount name arity count => s!"'{name}' expects " ++ Text.counted arity "argument" ++ s!", got {count}"

/-- A message with the line that it is about. -/
def nearLine (message : String) (line : Int) : String :=
  s!"{message} near line {line}"

/-- A complaint and the line of the token at which it came up. -/
structure Diagnostic where
  complaint : Complaint
  line : Nat
deriving DecidableEq, Repr

def Diagnostic.render (diagnostic : Diagnostic) : String :=
  nearLine diagnostic.complaint.message diagnostic.line

end PLZero
