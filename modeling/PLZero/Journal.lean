import PLZero.Diagnostic
import PLZero.SymbolTable

namespace PLZero

/-- The two parts of the program that keep a log. -/
inductive LogSource where
  | compiler | interpreter
deriving DecidableEq, Repr

def LogSource.name : LogSource → String
  | compiler => "pl0c.compiler"
  | interpreter => "pl0c.interpreter"

def LogSource.line (source : LogSource) (message : String) : String :=
  s!"{source.name}: {message}"

/-- What happens to a program while it is compiled. -/
inductive Event where
  | emit (address : Nat) (instruction : Instruction)
  | patch (position target : Nat)
  | declare (symbol : Symbol)
  | purge (symbol : Symbol)
  | error (diagnostic : Diagnostic)
deriving DecidableEq, Repr

def Symbol.summary (symbol : Symbol) : String :=
  s!"{symbol.name}: {symbol.kind.name}, {symbol.level}, {symbol.value}"

def Event.message : Event → String
  | emit address instruction => s!"emit {instruction.listing address}"
  | patch position target => s!"patch {position} to {target}"
  | declare symbol => s!"declare {symbol.summary}"
  | purge symbol => s!"purge {symbol.summary}"
  | error diagnostic => s!"error: {diagnostic.render}"

end PLZero
