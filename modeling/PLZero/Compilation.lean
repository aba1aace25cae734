import PLZero.Draft
import PLZero.ErrorReport
import PLZero.Grammar.Block

namespace PLZero

/-- What a compilation cannot report as a complaint about the program. -/
inductive CompileFailure where
  | overlongInteger (error : OverlongInteger)
  | levelOutOfRange (error : LevelOutOfRange)
deriving DecidableEq, Repr

def CompileFailure.message : CompileFailure → String
  | overlongInteger error => error.message
  | levelOutOfRange error => error.message

def Halt.failure? : Halt → Option CompileFailure
  | tooDeep => none
  | overlongInteger error => some (.overlongInteger error)
  | levelOutOfRange error => some (.levelOutOfRange error)

/-- What has come out of a program. The code may be run if there is no diagnostic and no failure. -/
structure Compilation where
  code : Array Instruction
  diagnostics : Array Diagnostic
  /-- The variables of the main program with their addresses, in the order of declaration. -/
  globals : Array (String × Nat)
  /-- What is left in the symbol table, which is nothing unless the nesting was too deep or there was a failure. -/
  symbols : SymbolTable
  journal : Array Event
  failure : Option CompileFailure

namespace Compilation

def ofDraft (draft : Draft) (failure : Option CompileFailure) : Compilation :=
  { draft with failure }

def errorCount (compilation : Compilation) : Nat :=
  compilation.diagnostics.size

def log (compilation : Compilation) : List String :=
  compilation.journal.toList.map fun event => LogSource.compiler.line event.message

end Compilation

/-- The nesting to which programs are compiled. What is proved of a compilation holds at any other depth as well. -/
def maxNesting : Nat := 1000

/-- Compiles a source, which is given up where it nests deeper than to the given depth. -/
def compile (depth : Nat) (source : String) : Compilation :=
  match (Grammar.program depth).run (.ofSource source) with
  | .ok () draft => .ofDraft draft none
  | .error halt draft => .ofDraft draft halt.failure?

/-- The number of diagnostics and the first of them. -/
def diagnosticSummary (diagnostics : List String) : String :=
  let count := Text.counted diagnostics.length "error"
  match diagnostics with
  | [] => count
  | first :: _ => s!"{count}; first: {first}"

/-- The report on a program with the given diagnostics. -/
def compileErrorReport (diagnostics : List String) : ErrorReport :=
  ⟨ErrorClass.compileError.title, diagnosticSummary diagnostics⟩

/-- The code of a program, or its diagnostics if there are any. -/
def compileProgram (depth : Nat) (source : String) :
    Except CompileFailure (Except (Array Diagnostic) (Array Instruction)) :=
  let compilation := compile depth source
  match compilation.failure with
  | some failure => .error failure
  | none => .ok (if compilation.errorCount = 0 then .ok compilation.code else .error compilation.diagnostics)

end PLZero
