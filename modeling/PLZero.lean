import PLZero.Compilation
import PLZero.CommandLine.Response
import PLZero.Machine.Trace
import PLZero.Main
import PLZero.Proofs.Tree.Derivation
import PLZero.Proofs.Tree.Parser
import PLZero.Proofs.Tree.Soundness
import PLZero.Proofs.Tree.Completeness
import PLZero.Proofs.Scoping.Context
import PLZero.Proofs.Scoping.WellFormed
import PLZero.Proofs.Generation.Code
import PLZero.Proofs.Translation.Sketch
import PLZero.Proofs.Translation.Symbols
import PLZero.Proofs.Translation.Expressions
import PLZero.Proofs.Translation.Statements
import PLZero.Proofs.Translation.Declarations
import PLZero.Proofs.Translation.Blocks
import PLZero.Proofs.Translation.Programs
import PLZero.Proofs.Lexing.Tokens
import PLZero.Proofs.Translation.Runs
import PLZero.Proofs.Translation.Compiler
import PLZero.Proofs.Scoping.DanglingElse
import PLZero.Proofs.Translation.Correctness
import PLZero.Proofs.Execution.Steps
import PLZero.Proofs.Meaning.Evaluation
import PLZero.Proofs.Execution.Moments
import PLZero.Proofs.Execution.Cells
import PLZero.Proofs.Generation.Placement
import PLZero.Proofs.Generation.Scopes
import PLZero.Proofs.Generation.Shapes
import PLZero.Proofs.Generation.Levels
import PLZero.Proofs.Execution.Frames
import PLZero.Proofs.Execution.Standing
import PLZero.Proofs.Execution.Calls
import PLZero.Proofs.Execution.Faults
import PLZero.Proofs.Execution.Safety
import PLZero.Proofs.Execution.Heights
import PLZero.Proofs.Execution.Returns
import PLZero.Proofs.Execution.StaticChain
import PLZero.Proofs.Execution.Stores
import PLZero.Proofs.Meaning.Agreement
import PLZero.Proofs.Meaning.Fuel
import PLZero.Proofs.Meaning.Progress
import PLZero.Proofs.Execution.Layout
import PLZero.Proofs.Execution.Scenes
import PLZero.Proofs.Execution.Entering
import PLZero.Proofs.Execution.Simulation
import PLZero.Proofs.Execution.Refinement
import PLZero.Proofs.Generation.Forward
import PLZero.Proofs.Execution.Termination
import PLZero.Proofs.Arithmetic.Words
import PLZero.Proofs.Generation.Constants
import PLZero.Proofs.Execution.Values
import PLZero.Proofs.Recovery.Tables
import PLZero.Proofs.Recovery.Watch
import PLZero.Proofs.Recovery.Scoped
import PLZero.Proofs.Recovery.Requests
import PLZero.Proofs.Recovery.Emissions
import PLZero.Proofs.Recovery.Statements
import PLZero.Proofs.Recovery.Regions
import PLZero.Proofs.Recovery.Declarations
import PLZero.Proofs.Recovery.Settings
import PLZero.Proofs.Recovery.Headings
import PLZero.Proofs.Recovery.Blocks
import PLZero.Proofs.Recovery.LexicalScoping
import PLZero.Proofs.Recovery.ControlFlow
import PLZero.Proofs.Lexing.Layout
import PLZero.Proofs.Lexing.Numerals
import PLZero.Proofs.Lexing.Spellings
import PLZero.Proofs.Lexing.Pieces
import PLZero.Proofs.Lexing.Reading
import PLZero.Proofs.Recovery.Failures
import PLZero.Proofs.Machine.Accesses
import PLZero.Proofs.Machine.Representation
import PLZero.Proofs.Lexing.Printing
import PLZero.Proofs.Lexing.Strays
import PLZero.Proofs.Recovery.Orderly
import PLZero.Proofs.Recovery.Strays
import PLZero.Proofs.Machine.Limits
import PLZero.Proofs.Machine.CycleLimit
import PLZero.Proofs.Machine.BiggerStack
import PLZero.Proofs.Machine.Faulting
import PLZero.Proofs.Arithmetic.Operators
import PLZero.Proofs.Generation.Parts
import PLZero.Proofs.Execution.Operands
import PLZero.Proofs.Execution.Expressions
import PLZero.Proofs.Recovery.Course
import PLZero.Proofs.Recovery.Pace
import PLZero.Proofs.Recovery.Prices
import PLZero.Proofs.Recovery.Budget
import PLZero.Proofs.Recovery.Linear
import PLZero.Proofs.Lexing.Slips
import PLZero.Proofs.Recovery.Lockstep
import PLZero.Proofs.Recovery.Resumption
import PLZero.Proofs.Recovery.Slips
import PLZero.Proofs.Machine.Calculations
import PLZero.Proofs.Arithmetic.Congruence
import PLZero.Proofs.Arithmetic.BitVectors
import PLZero.Proofs.Scoping.Edits
import PLZero.Proofs.Lexing.Filling
import PLZero.Proofs.Recovery.Places
import PLZero.Proofs.Lexing.Overlong
import PLZero.Proofs.Listing.Layout
import PLZero.Proofs.Listing.Columns
import PLZero.Proofs.Listing.Written
import PLZero.Proofs.Recovery.Endings
import PLZero.Proofs.Recovery.Emitted
import PLZero.Proofs.Listing.Determined
import PLZero.Proofs.Recovery.Lines
import PLZero.Proofs.CommandLine.Choices
import PLZero.Proofs.CommandLine.Reports
