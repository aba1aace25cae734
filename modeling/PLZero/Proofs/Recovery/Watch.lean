import PLZero.Proofs.Recovery.Tables
import PLZero.Proofs.Translation.Runs

namespace PLZero

/-- A declaration as it was made. The address and the arity of a subroutine are filled in later. -/
def Symbol.asDeclared (symbol : Symbol) : Symbol :=
  match symbol.kind with
  | .procedure | .function => { symbol with value := 0, arity := 0 }
  | .constant | .var => symbol

/-- The heading of a subroutine: the table in front of it, the declaration of its name, unless that is missing or
taken, and its parameters. -/
structure Header where
  before : SymbolTable
  own : Option Symbol
  parameters : List Symbol

/-- A block that is being compiled: the heading in front, the address at which its code begins, and what has been
declared in it. -/
structure OpenBlock where
  header : Header
  start : Nat
  declared : List Symbol

/-- What is being compiled of the innermost block: its declarations, the heading of a subroutine among them, or the
statement behind the entry. -/
inductive Stage where
  | declarations
  | heading (header : Header)
  | statement (entry : Nat)

/-- Where the code of a block lies: the address of the jump in front, the entry, and the return. -/
structure Span where
  start : Nat
  entry : Nat
  last : Nat
deriving DecidableEq, Repr

/-- What the requests of a compilation tell of its blocks: those that are open, the innermost one in front, and the
spans of those that have been finished. -/
structure Watch where
  stage : Stage
  blocks : List OpenBlock
  finished : List Span

namespace Watch

/-- The level of the block that is being compiled. -/
def level (watch : Watch) : Int :=
  watch.blocks.length - 1

/-- The main program has no heading. -/
def start : Watch :=
  ⟨.heading ⟨.empty, none, []⟩, [], []⟩

def beginsSubroutine (t : Token) : Prop :=
  t = .fixed .procedureKw ∨ t = .fixed .functionKw

instance : DecidablePred beginsSubroutine := fun _ => inferInstanceAs (Decidable (_ ∨ _))

/-- A declaration belongs to the innermost block. In a heading, one of a variable is a parameter. -/
def declare (watch : Watch) (symbol : Symbol) : Watch :=
  match watch.stage, watch.blocks with
  | .declarations, block :: outer =>
    { watch with blocks := { block with declared := block.declared ++ [symbol] } :: outer }
  | .heading header, blocks =>
    if symbol.kind = .var then
      { watch with stage := .heading { header with parameters := header.parameters ++ [symbol] } }
    else
      match blocks with
      | block :: outer =>
        { watch with
          stage := .heading { header with own := some symbol }
          blocks := { block with declared := block.declared ++ [symbol] } :: outer }
      | [] => watch
  | _, _ => watch

/-- What a request tells, with the draft as it is before. The keyword takes the compilation to a heading, the jump
behind it opens a block that begins with the parameters, the entry ends the declarations, and the block is closed when
its level is purged. -/
def next (watch : Watch) (draft : Draft) : Request → Watch
  | .advance =>
    match watch.stage with
    | .declarations =>
      if beginsSubroutine draft.current.token then { watch with stage := .heading ⟨draft.symbols, none, []⟩ } else watch
    | _ => watch
  | .declare symbol => watch.declare symbol
  | .emit .jump _ _ =>
    match watch.stage with
    | .heading header =>
      { watch with stage := .declarations, blocks := ⟨header, draft.code.size, header.parameters⟩ :: watch.blocks }
    | _ => watch
  | .emit .enter _ _ =>
    match watch.stage with
    | .declarations => { watch with stage := .statement draft.code.size }
    | _ => watch
  | .purge _ =>
    match watch.stage, watch.blocks with
    | .statement entry, block :: outer =>
      ⟨.declarations, outer, watch.finished ++ [⟨block.start, entry, draft.code.size - 1⟩]⟩
    | _, _ => watch
  | _ => watch

end Watch

/-- A request that is made, with the draft as it is then and what the earlier requests tell. -/
structure Occasion where
  watch : Watch
  draft : Draft
  request : Request

namespace Production

variable {α : Type}

/-- The requests that a rule makes, one after another. -/
def occasions : Production α → Watch → Draft → List Occasion
  | .done _, _, _ => []
  | .ask request next, watch, draft =>
    ⟨watch, draft, request⟩ ::
      match request.perform draft with
      | .ok answer after => (next answer).occasions (watch.next draft request) after
      | .error _ _ => []

/-- What is told when a rule has come to its end. -/
def watched : Production α → Watch → Draft → Watch
  | .done _, watch, _ => watch
  | .ask request next, watch, draft =>
    match request.perform draft with
    | .ok answer after => (next answer).watched (watch.next draft request) after
    | .error _ _ => watch.next draft request

end Production

end PLZero
