import PLZero.Journal
import PLZero.Lexer
import PLZero.Production

namespace PLZero

/-- Why a compilation stops before the end of its grammar rules. -/
inductive Halt where
  | tooDeep
  | overlongInteger (error : OverlongInteger)
  | levelOutOfRange (error : LevelOutOfRange)
deriving DecidableEq, Repr

/-- A program that is being compiled: the current token and those behind it, and what has come out so far. -/
structure Draft where
  current : PlacedToken
  upcoming : List (Except OverlongInteger PlacedToken)
  bound : Nat
  code : Array Instruction := #[]
  symbols : SymbolTable := .empty
  globals : Array (String × Nat) := #[]
  diagnostics : Array Diagnostic := #[]
  journal : Array Event := #[]

abbrev DraftM := EStateM Halt Draft

/-- Whether the grammar gets to see a token. The others are reported and passed over. -/
def Token.isVisible : Token → Bool
  | unknown _ | badComment _ => false
  | _ => true

def itemIsVisible : Except OverlongInteger PlacedToken → Bool
  | .ok placed => placed.token.isVisible
  | .error _ => true

namespace Draft

/-- The draft of a program before its first token is read. Each round of a loop of the grammar takes a token, so none
has more rounds than there are tokens with the end among them. -/
def ofSource (source : String) : Draft :=
  let tokens := lex source
  { current := ⟨.eof, .start⟩, upcoming := tokens, bound := tokens.countP itemIsVisible }

def note (event : Event) : DraftM Unit :=
  modify fun draft => { draft with journal := draft.journal.push event }

def report (complaint : Complaint) : DraftM Unit := do
  let diagnostic : Diagnostic := ⟨complaint, (← get).current.position.line⟩
  modify fun draft => { draft with diagnostics := draft.diagnostics.push diagnostic }
  note (.error diagnostic)

/-- Makes the first visible one of the tokens the current one. At the end the current one stays. -/
def advanceTo : List (Except OverlongInteger PlacedToken) → DraftM Unit
  | [] => pure ()
  | .error error :: _ => throw (.overlongInteger error)
  | .ok placed :: rest => do
    modify fun draft => { draft with current := placed, upcoming := rest }
    match placed.token with
    | .unknown c =>
      report (.unknownCharacter c)
      advanceTo rest
    | .badComment line =>
      report (.unterminatedComment line)
      advanceTo rest
    | _ => pure ()

/-- Levels beyond a byte come up only after a complaint about them, and are stored as the greatest one. -/
def emit (op : Opcode) (level value : Int) : DraftM Nat := do
  match Instruction.ofLevel (.named op) (min level maxLevel) value with
  | .error error => throw (.levelOutOfRange error)
  | .ok instruction =>
    let address := (← get).code.size
    modify fun draft => { draft with code := draft.code.push instruction }
    note (.emit address instruction)
    return address

def patch (position target : Nat) : DraftM Unit := do
  note (.patch position target)
  modify fun draft =>
    { draft with code := draft.code.modify position fun instruction => { instruction with value := target } }

def declare (symbol : Symbol) : DraftM Unit := do
  modify fun draft => { draft with symbols := draft.symbols.declare symbol }
  note (.declare symbol)

def changeSymbol (name : String) (level : Int) (change : Symbol → Symbol) : DraftM Unit :=
  modify fun draft => { draft with symbols := draft.symbols.modify name level change }

def purge (level : Int) : DraftM Unit := do
  let (removed, symbols) := (← get).symbols.purge level
  modify fun draft => { draft with symbols }
  removed.forM fun symbol => note (.purge symbol)

end Draft

def Request.perform : (request : Request) → DraftM request.Answer
  | token => return (← get).current.token
  | advance => do Draft.advanceTo (← get).upcoming
  | bound => return (← get).bound
  | report complaint => Draft.report complaint
  | here => return (← get).code.size
  | emit op level value => Draft.emit op level value
  | patch position target => Draft.patch position target
  | isDeclared name level => return (← get).symbols.isDeclared name level
  | resolve name => return (← get).symbols.resolve name
  | declare symbol => Draft.declare symbol
  | setValue name level value => Draft.changeSymbol name level fun symbol => { symbol with value }
  | setArity name level arity => Draft.changeSymbol name level fun symbol => { symbol with arity }
  | purge level => Draft.purge level
  | addGlobal name address => modify fun draft => { draft with globals := draft.globals.push (name, address) }
  | abandon => do
    Draft.report .tooDeep
    throw .tooDeep

/-- Performs the requests of a rule one after another. -/
def Production.run {α : Type} : Production α → DraftM α
  | .done result => fun draft => .ok result draft
  | .ask request next => fun draft =>
    match request.perform draft with
    | .ok answer draft => (next answer).run draft
    | .error halt draft => .error halt draft

@[simp] theorem Production.run_pure {α : Type} (result : α) (draft : Draft) :
    (Pure.pure result : Production α).run draft = .ok result draft := rfl

@[simp] theorem Production.run_bind {α β : Type} (first : Production α) (next : α → Production β) (draft : Draft) :
    (first >>= next).run draft = match first.run draft with
      | .ok result draft => (next result).run draft
      | .error halt draft => .error halt draft := by
  induction first generalizing draft with
  | done result => rfl
  | ask request rest ih =>
    simp only [Bind.bind, Production.bind, run] at ih ⊢
    cases request.perform draft with
    | ok answer after => exact ih answer after
    | error halt after => rfl

end PLZero
