import PLZero.Diagnostic
import PLZero.SymbolTable

namespace PLZero

/-- What a grammar rule may ask of the compilation that it is part of. No request tells where in the source a token
stands. -/
inductive Request where
  | token
  | advance
  /-- A number of rounds that no loop over tokens exceeds. -/
  | bound
  | report (complaint : Complaint)
  /-- The next free address. -/
  | here
  | emit (op : Opcode) (level value : Int)
  /-- Makes the jump at a position lead to the target. -/
  | patch (position target : Nat)
  | isDeclared (name : String) (level : Int)
  | resolve (name : String)
  | declare (symbol : Symbol)
  | setValue (name : String) (level value : Int)
  | setArity (name : String) (level : Int) (arity : Nat)
  | purge (level : Int)
  /-- Notes a variable of the main program. -/
  | addGlobal (name : String) (address : Nat)
  /-- Gives up, for too deep a nesting. -/
  | abandon
deriving DecidableEq, Repr

def Request.Answer : Request → Type
  | token => Token
  | bound | here | emit .. => Nat
  | isDeclared .. => Bool
  | resolve _ => Option Symbol
  | abandon => Empty
  | _ => Unit

/-- A grammar rule: its requests one after another, each depending on the answers so far. -/
inductive Production (α : Type) where
  | done (result : α)
  | ask (request : Request) (next : request.Answer → Production α)

namespace Production

protected def bind {α β : Type} (first : Production α) (next : α → Production β) : Production β :=
  match first with
  | .done result => next result
  | .ask request rest => .ask request fun answer => (rest answer).bind next

instance : Monad Production where
  pure := .done
  bind := .bind

theorem bind_done {α : Type} (first : Production α) : first.bind .done = first := by
  induction first with
  | done result => rfl
  | ask request rest ih =>
    simp only [Production.bind]
    exact congrArg _ (funext ih)

theorem bind_assoc {α β γ : Type} (first : Production α) (second : α → Production β) (third : β → Production γ) :
    (first.bind second).bind third = first.bind fun a => (second a).bind third := by
  induction first with
  | done result => rfl
  | ask request rest ih =>
    simp only [Production.bind]
    exact congrArg _ (funext ih)

instance : LawfulMonad Production :=
  LawfulMonad.mk' Production bind_done (fun _ _ => rfl) bind_assoc

def token : Production Token := ask .token .done

def advance : Production Unit := ask .advance .done

def bound : Production Nat := ask .bound .done

def report (complaint : Complaint) : Production Unit := ask (.report complaint) .done

def here : Production Nat := ask .here .done

def emit (op : Opcode) (level : Int := 0) (value : Int := 0) : Production Nat := ask (.emit op level value) .done

def patch (position target : Nat) : Production Unit := ask (.patch position target) .done

def isDeclared (name : String) (level : Int) : Production Bool := ask (.isDeclared name level) .done

def resolve (name : String) : Production (Option Symbol) := ask (.resolve name) .done

def declare (symbol : Symbol) : Production Unit := ask (.declare symbol) .done

def setValue (name : String) (level value : Int) : Production Unit := ask (.setValue name level value) .done

def setArity (name : String) (level : Int) (arity : Nat) : Production Unit := ask (.setArity name level arity) .done

def purge (level : Int) : Production Unit := ask (.purge level) .done

def addGlobal (name : String) (address : Nat) : Production Unit := ask (.addGlobal name address) .done

def abandon {α : Type} : Production α := ask .abandon Empty.elim

end Production

end PLZero
