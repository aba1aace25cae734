namespace PLZero

inductive SymbolKind where
  | constant | var | procedure | function
deriving DecidableEq, Repr

def SymbolKind.name : SymbolKind → String
  | constant => "CONSTANT"
  | var => "VARIABLE"
  | procedure => "PROCEDURE"
  | function => "FUNCTION"

/-- A declaration. The value of a constant is its literal, of a variable its frame offset, of a subroutine its entry
address; the arity counts the parameters of a subroutine. -/
structure Symbol where
  name : String
  kind : SymbolKind
  level : Int
  value : Int := 0
  arity : Int := 0
deriving DecidableEq, Repr

/-- The declarations in force, grouped by name. The groups stand in the order in which their names became present,
the entries of a group in the order of declaration. -/
structure SymbolTable where
  groups : List (String × List Symbol)
deriving DecidableEq, Repr

namespace SymbolTable

def empty : SymbolTable := ⟨[]⟩

def toList (table : SymbolTable) : List Symbol :=
  table.groups.flatMap (·.2)

def size (table : SymbolTable) : Nat :=
  table.toList.length

def contains (table : SymbolTable) (name : String) : Bool :=
  table.groups.any fun group => group.1 = name

def entries (table : SymbolTable) (name : String) : List Symbol :=
  ((table.groups.find? fun group => group.1 = name).map (·.2)).getD []

def insertInto (symbol : Symbol) : List (String × List Symbol) → List (String × List Symbol)
  | [] => [(symbol.name, [symbol])]
  | (name, entries) :: groups =>
    if name = symbol.name then (name, entries ++ [symbol]) :: groups
    else (name, entries) :: insertInto symbol groups

/-- Adds a declaration behind those of the same name. -/
def declare (table : SymbolTable) (symbol : Symbol) : SymbolTable :=
  ⟨insertInto symbol table.groups⟩

def isDeclared (table : SymbolTable) (name : String) (level : Int) : Bool :=
  (table.entries name).any fun entry => entry.level = level

/-- The first of the entries with the greatest level. -/
def innermost : List Symbol → Option Symbol
  | [] => none
  | entry :: entries =>
    match innermost entries with
    | some deeper => if entry.level < deeper.level then some deeper else some entry
    | none => some entry

/-- The declaration that a use of the name refers to. -/
def resolve (table : SymbolTable) (name : String) : Option Symbol :=
  innermost (table.entries name)

/-- What a level has in the groups, one after another, and the groups without it. A group that keeps nothing goes. -/
def purgeGroups (level : Int) : List (String × List Symbol) → List Symbol × List (String × List Symbol)
  | [] => ([], [])
  | (name, entries) :: groups =>
    let kept := entries.filter fun entry => entry.level ≠ level
    let (removed, rest) := purgeGroups level groups
    (entries.filter (fun entry => entry.level = level) ++ removed, if kept = [] then rest else (name, kept) :: rest)

/-- The declarations of a level, and the table without them. -/
def purge (table : SymbolTable) (level : Int) : List Symbol × SymbolTable :=
  let (removed, groups) := purgeGroups level table.groups
  (removed, ⟨groups⟩)

def modifyFirst (level : Int) (change : Symbol → Symbol) : List Symbol → List Symbol
  | [] => []
  | entry :: entries =>
    if entry.level = level then change entry :: entries else entry :: modifyFirst level change entries

/-- Changes the first declaration of a name at a level where it stands. -/
def modify (table : SymbolTable) (name : String) (level : Int) (change : Symbol → Symbol) : SymbolTable :=
  ⟨table.groups.map fun group => if group.1 = name then (name, modifyFirst level change group.2) else group⟩

/-- Gives the declaration that the name refers to a new value. -/
def fill (table : SymbolTable) (name : String) (value : Int) : Option Symbol × SymbolTable :=
  match table.resolve name with
  | some entry =>
    (some { entry with value }, table.modify name entry.level fun entry => { entry with value })
  | none => (none, table)

end SymbolTable

end PLZero
