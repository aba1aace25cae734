namespace PLZero

/-- A place in a text, lines and columns counted from one. -/
structure Position where
  line : Nat
  column : Nat
deriving DecidableEq, Repr

namespace Position

def start : Position := ⟨1, 1⟩

/-- The place behind a character. -/
def next (position : Position) (c : Char) : Position :=
  if c = '\n' then ⟨position.line + 1, 1⟩ else ⟨position.line, position.column + 1⟩

/-- The place behind a piece of text. -/
def after (position : Position) (text : List Char) : Position :=
  text.foldl next position

end Position

end PLZero
