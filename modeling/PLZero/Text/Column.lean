namespace PLZero.Text

def blanks (count : Nat) : String :=
  String.ofList (List.replicate count ' ')

/-- Right-aligned in a column of at least `width` characters. -/
def rightAligned (width : Nat) (text : String) : String :=
  blanks (width - text.length) ++ text

/-- Left-aligned in a column of at least `width` characters. -/
def leftAligned (width : Nat) (text : String) : String :=
  text ++ blanks (width - text.length)

/-- A noun that stands after a count. -/
def counted (count : Int) (noun : String) : String :=
  toString count ++ " " ++ noun ++ (if count = 1 then "" else "s")

end PLZero.Text
