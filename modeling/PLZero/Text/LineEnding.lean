namespace PLZero.Text

/-- Ends each line by a line feed alone, whether it ends by a line feed, a carriage return or both. -/
def unifyLineEndings : List Char → List Char
  | [] => []
  | '\r' :: '\n' :: rest => '\n' :: unifyLineEndings rest
  | '\r' :: rest => '\n' :: unifyLineEndings rest
  | c :: rest => c :: unifyLineEndings rest

end PLZero.Text
