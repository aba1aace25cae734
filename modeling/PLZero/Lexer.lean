import PLZero.Lexeme

namespace PLZero

def isBlank (c : Char) : Bool :=
  c = ' ' || c = '\t' || c = '\r' || c = '\n' || c = '\x0c' || c = '\x0b'

/-- The number of characters up to the end of the first `*/`. -/
def closingLength? : List Char → Option Nat
  | '*' :: '/' :: _ => some 2
  | _ :: rest => (closingLength? rest).map (· + 1)
  | [] => none

/-- The length of the blank or comment at the front of a text. A comment that nothing closes is none. -/
def layoutLength? : List Char → Option Nat
  | '/' :: '/' :: rest => some (2 + (rest.takeWhile (· ≠ '\n')).length)
  | '/' :: '*' :: rest => (closingLength? rest).map (2 + ·)
  | c :: _ => if isBlank c then some 1 else none
  | [] => none

/-- The length of all blanks and comments at the front of a text whose first `inside` characters belong to one that
has been entered already. -/
def gapLength : (inside : Nat) → List Char → Nat
  | _, [] => 0
  | inside + 1, _ :: rest => gapLength inside rest + 1
  | 0, c :: rest =>
    match layoutLength? (c :: rest) with
    | some (length + 1) => gapLength length rest + 1
    | _ => 0

/-- What is left of a source, and where its first character stands in it. -/
structure Cursor where
  rest : List Char
  offset : Nat
  position : Position
deriving DecidableEq, Repr

namespace Cursor

def ofSource (source : String) : Cursor :=
  ⟨source.toList, 0, .start⟩

def skip (cursor : Cursor) (count : Nat) : Cursor :=
  let passed := cursor.rest.take count
  ⟨cursor.rest.drop count, cursor.offset + passed.length, cursor.position.after passed⟩

/-- The next token with the cursor behind it, also behind an integer that cannot be read. At the end every further
token is the end again. -/
def next (cursor : Cursor) : Except OverlongInteger PlacedToken × Cursor :=
  let cursor := cursor.skip (gapLength 0 cursor.rest)
  match cursor.rest with
  | [] => (.ok ⟨.eof, cursor.position⟩, cursor)
  | '/' :: '*' :: _ =>
    let final := cursor.skip cursor.rest.length
    (.ok ⟨.badComment cursor.position.line, final.position⟩, final)
  | first :: rest =>
    let lexeme := Lexeme.scan first rest
    (lexeme.token.map (⟨·, cursor.position⟩), cursor.skip lexeme.text.length)

/-- At most `count` tokens, no further than the first end of the source. -/
def tokens : (count : Nat) → Cursor → List (Except OverlongInteger PlacedToken)
  | 0, _ => []
  | count + 1, cursor =>
    match cursor.next with
    | (.ok ⟨.eof, position⟩, _) => [.ok ⟨.eof, position⟩]
    | (item, cursor) => item :: tokens count cursor

end Cursor

/-- All tokens of a source, the end included. Every other token takes a character. -/
def lex (source : String) : List (Except OverlongInteger PlacedToken) :=
  (Cursor.ofSource source).tokens (source.length + 1)

/-- The tokens of a source one at a time, with the one read last. -/
structure TokenStream where
  cursor : Cursor
  current : PlacedToken
deriving DecidableEq, Repr

namespace TokenStream

/-- Before the first token is read, the current one is an end at the start. -/
def ofSource (source : String) : TokenStream :=
  ⟨.ofSource source, ⟨.eof, .start⟩⟩

/-- Replaces the current token by the following one. An integer that cannot be read is passed over, and the current
token stays. -/
def next (stream : TokenStream) : Except OverlongInteger PlacedToken × TokenStream :=
  match stream.cursor.next with
  | (.ok token, cursor) => (.ok token, ⟨cursor, token⟩)
  | (.error overlong, cursor) => (.error overlong, ⟨cursor, stream.current⟩)

end TokenStream

end PLZero
