import PLZero.Decimal.Shortest
import PLZero.Position
import PLZero.Text.Quoted

namespace PLZero

/-- The classes of tokens that are always spelled alike. -/
inductive FixedKind where
  | constKw | varKw | procedureKw | functionKw | beginKw | endKw | ifKw | thenKw | elseKw | whileKw | doKw
  | repeatKw | untilKw | oddKw
  | lparen | rparen | comma | semicolon | period | assign
  | plus | minus | star | slash | percent
  | eq | ne | lt | le | gt | ge
  | and | or | not
  | ampersand | pipe | caret | tilde | lshift | rshift
deriving DecidableEq, Repr

namespace FixedKind

def name : FixedKind → String
  | constKw => "CONST" | varKw => "VAR" | procedureKw => "PROCEDURE" | functionKw => "FUNCTION"
  | beginKw => "BEGIN" | endKw => "END" | ifKw => "IF" | thenKw => "THEN" | elseKw => "ELSE"
  | whileKw => "WHILE" | doKw => "DO" | repeatKw => "REPEAT" | untilKw => "UNTIL" | oddKw => "ODD"
  | lparen => "LPAREN" | rparen => "RPAREN" | comma => "COMMA" | semicolon => "SEMICOLON"
  | period => "PERIOD" | assign => "ASSIGN"
  | plus => "PLUS" | minus => "MINUS" | star => "STAR" | slash => "SLASH" | percent => "PERCENT"
  | eq => "EQ" | ne => "NE" | lt => "LT" | le => "LE" | gt => "GT" | ge => "GE"
  | and => "AND" | or => "OR" | not => "NOT"
  | ampersand => "AMPERSAND" | pipe => "PIPE" | caret => "CARET" | tilde => "TILDE"
  | lshift => "LSHIFT" | rshift => "RSHIFT"

def spelling : FixedKind → String
  | constKw => "const" | varKw => "var" | procedureKw => "procedure" | functionKw => "function"
  | beginKw => "begin" | endKw => "end" | ifKw => "if" | thenKw => "then" | elseKw => "else"
  | whileKw => "while" | doKw => "do" | repeatKw => "repeat" | untilKw => "until" | oddKw => "odd"
  | lparen => "(" | rparen => ")" | comma => "," | semicolon => ";" | period => "." | assign => ":="
  | plus => "+" | minus => "-" | star => "*" | slash => "/" | percent => "%"
  | eq => "=" | ne => "!=" | lt => "<" | le => "<=" | gt => ">" | ge => ">="
  | and => "&&" | or => "||" | not => "!"
  | ampersand => "&" | pipe => "|" | caret => "^" | tilde => "~" | lshift => "<<" | rshift => ">>"

def keywords : List FixedKind :=
  [constKw, varKw, procedureKw, functionKw, beginKw, endKw, ifKw, thenKw, elseKw, whileKw, doKw, repeatKw, untilKw,
    oddKw]

def twoCharacterMarks : List FixedKind :=
  [assign, ne, le, ge, lshift, rshift, and, or]

def oneCharacterMarks : List FixedKind :=
  [lparen, rparen, comma, semicolon, period, plus, minus, star, slash, percent, eq, lt, gt, not, ampersand, pipe,
    caret, tilde]

def keyword? (word : String) : Option FixedKind :=
  keywords.find? fun keyword => keyword.spelling = word

end FixedKind

inductive TokenKind where
  | eof | unknown | badComment | integer | real | identifier
  | fixed (kind : FixedKind)
deriving DecidableEq, Repr

namespace TokenKind

def all : List TokenKind :=
  [eof, unknown, badComment, integer, real, identifier] ++
    (FixedKind.keywords ++ FixedKind.twoCharacterMarks ++ FixedKind.oneCharacterMarks).map fixed

def name : TokenKind → String
  | eof => "EOF"
  | unknown => "UNKNOWN"
  | badComment => "BAD_COMMENT"
  | integer => "INTEGER"
  | real => "REAL"
  | identifier => "IDENTIFIER"
  | fixed kind => kind.name

def ofName? (name : String) : Option TokenKind :=
  all.find? fun kind => kind.name = name

/-- How a kind is written where a message asks for it. -/
def spelling : TokenKind → String
  | eof => "end of file"
  | unknown => "unknown"
  | badComment => "bad_comment"
  | integer => "number"
  | real => "real number"
  | identifier => "identifier"
  | fixed kind => kind.spelling

/-- How a message names a token of the kind with the given value. -/
def describe (kind : TokenKind) (value : String) : String :=
  match kind with
  | identifier => s!"identifier '{value}'"
  | integer | real => s!"number {value}"
  | eof => "end of file"
  | _ => s!"'{kind.spelling}'"

end TokenKind

inductive Token where
  | eof
  /-- A character that begins no token. -/
  | unknown (character : Char)
  /-- A comment that nothing closes, with the line on which it was opened. -/
  | badComment (startLine : Nat)
  | integer (value : Nat)
  | real (value : Binary64)
  | identifier (name : String)
  | fixed (kind : FixedKind)
  /-- Equality, written `==`. -/
  | doubleEqual
  /-- Inequality, written `<>`. -/
  | lessGreater
deriving DecidableEq, Repr

namespace Token

def kind : Token → TokenKind
  | eof => .eof
  | unknown _ => .unknown
  | badComment _ => .badComment
  | integer _ => .integer
  | real _ => .real
  | identifier _ => .identifier
  | fixed kind => .fixed kind
  | doubleEqual => .fixed .eq
  | lessGreater => .fixed .ne

/-- The value in plain text, for a token that stands for itself its spelling in the source. -/
def valueText : Token → String
  | eof => ""
  | unknown c => String.singleton c
  | badComment line => toString line
  | integer n => toString n
  | real x => x.render
  | identifier name => name
  | fixed kind => kind.spelling
  | doubleEqual => "=="
  | lessGreater => "<>"

def describe (token : Token) : String :=
  token.kind.describe token.valueText

/-- The value as it is shown within `PlacedToken.render`: numbers plainly, texts in quotes. -/
def shownValue? : Token → Option String
  | eof => none
  | badComment line => some (toString line)
  | integer n => some (toString n)
  | real x => some x.render
  | token => some (Text.quoted token.valueText)

end Token

/-- A token with the position of its first character. -/
structure PlacedToken where
  token : Token
  position : Position
deriving DecidableEq, Repr

def PlacedToken.render (placed : PlacedToken) : String :=
  let value := match placed.token.shownValue? with
    | some value => s!"{value}, "
    | none => ""
  s!"Token({placed.token.kind.name}, {value}{placed.position.line}:{placed.position.column})"

end PLZero
