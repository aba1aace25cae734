import PLZero.Text.Quoted

namespace PLZero.Text

/-- Why bytes are no text in UTF-8. -/
inductive Utf8Fault where
  | startByte | continuationByte | endOfData
deriving DecidableEq, Repr

def Utf8Fault.reason : Utf8Fault → String
  | startByte => "invalid start byte"
  | continuationByte => "invalid continuation byte"
  | endOfData => "unexpected end of data"

/-- The bytes that are no text, counted from zero, at the first place where there are such. -/
structure Utf8Error where
  fault : Utf8Fault
  start : Nat
  bytes : List UInt8
deriving DecidableEq, Repr

def Utf8Error.place (error : Utf8Error) : String :=
  match error.bytes with
  | [byte] => s!"byte 0x{String.ofList (hexDigits 2 byte.toNat)} in position {error.start}"
  | bytes => s!"bytes in position {error.start}-{error.start + bytes.length - 1}"

def Utf8Error.message (error : Utf8Error) : String :=
  s!"'utf-8' codec can't decode {error.place}: {error.fault.reason}"

/-- A character of which the first bytes have been read: these bytes, their bits, the range of the next byte, and how
many bytes follow that one. -/
structure PartialCharacter where
  bytes : List UInt8
  bits : Nat
  least : UInt8 := 0x80
  greatest : UInt8 := 0xBF
  further : Nat
deriving DecidableEq, Repr

/-- The beginning of a character of several bytes. The second byte is kept from spelling a number in more bytes than
it needs, a surrogate, or a number beyond the last code point. -/
def PartialCharacter.ofStartByte? (byte : UInt8) : Option PartialCharacter :=
  let number := byte.toNat
  if number < 0xC2 then none
  else if number < 0xE0 then some { bytes := [byte], bits := number - 0xC0, further := 0 }
  else if number = 0xE0 then some { bytes := [byte], bits := 0, least := 0xA0, further := 1 }
  else if number = 0xED then some { bytes := [byte], bits := 0xD, greatest := 0x9F, further := 1 }
  else if number < 0xF0 then some { bytes := [byte], bits := number - 0xE0, further := 1 }
  else if number = 0xF0 then some { bytes := [byte], bits := 0, least := 0x90, further := 2 }
  else if number < 0xF4 then some { bytes := [byte], bits := number - 0xF0, further := 2 }
  else if number = 0xF4 then some { bytes := [byte], bits := 4, greatest := 0x8F, further := 2 }
  else none

/-- What has been read of a text, how many bytes it takes, and the character that is still incomplete. -/
structure Utf8Reading where
  text : String := ""
  length : Nat := 0
  incomplete : Option PartialCharacter := none

namespace Utf8Reading

def feed (reading : Utf8Reading) (byte : UInt8) : Except Utf8Error Utf8Reading :=
  match reading.incomplete with
  | none =>
    if byte.toNat < 0x80 then
      .ok { text := reading.text.push (Char.ofNat byte.toNat), length := reading.length + 1 }
    else
      match PartialCharacter.ofStartByte? byte with
      | some character => .ok { reading with incomplete := some character }
      | none => .error ⟨.startByte, reading.length, [byte]⟩
  | some character =>
    if character.least ≤ byte ∧ byte ≤ character.greatest then
      let bytes := character.bytes ++ [byte]
      let bits := character.bits * 64 + byte.toNat % 64
      match character.further with
      | 0 => .ok { text := reading.text.push (Char.ofNat bits), length := reading.length + bytes.length }
      | further + 1 => .ok { reading with incomplete := some { bytes, bits, further } }
    else .error ⟨.continuationByte, reading.length, character.bytes⟩

def finish (reading : Utf8Reading) : Except Utf8Error String :=
  match reading.incomplete with
  | none => .ok reading.text
  | some character => .error ⟨.endOfData, reading.length, character.bytes⟩

end Utf8Reading

def decodeUtf8 (bytes : List UInt8) : Except Utf8Error String := do
  (← bytes.foldlM Utf8Reading.feed {}).finish

end PLZero.Text
