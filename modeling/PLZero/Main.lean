import PLZero.CommandLine.Response

namespace PLZero.CommandLine

def OpenFailure.ofError : IO.Error → OpenFailure
  | .noFileOrDirectory .. => missing
  | .inappropriateType _ _ details => if details.toLower = "is a directory" then directory else notDirectory
  | error => other (toString error)

partial def readRest (stream : IO.FS.Stream) (bytes : ByteArray) : IO ByteArray := do
  let more ← stream.read 65536
  if more.isEmpty then return bytes
  readRest stream (bytes ++ more)

def readSource (source : String) : IO (Except OpenFailure (List UInt8)) := do
  if source = standardInput then
    return .ok (← readRest (← IO.getStdin) .empty).toList
  try return .ok (← IO.FS.readBinFile source).toList
  catch error => return .error (.ofError error)

def write (response : Response) : IO UInt32 := do
  (← IO.getStderr).putStr (joinLines response.errors)
  (← IO.getStdout).putStr (joinLines response.output)
  return response.status.toUInt32

/-- Responds with ever more fuel until the run of the program is over. -/
partial def answer (source : String) (job : Job) (bytes : Except OpenFailure (List UInt8)) (fuel : Nat) :
    IO UInt32 := do
  match respond maxNesting source job bytes fuel with
  | .error failure =>
    (← IO.getStderr).putStr (joinLines [failure.message])
    return 1
  | .ok none => answer source job bytes (2 * fuel)
  | .ok (some response) => write response

end PLZero.CommandLine

open PLZero.CommandLine in
def main (arguments : List String) : IO UInt32 := do
  match readArguments arguments with
  | .error stop => write stop.response
  | .ok (source, job) => answer source job (← readSource source) 65536
