import NestedRegex.Command.Run

namespace NestedRegex.Command

/-- A system error with a number, which some sources give with a minus sign. -/
def numbered (code : UInt32) (details : String) : FileError :=
  match min code.toNat (-code).toNat with
  | 20 => .notDirectory
  | 21 => .isDirectory
  | 28 => .noSpace
  | 36 => .nameTooLong
  | number => .other (details ++ " (os error " ++ number.repr ++ ")")

/-- A system error as a file error. -/
def fileError : IO.Error → FileError
  | .noFileOrDirectory .. => .notFound
  | .permissionDenied .. => .permissionDenied
  | .otherError code details | .inappropriateType _ code details
  | .resourceExhausted _ code details | .invalidArgument _ code details => numbered code details
  | e => .other (toString e)

/-- An action whose error is a file error. -/
def attempted (action : IO α) : IO (Except FileError α) := do
  match ← action.toBaseIO with
  | .ok a => return .ok a
  | .error e => return .error (fileError e)

/-- All bytes of a stream. -/
partial def readAll (stream : IO.FS.Stream) (before : ByteArray) : IO ByteArray := do
  let chunk ← stream.read 65536
  if chunk.isEmpty then return before else readAll stream (before ++ chunk)

/-- The surroundings of a running program. -/
def system : Host IO where
  readInput := return (← attempted (do readAll (← IO.getStdin) ByteArray.empty)) >>= decode
  readFile path := return (← attempted (IO.FS.readBinFile path)) >>= decode
  writeFile path text := attempted (IO.FS.writeFile path text)

end NestedRegex.Command

def main (arguments : List String) : IO UInt32 := do
  let reply ← NestedRegex.Command.run NestedRegex.Command.system arguments
  IO.print reply.output
  IO.eprint reply.errors
  return reply.code.toUInt32
