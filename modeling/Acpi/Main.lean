import Acpi.Command.Run

/-!
# The program

The outermost layer: files on the disk, arguments, standard output and the exit code.
-/

namespace Acpi.Command

/-- The number of a system error, which some operations give negated. -/
def errorNumber (code : UInt32) : UInt32 := if code < 0x80000000 then code else 0 - code

/-- The cause with the given number, or else in the words of the system. -/
def FileError.ofNumber (number : UInt32) (words : String) : FileError :=
  match number with
  | 2 => .notFound
  | 13 => .denied
  | 20 => .notDirectory
  | 21 => .isDirectory
  | 36 => .nameTooLong
  | _ => .other words

/-- The cause of a failure on the disk. -/
def FileError.ofSystem (error : IO.Error) : FileError :=
  match error with
  | .noFileOrDirectory _ code _ | .permissionDenied _ code _ | .inappropriateType _ code _
  | .invalidArgument _ code _ => .ofNumber (errorNumber code) (toString error)
  | _ => .other (toString error)

/-- The files on the disk. -/
def disk : Files IO where
  read path := do
    match ← (IO.FS.readBinFile path).toBaseIO with
    | .ok bytes => return .ok bytes
    | .error error => return .error (.ofSystem error)
  write path bytes := do
    match ← (IO.FS.writeBinFile path bytes).toBaseIO with
    | .ok () => return .ok ()
    | .error error => return .error (.ofSystem error)

end Acpi.Command

/-- Runs the program. -/
def main (arguments : List String) : IO UInt32 := do
  let ending ← Acpi.Command.run Acpi.Board.Description.ofToml? Acpi.Command.disk arguments
  IO.print ending.output
  match ending.failure with
  | some failure => IO.eprintln (Acpi.Command.Failure.report failure.chain)
  | none => pure ()
  return ending.exitCode.toUInt32
