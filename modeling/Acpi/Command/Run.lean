import Acpi.Board.Decode
import Acpi.Board.Tree
import Acpi.Command.Arguments
import Acpi.Command.Files
import Acpi.Table.Check
import Acpi.Table.Write
import Acpi.Utf8

/-!
# Running a command

`size` and `build` read a description and turn it into a tree; `size` prints the bytes that its
table needs and `build` writes the table to a file.  `check` reads a table and prints a line about
it.  A command gives the text for standard output, or the cause of its failure.  The notation of
descriptions is left to a reader.
-/

namespace Acpi.Command

/-- Why a command has failed. -/
inductive Failure where
  | read (path : String) (cause : FileError)
  | parse (path : String) (cause : Board.ParseError)
  | build (cause : Board.BuildError)
  | size (cause : EncodeError)
  | serialize (cause : EncodeError)
  /-- The table that was written is not as long as it was measured to be. -/
  | disagreement (written required : Nat)
  | write (path : String) (cause : FileError)
  | check (cause : Table.CheckError)
  deriving DecidableEq, Repr

namespace Failure

/-- The wording of a failure, one line per level, the outermost first. -/
def chain : Failure → List String
  | .read path cause => ["failed to read " ++ path, cause.message]
  | .parse path cause => ["failed to parse " ++ path, cause.message]
  | .build cause => cause.chain
  | .size cause => ["failed to size table", cause.message]
  | .serialize cause => ["failed to serialize table", cause.message]
  | .disagreement written required =>
      ["serializer wrote " ++ Nat.repr written ++ " bytes, expected " ++ Nat.repr required]
  | .write path cause => ["failed to write " ++ path, cause.message]
  | .check cause => [cause.message]

/-- A text with the lines behind the first moved to the right. -/
def indented (indent : String) (text : String) : String :=
  String.ofList (text.toList.flatMap fun c => if c = '\n' then '\n' :: indent.toList else [c])

/-- One numbered cause; the number takes five places. -/
def numbered (number : Nat) (cause : String) : String :=
  let digits := Nat.repr number
  String.ofList (List.replicate (5 - digits.length) ' ') ++ digits ++ ": " ++
    indented "       " cause

/-- The numbered lines of several causes. -/
def numberedFrom (number : Nat) : List String → List String
  | [] => []
  | cause :: causes => numbered number cause :: numberedFrom (number + 1) causes

/-- The report of a failure: what failed, and under it the causes, numbered if there are several. -/
def report : List String → String
  | [] => "Error: "
  | [outermost] => "Error: " ++ outermost
  | [outermost, cause] => "Error: " ++ outermost ++ "\n\nCaused by:\n    " ++ indented "    " cause
  | outermost :: causes =>
      "Error: " ++ outermost ++ "\n\nCaused by:\n" ++ "\n".intercalate (numberedFrom 0 causes)

end Failure

/-! ## Commands -/

/-- The tree of a description. -/
def treeOf (reader : Board.Reader) (path : String) (contents : Except FileError ByteArray) :
    Except Failure Node := do
  let bytes ← contents.mapError (.read path)
  let text ← match String.fromUTF8? bytes with
    | some text => pure text
    | none => throw (.read path .notText)
  let description ← (Board.Description.parse reader text).mapError (.parse path)
  description.node.mapError .build

/-- The bytes that the table of a tree needs. -/
def required (node : Node) : Except Failure Nat := (Table.query node).1.mapError .size

/-- The finished table of a tree. -/
def tableOf (node : Node) : Except Failure ByteArray := do
  let total ← required node
  let outcome := Table.write node (Bytes.fill total 0)
  let written ← outcome.result.mapError .serialize
  if written = total then return outcome.buffer else throw (.disagreement written total)

/-- The line about a sound table. -/
def checkLine (header : Header) : String :=
  Utf8.decodeLossy header.signature.toList ++ ": " ++ Nat.repr header.length.toNat ++
    " bytes, revision " ++ Nat.repr header.revision.toNat ++ ", checksum ok\n"

variable {m : Type → Type} [Monad m]

/-- Runs a command on some files and gives what it prints. -/
def Request.run (reader : Board.Reader) (files : Files m) : Request → m (Except Failure String)
  | .build config output => do
      match treeOf reader config (← files.read config) >>= tableOf with
      | .error failure => return .error failure
      | .ok table =>
          match ← files.write output table with
          | .error cause => return .error (.write output cause)
          | .ok () => return .ok ""
  | .size config => do
      match treeOf reader config (← files.read config) >>= required with
      | .error failure => return .error failure
      | .ok total => return .ok (Nat.repr total ++ "\n")
  | .check table => do
      match ← files.read table with
      | .error cause => return .error (.read table cause)
      | .ok bytes =>
          match Table.check bytes with
          | .error cause => return .error (.check cause)
          | .ok header => return .ok (checkLine header)

/-- How a run of the program ends. -/
structure Ending where
  exitCode : UInt8
  output : String
  failure : Option Failure
  deriving DecidableEq, Repr

/-- The name and version of the program. -/
def versionLine : String := "ssdtgen 0.1.0\n"

/-- How the program is used. -/
def helpText : String :=
  "Build ACPI SSDT tables from TOML device descriptions\n\n" ++
  "Usage: ssdtgen [OPTIONS] <COMMAND>\n\n" ++
  "Commands:\n" ++
  "  build  Serialize the described table to an AML file\n" ++
  "  size   Print the size in bytes of the described table\n" ++
  "  check  Verify the length and checksum of an existing table\n" ++
  "  help   Print this message or the help of the given subcommand(s)\n\n" ++
  "Options:\n" ++
  "  -v, --verbose  Enable debug logging\n" ++
  "  -h, --help     Print help\n" ++
  "  -V, --version  Print version\n"

/-- Runs the program on its arguments. -/
def run (reader : Board.Reader) (files : Files m) (arguments : List String) : m Ending :=
  match Invocation.ofArguments arguments with
  | .misused => return ⟨2, "", none⟩
  | .showHelp => return ⟨0, helpText, none⟩
  | .showVersion => return ⟨0, versionLine, none⟩
  | .run _ request => do
      match ← request.run reader files with
      | .ok output => return ⟨0, output, none⟩
      | .error failure => return ⟨1, "", some failure⟩

end Acpi.Command
