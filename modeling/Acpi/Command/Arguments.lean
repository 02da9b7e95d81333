/-!
# Arguments of the command line

The command line names one of three commands: `build` writes the table of a description to a file,
`size` prints its size, and `check` verifies a table.  Options stand anywhere: `-v` or `--verbose`
before or behind the command, and `-o FILE`, `-oFILE`, `-o=FILE`, `--output FILE` or
`--output=FILE` behind `build`.  Behind `--` every argument is taken as a file name.

Arguments are read from left to right, and `--help` and `--version` act when they are met.
-/

namespace Acpi.Command

/-- What a command line asks for. -/
inductive Request where
  | build (config output : String)
  | size (config : String)
  | check (table : String)
  deriving DecidableEq, Repr

/-- What a command line comes to. -/
inductive Invocation where
  | run (verbose : Bool) (request : Request)
  | showVersion
  | showHelp
  /-- The arguments make no sense. -/
  | misused
  deriving DecidableEq, Repr

/-- The commands that take files. -/
inductive Verb where
  | build
  | size
  | check
  deriving DecidableEq, Repr

/-- The command of a name. -/
def Verb.ofName? : String → Option Verb
  | "build" => some .build
  | "size" => some .size
  | "check" => some .check
  | _ => none

/-- The form of one argument. -/
inductive Argument where
  /-- Ends the options. -/
  | separator
  /-- An option by name, perhaps with a value behind an equals sign. -/
  | long (name : String) (value : Option String)
  /-- Options by letter. -/
  | short (letters : List Char)
  /-- Anything else. -/
  | word (text : String)
  deriving DecidableEq, Repr

/-- Tells the form of an argument. -/
def Argument.ofString (argument : String) : Argument :=
  match argument.toList with
  | ['-', '-'] => .separator
  | '-' :: '-' :: rest =>
      let name := String.ofList (rest.takeWhile (· != '='))
      match rest.dropWhile (· != '=') with
      | [] => .long name none
      | _ :: value => .long name (some (String.ofList value))
  | '-' :: letter :: letters => .short (letter :: letters)
  | _ => .word argument

/-! ## Behind the command -/

/-- What the arguments behind a command have given so far. -/
structure Given where
  verbose : Bool := false
  output : Option String := none
  /-- The option for the output has been named and its value is still to come. -/
  awaiting : Bool := false
  file : Option String := none
  /-- Options have ended. -/
  literal : Bool := false
  deriving DecidableEq, Repr

namespace Given

/-- Reading an argument either goes on or settles what the command line comes to. -/
abbrev Next := Except Invocation Given

/-- Takes the switch for verbose output, once. -/
def setVerbose (given : Given) : Next :=
  if given.verbose || given.awaiting then .error .misused else .ok { given with verbose := true }

/-- Takes the name of the output, once. -/
def setOutput (given : Given) (value : String) : Next :=
  if value.isEmpty || given.output.isSome then .error .misused
  else .ok { given with output := some value, awaiting := false }

/-- Takes the name of the input, once. -/
def setFile (given : Given) (value : String) : Next :=
  if value.isEmpty || given.file.isSome || given.awaiting then .error .misused
  else .ok { given with file := some value }

/-- Expects the name of the output in the next argument. -/
def awaitOutput (given : Given) : Next :=
  if given.awaiting || given.output.isSome then .error .misused
  else .ok { given with awaiting := true }

/-- Asks for help, unless an option still lacks its value. -/
def help (given : Given) : Next :=
  if given.awaiting then .error .misused else .error .showHelp

/-- Reads options by letter.  The letter for the output takes the rest of the argument as its value,
without a leading equals sign. -/
def letters (verb : Verb) (given : Given) : List Char → Next
  | [] => .ok given
  | 'v' :: rest => do letters verb (← given.setVerbose) rest
  | 'h' :: _ => given.help
  | 'o' :: rest =>
      if verb = .build && !given.awaiting then
        match rest with
        | [] => given.awaitOutput
        | '=' :: value => given.setOutput (String.ofList value)
        | value => given.setOutput (String.ofList value)
      else
        .error .misused
  | _ => .error .misused

/-- Reads one argument behind a command. -/
def step (verb : Verb) (given : Given) (argument : String) : Next :=
  if given.literal then
    given.setFile argument
  else
    match Argument.ofString argument with
    | .separator => .ok { given with literal := true }
    | .long "verbose" none => given.setVerbose
    | .long "help" none => given.help
    | .long "output" value =>
        if verb = .build && !given.awaiting then
          match value with
          | some value => given.setOutput value
          | none => given.awaitOutput
        else
          .error .misused
    | .long _ _ => .error .misused
    | .short letters => given.letters verb letters
    | .word text => if given.awaiting then given.setOutput text else given.setFile text

/-- The request that the arguments make, if nothing is missing. -/
def request? (verb : Verb) (given : Given) : Option Request :=
  if given.awaiting then none
  else
    match verb, given.file, given.output with
    | .build, some config, some output => some (.build config output)
    | .size, some config, _ => some (.size config)
    | .check, some table, _ => some (.check table)
    | _, _, _ => none

end Given

/-- What the arguments behind a command come to. -/
def behindVerb (verbose : Bool) (verb : Verb) (arguments : List String) : Invocation :=
  match arguments.foldlM (Given.step verb) {} with
  | .error invocation => invocation
  | .ok given =>
      match given.request? verb with
      | some request => .run (verbose || given.verbose) request
      | none => .misused

/-- What the arguments behind `help` come to: each must name a command of the one before. -/
def behindHelp : List String → Invocation
  | [] => .showHelp
  | [name] => if name = "help" || (Verb.ofName? name).isSome then .showHelp else .misused
  | _ => .misused

/-! ## In front of the command -/

/-- Reads options by letter in front of the command; whether the switch for verbose output has been
met. -/
def leadingLetters (verbose : Bool) : List Char → Except Invocation Bool
  | [] => .ok verbose
  | 'v' :: rest => if verbose then .error .misused else leadingLetters true rest
  | 'h' :: _ => .error .showHelp
  | 'V' :: _ => .error .showVersion
  | _ => .error .misused

/-- Reads arguments up to the command and what is behind it. -/
def leading (verbose : Bool) : List String → Invocation
  | [] => .misused
  | argument :: rest =>
      match Argument.ofString argument with
      | .long "verbose" none => if verbose then .misused else leading true rest
      | .long "help" none => .showHelp
      | .long "version" none => .showVersion
      | .short letters =>
          match leadingLetters verbose letters with
          | .ok verbose => leading verbose rest
          | .error invocation => invocation
      | .word "help" => behindHelp rest
      | .word name =>
          match Verb.ofName? name with
          | some verb => behindVerb verbose verb rest
          | none => .misused
      | .separator | .long _ _ => .misused

/-- What a command line comes to. -/
def Invocation.ofArguments (arguments : List String) : Invocation := leading false arguments

end Acpi.Command
