import SwiftOutline.Descriptor.Codec
import SwiftOutline.Scan.Settings

/-!
# Command-line arguments

The program has two commands, each with options of its own; the options of the program may stand
before the command or after it. An option has its value behind an equals sign or as the next argument.
-/

namespace SwiftOutline

/-! ## Single arguments -/

/-- How a single argument is read, as long as no argument `--` came before it. -/
inductive Argument where
  /-- The argument `--`, after which there are no options. -/
  | separator
  /-- An option `--name` or `--name=value`. -/
  | long (name : String) (value : Option String)
  /-- An option of letters, as in `-V`. -/
  | short (letters : List Char)
  /-- Anything else, a dash alone included. -/
  | plain (text : String)
deriving DecidableEq, Repr

namespace Argument

def ofString (s : String) : Argument :=
  match s.toList with
  | ['-', '-'] => separator
  | '-' :: '-' :: cs =>
    let name := cs.takeWhile (· != '=')
    match cs.drop name.length with
    | [] => long (String.ofList name) none
    | _ :: value => long (String.ofList name) (some (String.ofList value))
  | '-' :: c :: cs => short (c :: cs)
  | _ => plain s

/-- The value that an option finds in the next argument. -/
def value? (s : String) : Option String :=
  match ofString s with
  | plain text => some text
  | _ => none

end Argument

/-! ## Options and commands -/

/-- What may be wrong with the arguments. -/
inductive UsageError where
  | missingCommand
  | unknownCommand (name : String)
  | unknownOption (option : String)
  | missingValue (option : String)
  | unexpectedValue (option : String)
  | invalidValue (option value : String)
  | repeatedOption (option : String)
  | missingArgument (name : String)
  | unexpectedArgument (argument : String)
deriving DecidableEq, Repr

/-- The wording of a usage error. -/
def UsageError.message : UsageError → String
  | missingCommand => "a command is required"
  | unknownCommand name => "unknown command '" ++ name ++ "'"
  | unknownOption option => "unknown option '" ++ option ++ "'"
  | missingValue option => "option '--" ++ option ++ "' requires a value"
  | unexpectedValue option => "option '--" ++ option ++ "' takes no value"
  | invalidValue option value => "invalid value '" ++ value ++ "' for '" ++ option ++ "'"
  | repeatedOption option => "option '--" ++ option ++ "' is given more than once"
  | missingArgument name => "argument '" ++ name ++ "' is required"
  | unexpectedArgument argument => "unexpected argument '" ++ argument ++ "'"

/-- How a response is written. -/
inductive OutputFormat where
  | json
  | compact
  | summary
deriving DecidableEq, Repr, Inhabited

def OutputFormat.ofName? : String → Option OutputFormat
  | "json" => some json
  | "compact" => some compact
  | "summary" => some summary
  | _ => none

/-- How much is logged. -/
inductive LogLevel where
  | trace
  | debug
  | info
  | warn
  | error
deriving DecidableEq, Repr, Inhabited

def LogLevel.ofName? : String → Option LogLevel
  | "trace" => some trace
  | "debug" => some debug
  | "info" => some info
  | "warn" => some warn
  | "error" => some error
  | _ => none

/-- The options of the program, as far as they are given. -/
structure GlobalOptions where
  format : Option OutputFormat := none
  logLevel : Option LogLevel := none
deriving DecidableEq, Repr, Inhabited

namespace GlobalOptions

/-- Options of the program; all of them have values. -/
def names : List String := ["format", "log-level"]

/-- The value of an option that is given for the first time. -/
def once {α : Type} (name value : String) (old : Option α) (read : String → Option α) :
    Except UsageError (Option α) :=
  match old, read value with
  | some _, _ => .error (.repeatedOption name)
  | none, none => .error (.invalidValue name value)
  | none, some new => .ok (some new)

/-- Takes in an option of the program. -/
def set (g : GlobalOptions) (name value : String) : Except UsageError GlobalOptions :=
  match name with
  | "format" => (once name value g.format OutputFormat.ofName?).map ({ g with format := · })
  | "log-level" => (once name value g.logLevel LogLevel.ofName?).map ({ g with logLevel := · })
  | _ => .error (.unknownOption name)

/-- The options with those that are missing taken from `outer`. -/
def within (inner outer : GlobalOptions) : GlobalOptions where
  format := inner.format <|> outer.format
  logLevel := inner.logLevel <|> outer.logLevel

end GlobalOptions

/-- The natural number below the bound of words that decimal digits stand for; a plus sign may come
before them. -/
def readSize? (s : String) : Option Nat :=
  let digits := match s.toList with
    | '+' :: cs => cs
    | cs => cs
  if digits.isEmpty || !digits.all Char.isDigit then none
  else
    let n := digits.foldl (fun n c => 10 * n + (c.toNat - '0'.toNat)) 0
    if n < wordBound then some n else none

/-- What the program is asked to do. -/
inductive Command where
  | scan (settings : ScanSettings) (paths : List String)
  | signature (type : String)
deriving DecidableEq, Repr

/-- The arguments of a command, as far as they have been read. -/
structure CommandInput where
  globals : GlobalOptions := {}
  flags : List String := []
  extensions : List String := []
  excluded : List String := []
  maxFileSize : Option Nat := none
  positionals : List String := []
deriving DecidableEq, Repr, Inhabited

/-- The shape of a command's arguments. -/
structure CommandShape where
  /-- Options without values. -/
  flags : List String
  /-- Options with values, beside those of the program. -/
  options : List String

namespace CommandShape

def scan : CommandShape where
  flags := ["no-locations", "follow-symlinks"]
  options := ["extension", "exclude", "max-file-size"]

def signature : CommandShape where
  flags := []
  options := []

def hasOption (shape : CommandShape) (name : String) : Bool :=
  GlobalOptions.names.contains name || shape.options.contains name

end CommandShape

namespace CommandInput

/-- Takes in an option without a value. -/
def setFlag (i : CommandInput) (name : String) : Except UsageError CommandInput :=
  if i.flags.contains name then .error (.repeatedOption name)
  else .ok { i with flags := i.flags ++ [name] }

/-- Takes in an option with its value. -/
def setOption (i : CommandInput) (name value : String) : Except UsageError CommandInput :=
  match name with
  | "extension" => .ok { i with extensions := i.extensions ++ [value] }
  | "exclude" => .ok { i with excluded := i.excluded ++ [value] }
  | "max-file-size" =>
    (GlobalOptions.once name value i.maxFileSize readSize?).map ({ i with maxFileSize := · })
  | _ => (i.globals.set name value).map ({ i with globals := · })

/-- Takes in arguments that are no options. -/
def addPositionals (i : CommandInput) (texts : List String) : CommandInput :=
  { i with positionals := i.positionals ++ texts }

/-- Reads the arguments of a command from left to right. -/
def read (shape : CommandShape) (i : CommandInput) : List String → Except UsageError CommandInput
  | [] => .ok i
  | arg :: args =>
    match Argument.ofString arg with
    | .separator => .ok (i.addPositionals args)
    | .plain text => read shape (i.addPositionals [text]) args
    | .short _ => .error (.unknownOption arg)
    | .long name value =>
      if shape.flags.contains name then
        match value with
        | some _ => .error (.unexpectedValue name)
        | none => (i.setFlag name).bind fun i => read shape i args
      else if shape.hasOption name then
        match value, args with
        | some v, args => (i.setOption name v).bind fun i => read shape i args
        | none, [] => .error (.missingValue name)
        | none, next :: args =>
          match Argument.value? next with
          | some v => (i.setOption name v).bind fun i => read shape i args
          | none => .error (.missingValue name)
      else .error (.unknownOption arg)

/-- The settings of a scan. -/
def settings (i : CommandInput) : ScanSettings :=
  let base : ScanSettings :=
    { followLinks := i.flags.contains "follow-symlinks"
      maxFileSize := i.maxFileSize
      includeLocations := !i.flags.contains "no-locations" }
  i.excluded.foldl .addExcluded (i.extensions.foldl .addExtension base)

/-- The scan that is asked for: it has at least one path, and none is empty. -/
def toScan (i : CommandInput) : Except UsageError Command :=
  if i.positionals.isEmpty then .error (.missingArgument "PATHS")
  else if i.positionals.contains "" then .error (.invalidValue "PATHS" "")
  else .ok (.scan i.settings i.positionals)

/-- The signature that is asked for: it has one type. -/
def toSignature (i : CommandInput) : Except UsageError Command :=
  match i.positionals with
  | [] => .error (.missingArgument "TYPE")
  | [type] => .ok (.signature type)
  | _ :: extra :: _ => .error (.unexpectedArgument extra)

end CommandInput

/-! ## All arguments -/

/-- What the arguments ask for. -/
inductive Invocation where
  | version
  | run (options : GlobalOptions) (command : Command)
deriving DecidableEq, Repr

/-- Reads a command with its arguments, under options that came before it. -/
def parseCommand (outer : GlobalOptions) (name : String) (args : List String) :
    Except UsageError Invocation :=
  match name with
  | "scan" => do
    let i ← CommandInput.read .scan {} args
    return .run (i.globals.within outer) (← i.toScan)
  | "signature" => do
    let i ← CommandInput.read .signature {} args
    return .run (i.globals.within outer) (← i.toSignature)
  | _ => .error (.unknownCommand name)

/-- Reads arguments from left to right up to the command. -/
def parseArguments (g : GlobalOptions) : List String → Except UsageError Invocation
  | [] => .error .missingCommand
  | arg :: args =>
    match Argument.ofString arg with
    | .separator => .error .missingCommand
    | .plain name => parseCommand g name args
    | .short ('V' :: _) => .ok .version
    | .short _ => .error (.unknownOption arg)
    | .long "version" none => .ok .version
    | .long "version" (some _) => .error (.unexpectedValue "version")
    | .long name value =>
      if GlobalOptions.names.contains name then
        match value, args with
        | some v, args => (g.set name v).bind fun g => parseArguments g args
        | none, [] => .error (.missingValue name)
        | none, next :: args =>
          match Argument.value? next with
          | some v => (g.set name v).bind fun g => parseArguments g args
          | none => .error (.missingValue name)
      else .error (.unknownOption arg)

end SwiftOutline
