import SwiftOutline.Command.Arguments
import SwiftOutline.Descriptor.Summary
import SwiftOutline.Scan.Report

/-!
# Running commands

What the program prints for its arguments, given a view of the files.
-/

namespace SwiftOutline

/-- An exit code with what is printed. -/
structure Outcome where
  exitCode : Nat
  output : String
deriving DecidableEq, Repr, Inhabited

/-- The name and the version of the program. -/
def versionText : String := "declkit 0.1.0"

/-- A response on a line of its own. -/
def compactText (j : Json) : String := j.compact ++ "\n"

/-- A response over several lines. -/
def prettyText (j : Json) : String := j.pretty ++ "\n"

/-- Writes a response or its summary. -/
def OutputFormat.write (format : OutputFormat) (response : Json) (summary : String) : String :=
  match format with
  | .json => prettyText response
  | .compact => compactText response
  | .summary => summary

/-- The outcome of a failure, which is written in the same way in all formats. -/
def Failure.outcome (f : Failure) : Outcome := ⟨f.code, prettyText f.response⟩

/-- The outcome of a scan. -/
def ScanReport.outcome (format : OutputFormat) (r : ScanReport) : Outcome :=
  ⟨r.exitCode, format.write r.response r.summary⟩

/-- The descriptor of a type that was given alone. -/
def describeType (source : String) : Except Failure Descriptor :=
  (decomposeType source).mapError (Failure.ofTypeError source)

namespace Command

/-- The outcome of a command. -/
def run (fs : FileSystem) (format : OutputFormat) : Command → Outcome
  | scan settings paths =>
    match SwiftOutline.scan fs settings paths with
    | .error f => f.outcome
    | .ok report => report.outcome format
  | signature type =>
    match describeType type with
    | .error f => f.outcome
    | .ok d => ⟨0, format.write (signatureResponse d) d.summary⟩

end Command

/-- The outcome of what the arguments ask for. -/
def Invocation.outcome (fs : FileSystem) : Invocation → Outcome
  | .version => ⟨0, versionText ++ "\n"⟩
  | .run options command => command.run fs (options.format.getD .json)

/-- The outcome of a call of the program. Arguments that cannot be read print nothing. -/
def runProgram (fs : FileSystem) (args : List String) : Outcome :=
  match parseArguments {} args with
  | .error _ => ⟨2, ""⟩
  | .ok invocation => invocation.outcome fs

end SwiftOutline
