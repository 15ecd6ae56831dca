import SwiftOutline.Descriptor.Codec
import SwiftOutline.Grammar.Parse
import SwiftOutline.Json.Printer
import SwiftOutline.Text.Position

/-!
# Failures

Why a request cannot be answered, and the responses in which answers and failures are given.
-/

namespace SwiftOutline

/-- Why a request cannot be answered. -/
inductive Failure where
  | invalidArguments (message : String) (details : Option Json)
  | fileNotFound (path : String)
  | unparsable (file : String) (line column : Nat) (message : String)
  | unreadable (path reason : String)
  | internal (message : String)
deriving Inhabited

/-- The version of the form of responses. -/
def schemaVersion : String := "1"

namespace Failure

/-- The exit code that goes with a failure. -/
def code : Failure → Nat
  | invalidArguments .. => 2
  | fileNotFound .. => 3
  | unparsable .. => 4
  | unreadable .. => 10
  | internal .. => 10

/-- The wording of a failure. -/
def message : Failure → String
  | invalidArguments m _ => "invalid arguments: " ++ m
  | fileNotFound path => "file not found: " ++ path
  | unparsable file line column m =>
    "parse error in " ++ file ++ " at " ++ toString line ++ ":" ++ toString column ++ ": " ++ m
  | unreadable path reason => "io error on " ++ path ++ ": " ++ reason
  | internal m => "internal error: " ++ m

/-- What a failure says beside its message, with fields in the order of their names. -/
def details? : Failure → Option Json
  | invalidArguments _ details => details.map Json.sortKeys
  | fileNotFound path => some (.obj [("path", .str path)])
  | unparsable file line column _ =>
    some (.obj [("col", .nat column), ("file", .str file), ("line", .nat line)])
  | unreadable path _ => some (.obj [("path", .str path)])
  | internal _ => none

/-- A failure as a value. Details that are missing are left out. -/
def info (f : Failure) : Json :=
  .obj ([("code", .nat f.code), ("message", .str f.message)] ++
    (f.details?.map fun d => ("details", d)).toList)

/-- The response to a request that failed. -/
def response (f : Failure) : Json :=
  .obj [("status", .str "error"), ("schema_version", .str schemaVersion), ("error", f.info)]

/-- The failure to parse a file, at the line and column of the error. -/
def ofSourceError (file source : String) (e : ParseError) : Failure :=
  let position := Text.positionAt source e.offset
  unparsable file position.1 position.2 e.message

/-- The failure to parse a type that was given alone. -/
def ofTypeError (source : String) (e : ParseError) : Failure :=
  invalidArguments ("cannot parse type " ++ Text.quoted source ++ ": " ++ e.message)
    (some (.obj [("offset", .nat e.offset)]))

end Failure

/-- The response with the descriptor of a type. -/
def signatureResponse (d : Descriptor) : Json :=
  .obj [("status", .str "ok"), ("schema_version", .str schemaVersion), ("descriptor", d.toJson)]

end SwiftOutline
