import SwiftOutline.Declaration.Codec
import SwiftOutline.Declaration.Collect
import SwiftOutline.Scan.Discover

/-!
# Scanning

All files that are found are outlined. A file that cannot be read or parsed is reported and does not
hold up the others.
-/

namespace SwiftOutline

/-! ## One file -/

/-- The outline of one file. -/
structure ScannedFile where
  path : String
  outline : Outline
deriving DecidableEq, Inhabited

namespace ScannedFile

def toJson (f : ScannedFile) : Json :=
  .obj [("path", .str f.path), ("declarations", f.outline.toJson)]

/-- How many records there are of each sort, without the sorts that have none. -/
def summaryLine (f : ScannedFile) : String :=
  let counted := DeclarationKind.all.filter fun k => 0 < f.outline.count k
  let counts := counted.map fun k => toString (f.outline.count k) ++ " " ++ k.label
  f.path ++ ": " ++ (if counts.isEmpty then "no declarations" else ", ".intercalate counts)

end ScannedFile

/-- The outline of the file at a path, whatever its extension. -/
def scanFile (fs : FileSystem) (s : ScanSettings) (path : String) : Except Failure ScannedFile :=
  match fs.read path with
  | .error reason => .error (.unreadable path reason)
  | .ok contents =>
    match String.fromUTF8? contents with
    | none => .error (.unreadable path "stream did not contain valid UTF-8")
    | some source =>
      match parseSource source with
      | .error e => .error (.ofSourceError path source e)
      | .ok tree =>
        let located := if s.includeLocations then some source else none
        .ok ⟨path, (Place.root tree).collect.locate located⟩

/-! ## Many files -/

/-- The outcome of a scan. -/
structure ScanReport where
  /-- The files that were outlined, in the order of their paths. -/
  files : List ScannedFile
  /-- Why the other files could not be, in the order in which they were found. -/
  failures : List Failure
deriving Inhabited

namespace ScanReport

/-- The report on the outcomes for files, in the order in which they were found. -/
def ofOutcomes (outcomes : List (Except Failure ScannedFile)) : ScanReport where
  files :=
    (outcomes.filterMap Except.toOption).mergeSort fun a b => a.path ≤ b.path
  failures :=
    outcomes.filterMap fun
      | .error f => some f
      | .ok _ => none

/-- The report on files, in the order in which they were found. -/
def ofFiles (fs : FileSystem) (s : ScanSettings) (files : List SourceFile) : ScanReport :=
  ofOutcomes (files.map fun f => scanFile fs s f.path)

/-- There were files, and none could be outlined. -/
def allFailed (r : ScanReport) : Bool := r.files.isEmpty && !r.failures.isEmpty

/-- The number of records of all files. -/
def declarationCount (r : ScanReport) : Nat :=
  (r.files.flatMap (·.outline.allHeaders)).length

/-- The exit code for a scan: that of the first failure if there is no file without one. -/
def exitCode (r : ScanReport) : Nat :=
  match r.failures with
  | first :: _ => if r.allFailed then first.code else 0
  | [] => 0

/-- The response to a scan. -/
def response (r : ScanReport) : Json :=
  .obj
    [("status", .str (if r.allFailed then "error" else "ok")),
     ("schema_version", .str schemaVersion),
     ("files", .list ScannedFile.toJson r.files),
     ("errors", .list Failure.info r.failures)]

/-- The summary of a scan: a line for each file, a line for each failure, and a line of totals. -/
def summary (r : ScanReport) : String :=
  let total :=
    toString r.files.length ++ " files, " ++ toString r.declarationCount ++ " declarations, " ++
      toString r.failures.length ++ " errors"
  String.join ((r.files.map ScannedFile.summaryLine ++
    r.failures.map (fun f => "error: " ++ f.message) ++ [total]).map (· ++ "\n"))

end ScanReport

/-- Outlines all source files for a list of paths. -/
def scan (fs : FileSystem) (s : ScanSettings) (paths : List String) :
    Except Failure ScanReport :=
  (discover fs s paths).map (ScanReport.ofFiles fs s)

end SwiftOutline
