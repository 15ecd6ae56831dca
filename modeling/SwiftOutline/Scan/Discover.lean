import SwiftOutline.Failure
import SwiftOutline.Scan.Settings

/-!
# Finding source files

Paths that are given stand for themselves if they are files, and for the source files below them if
they are directories. A directory that cannot be listed ends the search.
-/

namespace SwiftOutline

/-- A file that was found, by the path under which it was found. -/
structure SourceFile where
  path : String
deriving DecidableEq, Repr, Inhabited

/-- The failure of a walk that cannot go on. -/
def WalkError.failure (e : WalkError) : Failure :=
  .internal ("failed to walk " ++ e.path ++ ": " ++ e.message)

namespace FileSystem

variable (fs : FileSystem) (s : ScanSettings)

/-- Fails if the path leads back to one of the directories that the walk is in, nearest first. -/
def checkLoop (above : List String) (path : String) : Except WalkError Unit := do
  let identity ← (fs.identify path).mapError (.failed none)
  above.forM fun ancestor => do
    if (← (fs.identify ancestor).mapError (.failed none)) == identity then
      throw (.loop path ancestor)

/-- What the walk takes an entry for, which is at `path` inside the directories `above`. A link is
what it leads to if links are followed. -/
def follow (above : List String) (path : String) (kind : EntryKind) :
    Except WalkError EntryKind :=
  if s.followLinks && kind == .link then do
    let status ← (fs.status path).mapError (.failed (some path))
    if status.kind == .directory then fs.checkLoop above path
    return status.kind
  else .ok kind

/-- The source file of this name at `path`, unless it is too large. -/
def take (path name : String) : Except Failure (List SourceFile) :=
  if !s.includes name then .ok []
  else
    match s.maxFileSize with
    | none => .ok [⟨path⟩]
    | some limit =>
      match fs.status path with
      | .error reason => .error (.internal (WalkError.failed (some path) reason).message)
      | .ok status => .ok (if status.size ≤ limit then [⟨path⟩] else [])

/-- The source files at an entry of the directory at `path`, which lies in the directories `above`. If
the entry is a directory that is not passed over, they are found by `descend`. -/
def visit (above : List String) (path : String) (e : DirectoryEntry)
    (descend : Unit → Except Failure (List SourceFile)) : Except Failure (List SourceFile) :=
  match fs.follow s (path :: above) (joinPath path e.name) e.kind with
  | .error error => .error error.failure
  | .ok .directory => if s.excludes e.name then .ok [] else descend ()
  | .ok .file => fs.take s (joinPath path e.name) e.name
  | .ok _ => .ok []

/-- The source files below the directory at `path`, which lies in the directories `above`: depth
first, with the entries of each directory in the order of their names. -/
def walk (above : List String) (path : String) : Except Failure (List SourceFile) :=
  if path.utf8ByteSize ≤ pathLimit then
    match fs.entries path with
    | .error e => .error e.failure
    | .ok entries =>
      ((entries.mergeSort fun a b => a.name ≤ b.name).mapM fun e =>
        fs.visit s above path e fun _ => walk (path :: above) (joinPath path e.name)).map List.flatten
  else .error (WalkError.tooLong path).failure
termination_by pathLimit + 1 - path.utf8ByteSize
decreasing_by
  have := utf8ByteSize_lt_joinPath path e.named
  omega

end FileSystem

/-- The source files that one path stands for. A link is followed here in any case. -/
def discoverAt (fs : FileSystem) (s : ScanSettings) (path : String) :
    Except Failure (List SourceFile) :=
  match fs.status path with
  | .error _ => .error (.fileNotFound path)
  | .ok status =>
    if status.kind == .file then .ok [⟨path⟩]
    else
      match fs.follow s [] path (if status.isLink then .link else status.kind) with
      | .error error => .error error.failure
      | .ok _ => if status.kind == .directory then fs.walk s [] path else .ok []

/-- The source files for a list of paths, path by path. The first path that names nothing, or below
which the walk fails, ends the search. -/
def discover (fs : FileSystem) (s : ScanSettings) (paths : List String) :
    Except Failure (List SourceFile) :=
  (paths.mapM (discoverAt fs s)).map List.flatten

end SwiftOutline
