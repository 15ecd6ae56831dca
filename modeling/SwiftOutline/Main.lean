import SwiftOutline.Command.Run

/-!
# The command line

Looks at the files that a command asks about, runs it, and prints its outcome.
-/

namespace SwiftOutline

/-- What was found out about a path. -/
structure PathRecord where
  status : Except String FileStatus
  entries : Except WalkError (List DirectoryEntry)
  contents : Except String ByteArray
  identity : Except String String

/-- Nothing is known of the path. -/
def PathRecord.unknown (path : String) : PathRecord :=
  let reason := PathError.missing.message
  ⟨.error reason, .error (.failed (some path) reason), .error reason, .error reason⟩

def EntryKind.ofType : IO.FS.FileType → EntryKind
  | .file => .file
  | .dir => .directory
  | .symlink => .link
  | .other => .other

/-- The outcome of a look at a file, with the wording of its error. -/
def attempt {α : Type} (look : IO α) : IO (Except String α) :=
  return (← look.toBaseIO).mapError toString

/-- Finds out what there is to know of a path. Only files are read. -/
def lookAt (path : String) : IO PathRecord := do
  let place := (IO.FS.DirEntry.mk path "").root
  let status ← attempt do
    let data ← place.metadata
    let isLink := (← place.symlinkMetadata).type == .symlink
    return ⟨.ofType data.type, data.byteSize.toNat, isLink⟩
  let entries ← attempt do
    (← place.readDir).toList.mapM fun e =>
      return .ofName e.fileName (.ofType (← e.path.symlinkMetadata).type)
  let isFile := status.toOption.any (·.kind == .file)
  let contents ← attempt (if isFile then IO.FS.readBinFile path else throw (.userError "no file"))
  let identity ← attempt (return toString (← IO.FS.realPath path))
  return ⟨status, entries.mapError (.failed (some path)), contents, identity⟩

/-- What a walk from a path may ask about, with all that it goes through. -/
partial def gather (followLinks : Bool) (above : List String) (path : String) :
    IO (List (String × PathRecord)) := do
  let r ← lookAt path
  let identity := r.identity.toOption.getD path
  if above.contains identity then return [(path, r)]
  let below ← (r.entries.toOption.getD []).mapM fun e =>
    if e.kind == .link && !followLinks then return []
    else gather followLinks (identity :: above) (joinPath path e.name)
  return (path, r) :: below.flatten

/-- The files that an invocation looks at. -/
def readFiles (invocation : Invocation) : IO FileSystem := do
  let known ← match invocation with
    | .run _ (.scan settings paths) => paths.mapM (gather settings.followLinks [])
    | _ => pure []
  let record path := (known.flatten.lookup path).getD (.unknown path)
  return ⟨fun p => (record p).status, fun p => (record p).entries, fun p => (record p).contents,
    fun p => (record p).identity⟩

end SwiftOutline

open SwiftOutline

def main (args : List String) : IO UInt32 := do
  match parseArguments {} args with
  | .error e =>
    IO.eprintln ("error: " ++ e.message)
    return 2
  | .ok invocation =>
    let outcome := invocation.outcome (← readFiles invocation)
    IO.print outcome.output
    return outcome.exitCode.toUInt32
