/-!
# File systems

What a scan asks about files, all of it by path. The answers do not change while a scan goes on. Trees of
files without links are file systems.
-/

namespace SwiftOutline

/-- What there is in directories. A link is followed to another entry, or to nothing. -/
inductive EntryKind where
  | file
  | directory
  | link
  | other
deriving DecidableEq, Repr

/-- What a path names in the end, where it leads through links. -/
structure FileStatus where
  kind : EntryKind
  size : Nat
  /-- The path itself names a link. -/
  isLink : Bool
deriving DecidableEq, Repr

/-- An entry in the list of a directory, which does not follow links. -/
structure DirectoryEntry where
  name : String
  kind : EntryKind
  named : name ≠ ""

/-- The entry of this name. What has no name is nothing that is looked at. -/
def DirectoryEntry.ofName (name : String) (kind : EntryKind) : DirectoryEntry :=
  if h : name = "" then ⟨"?", .other, by decide⟩ else ⟨name, kind, h⟩

/-- Why a walk through directories cannot go on: something about a path could not be found out, or a
link leads back to a directory that the walk is in. -/
inductive WalkError where
  | failed (path : Option String) (reason : String)
  | loop (path ancestor : String)
deriving DecidableEq, Repr

/-- The reason why nothing can be found out about a path beyond the limit. -/
def tooLongText : String := "File name too long (os error 36)"

namespace WalkError

def tooLong (path : String) : WalkError := .failed (some path) tooLongText

/-- The path at which the walk ends. -/
def path : WalkError → String
  | failed path _ => path.getD ""
  | loop path _ => path

/-- The wording of the error. -/
def message : WalkError → String
  | failed none reason => reason
  | failed (some path) reason => "IO error for operation on " ++ path ++ ": " ++ reason
  | loop path ancestor =>
    "File system loop found: " ++ path ++ " points to an ancestor " ++ ancestor

end WalkError

/-- Files by their paths. Each question about a path may fail, with a reason. -/
structure FileSystem where
  status : String → Except String FileStatus
  /-- The entries of a directory, in any order. -/
  entries : String → Except WalkError (List DirectoryEntry)
  read : String → Except String ByteArray
  /-- A text that tells files apart, and that is the same for all paths to one file. -/
  identify : String → Except String String

/-- A path has at most this many bytes. -/
def pathLimit : Nat := 4095

/-- The path of an entry of a directory. -/
def joinPath (directory name : String) : String :=
  if directory.endsWith "/" then directory ++ name else directory ++ "/" ++ name

theorem le_utf8ByteSize_joinPath (directory name : String) :
    directory.utf8ByteSize + name.utf8ByteSize ≤ (joinPath directory name).utf8ByteSize := by
  unfold joinPath
  split <;> simp only [String.utf8ByteSize_append] <;> omega

/-- What has a name has a longer path than its directory. -/
theorem utf8ByteSize_lt_joinPath (directory : String) {name : String} (h : name ≠ "") :
    directory.utf8ByteSize < (joinPath directory name).utf8ByteSize := by
  have hname : name.utf8ByteSize ≠ 0 := fun hzero => h (String.utf8ByteSize_eq_zero_iff.mp hzero)
  have hle := le_utf8ByteSize_joinPath directory name
  omega

/-- What follows the last dot of a name. A dot at the start alone makes no extension. -/
def extension? (name : String) : Option String :=
  let reversed := name.toList.reverse
  let tail := reversed.takeWhile (· != '.')
  match reversed.drop tail.length with
  | [] | [_] => none
  | _ => some (String.ofList tail.reverse)

/-! ## Trees of files -/

/-- A file with its bytes, or a directory with named entries. -/
inductive FileTree where
  | file (contents : ByteArray)
  | directory (entries : List (String × FileTree))
deriving Inhabited

/-- Why a path names nothing: there is no such entry, the path goes on behind a file, the path or a
name in it is too long, or it holds the character that ends a path for the system. -/
inductive PathError where
  | missing
  | notDirectory
  | tooLong
  | nulCharacter
deriving DecidableEq, Repr

/-- The wording of a path error. -/
def PathError.message : PathError → String
  | missing => "No such file or directory (os error 2)"
  | notDirectory => "Not a directory (os error 20)"
  | tooLong => tooLongText
  | nulCharacter => "file name contained an unexpected NUL byte"

/-- What stands between the slashes of a path. -/
def components (path : String) : List String := (path.toList.splitOn '/').map String.ofList

namespace FileTree

/-! ## Building trees -/

/-- The entries with the one of a given name replaced, or with a new one at the end. -/
def setEntry (name : String) (t : FileTree) : List (String × FileTree) → List (String × FileTree)
  | [] => [(name, t)]
  | (key, old) :: entries =>
    if key == name then (key, t) :: entries else (key, old) :: setEntry name t entries

/-- Puts a tree at a path given by its components, with all directories on the way. What stands at
the path is replaced, but a directory is not emptied by putting an empty one there. -/
def insert (new : FileTree) : List String → FileTree → FileTree
  | [], old =>
    match new, old with
    | .directory [], .directory _ => old
    | _, _ => new
  | c :: cs, .directory entries =>
    .directory (setEntry c (insert new cs ((entries.lookup c).getD (.directory []))) entries)
  | c :: cs, .file _ => .directory [(c, insert new cs (.directory []))]

/-! ## Paths -/

/-- A name in a path has at most this many bytes. -/
def nameLimit : Nat := 255

/-- What the components of a path name, from a directory that lies below `above`. A component that is
empty or a dot stays at a directory, and two dots lead to the directory above. -/
def resolve (above : List FileTree) (t : FileTree) : List String → Except PathError FileTree
  | [] => .ok t
  | c :: cs =>
    match t with
    | .file _ => .error .notDirectory
    | .directory entries =>
      if c == "" || c == "." then resolve above t cs
      else if c == ".." then
        match above with
        | [] => .error .missing
        | parent :: above => resolve above parent cs
      else if nameLimit < c.utf8ByteSize then .error .tooLong
      else
        match entries.lookup c with
        | none => .error .missing
        | some entry => resolve (t :: above) entry cs

/-- What a path names, seen from a directory. The empty path names nothing, and paths from the root
lead out of the tree. -/
def find (t : FileTree) (path : String) : Except PathError FileTree :=
  if path.toList.contains '\x00' then .error .nulCharacter
  else if pathLimit < path.utf8ByteSize then .error .tooLong
  else if path.toList.head?.all (· == '/') then .error .missing
  else resolve [] t (components path)

/-! ## The file system of a tree -/

def kind : FileTree → EntryKind
  | .file _ => .file
  | .directory _ => .directory

/-- The number of bytes of a file. -/
def size : FileTree → Nat
  | .file contents => contents.size
  | .directory _ => 0

/-- The entries of a directory. -/
def list (entries : List (String × FileTree)) : List DirectoryEntry :=
  entries.map fun e => .ofName e.1 e.2.kind

/-- The names that components lead through in the end, the last one first. -/
def canonical (cs : List String) : List String :=
  cs.foldl (fun names c =>
    if c == "" || c == "." then names else if c == ".." then names.tail else c :: names) []

/-- The files of a tree by the paths from its root. -/
def lookup (t : FileTree) : FileSystem where
  status path := ((t.find path).map fun u => ⟨u.kind, u.size, false⟩).mapError PathError.message
  entries path :=
    match t.find path with
    | .error e => .error (.failed (some path) e.message)
    | .ok (.file _) => .error (.failed (some path) PathError.notDirectory.message)
    | .ok (.directory entries) => .ok (list entries)
  read path :=
    match t.find path with
    | .error e => .error e.message
    | .ok (.directory _) => .error "Is a directory (os error 21)"
    | .ok (.file contents) => .ok contents
  identify path :=
    ((t.find path).map fun _ => "/".intercalate (canonical (components path))).mapError PathError.message

end FileTree

end SwiftOutline
