import SwiftOutline.Scan.FileSystem

/-!
# Settings of a scan
-/

namespace SwiftOutline

/-- Directories that hold no sources of one's own. -/
def defaultExcluded : List String :=
  [".git", ".hg", ".svn", ".build", ".swiftpm", "build", "DerivedData", "Pods", "Carthage",
   "node_modules", "target", "*.xcassets"]

/-- What a scan takes into account. -/
structure ScanSettings where
  /-- Extensions of source files, without the dot. -/
  extensions : List String := ["swift"]
  /-- Names of directories to pass over; one that begins with a star stands for all names that end in
  the rest. -/
  excluded : List String := defaultExcluded
  followLinks : Bool := false
  /-- Files with more bytes are passed over. -/
  maxFileSize : Option Nat := none
  includeLocations : Bool := true
deriving DecidableEq, Repr, Inhabited

namespace ScanSettings

/-- Adds an extension, without the dots at its start. -/
def addExtension (s : ScanSettings) (ext : String) : ScanSettings :=
  { s with extensions := s.extensions ++ [String.ofList (ext.toList.dropWhile (· == '.'))] }

/-- Adds a directory to pass over. -/
def addExcluded (s : ScanSettings) (name : String) : ScanSettings :=
  { s with excluded := s.excluded ++ [name] }

/-- A directory of this name is passed over. -/
def excludes (s : ScanSettings) (name : String) : Bool :=
  s.excluded.any fun pattern =>
    match pattern.toList with
    | '*' :: ending => ending.isSuffixOf name.toList
    | exact => name.toList == exact

/-- A file of this name that is found in a directory is a source file. -/
def includes (s : ScanSettings) (name : String) : Bool :=
  (extension? name).any s.extensions.contains

end ScanSettings

end SwiftOutline
