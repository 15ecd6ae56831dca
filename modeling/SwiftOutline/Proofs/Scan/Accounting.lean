import SwiftOutline.Command.Run
import SwiftOutline.Proofs.Json.Reading
import SwiftOutline.Proofs.Token.Refused

/-!
# `Accounting` — a scan accounts for every file

A scan fails as a whole at the first path that names nothing, or below which a directory cannot be
walked. Otherwise every file that was found ends up in one of the two lists of the report. The exit code
and the status of the response are computed apart from each other and from different views of the report;
both say the same, that files were found and that none could be outlined.
-/

namespace SwiftOutline

open List

/-! ## One search after another -/

theorem mapM_eq_ok {α β ε : Type} {f : α → Except ε β} {g : α → β} {l : List α}
    (h : ∀ a ∈ l, f a = .ok (g a)) : l.mapM f = .ok (l.map g) := by
  induction l with
  | nil => rfl
  | cons a l ih =>
    rw [mapM_cons, h a mem_cons_self, ih fun a ha => h a (mem_cons_of_mem _ ha)]
    rfl

/-- Searches that fail as a whole fail at one item. -/
theorem exists_mem_of_mapM_eq_error {α β ε : Type} {f : α → Except ε β} {l : List α} {e : ε}
    (h : l.mapM f = .error e) : ∃ a ∈ l, f a = .error e := by
  induction l with
  | nil => cases h
  | cons a l ih =>
    rw [mapM_cons] at h
    cases ha : f a with
    | error e' =>
      rw [ha] at h
      cases h
      exact ⟨a, mem_cons_self, ha⟩
    | ok b =>
      rw [ha] at h
      cases hl : l.mapM f with
      | error e' =>
        rw [hl] at h
        cases h
        obtain ⟨a', hmem, ha'⟩ := ih hl
        exact ⟨a', mem_cons_of_mem _ hmem, ha'⟩
      | ok bs =>
        rw [hl] at h
        cases h

/-! ## Walks that fail -/

namespace FileSystem

/-- The path names nothing. -/
def lacks (fs : FileSystem) (path : String) : Bool := (fs.status path).toOption.isNone

/-- The directory at the path is listed with the entry. -/
def HasEntry (fs : FileSystem) (path : String) (e : DirectoryEntry) : Prop :=
  ∃ es, fs.entries path = .ok es ∧ e ∈ es

/-- What ends a walk at a directory: its list cannot be had, an entry of it cannot be followed or looked
at, or the walk ends at a directory below it that is not excluded. -/
inductive WalkFails (fs : FileSystem) (s : ScanSettings) : List String → String → Failure → Prop
  | long (h : pathLimit < path.utf8ByteSize) : WalkFails fs s above path (WalkError.tooLong path).failure
  | list (h : fs.entries path = .error e) : WalkFails fs s above path e.failure
  | follow (hentry : fs.HasEntry path e) (h :
    fs.follow s (path :: above) (joinPath path e.name) e.kind = .error w) :
      WalkFails fs s above path w.failure
  | size (hentry : fs.HasEntry path e) (hname : s.includes e.name = true) (hsize : s.maxFileSize ≠ none)
      (h : fs.status (joinPath path e.name) = .error reason) :
      WalkFails fs s above path (.internal (WalkError.failed (some (joinPath path e.name)) reason).message)
  | inside (hentry : fs.HasEntry path e) (hname : s.excludes e.name = false)
      (hfollow : fs.follow s (path :: above) (joinPath path e.name) e.kind = .ok .directory)
      (h : WalkFails fs s (path :: above) (joinPath path e.name) f) : WalkFails fs s above path f

variable {fs : FileSystem} {s : ScanSettings}

variable {path : String} {above : List String} {f : Failure}

/-- A directory that can be listed is walked entry by entry. -/
theorem walk_of_entries {es : List DirectoryEntry} (hroom : path.utf8ByteSize ≤ pathLimit)
    (h : fs.entries path = .ok es) (above : List String) :
    fs.walk s above path = ((es.mergeSort fun a b => a.name ≤ b.name).mapM fun e =>
      fs.visit s above path e fun _ => fs.walk s (path :: above) (joinPath path e.name)).map
        List.flatten := by
  rw [walk, if_pos hroom, h]

/-- Whatever ends a walk, it is an internal error. -/
theorem WalkFails.code_eq (h : fs.WalkFails s above path f) :
    f.code = 10 := by
  induction h with
  | inside _ _ _ _ ih => exact ih
  | long | list | follow | size => rfl

theorem exists_status_of_take {name : String} (h : fs.take s path name = .error f) :
    s.includes name = true ∧ s.maxFileSize ≠ none ∧ ∃ reason, fs.status path = .error reason ∧
      f = .internal (WalkError.failed (some path) reason).message := by
  unfold take at h
  split at h
  · cases h
  next hname =>
  split at h
  · cases h
  next limit hlimit =>
  split at h
  · next reason hstatus =>
    cases h
    exact ⟨by simpa using hname, by simp [hlimit], reason, hstatus, rfl⟩
  · cases h

/-- What a failure at an entry comes from. -/
theorem cases_of_visit {e : DirectoryEntry}
    {descend : Unit → Except Failure (List SourceFile)} (h : fs.visit s above path e descend = .error f) :
    (∃ w, fs.follow s (path :: above) (joinPath path e.name) e.kind = .error w ∧ f = w.failure) ∨
    (fs.follow s (path :: above) (joinPath path e.name) e.kind = .ok .directory ∧ s.excludes e.name = false ∧
      descend () = .error f) ∨
    fs.take s (joinPath path e.name) e.name = .error f := by
  unfold visit at h
  split at h
  · next w hfollow =>
    cases h
    exact .inl ⟨w, hfollow, rfl⟩
  · next hfollow =>
    split at h
    · cases h
    · next hname => exact .inr (.inl ⟨hfollow, Bool.eq_false_iff.mpr hname, h⟩)
  · exact .inr (.inr h)
  · cases h

/-- **A walk fails only for a reason.** The induction is on the room that is left for longer paths. -/
theorem walkFails_of_walk (h : fs.walk s above path = .error f) :
    fs.WalkFails s above path f := by
  induction hroom : pathLimit + 1 - path.utf8ByteSize using Nat.strongRecOn generalizing above path with
  | ind n ih =>
    by_cases hfits : path.utf8ByteSize ≤ pathLimit
    · cases hentries : fs.entries path with
      | error e =>
        rw [walk, if_pos hfits, hentries] at h
        cases h
        exact .list hentries
      | ok entries =>
        rw [walk_of_entries hfits hentries] at h
        obtain ⟨e, hmem, he⟩ := exists_mem_of_mapM_eq_error (error_of_map_eq_error h)
        have hentry : fs.HasEntry path e := ⟨entries, hentries, mem_mergeSort.mp hmem⟩
        rcases cases_of_visit he with ⟨w, hfollow, rfl⟩ | ⟨hfollow, hname, hbelow⟩ | htake
        · exact .follow hentry hfollow
        · have hlonger := utf8ByteSize_lt_joinPath path e.named
          exact .inside hentry hname hfollow (ih _ (by omega) hbelow rfl)
        · obtain ⟨hname, hsize, reason, hstatus, rfl⟩ := exists_status_of_take htake
          exact .size hentry hname hsize hstatus
    · rw [walk, if_neg hfits] at h
      cases h
      exact .long (Nat.lt_of_not_le hfits)

end FileSystem

/-! ## Paths at which a scan ends -/

/-- The files that a path stands for; none if they cannot be found out. -/
def foundAt (fs : FileSystem) (s : ScanSettings) (path : String) : List SourceFile :=
  (discoverAt fs s path).toOption.getD []

/-- The search ends at the path. -/
def endsAt (fs : FileSystem) (s : ScanSettings) (path : String) : Bool :=
  (discoverAt fs s path).toOption.isNone

section

variable {fs : FileSystem} {s : ScanSettings}

theorem discoverAt_of_endsAt {path : String} (h : endsAt fs s path = true) :
    ∃ f, discoverAt fs s path = .error f := by
  unfold endsAt at h
  cases hpath : discoverAt fs s path with
  | error f => exact ⟨f, rfl⟩
  | ok files => simp [hpath, Except.toOption] at h

theorem discoverAt_of_not_endsAt {path : String} (h : endsAt fs s path = false) :
    discoverAt fs s path = .ok (foundAt fs s path) := by
  unfold endsAt at h
  unfold foundAt
  cases hpath : discoverAt fs s path with
  | error f => simp [hpath, Except.toOption] at h
  | ok files => rfl

/-- A path at which the search ends names nothing, or it exists and the walk from it fails. -/
theorem cases_of_discoverAt {path : String} {f : Failure} (h : discoverAt fs s path = .error f) :
    if fs.lacks path then f = .fileNotFound path
    else (∃ kind w, fs.follow s [] path kind = .error w ∧ f = w.failure) ∨ fs.WalkFails s [] path f := by
  unfold discoverAt at h
  unfold FileSystem.lacks
  cases hstatus : fs.status path with
  | error reason =>
    rw [hstatus] at h
    cases h
    exact rfl
  | ok status =>
    simp only [hstatus] at h
    rw [if_neg (by simp [Except.toOption])]
    split at h
    · cases h
    split at h
    · next w hfollow =>
      cases h
      exact .inl ⟨_, w, hfollow, rfl⟩
    · split at h
      · exact .inr (FileSystem.walkFails_of_walk h)
      · cases h

/-- **Discovery ends at the first path that names nothing or cannot be walked, and at nothing else.** -/
theorem discover_eq (fs : FileSystem) (s : ScanSettings) (paths : List String) :
    match paths.find? (endsAt fs s) with
    | some first => ∃ f, discoverAt fs s first = .error f ∧ discover fs s paths = .error f
    | none => discover fs s paths = .ok (paths.flatMap (foundAt fs s)) := by
  cases hfind : paths.find? (endsAt fs s) with
  | none =>
    have hfound : ∀ path ∈ paths, discoverAt fs s path = .ok (foundAt fs s path) := fun path hpath =>
      discoverAt_of_not_endsAt (by simpa using List.find?_eq_none.mp hfind path hpath)
    simp only [discover, mapM_eq_ok hfound, Except.map, List.flatMap]
  | some first =>
    obtain ⟨hends, front, back, rfl, hfront⟩ := List.find?_eq_some_iff_append.mp hfind
    obtain ⟨f, hf⟩ := discoverAt_of_endsAt hends
    have hfound : ∀ path ∈ front, discoverAt fs s path = .ok (foundAt fs s path) := fun path hpath =>
      discoverAt_of_not_endsAt (by simpa using hfront path hpath)
    refine ⟨f, hf, ?_⟩
    rw [discover, mapM_append, mapM_eq_ok hfound, mapM_cons, hf]
    rfl

end

/-! ## One file -/

namespace SourceFile

/-- The text of the file, if it can be read and is text. -/
def text? (fs : FileSystem) (f : SourceFile) : Option String :=
  (fs.read f.path).toOption.bind String.fromUTF8?

/-- The file can be read, its bytes are text, and the text parses. -/
def parses (fs : FileSystem) (f : SourceFile) : Bool :=
  (f.text? fs).any fun source => (parseSource source).toOption.isSome

/-- The file is outlined: its record has its path and the declarations of its text. -/
def Outlines (fs : FileSystem) (s : ScanSettings) (f : SourceFile) (r : ScannedFile) : Prop :=
  ∃ source tree, f.text? fs = some source ∧ parseSource source = .ok tree ∧
    r = ⟨f.path, (Place.root tree).collect.locate (if s.includeLocations then some source else none)⟩

/-- The file fails: it cannot be read, its bytes are no text, or the text does not parse. -/
inductive Fails (fs : FileSystem) (f : SourceFile) : Failure → Prop
  | unreadable {reason : String} (h : fs.read f.path = .error reason) : Fails fs f (.unreadable f.path reason)
  | noText {contents : ByteArray} (h : fs.read f.path = .ok contents) (htext :
    String.fromUTF8? contents = none) :
      Fails fs f (.unreadable f.path "stream did not contain valid UTF-8")
  | unparsable {source : String} {e : ParseError} (h : f.text? fs = some source) (he :
    parseSource source = .error e) :
      Fails fs f (.ofSourceError f.path source e)

variable {fs : FileSystem} {f : SourceFile}

/-- The code of a failure tells why the file failed. -/
theorem Fails.code_eq {e : Failure} (h : f.Fails fs e) : e.code = if (f.text? fs).isSome then 4 else 10 := by
  cases h with
  | unreadable h => simp [text?, h, Except.toOption, Failure.code]
  | noText h htext => simp [text?, h, htext, Except.toOption, Failure.code]
  | unparsable h _ => simp [h, Failure.ofSourceError, Failure.code]

/-- **A file is outlined or fails.** -/
theorem scanFile_cases (fs : FileSystem) (s : ScanSettings) (f : SourceFile) :
    match f.parses fs with
    | true => ∃ r, scanFile fs s f.path = .ok r ∧ f.Outlines fs s r
    | false => ∃ e, scanFile fs s f.path = .error e ∧ f.Fails fs e := by
  unfold parses scanFile
  cases hread : fs.read f.path with
  | error reason =>
    have htext : f.text? fs = none := by simp [text?, hread, Except.toOption]
    rw [htext]
    exact ⟨_, rfl, .unreadable hread⟩
  | ok contents =>
    have htext : f.text? fs = String.fromUTF8? contents := by simp [text?, hread, Except.toOption]
    cases hcontents : String.fromUTF8? contents with
    | none =>
      rw [htext, hcontents]
      refine ⟨_, ?_, .noText hread hcontents⟩
      simp only [hcontents]
    | some source =>
      rw [hcontents] at htext
      rw [htext]
      simp only [Option.any_some]
      cases hparse : parseSource source with
      | error e =>
        refine ⟨_, ?_, .unparsable htext hparse⟩
        simp only [hcontents, hparse]
      | ok tree =>
        refine ⟨_, ?_, source, tree, htext, hparse, rfl⟩
        simp only [hcontents, hparse]

end SourceFile

/-! ## The report -/

namespace ScanReport

/-- **The report accounts for the files.** A file whose text parses is among those outlined, and every
    other one among the failures; the former are in the order of their paths, the latter in the order in
    which they were found. -/
structure Accounts (fs : FileSystem) (s : ScanSettings) (files : List SourceFile) (r : ScanReport) :
    Prop where
  outlined : ∃ found, List.Forall₂ (SourceFile.Outlines fs s) (files.filter (SourceFile.parses fs)) found ∧
    r.files.Perm found
  sorted : r.files.Pairwise fun a b => a.path ≤ b.path
  failed : List.Forall₂ (SourceFile.Fails fs) (files.filter fun f => !f.parses fs) r.failures

/-- File by file the outcomes go to one of the two lists. The files that were outlined are not sorted yet. -/
theorem forall₂_ofFiles (fs : FileSystem) (s : ScanSettings) (files : List SourceFile) :
    List.Forall₂ (SourceFile.Outlines fs s) (files.filter (SourceFile.parses fs))
      ((files.map fun f => scanFile fs s f.path).filterMap Except.toOption) ∧
    List.Forall₂ (SourceFile.Fails fs) (files.filter fun f => !f.parses fs)
      (ofFiles fs s files).failures := by
  induction files with
  | nil => exact ⟨.nil, .nil⟩
  | cons f files ih =>
    rw [ofFiles, List.map_cons]
    have hcases := f.scanFile_cases fs s
    cases hparses : f.parses fs with
    | true =>
      obtain ⟨r, hscan, hr⟩ := by simpa only [hparses] using hcases
      rw [filter_cons_of_pos hparses, filter_cons_of_neg (by simp [hparses]), hscan]
      exact ⟨.cons hr ih.1, ih.2⟩
    | false =>
      obtain ⟨e, hscan, he⟩ := by simpa only [hparses] using hcases
      rw [filter_cons_of_neg (by simp [hparses]), filter_cons_of_pos (by simp [hparses]), hscan]
      exact ⟨ih.1, .cons he ih.2⟩

/-- What is sorted by a text that goes with it is in the order of these texts. -/
theorem pairwise_mergeSort_key {α : Type} (key : α → String) (l : List α) :
    (l.mergeSort fun a b => key a ≤ key b).Pairwise fun a b => key a ≤ key b := by
  have hsorted := @pairwise_mergeSort _ (fun a b => decide (key a ≤ key b)) ?_ ?_ l
  · exact hsorted.imp of_decide_eq_true
  · intro a b c hab hbc
    exact decide_eq_true (String.le_trans (of_decide_eq_true hab) (of_decide_eq_true hbc))
  · intro a b
    simpa using String.le_total (key a) (key b)

theorem accounts_ofFiles (fs : FileSystem) (s : ScanSettings) (files : List SourceFile) :
    (ofFiles fs s files).Accounts fs s files where
  outlined := ⟨_, (forall₂_ofFiles fs s files).1, mergeSort_perm _ _⟩
  sorted := pairwise_mergeSort_key ScannedFile.path _
  failed := (forall₂_ofFiles fs s files).2

section

variable {fs : FileSystem} {s : ScanSettings} {files : List SourceFile} {r : ScanReport}

/-- Every file that was found is in one of the two lists. -/
theorem Accounts.length_add (h : r.Accounts fs s files) :
    r.files.length + r.failures.length = files.length := by
  obtain ⟨found, hfound, hperm⟩ := h.outlined
  rw [hperm.length_eq, ← hfound.length_eq, ← h.failed.length_eq]
  have hsplit := length_eq_countP_add_countP (fun f : SourceFile => f.parses fs) (l := files)
  rw [countP_eq_length_filter, countP_eq_length_filter] at hsplit
  simpa using hsplit.symm

end

end ScanReport

/-! ## The scan -/

/-- The scan ends at the first path that names nothing or cannot be walked. -/
structure ScanEnds (fs : FileSystem) (s : ScanSettings) (paths : List String) (format : OutputFormat)
    (first : String) (f : Failure) : Prop where
  cause : discoverAt fs s first = .error f
  discovered : discover fs s paths = .error f
  scanned : scan fs s paths = .error f
  outcome : (Command.scan s paths).run fs format = ⟨f.code, prettyText f.response⟩
  status : f.response.field? "status" Json.string? = some "error"
  /-- A path that names nothing is reported as such, and a walk that fails as an internal error. -/
  kind : if fs.lacks first then f = .fileNotFound first ∧ f.code = 3
    else ((∃ kind w, fs.follow s [] first kind = .error w ∧ f = w.failure) ∨ fs.WalkFails s [] first f) ∧
      f.code = 10

section

variable {fs : FileSystem} {s : ScanSettings} {paths : List String}

theorem scanEnds_of_discover {first : String} {f : Failure} (hcause : discoverAt fs s first = .error f)
    (hdiscover : discover fs s paths = .error f) (format : OutputFormat) :
    ScanEnds fs s paths format first f := by
  have hscan : scan fs s paths = .error f := by rw [scan, hdiscover]; rfl
  refine ⟨hcause, hdiscover, hscan, ?_, ?_, ?_⟩
  · rw [Command.run, hscan]
    rfl
  · rw [Failure.response, Json.field?_cons_self, Json.string?_str]
  · have hcases := cases_of_discoverAt hcause
    split at hcases
    · next hlacks =>
      subst hcases
      rw [if_pos hlacks]
      exact ⟨rfl, rfl⟩
    · next hlacks =>
      rw [if_neg hlacks]
      refine ⟨hcases, ?_⟩
      rcases hcases with ⟨_, _, _, rfl⟩ | hwalk
      · rfl
      · exact hwalk.code_eq

end

/-- The path with `n` dots in front, each of which stays where it is. -/
def dotted : Nat → String → String
  | 0, path => path
  | n + 1, path => "." ++ "/" ++ dotted n path

theorem utf8ByteSize_dotted (n : Nat) (path : String) :
    (dotted n path).utf8ByteSize = 2 * n + path.utf8ByteSize := by
  induction n with
  | zero => rw [dotted, Nat.mul_zero, Nat.zero_add]
  | succ n ih =>
    have hdot : (".".utf8ByteSize = 1) ∧ ("/".utf8ByteSize = 1) := ⟨rfl, rfl⟩
    rw [dotted, String.utf8ByteSize_append, String.utf8ByteSize_append, ih]
    omega

theorem components_slash (front back : String) :
    components (front ++ "/" ++ back) = components front ++ components back := by
  unfold components
  rw [← map_append, ← splitOn_append_cons_self, String.toList_append,
    String.toList_append, append_assoc]
  rfl

/-- Dots in front of a path lead nowhere, as long as it does not get too long. -/
theorem FileTree.find_dotted {entries : List (String × FileTree)} {n : Nat} {path : String}
    (hpath : path.toList.head?.all (· == '/') = false) (hroom : 2 * n + path.utf8ByteSize ≤ pathLimit) :
    (FileTree.directory entries).find (dotted n path) = (FileTree.directory entries).find path := by
  have hhead (n : Nat) : (dotted n path).toList.head?.all (· == '/') = false := by
    cases n with
    | zero => exact hpath
    | succ n =>
      rw [dotted, String.toList_append, String.toList_append]
      rfl
  induction n with
  | zero => rw [dotted]
  | succ n ih =>
    rw [← ih (by omega)]
    have hsize := utf8ByteSize_dotted n path
    have hsize' := utf8ByteSize_dotted (n + 1) path
    have hnul : (dotted (n + 1) path).toList.contains '\x00' = (dotted n path).toList.contains '\x00' := by
      rw [dotted, String.toList_append, String.toList_append]
      simp
    unfold find
    rw [hnul, hhead, hhead, if_neg (by omega : ¬pathLimit < (dotted (n + 1) path).utf8ByteSize),
      if_neg (by omega : ¬pathLimit < (dotted n path).utf8ByteSize), dotted, components_slash]
    rfl

/-- A directory `d` with a directory of this name in it. -/
def nestedTree (name : String) : FileTree := .directory [("d", .directory [(name, .directory [])])]

/-- **The walk from a path that exists may fail**: the path of a directory may leave too little room for
what is in it. -/
theorem discoverAt_dotted {n : Nat} {name : String} (hname : name ≠ "")
    (hexcluded : ({} : ScanSettings).excludes name = false) (hroom : 2 * n + 1 ≤ pathLimit)
    (hlong : pathLimit < 2 * n + 1 + name.utf8ByteSize) :
    (nestedTree name).lookup.lacks (dotted n "d") = false ∧
    discoverAt (nestedTree name).lookup {} (dotted n "d") =
      .error (WalkError.tooLong (joinPath (dotted n "d") name)).failure := by
  have hsize : (dotted n "d").utf8ByteSize = 2 * n + 1 := utf8ByteSize_dotted n "d"
  have hfind : (nestedTree name).find (dotted n "d") = .ok (.directory [(name, .directory [])]) := by
    rw [nestedTree, FileTree.find_dotted (by decide) hroom]
    rfl
  generalize nestedTree name = t at hfind
  have hstatus : t.lookup.status (dotted n "d") = .ok ⟨.directory, 0, false⟩ := by
    simp only [FileTree.lookup, hfind]
    rfl
  have hentries : t.lookup.entries (dotted n "d") = .ok [⟨name, .directory, hname⟩] := by
    simp only [FileTree.lookup, hfind, FileTree.list, map_singleton,
      DirectoryEntry.ofName, dif_neg hname]
    rfl
  have hinner : t.lookup.walk {} [dotted n "d"] (joinPath (dotted n "d") name) =
      .error (WalkError.tooLong (joinPath (dotted n "d") name)).failure := by
    have hle := le_utf8ByteSize_joinPath (dotted n "d") name
    rw [FileSystem.walk, if_neg (by omega)]
  generalize t.lookup = fs at hstatus hentries hinner
  have hvisit : fs.visit {} [] (dotted n "d") ⟨name, .directory, hname⟩
      (fun _ => fs.walk {} [dotted n "d"] (joinPath (dotted n "d") name)) =
      .error (WalkError.tooLong (joinPath (dotted n "d") name)).failure := by
    rw [hinner]
    simp [FileSystem.visit, FileSystem.follow, hexcluded]
  have hwalk : fs.walk {} [] (dotted n "d") =
      .error (WalkError.tooLong (joinPath (dotted n "d") name)).failure := by
    rw [FileSystem.walk_of_entries (by omega) hentries, mergeSort_singleton, mapM_cons, hvisit]
    rfl
  constructor
  · rw [FileSystem.lacks, hstatus]
    rfl
  · simp only [discoverAt, hstatus, FileSystem.follow, hwalk]
    rfl

/-- A name that takes more room than is left. -/
def longName : String := "a-directory-with-a-name-that-is-long-enough-to-pass-the-limit-of-a-path"

end SwiftOutline
