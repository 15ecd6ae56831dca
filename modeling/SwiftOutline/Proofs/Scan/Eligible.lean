import SwiftOutline.Proofs.Scan.Accounting

/-!
# `Eligible` — discovery finds the files that qualify

Discovery walks a directory and turns away from excluded directories as it meets them. What it finds can
be said of whole paths instead: of all files below the directory, those that qualify by their own name
and size and by the names of the directories on the way. Such a file is found under the directory's path
with the names on the way put behind it, a slash in front of each.
-/

namespace SwiftOutline

open List

/-! ## Names and trees -/

/-- A name that an entry of a directory can have. -/
structure IsEntryName (name : String) : Prop where
  ne_empty : name ≠ ""
  ne_dot : name ≠ "."
  ne_dots : name ≠ ".."
  slash : '/' ∉ name.toList

instance (name : String) : Decidable (IsEntryName name) :=
  decidable_of_iff (name ≠ "" ∧ name ≠ "." ∧ name ≠ ".." ∧ '/' ∉ name.toList)
    ⟨fun h => ⟨h.1, h.2.1, h.2.2.1, h.2.2.2⟩, fun h => ⟨h.ne_empty, h.ne_dot, h.ne_dots, h.slash⟩⟩

namespace FileTree

/-- In each directory of the tree all entries have names, and no two of them the same. -/
inductive WellFormed : FileTree → Prop
  | file (contents : ByteArray) : WellFormed (.file contents)
  | directory {entries : List (String × FileTree)} (names : ∀ e ∈ entries, IsEntryName e.1)
      (distinct : (entries.map Prod.fst).Nodup) (below : ∀ e ∈ entries, e.2.WellFormed) :
      WellFormed (.directory entries)

/-- The names lead to a file with these contents, from directory to entry. -/
inductive Reaches : FileTree → List String → ByteArray → Prop
  | file (contents : ByteArray) : Reaches (.file contents) [] contents
  | entry {entries : List (String × FileTree)} {name : String} {t : FileTree} {names : List String}
      {contents : ByteArray} (hmem : (name, t) ∈ entries) (h : Reaches t names contents) :
      Reaches (.directory entries) (name :: names) contents

variable {t : FileTree} {names : List String} {contents : ByteArray} {entries :
  List (String × FileTree)} {name : String}

theorem Reaches.isEntryName (h : t.Reaches names contents) (ht : t.WellFormed) :
    ∀ name ∈ names, IsEntryName name := by
  induction h with
  | file contents =>
    intro name hname
    cases hname
  | entry hmem _ ih =>
    cases ht with
    | directory hnames _ hbelow =>
      intro name hname
      rcases mem_cons.mp hname with rfl | hname
      · exact hnames _ hmem
      · exact ih (hbelow _ hmem) name hname

end FileTree

/-! ## Paths -/

/-- The path of what the names lead to, from a directory with this path. -/
def pathBelow (directory : String) (names : List String) : String := names.foldl joinPath directory

@[simp] theorem pathBelow_nil (directory : String) : pathBelow directory [] = directory := rfl

@[simp] theorem pathBelow_cons (directory name : String) (names : List String) :
    pathBelow directory (name :: names) = pathBelow (joinPath directory name) names := rfl

/-- The components of a path that are not empty. An empty one stays where the path has come to. -/
def parts (path : String) : List String := (components path).filter (· ≠ "")

theorem parts_slash (front back : String) : parts (front ++ "/" ++ back) = parts front ++ parts back := by
  unfold parts
  rw [components_slash, filter_append]

theorem parts_of_isEntryName {name : String} (h : IsEntryName name) : parts name = [name] := by
  unfold parts components
  rw [splitOn_eq_singleton h.slash, map_singleton, String.ofList_toList, filter_cons_of_pos]
  · rfl
  · exact decide_eq_true h.ne_empty

/-- One slash stands between a directory's path and the name of an entry. -/
theorem parts_joinPath (directory : String) {name : String} (h : IsEntryName name) :
    parts (joinPath directory name) = parts directory ++ [name] := by
  unfold joinPath
  split
  · next hslash =>
    rw [String.endsWith_eq_endsWith_toSlice, String.Slice.endsWith_string_iff, String.copy_toSlice] at hslash
    obtain ⟨front, hfront⟩ := hslash
    have hdirectory : directory = String.ofList front ++ "/" ++ "" := by
      rw [← String.toList_inj, ← hfront]
      simp
    -- the path ends in an empty component, and the name takes its place
    rw [hdirectory, parts_slash, String.append_empty, parts_slash, parts_of_isEntryName h]
    exact congrArg (· ++ [name]) (append_nil (parts (String.ofList front))).symm
  · rw [parts_slash, parts_of_isEntryName h]

/-- **The names are the last parts of the path**, behind those of the directory. -/
theorem parts_pathBelow (directory : String) {names : List String} (h : ∀ name ∈ names, IsEntryName name) :
    parts (pathBelow directory names) = parts directory ++ names := by
  induction names generalizing directory with
  | nil => rw [pathBelow_nil, append_nil]
  | cons name names ih =>
    rw [pathBelow_cons, ih _ fun n hn => h n (mem_cons_of_mem _ hn),
      parts_joinPath directory (h name mem_cons_self), append_assoc, singleton_append]

/-- Different names lead to different paths. -/
theorem pathBelow_injective {directory : String} {names names' : List String}
    (h : ∀ name ∈ names, IsEntryName name) (h' : ∀ name ∈ names', IsEntryName name)
    (heq : pathBelow directory names = pathBelow directory names') : names = names' := by
  have hparts := parts_pathBelow directory h
  rw [heq, parts_pathBelow directory h'] at hparts
  exact (append_cancel_left hparts).symm

/-! ## Names that qualify -/

/-- The extension of a name stands behind its last dot, with something in front of the dot. -/
theorem extension?_eq_some_iff {name ext : String} :
    extension? name = some ext ↔ ∃ stem, stem ≠ "" ∧ name = stem ++ "." ++ ext ∧ '.' ∉ ext.toList := by
  constructor
  · intro h
    simp only [extension?] at h
    have hsplit := takeWhile_append_dropWhile (p := (· != '.')) (l := name.toList.reverse)
    have hnone := all_takeWhile (p := (· != '.')) (l := name.toList.reverse)
    have hfirst := List.head?_dropWhile_not (· != '.') name.toList.reverse
    generalize name.toList.reverse.takeWhile (· != '.') = tail at h hsplit hnone
    generalize name.toList.reverse.dropWhile (· != '.') = front at hsplit hfirst
    simp only [← hsplit, drop_left] at h
    rcases front with _ | ⟨c, _ | ⟨d, front⟩⟩
    · cases h
    · cases h
    · have hdot : c = '.' := by simpa using hfirst
      have hext : String.ofList tail.reverse = ext := Option.some.inj h
      refine ⟨String.ofList (d :: front).reverse, by simp [← String.toList_inj], ?_, ?_⟩
      · rw [← String.toList_inj, ← reverse_inj, ← hsplit, ← hext, hdot]
        simp [String.toList_append]
      · rw [← hext, String.toList_ofList, mem_reverse]
        intro hmem
        simpa using all_eq_true.mp hnone '.' hmem
  · rintro ⟨stem, hstem, rfl, hdot⟩
    have hreverse : (stem ++ "." ++ ext).toList.reverse =
        ext.toList.reverse ++ '.' :: stem.toList.reverse := by
      simp [String.toList_append]
    have htail : (ext.toList.reverse ++ '.' :: stem.toList.reverse).takeWhile (· != '.') =
        ext.toList.reverse := by
      have hnone : ∀ c ∈ ext.toList.reverse, (c != '.') = true := by
        simpa [mem_reverse] using fun c hc => ne_of_mem_of_not_mem hc hdot
      rw [takeWhile_append_of_pos hnone]
      simp
    unfold extension?
    simp only [hreverse, htail, drop_left, reverse_reverse, String.ofList_toList]
    cases hstem' : stem.toList.reverse with
    | nil => simp_all
    | cons c cs => rfl

/-- The pattern stands for the name: it is the name itself, or a star and an ending of it. -/
def MatchesPattern (pattern name : String) : Prop :=
  name = pattern ∨ ∃ ending, pattern = "*" ++ ending ∧ ending.toList <:+ name.toList

namespace ScanSettings

variable {s : ScanSettings} {name : String} {names : List String} {size : Nat}

theorem excludes_iff : s.excludes name = true ↔ ∃ pattern ∈ s.excluded, MatchesPattern pattern name := by
  unfold excludes
  rw [any_eq_true]
  refine exists_congr fun pattern => and_congr_right fun _ => ?_
  unfold MatchesPattern
  split
  · next ending hpattern =>
    have hstar : pattern = "*" ++ String.ofList ending := by simp [← String.toList_inj, hpattern]
    rw [isSuffixOf_iff_suffix]
    constructor
    · intro h
      exact .inr ⟨_, hstar, by rwa [String.toList_ofList]⟩
    · rintro (rfl | ⟨ending', h, hends⟩)
      · exact hpattern ▸ suffix_cons '*' ending
      · have heq : ending = ending'.toList := by simpa [h] using hpattern.symm
        rwa [heq]
  · next hplain =>
    rw [beq_iff_eq, String.toList_inj]
    refine ⟨.inl, ?_⟩
    rintro (h | ⟨ending, h, -⟩)
    · exact h
    · exact absurd (by simp [h]) (hplain ending.toList)

/-- **A file below a directory qualifies**, where the names lead to it from the directory. -/
@[mk_iff] structure Eligible (s : ScanSettings) (names : List String) (size : Nat) : Prop where
  /-- The last name, that of the file, has one of the extensions. -/
  extension : ∃ stem ext, names.getLast? = some (stem ++ "." ++ ext) ∧ stem ≠ "" ∧
    '.' ∉ ext.toList ∧ ext ∈ s.extensions
  size : ∀ limit, s.maxFileSize = some limit → size ≤ limit
  /-- The names in front of it, those of the directories on the way, match no exclusion. -/
  visible : ∀ directory ∈ names.dropLast, ∀ pattern ∈ s.excluded, ¬MatchesPattern pattern directory

theorem eligible_singleton :
    s.Eligible [name] size ↔ s.includes name = true ∧ s.maxFileSize.all (size ≤ ·) = true := by
  rw [eligible_iff, includes, Option.any_eq_true]
  refine and_congr ?_ ?_
  · simp only [extension?_eq_some_iff, contains_iff_mem, List.getLast?_singleton, Option.some.injEq]
    constructor
    · rintro ⟨stem, ext, hname, hstem, hdot, hmem⟩
      exact ⟨ext, ⟨stem, hstem, hname, hdot⟩, hmem⟩
    · rintro ⟨ext, ⟨stem, hstem, hname, hdot⟩, hmem⟩
      exact ⟨stem, ext, hname, hstem, hdot, hmem⟩
  · cases s.maxFileSize <;> simp

/-- A file in a directory qualifies as it does from there, unless the directory is excluded. -/
theorem eligible_cons (h : names ≠ []) :
    s.Eligible (name :: names) size ↔ s.excludes name = false ∧ s.Eligible names size := by
  obtain ⟨n, names, rfl⟩ := exists_cons_of_ne_nil h
  have hvisible : s.excludes name = false ↔ ∀ pattern ∈ s.excluded, ¬MatchesPattern pattern name := by
    rw [Bool.eq_false_iff, ne_eq, excludes_iff]
    simp only [not_exists, not_and]
  rw [eligible_iff, eligible_iff, List.getLast?_cons_cons, dropLast_cons_cons,
    forall_mem_cons, hvisible]
  constructor
  · rintro ⟨hextension, hsize, hname, hnames⟩
    exact ⟨hname, hextension, hsize, hnames⟩
  · rintro ⟨hname, hextension, hsize, hnames⟩
    exact ⟨hextension, hsize, hname, hnames⟩

end ScanSettings

/-! ## The files of a tree -/

namespace FileTree

mutual

/-- All files of a tree with the names that lead to them: depth first, with the entries of each directory
in the order of their names. -/
def files : FileTree → List (List String × ByteArray)
  | .file contents => [([], contents)]
  | .directory entries =>
    ((listings entries).mergeSort fun a b => a.1 ≤ b.1).flatMap fun e => e.2.map fun f => (e.1 :: f.1, f.2)

/-- The files of each entry of a directory, under the entry's name. -/
def listings : List (String × FileTree) → List (String × List (List String × ByteArray))
  | [] => []
  | (name, t) :: entries => (name, t.files) :: listings entries

end

/-- A property of trees that each directory has if its entries have it. -/
theorem induction {motive : FileTree → Prop} (file : ∀ contents, motive (.file contents))
    (directory : ∀ entries, (∀ e ∈ entries, motive e.2) → motive (.directory entries)) (t : FileTree) :
    motive t := by
  match t with
  | .file contents => exact file contents
  | .directory entries =>
    refine directory entries fun e he => ?_
    have := sizeOf_lt_of_mem he
    exact induction file directory e.2
termination_by sizeOf t
decreasing_by
  cases e
  simp_all
  omega

theorem mergeSort_map_names {α : Type} (entries : List (String × FileTree)) (g : String × FileTree → α) :
    ((entries.map fun e => (e.1, g e)).mergeSort fun a b => a.1 ≤ b.1) =
      (entries.mergeSort fun a b => a.1 ≤ b.1).map fun e => (e.1, g e) := by
  rw [map_mergeSort]
  intro a _ b _
  rfl

theorem files_directory (entries : List (String × FileTree)) :
    (directory entries).files =
      (entries.mergeSort fun a b => a.1 ≤ b.1).flatMap fun e => e.2.files.map fun f => (e.1 :: f.1, f.2) := by
  have hlistings : listings entries = entries.map fun e => (e.1, e.2.files) := by
    induction entries with
    | nil => rw [listings, map_nil]
    | cons e entries ih => rw [listings, List.map_cons, ih]
  rw [files, hlistings, mergeSort_map_names, flatMap_map]

/-- The names lead to exactly the files that are listed. -/
theorem mem_files {t : FileTree} {names : List String} {contents : ByteArray} :
    (names, contents) ∈ t.files ↔ t.Reaches names contents := by
  induction t using induction generalizing names with
  | file contents' =>
    rw [files, mem_singleton, Prod.mk.injEq]
    constructor
    · rintro ⟨rfl, rfl⟩
      exact .file contents
    · intro h
      cases h
      exact ⟨rfl, rfl⟩
  | directory entries ih =>
    rw [files_directory, mem_flatMap]
    constructor
    · rintro ⟨e, he, hmem⟩
      have he := mem_mergeSort.mp he
      obtain ⟨f, hf, heq⟩ := mem_map.mp hmem
      cases heq
      exact .entry he ((ih e he).mp hf)
    · intro h
      cases h with
      | @entry _ name t names _ hmem h =>
        exact ⟨(name, t), mem_mergeSort.mpr hmem, mem_map.mpr ⟨_, (ih _ hmem).mpr h, rfl⟩⟩

/-- Siblings that are sorted by their names are in strict order if the names are distinct. -/
theorem pairwise_names {entries : List (String × FileTree)} (h : (entries.map Prod.fst).Nodup) :
    (entries.mergeSort fun a b => a.1 ≤ b.1).Pairwise fun a b => a.1 < b.1 := by
  have hne : (entries.mergeSort fun a b => a.1 ≤ b.1).Pairwise fun a b => a.1 ≠ b.1 := by
    rw [← pairwise_map]
    exact ((mergeSort_perm entries _).map Prod.fst).nodup_iff.mpr h
  refine (ScanReport.pairwise_mergeSort_key Prod.fst entries).imp₂ ?_ hne
  intro a b hab hne
  exact String.not_le.mp fun hba => hne (String.le_antisymm hab hba)

/-- **The listing is depth first with siblings sorted**: the names that lead to files are in strict
lexicographic order. -/
theorem sorted_files {t : FileTree} (h : t.WellFormed) :
    t.files.Pairwise fun a b => List.Lex (· < ·) a.1 b.1 := by
  induction t using induction with
  | file contents =>
    rw [files]
    exact pairwise_singleton _ _
  | directory entries ih =>
    cases h with
    | directory _ hdistinct hbelow =>
      rw [files_directory, pairwise_flatMap]
      constructor
      · intro e he
        have he := mem_mergeSort.mp he
        rw [pairwise_map]
        exact (ih e he (hbelow e he)).imp fun hlex => .cons hlex
      · refine (pairwise_names hdistinct).imp ?_
        intro a b hab f hf f' hf'
        obtain ⟨x, -, rfl⟩ := mem_map.mp hf
        obtain ⟨y, -, rfl⟩ := mem_map.mp hf'
        exact .rel hab

noncomputable instance  (s : ScanSettings) (names : List String) (size : Nat) :
    Decidable (s.Eligible names size) :=
  Classical.propDecidable _

/-- The files of a listing that are eligible, under their paths below a directory. -/
noncomputable def eligible (s : ScanSettings) (path : String) (listing : List (List String × ByteArray)) :
    List SourceFile :=
  (listing.filter fun f => s.Eligible f.1 f.2.size).map fun f => ⟨pathBelow path f.1⟩

/-- A directory that is not excluded adds its name to the paths of what is below it. -/
theorem eligible_map_cons (s : ScanSettings) (path name : String) (entries : List (String × FileTree)) :
    eligible s path ((directory entries).files.map fun f => (name :: f.1, f.2)) =
      if s.excludes name then [] else eligible s (joinPath path name) (directory entries).files := by
  have hcons : ∀ f ∈ (directory entries).files,
      (s.Eligible (name :: f.1) f.2.size ↔ s.excludes name = false ∧ s.Eligible f.1 f.2.size) := by
    rintro ⟨names, contents⟩ hf
    refine ScanSettings.eligible_cons ?_
    cases mem_files.mp hf
    exact cons_ne_nil _ _
  unfold eligible
  rw [filter_map, map_map]
  cases hname : s.excludes name with
  | false =>
    rw [if_neg Bool.false_ne_true]
    refine congrArg (List.map _) (filter_congr fun f hf => ?_)
    exact decide_eq_decide.mpr ((hcons f hf).trans (and_iff_right hname))
  | true =>
    rw [filter_eq_nil_iff.mpr fun f hf => by simp [hcons f hf, hname]]
    rfl

end FileTree

/-! ## Trees in file systems -/

namespace FileSystem

/-- The file system shows a tree at a path, as far as a scan looks: the directories that are not excluded
can be listed, and if there is a limit on sizes then the sizes of files can be found out. -/
inductive Shows (fs : FileSystem) (s : ScanSettings) : String → FileTree → Prop
  | file {path : String} {contents : ByteArray}
      (size : s.maxFileSize ≠ none → fs.status path = .ok ⟨.file, contents.size, false⟩) :
        Shows fs s path (.file contents)
  | directory {path : String} {entries : List (String × FileTree)} (room : path.utf8ByteSize ≤ pathLimit)
      (listed : fs.entries path = .ok (FileTree.list entries))
      (inside : ∀ e ∈ entries, (e.2.kind = .directory → s.excludes e.1 = false) →
        Shows fs s (joinPath path e.1) e.2) :
      Shows fs s path (.directory entries)

variable {fs : FileSystem} {s : ScanSettings}

/-- There are no links to follow in a tree. -/
theorem follow_kind (above : List String) (path : String) (t : FileTree) :
    fs.follow s above path t.kind = .ok t.kind := by
  cases t <;> simp [follow, FileTree.kind]

/-- A file in a directory is found if it is eligible. -/
theorem take_eq {path name : String} {contents : ByteArray}
    (h : s.maxFileSize ≠ none → fs.status (joinPath path name) = .ok ⟨.file, contents.size, false⟩) :
    fs.take s (joinPath path name) name = .ok (FileTree.eligible s path [([name], contents)]) := by
  have heligible : FileTree.eligible s path [([name], contents)] =
      if s.includes name && s.maxFileSize.all (contents.size ≤ ·) then [⟨joinPath path name⟩] else [] := by
    simp only [FileTree.eligible, filter_singleton, ScanSettings.eligible_singleton, Bool.decide_and,
      Bool.decide_eq_true]
    cases s.includes name && s.maxFileSize.all (contents.size ≤ ·) <;> rfl
  rw [heligible, take]
  cases s.includes name with
  | false => rfl
  | true =>
    cases hlimit : s.maxFileSize with
    | none => rfl
    | some limit =>
      rw [h (by simp [hlimit])]
      simp

theorem name_ofName {name : String} (h : name ≠ "") (kind : EntryKind) :
    DirectoryEntry.ofName name kind = ⟨name, kind, h⟩ := dif_neg h

/-- **Turning away is leaving out**: the walk through a directory finds the files of the listing that are
eligible. -/
theorem walk_eq {path : String} {t : FileTree} (h : fs.Shows s path t) (ht : t.WellFormed)
    (hkind : t.kind = .directory) (above : List String) :
    fs.walk s above path = .ok (FileTree.eligible s path t.files) := by
  induction h generalizing above with
  | file => cases hkind
  | @directory path entries hroom hlisted hinside ih =>
    cases ht with
    | directory hnames hdistinct hbelow =>
    have hname : ∀ e ∈ entries, e.1 ≠ "" := fun e he => (hnames e he).ne_empty
    have hvisit : ∀ e ∈ entries.mergeSort fun a b => a.1 ≤ b.1, fs.visit s above path (.ofName e.1 e.2.kind)
        (fun _ => fs.walk s (path :: above) (joinPath path (DirectoryEntry.ofName e.1 e.2.kind).name)) =
          .ok (FileTree.eligible s path (e.2.files.map fun f => (e.1 :: f.1, f.2))) := by
      rintro ⟨name, t⟩ he
      have hmem := mem_mergeSort.mp he
      rw [name_ofName (hname _ hmem), visit, follow_kind]
      cases t with
      | file contents =>
        cases hinside _ hmem (fun h => by cases h) with
        | file hsize => exact take_eq hsize
      | directory entries' =>
        simp only [FileTree.eligible_map_cons, FileTree.kind]
        split
        · rfl
        · next hexcluded =>
          exact ih _ hmem (fun _ => Bool.eq_false_iff.mpr hexcluded) (hbelow _ hmem) rfl _
    have hsorted : (FileTree.list entries).mergeSort (fun a b => a.name ≤ b.name) =
        (entries.mergeSort fun a b => a.1 ≤ b.1).map fun e => .ofName e.1 e.2.kind := by
      refine (map_mergeSort fun a ha b hb => ?_).symm
      rw [name_ofName (hname a ha), name_ofName (hname b hb)]
    rw [walk_of_entries hroom hlisted, hsorted, mapM_map, Function.comp_def, mapM_eq_ok hvisit,
      FileTree.files_directory, FileTree.eligible, filter_flatMap, map_flatMap]
    rfl

end FileSystem

/-! ## What paths stand for -/

/-- The files that a path to a tree stands for: a file stands for itself, whatever its name and size, and
a directory for the files below it that are eligible, each once, in the order of the names that lead to
them. -/
inductive StandsFor (s : ScanSettings) (path : String) : FileTree → List SourceFile → Prop
  | file (contents : ByteArray) : StandsFor s path (.file contents) [⟨path⟩]
  | directory {entries : List (String × FileTree)} {found : List (List String × ByteArray)}
      (eligible : ∀ names contents, (names, contents) ∈ found ↔
        (FileTree.directory entries).Reaches names contents ∧ s.Eligible names contents.size)
      (sorted : found.Pairwise fun a b => List.Lex (· < ·) a.1 b.1)
      (distinct : (found.map fun f => pathBelow path f.1).Nodup) :
      StandsFor s path (.directory entries) (found.map fun f => ⟨pathBelow path f.1⟩)

/-- The path names a tree without links, and the file system shows what is in it. -/
structure FileSystem.Holds (fs : FileSystem) (s : ScanSettings) (path : String) (t : FileTree) : Prop where
  wellFormed : t.WellFormed
  named : ∃ size, fs.status path = .ok ⟨t.kind, size, false⟩
  shown : t.kind = .directory → fs.Shows s path t

theorem standsFor_eligible (s : ScanSettings) (path : String) {entries : List (String × FileTree)}
    (ht : (FileTree.directory entries).WellFormed) :
    StandsFor s path (.directory entries) (FileTree.eligible s path (FileTree.directory entries).files) := by
  have hsorted := (FileTree.sorted_files ht).filter fun f => s.Eligible f.1 f.2.size
  refine .directory ?_ hsorted ?_
  · intro names contents
    rw [mem_filter, FileTree.mem_files, decide_eq_true_iff]
  · rw [List.Nodup, pairwise_map]
    refine hsorted.imp_of_mem fun {f f'} hf hf' hlex heq => ?_
    have hnames := FileTree.mem_files.mp (mem_filter.mp hf).1
    have hnames' := FileTree.mem_files.mp (mem_filter.mp hf').1
    rw [pathBelow_injective (hnames.isEntryName ht) (hnames'.isEntryName ht) heq] at hlex
    exact List.lt_irrefl _ hlex

theorem standsFor_of_holds {fs : FileSystem} {s : ScanSettings} {path : String} {t : FileTree}
    (h : fs.Holds s path t) : ∃ files, discoverAt fs s path = .ok files ∧ StandsFor s path t files := by
  obtain ⟨size, hstatus⟩ := h.named
  cases t with
  | file contents =>
    refine ⟨_, ?_, .file contents⟩
    rw [discoverAt, hstatus]
    rfl
  | directory entries =>
    refine ⟨_, ?_, standsFor_eligible s path h.wellFormed⟩
    have hwalk := FileSystem.walk_eq (h.shown rfl) h.wellFormed rfl []
    simp only [discoverAt, hstatus, Bool.false_eq_true, if_false, FileSystem.follow_kind]
    exact hwalk

/-- **Discovery finds exactly the eligible files.** The paths are taken in the order in which they are
given, and each adds the files that it stands for. -/
theorem discover_finds_eligible {fs : FileSystem} (s : ScanSettings) {paths : List String}
    {tree : String → FileTree} (h : ∀ path ∈ paths, fs.Holds s path (tree path)) :
    ∃ groups, discover fs s paths = .ok groups.flatten ∧
      List.Forall₂ (fun path => StandsFor s path (tree path)) paths groups := by
  have hfound : ∀ path ∈ paths, discoverAt fs s path = .ok (foundAt fs s path) ∧
      StandsFor s path (tree path) (foundAt fs s path) := by
    intro path hpath
    obtain ⟨files, hfiles, hstands⟩ := standsFor_of_holds (h path hpath)
    rw [foundAt, hfiles]
    exact ⟨rfl, hstands⟩
  refine ⟨paths.map (foundAt fs s), ?_, ?_⟩
  · rw [discover, mapM_eq_ok fun path hpath => (hfound path hpath).1]
    rfl
  · rw [forall₂_map_right_iff, forall₂_same]
    exact fun path hpath => (hfound path hpath).2

/-- Two paths to a directory with a source file, and with another one in a directory that is passed over. -/
theorem discover_finds_eligible_sources :
    ∃ sources, sources = FileTree.directory [("main.swift", .file .empty),
      ("Pods", .directory [("lib.swift", .file .empty)])] ∧
    ∃ groups, discover (FileTree.directory [("Sources", sources)]).lookup {} ["Sources", "./Sources/"] =
      .ok groups.flatten ∧
      List.Forall₂ (fun path => StandsFor {} path sources) ["Sources", "./Sources/"] groups := by
  refine ⟨_, rfl, discover_finds_eligible {} fun path hpath => ⟨?_, ?_, fun _ => ?_⟩⟩
  · refine .directory (by decide) (by decide) fun e he => ?_
    rcases mem_pair.mp he with rfl | rfl
    · exact .file _
    · refine .directory (by decide) (by decide) fun e he => ?_
      cases mem_singleton.mp he
      exact .file _
  · rcases mem_pair.mp hpath with rfl | rfl <;> exact ⟨0, rfl⟩
  · rcases mem_pair.mp hpath with rfl | rfl <;> refine .directory (by decide) rfl fun e he hname => ?_
    all_goals
      rcases mem_pair.mp he with rfl | rfl
      · exact .file fun h => absurd rfl h
      · exact absurd (hname rfl) (by decide)

/-- **Not all of them are found if a path gets too long.** -/
theorem discover_ends_below_existing : (nestedTree longName).lookup.lacks (dotted 2012 "d") = false ∧
    ∀ files, discover (nestedTree longName).lookup {} [dotted 2012 "d"] ≠ .ok files := by
  have hwalk := @discoverAt_dotted 2012 longName (by decide) (by decide) (by decide) (by decide)
  refine ⟨hwalk.1, fun files hfiles => ?_⟩
  rw [discover, mapM_cons, hwalk.2] at hfiles
  cases hfiles

end SwiftOutline
