import SwiftOutline.Proofs.Scan.Eligible

/-!
# `Reordered` — the order of the paths does not matter

A scan takes its paths one after another, and a path may stand for files that another one stands for as
well. The files are reported in the order of their paths. What becomes of a file is told by its path
alone, so there is one such order, whichever path the file was found by and whenever.
-/

namespace SwiftOutline

open List

/-- What becomes of a file is reported under its path. -/
theorem path_of_scanFile {fs : FileSystem} {s : ScanSettings} {path : String} {r : ScannedFile}
    (h : scanFile fs s path = .ok r) : r.path = path := by
  unfold scanFile at h
  split at h
  · cases h
  split at h
  · cases h
  split at h
  · cases h
  · cases h
    rfl

namespace ScanReport

/-- The reports say the same: the same files are outlined, in the same order and with the same
declarations, and the same failures are met. -/
structure Agrees (r r' : ScanReport) : Prop where
  files : r.files = r'.files
  failures : r.failures.Perm r'.failures
  allFailed : r.allFailed = r'.allFailed
  declarationCount : r.declarationCount = r'.declarationCount

/-- **Files that are found in another order are reported in the same one.** Outcomes with one path are
the same. -/
theorem files_eq_of_perm (fs : FileSystem) (s : ScanSettings) {files files' : List SourceFile}
    (hperm : files.Perm files') : (ofFiles fs s files).files = (ofFiles fs s files').files := by
  have hscanned (files : List SourceFile) :
      ∀ r ∈ (ofFiles fs s files).files, scanFile fs s r.path = .ok r := by
    intro r hr
    obtain ⟨outcome, houtcome, hr⟩ := mem_filterMap.mp (mem_mergeSort.mp hr)
    obtain ⟨f, -, rfl⟩ := mem_map.mp houtcome
    have hscan := eq_ok_of_toOption hr
    rwa [path_of_scanFile hscan]
  have hfiles : (ofFiles fs s files).files.Perm (ofFiles fs s files').files := (mergeSort_perm _ _).trans
    (((hperm.map fun f => scanFile fs s f.path).filterMap Except.toOption).trans
      (mergeSort_perm _ _).symm)
  refine hfiles.eq_of_pairwise ?_ (accounts_ofFiles fs s files).sorted (accounts_ofFiles fs s files').sorted
  intro a b ha hb hab hba
  have hscan := hscanned files a ha
  rw [String.le_antisymm hab hba, hscanned files' b hb] at hscan
  exact (Except.ok.inj hscan).symm

theorem agrees_of_perm (fs : FileSystem) (s : ScanSettings) {files files' : List SourceFile}
    (hperm : files.Perm files') : (ofFiles fs s files).Agrees (ofFiles fs s files') := by
  have hfiles := files_eq_of_perm fs s hperm
  have hfailures : (ofFiles fs s files).failures.Perm (ofFiles fs s files').failures := by
    rw [ofFiles, ofFiles]
    exact (hperm.map _).filterMap _
  refine ⟨hfiles, hfailures, ?_, ?_⟩
  · rw [allFailed, hfiles, allFailed, hfailures.isEmpty_eq]
  · rw [declarationCount, hfiles, declarationCount]

end ScanReport

section

variable {fs : FileSystem} {s : ScanSettings} {paths : List String}

/-- A scan for paths that all exist ends in a walk that fails. -/
theorem scan_of_any_endsAt (hexist : ∀ path ∈ paths, fs.lacks path = false)
    (h : paths.any (endsAt fs s) = true) : ∃ f, scan fs s paths = .error f ∧ f.code = 10 := by
  have hdiscover := discover_eq fs s paths
  obtain ⟨first, hfind⟩ := Option.isSome_iff_exists.mp (List.find?_isSome.mpr (any_eq_true.mp h))
  rw [hfind] at hdiscover
  obtain ⟨f, hcause, hdiscover⟩ := hdiscover
  have hends := scanEnds_of_discover hcause hdiscover .json
  have hkind := hends.kind
  rw [hexist first (mem_of_find?_eq_some hfind), if_neg Bool.false_ne_true] at hkind
  exact ⟨f, hends.scanned, hkind.2⟩

/-- Without such a walk it comes to a report. -/
theorem scan_of_not_any_endsAt (h : paths.any (endsAt fs s) = false) :
    scan fs s paths = .ok (.ofFiles fs s (paths.flatMap (foundAt fs s))) := by
  have hdiscover := discover_eq fs s paths
  rw [List.find?_eq_none.mpr fun path hpath => by simpa using any_eq_false.mp h path hpath] at hdiscover
  rw [scan, hdiscover]
  rfl

end

/-- **The report does not depend on the order of the paths.** If the walk from one of them fails, then
there is no report in any order; otherwise there is one in each order, and they say the same. -/
theorem scan_of_perm (fs : FileSystem) (s : ScanSettings) {paths paths' : List String}
    (hperm : paths.Perm paths') (hexist : ∀ path ∈ paths, fs.lacks path = false) :
    if paths.any (endsAt fs s) then
      ∃ f f', scan fs s paths = .error f ∧ scan fs s paths' = .error f' ∧ f.code = 10 ∧ f'.code = 10
    else ∃ r r', scan fs s paths = .ok r ∧ scan fs s paths' = .ok r' ∧ r.Agrees r' := by
  have hany : paths'.any (endsAt fs s) = paths.any (endsAt fs s) := hperm.symm.any_eq
  cases hends : paths.any (endsAt fs s) with
  | true =>
    rw [hends] at hany
    obtain ⟨f, hf, hcode⟩ := scan_of_any_endsAt hexist hends
    obtain ⟨f', hf', hcode'⟩ :=
      scan_of_any_endsAt (fun path hpath => hexist path (hperm.mem_iff.mpr hpath)) hany
    exact ⟨f, f', hf, hf', hcode, hcode'⟩
  | false =>
    rw [hends] at hany
    exact ⟨_, _, scan_of_not_any_endsAt hends, scan_of_not_any_endsAt hany,
      ScanReport.agrees_of_perm fs s (hperm.flatMap_right _)⟩

/-- A directory with a file that fails, which is given as well, and the directory once more. -/
theorem scan_of_perm_overlapping : ∃ fs : FileSystem,
    fs = (FileTree.directory [("src", .directory [("a.swift", .file "let a = 1".toUTF8),
      ("b.swift", .file "\x7d".toUTF8)])]).lookup ∧
    (∀ path ∈ ["src", "src/b.swift", "src"], fs.lacks path = false) ∧
    ∃ r r', scan fs {} ["src", "src/b.swift", "src"] = .ok r ∧
      scan fs {} ["src/b.swift", "src", "src"] = .ok r' ∧
      r.Agrees r' ∧ r.files.length = 2 ∧ r.failures.length = 3 := by
  have hexist : ∀ path ∈ ["src", "src/b.swift", "src"], (FileTree.directory [("src", .directory
      [("a.swift", .file "let a = 1".toUTF8), ("b.swift", .file "\x7d".toUTF8)])]).lookup.lacks path =
        false := by
    decide
  refine ⟨_, rfl, hexist, ?_⟩
  generalize hfs : (FileTree.directory _).lookup = fs at hexist ⊢
  have hsrc : discoverAt fs {} "src" = .ok [⟨"src/a.swift"⟩, ⟨"src/b.swift"⟩] := by
    have hwalk : fs.walk {} [] "src" = .ok [⟨"src/a.swift"⟩, ⟨"src/b.swift"⟩] := by
      have hentries : fs.entries "src" = .ok [⟨"a.swift", .file, by decide⟩,
          ⟨"b.swift", .file, by decide⟩] := by
        subst hfs
        rfl
      have hslash : "src".endsWith "/" = false := by decide +kernel
      rw [FileSystem.walk_of_entries (by decide) hentries, mergeSort_of_pairwise (by decide)]
      simp only [mapM_cons, mapM_nil, FileSystem.visit, FileSystem.follow, FileSystem.take,
        joinPath, hslash]
      rfl
    have hstatus : fs.status "src" = .ok ⟨.directory, 0, false⟩ := by
      subst hfs
      rfl
    rw [discoverAt, hstatus]
    exact hwalk
  have hfile : discoverAt fs {} "src/b.swift" = .ok [⟨"src/b.swift"⟩] := by
    subst hfs
    rfl
  have hparses : SourceFile.parses fs ⟨"src/a.swift"⟩ = true ∧
      SourceFile.parses fs ⟨"src/b.swift"⟩ = false := by
    subst hfs
    decide +kernel
  have hends : ["src", "src/b.swift", "src"].any (endsAt fs {}) = false := by
    simp [endsAt, hsrc, hfile, Except.toOption]
  have hperm := @scan_of_perm fs {} _ ["src/b.swift", "src", "src"] (.swap _ _ _) hexist
  rw [if_neg (by simp [hends])] at hperm
  obtain ⟨r, r', hr, hr', hagrees⟩ := hperm
  have hreport := scan_of_not_any_endsAt hends
  rw [hr, Except.ok.injEq] at hreport
  have haccounts := ScanReport.accounts_ofFiles fs {} (["src", "src/b.swift", "src"].flatMap (foundAt fs {}))
  rw [← hreport] at haccounts
  have hfailed := haccounts.failed.length_eq
  have htotal := haccounts.length_add
  simp [foundAt, hsrc, hfile, Except.toOption, hparses] at hfailed htotal
  exact ⟨r, r', hr, hr', hagrees, by omega, by omega⟩

end SwiftOutline
