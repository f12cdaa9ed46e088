import ZigNif.Proofs.Import.Dependency
import ZigNif.Proofs.Pipeline.Commands
import ZigNif.Proofs.Shelf
import ZigNif.Proofs.Staging.Mirror

/-!
# Proofs/Pipeline/Mirror — the imported files stand beside the staged source

Two walks decide what a build works with: staging copies the Zig files around the author's source,
and parsing follows the imports of the code.  They agree on the files below the directory of the
source that staging is to copy: when the library is built, each of them has a copy at the same place
below the staging directory, with the text that was read when the imports were followed.

A hidden file is not copied, and what a build writes itself takes the place of a copy of that name.
-/

namespace ZigNif.Pipeline

open Build ZigNif.Path

variable {t : Toolchain} {h : Host} {o : Options} {w w' : Workspace}

/-! ## Places -/

/-- The directory that the Zig files around the source are copied to. -/
def stagingDirectory (t : Toolchain) (h : Host) (o : Options) : Path :=
  Staging.directory h t.stagingRoot o.env o.module

/-- What `rel` leads to below the directory of the source is for staging to copy: it is not hidden,
it is not in the staging directory itself, and the build writes nothing at its place or at that of
its copy. -/
structure IsMirrored (t : Toolchain) (h : Host) (o : Options) (rel : Location) : Prop where
  visible : ∀ n ∈ rel, Staging.isHidden n = false
  outside : ¬ (stagingDirectory t h o).place h.here <+: o.sourcePath.parent.place h.here ++ rel
  source_ne : ∀ p ∈ [stagedPath t h o, harnessPath t h o],
    o.sourcePath.parent.place h.here ++ rel ≠ p.place h.here
  copy_ne : ∀ p ∈ [stagedPath t h o, harnessPath t h o, entryPath t h o],
    (stagingDirectory t h o).place h.here ++ rel ≠ p.place h.here

/-! ## From staging to the library -/

/-- What was done up to the report, for one file and the place of its copy. -/
theorem Reported.mirrors (r : Reported t h o w) (hhere : ∀ n ∈ h.here, IsName n)
    (hw : w.files.IsProper) {rel : Location} (hrel : IsMirrored t h o rel) :
    Staging.Mirrors (o.sourcePath.parent.place h.here ++ rel)
        ((stagingDirectory t h o).place h.here ++ rel) w r.atReported ∧
      (Staging.IsCopied rel → ((isDirectory o.sourcePath.parent).runIn h w).1 = .ok true →
        ∀ b, w.files.bytesAt? (o.sourcePath.parent.place h.here ++ rel) = some b →
          r.atReported.files.bytesAt? ((stagingDirectory t h o).place h.here ++ rel) = some b) := by
  have hstaged := Staging.mirrors_of_stage hhere hw r.stage rel hrel.outside
    (hrel.source_ne (stagedPath t h o) (by simp)) (hrel.copy_ne (stagedPath t h o) (by simp))
  obtain ⟨exports, -, -, w₁, log, hwrite, hr⟩ := r.exists_exports
  have hharness : Staging.Mirrors (o.sourcePath.parent.place h.here ++ rel)
      ((stagingDirectory t h o).place h.here ++ rel) r.atStaged r.atReported :=
    (Staging.mirrors_of_writeText hhere isClean_harnessPath (hrel.source_ne _ (by simp))
      (hrel.copy_ne _ (by simp)) hwrite).of_files_eq (by rw [hr])
  refine ⟨trans_of (Staging.Mirrors _ _) hstaged.1 hharness, fun hcopied hsource b hb => ?_⟩
  exact hharness.copy_eq (hstaged.1.source_eq hb) (hstaged.2 hcopied hsource b hb)

/-- What is written after the report does not touch the copy. -/
theorem Assembled.bytesAt?_atLibrary (a : Assembled t h o w) (hhere : ∀ n ∈ h.here, IsName n)
    {rel : Location} (hrel : IsMirrored t h o rel) :
    a.atLibrary.files.bytesAt? ((stagingDirectory t h o).place h.here ++ rel) =
      a.atReported.files.bytesAt? ((stagingDirectory t h o).place h.here ++ rel) := by
  obtain ⟨entry, w₁, log, -, hwrite, ha⟩ := a.exists_entry
  have hne := hrel.copy_ne (entryPath t h o) (by simp)
  have hentry := (Staging.mirrors_of_writeText hhere isClean_entryPath hne hne hwrite).source
  rw [ha, hentry, a.files_atVerified]

/-! ## The imported files -/

/-- The files that a module is said to depend on are those that the walk over its imports found. -/
theorem Verified.exists_walk (v : Verified t h o w) : ∃ source,
    Source.parse v.code = .ok source ∧
      (importWalk h v.atReported.files o.sourcePath.text source).2 = none ∧
      v.module.dependencies =
        (importWalk h v.atReported.files o.sourcePath.text source).1.names := by
  obtain ⟨source, log, hsource, hstop, hparsed, -⟩ := v.exists_parsed v.parse
  obtain ⟨nifs, log', -, hverified, -⟩ := v.exists_nifs
  refine ⟨source, Source.parse_of_parseFile hsource, hstop, ?_⟩
  simp [module, Module.withDocs, Module.withNifResources, hverified, hparsed]

theorem isAbsolute_ground : (ground h).IsAbsolute := rfl

/-- A Zig file below the source that is not hidden is one to be copied. -/
theorem isCopied_of_bytesAt? {rel : Location} {b : List UInt8}
    (hw : w.files.IsProper) (hsource : ((isDirectory o.sourcePath.parent).runIn h w).1 = .ok true)
    (hb : w.files.bytesAt? (o.sourcePath.parent.place h.here ++ rel) = some b)
    (hzig : Import.IsZigPlace (o.sourcePath.parent.place h.here ++ rel))
    (hvisible : ∀ n ∈ rel, Staging.isHidden n = false) : Staging.IsCopied rel where
  proper n hn := by
    have hsome : (w.files.nodeAt? (o.sourcePath.parent.place h.here ++ rel)).isSome := by
      rw [FileTree.nodeAt?, FileTree.bytesAt?_eq_some_iff.mp hb]
      rfl
    exact hw _ hsome n (List.mem_append_right _ hn)
  visible := hvisible
  zig := by
    obtain ⟨front, last, hlast, hsuffix⟩ := hzig
    rcases List.eq_nil_or_concat rel with rfl | ⟨dirs, name, rfl⟩
    · -- a directory stands there, and no file
      rw [List.append_nil, FileTree.bytesAt?, FileTree.nodeAt?_of_isDirectory
        (runIn_isDirectory_eq_ok_true_iff.mp hsource).2] at hb
      cases hb
    · rw [List.concat_eq_append, ← List.append_assoc] at hlast
      obtain rfl : name = last := List.singleton_injective (List.append_inj_right' hlast rfl)
      exact ⟨dirs, name, List.concat_eq_append, hsuffix⟩

/-- **The imported files are mirrored.**

Let a build run all its commands, and let there be a directory for the author's source.  When the
build has the library built, every file that the module depends on and that lies below the directory
of the source, where staging is to copy it, has a copy at the same place below the staging
directory; the copy holds the text that was read when the imports were followed. -/
theorem dependencies_mirrored (hw : w.files.IsProper) (hhere : w.files.nodeAt? h.here = some none)
    (hsource : ((isDirectory o.sourcePath.parent).runIn h w).1 = .ok true)
    (hcalls : ((run t o).runIn h w).2.calls = w.calls ++ calls t h o) :
    ∃ a : Assembled t h o w, ((run t o).runIn h w).2.files = a.atLibrary.files ∧
      (∀ outcome m, ((run t o).runIn h w).1 = .ok outcome → outcome.module? = some m →
        m.dependencies = a.module.dependencies) ∧
      ∀ n ∈ a.module.dependencies, ∀ rel,
        (ofText ((ground h).readPath n)).place h.here =
          o.sourcePath.parent.place h.here ++ rel →
        IsMirrored t h o rel →
        ∃ bytes text,
          a.atLibrary.files.get? ((stagingDirectory t h o).place h.here ++ rel) =
            some (.file bytes) ∧
          (Utf8.decode bytes).map Text.unifyNewlines = .ok text ∧
          (shelf h a.atReported.files).read ((ground h).readPath n) = .ok text := by
  obtain ⟨a, hfiles, hmodule⟩ := exists_assembled hcalls
  refine ⟨a, hfiles, hmodule, fun n hn rel hplace hrel => ?_⟩
  have hnames : ∀ n ∈ h.here, IsName n := fun n hn => (hw h.here (by rw [hhere]; rfl) n hn).1
  obtain ⟨hmirrors, hcopies⟩ := a.toReported.mirrors hnames hw hrel
  obtain ⟨source, hparse, hstop, hdependencies⟩ := a.exists_walk
  rw [hdependencies] at hn
  obtain ⟨⟨text, hread⟩, hzig⟩ : (∃ text, (shelf h a.atReported.files).read
      ((ground h).readPath n) = .ok text) ∧
      Import.IsZigPlace ((ofText ((ground h).readPath n)).place h.here) :=
    Import.exists_read_of_mem_names isAbsolute_ground hparse hstop hn
  -- the file that was read, and what stood at its place from the beginning
  obtain ⟨p, hroot, hpath, hfile⟩ := exists_fileText_of_read hread
  obtain ⟨bytes, hbytes, htext⟩ := exists_read_of_fileText hfile
  have hclean : p.IsClean := (hmirrors.proper hw).isClean_of_read hbytes
  rw [hpath, ofText_text hclean] at hplace hzig
  have hget := FileTree.get?_of_read hbytes
  rw [hplace] at hget hzig
  have hb : w.files.bytesAt? (o.sourcePath.parent.place h.here ++ rel) = some bytes := by
    rw [← hmirrors.source, FileTree.bytesAt?_eq_some_iff, hget]
  have hcopied : Staging.IsCopied rel :=
    isCopied_of_bytesAt? hw hsource hb hzig hrel.visible
  refine ⟨bytes, text, ?_, htext, hread⟩
  rw [← FileTree.bytesAt?_eq_some_iff, a.bytesAt?_atLibrary hnames hrel]
  exact hcopies hcopied hsource bytes hb

/-! ## Builds with one imported file -/

/-- Options for code that imports one file and stands beside `m.ex`. -/
def importOptions (dep : Text) : Options :=
  { smallOptions with code := some ("const a = @import(\"" ++ dep ++ "\");") }

/-- A working directory with a directory that holds a Zig file. -/
def libraryWorkspace (dir : Text) : Workspace where
  files := .directory
    [("w", .directory [(dir, .directory [("a.zig", .file (Utf8.encode "const x = 1;"))])]),
      ("tmp", .directory [])]

/-- What a build comes to: the files that its module depends on, whether it has run all commands,
and the bytes at a location after it. -/
def summary (o : Options) (w : Workspace) (l : Location) :
    Option (List Text) × Bool × Option (List UInt8) :=
  let result := (run smallToolchain o).runIn obligingHost w
  (match result.1 with
    | .ok outcome => outcome.module?.map Module.dependencies
    | .error _ => none,
    result.2.calls = w.calls ++ calls smallToolchain obligingHost o, result.2.files.bytesAt? l)

theorem exists_of_summary {o : Options} {w : Workspace} {l : Location} {deps : List Text}
    {bytes : Option (List UInt8)} (hsummary : summary o w l = (some deps, true, bytes)) :
    let result := (run smallToolchain o).runIn obligingHost w
    (∃ outcome m, result.1 = .ok outcome ∧ outcome.module? = some m ∧ m.dependencies = deps) ∧
      result.2.calls = w.calls ++ calls smallToolchain obligingHost o ∧
      result.2.files.bytesAt? l = bytes := by
  intro result
  obtain ⟨hdeps, hrest⟩ := Prod.mk.inj hsummary
  obtain ⟨hcalls, hbytes⟩ := Prod.mk.inj hrest
  refine ⟨?_, of_decide_eq_true hcalls, hbytes⟩
  cases houtcome : result.1 with
  | error e =>
    simp only [show ((run smallToolchain o).runIn obligingHost w).1 = _ from houtcome] at hdeps
    cases hdeps
  | ok outcome =>
    simp only [show ((run smallToolchain o).runIn obligingHost w).1 = _ from houtcome] at hdeps
    obtain ⟨m, hm, hdeps⟩ := Option.map_eq_some_iff.mp hdeps
    exact ⟨outcome, m, rfl, hm, hdeps⟩

theorem isProper_libraryWorkspace {dir : Text} (hdir : IsProperName dir) :
    (libraryWorkspace dir).files.IsProper := by
  refine FileTree.isProper_directory fun e he => ?_
  rcases List.mem_pair.mp he with rfl | rfl
  · have hname : IsProperName "w".toList := by decide +kernel
    refine ⟨hname, FileTree.isProper_directory fun e he => ?_⟩
    rw [List.mem_singleton.mp he]
    refine ⟨hdir, FileTree.isProper_directory fun e he => ?_⟩
    rw [List.mem_singleton.mp he]
    have hname : IsProperName "a.zig".toList := by decide +kernel
    exact ⟨hname, FileTree.isProper_file⟩
  · have hname : IsProperName "tmp".toList := by decide +kernel
    exact ⟨hname, FileTree.isProper_directory nofun⟩

/-- The copy of a file that is imported from a directory beside the source. -/
theorem dependencies_mirrored_lib :
    let o := importOptions "lib/a.zig"
    let w := libraryWorkspace "lib"
    IsMirrored smallToolchain obligingHost o ["lib".toList, "a.zig".toList] ∧
      ∃ a : Assembled smallToolchain obligingHost o w,
        ((run smallToolchain o).runIn obligingHost w).2.files = a.atLibrary.files ∧
        "lib/a.zig".toList ∈ a.module.dependencies ∧
        ∃ bytes, a.atLibrary.files.get?
            ((stagingDirectory smallToolchain obligingHost o).place obligingHost.here ++
              ["lib".toList, "a.zig".toList]) = some (.file bytes) := by
  intro o w
  have hsummary : summary o w [] = (some ["lib/a.zig".toList], true, none) := by
    rw [summary, run_eq_spelledRun]
    decide +kernel
  obtain ⟨⟨outcome, m, houtcome, hm, hdeps⟩, hcalls, -⟩ := exists_of_summary hsummary
  have hsource : ((isDirectory o.sourcePath.parent).runIn obligingHost w).1 = .ok true :=
    runIn_isDirectory_eq_ok_true_iff.mpr ⟨by decide +kernel, by decide +kernel⟩
  have hhere : w.files.nodeAt? obligingHost.here = some none := by decide +kernel
  have hrel : IsMirrored smallToolchain obligingHost o ["lib".toList, "a.zig".toList] :=
    ⟨by decide +kernel, by decide +kernel, by decide +kernel, by decide +kernel⟩
  obtain ⟨a, hfiles, hmodule, hmirrored⟩ :=
    dependencies_mirrored (isProper_libraryWorkspace (by decide +kernel)) hhere hsource hcalls
  have hmem : "lib/a.zig".toList ∈ a.module.dependencies := by
    rw [← hmodule outcome m houtcome hm, hdeps]
    exact List.mem_singleton_self _
  obtain ⟨bytes, text, hget, -, -⟩ := hmirrored _ hmem _ (by decide +kernel) hrel
  exact ⟨hrel, a, hfiles, hmem, bytes, hget⟩

/-- A file that is imported from a hidden directory has no copy. -/
theorem no_mirror_of_hidden :
    let o := importOptions ".lib/a.zig"
    let w := libraryWorkspace ".lib"
    ((run smallToolchain o).runIn obligingHost w).2.calls =
        w.calls ++ calls smallToolchain obligingHost o ∧
      (∃ outcome m, ((run smallToolchain o).runIn obligingHost w).1 = .ok outcome ∧
        outcome.module? = some m ∧ m.dependencies = [".lib/a.zig".toList]) ∧
      (ofText ((ground obligingHost).readPath ".lib/a.zig")).place obligingHost.here =
        o.sourcePath.parent.place obligingHost.here ++ [".lib".toList, "a.zig".toList] ∧
      ((run smallToolchain o).runIn obligingHost w).2.files.bytesAt?
        ((stagingDirectory smallToolchain obligingHost o).place obligingHost.here ++
          [".lib".toList, "a.zig".toList]) = none := by
  intro o w
  have hsummary : summary o w
      ((stagingDirectory smallToolchain obligingHost o).place obligingHost.here ++
        [".lib".toList, "a.zig".toList]) = (some [".lib/a.zig".toList], true, none) := by
    rw [summary, run_eq_spelledRun]
    decide +kernel
  obtain ⟨houtcome, hcalls, hbytes⟩ := exists_of_summary hsummary
  exact ⟨hcalls, houtcome, by decide +kernel, hbytes⟩

end ZigNif.Pipeline
