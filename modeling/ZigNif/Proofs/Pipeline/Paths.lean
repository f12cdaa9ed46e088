import ZigNif.Proofs.Pipeline.Commands

/-!
# Proofs/Pipeline/Paths — the paths that commands are given

A build writes the harness and the entry file by their paths as seen from the working directory, and
gives the same paths to the compiler.  But the report and the library are asked for in the directory
that the files are in, and a relative path leads somewhere else from there.

So what the compiler is given leads to the files that the build wrote if that directory leads to
itself (`IsFixed`): always, if it is given from a root, and never if it is a relative path without
`..`.  The entry file is formatted in the working directory, where every path leads to its file.
-/

namespace ZigNif

open Build ZigNif.Path

/-! ## Where a command is started -/

namespace Call

/-- The directory that a command is started in. -/
def place (h : Host) (c : Call) : Location :=
  match c.directory with
  | none => h.here
  | some d => (ofText d).place h.here

theorem place_of_directory {h : Host} {c : Call} {p : Path} (hp : p.IsClean)
    (hc : c.directory = some p.text) : c.place h = p.place h.here := by
  rw [place, hc]
  exact congrArg (Path.place h.here) (ofText_text hp)

/-- The location that a path leads to, seen from there. -/
def resolve (h : Host) (c : Call) (path : Text) : Location := (ofText path).place (c.place h)

end Call

namespace Pipeline

variable {t : Toolchain} {h : Host} {o : Options} {w : Workspace}

/-- What a command works on: the file with its path and its text. -/
inductive IsSource (t : Toolchain) (h : Host) (o : Options) : Call → Path → Text → Prop
  | report : IsSource t h o (reportCall t h o) (harnessPath t h o)
    (Harness.source (stagedPath t h o).name)
  | format {m : Module} {entry : Text} : m.name = o.module → Glue.renderEntry m = .ok entry →
    IsSource t h o (formatCall t h o) (entryPath t h o) entry
  | library {m : Module} {entry : Text} : m.name = o.module → Glue.renderEntry m = .ok entry →
    IsSource t h o (libraryCall t h o) (entryPath t h o) entry

theorem Verified.exists_isSource (v : Verified t h o w) {files : FileTree}
    (hharness : HasHarness t h o files) (hentry : HasEntry v files) {c : Call}
    (hc : c ∈ calls t h o) : ∃ p text, IsSource t h o c p text ∧ IsWritten h p text files := by
  rw [calls] at hc
  obtain ⟨entry, hentry, hwritten⟩ := hentry
  simp only [List.mem_cons, List.not_mem_nil, or_false] at hc
  rcases hc with rfl | rfl | rfl
  · exact ⟨_, _, .report, hharness⟩
  · exact ⟨_, _, .format v.isStaged.name hentry, hwritten⟩
  · exact ⟨_, _, .library v.isStaged.name hentry, hwritten⟩

theorem Assembled.exists_isSource (a : Assembled t h o w) {c : Call} (hc : c ∈ calls t h o) :
    ∃ p text, IsSource t h o c p text ∧ IsWritten h p text a.atLibrary.files :=
  a.toVerified.exists_isSource a.hasHarness a.hasEntry hc

/-- **Every command that a build runs works on a file that the build wrote.** -/
theorem exists_isSource (t : Toolchain) (h : Host) (o : Options) (w : Workspace) :
    ∃ made, ((run t o).runIn h w).2.calls = w.calls ++ made ∧ made <+: calls t h o ∧
      ∀ c ∈ made, ∃ p text, IsSource t h o c p text ∧
        IsWritten h p text ((run t o).runIn h w).2.files := by
  rcases run_cases (t := t) (h := h) (o := o) (w := w) with
    ⟨e, w', hstops, hrun⟩ | ⟨a, rendered, log, -, hrun⟩
  · rw [hrun, calls_conclude, files_conclude]
    rcases hstops.progress with hmade | ⟨hmade, hharness⟩ | ⟨v, hmade, hharness, hentry, -⟩ |
      ⟨hmade, ⟨a, hfiles⟩, -⟩
    · exact ⟨[], by rw [hmade, List.append_nil], List.nil_prefix, nofun⟩
    · refine ⟨[reportCall t h o], hmade, ⟨_, rfl⟩, fun c hc => ?_⟩
      obtain rfl := List.mem_singleton.mp hc
      exact ⟨_, _, .report, hharness⟩
    · have hfirst : [reportCall t h o, formatCall t h o] <+: calls t h o := ⟨_, rfl⟩
      exact ⟨_, hmade, hfirst, fun c hc => v.exists_isSource hharness hentry (hfirst.subset hc)⟩
    · rw [hfiles]
      exact ⟨_, hmade, List.prefix_rfl, fun c hc => a.exists_isSource hc⟩
  · rw [hrun]
    refine ⟨calls t h o, ?_, List.prefix_rfl, fun c hc => a.exists_isSource hc⟩
    simp [a.calls_atLibrary, calls]

/-! ## Where the paths lead -/

/-- The directory of the files that a build writes leads to itself, seen from itself. -/
def IsFixed (t : Toolchain) (h : Host) (o : Options) : Prop :=
  (directory t h o).place ((directory t h o).place h.here) = (directory t h o).place h.here

theorem isFixed_of_ne_relative (hroot : (directory t h o).root ≠ .relative) : IsFixed t h o :=
  FileTree.place_of_ne_relative hroot

theorem names_directory_ne_nil : (directory t h o).names ≠ [] := by
  have hname : 'n' ∈ Staging.directoryName := by decide
  have hmem : 'n' ∈ Staging.assemblyDirectory h t.stagingRoot o.env o.module := by
    simp only [Staging.assemblyDirectory, List.mem_append, hname, true_or, or_true]
  have hdirectory : (Staging.directory h t.stagingRoot o.env o.module).names ≠ [] :=
    names_ofText_ne_nil (by decide) (by decide) hmem
  have hsuffix : 'z' ∈ Staging.sourceName o.module := by simp [Staging.sourceName]
  have hsource : (ofText (Staging.sourceName o.module)).names ≠ [] :=
    names_ofText_ne_nil (by decide) (by decide) hsuffix
  have hrelative : (ofText (Staging.sourceName o.module)).root = .relative := rfl
  rw [directory, stagedPath, parent, join, if_pos hrelative, List.dropLast_append_of_ne_nil hsource]
  exact List.append_ne_nil_of_left_ne_nil hdirectory _

/-- A relative path without `..` leads further down from wherever it is followed. -/
theorem not_isFixed (hroot : (directory t h o).root = .relative)
    (hnames : parentName ∉ (directory t h o).names) : ¬ IsFixed t h o := by
  intro hfixed
  rw [IsFixed, FileTree.place_of_relative hroot hnames FileTree.parentName_notMem_place] at hfixed
  exact names_directory_ne_nil (List.append_right_eq_self.mp hfixed)

theorem place_reportCall : (reportCall t h o).place h = (directory t h o).place h.here :=
  Call.place_of_directory isClean_directory rfl

theorem place_libraryCall : (libraryCall t h o).place h = (directory t h o).place h.here :=
  Call.place_of_directory isClean_directory rfl

theorem IsSource.resolve_eq_iff {c : Call} {p : Path} {text : Text} (hs : IsSource t h o c p text) :
    c.resolve h p.text = p.place h.here ↔ c.directory = none ∨ IsFixed t h o := by
  rw [Call.resolve]
  cases hs with
  | report =>
    rw [ofText_text isClean_harnessPath, place_reportCall, place_harnessPath, place_harnessPath,
      List.append_left_inj]
    simp [reportCall, IsFixed]
  | format =>
    rw [ofText_text isClean_entryPath]
    simp [Call.place, formatCall]
  | library =>
    rw [ofText_text isClean_entryPath, place_libraryCall, place_entryPath, place_entryPath,
      List.append_left_inj]
    simp [libraryCall, IsFixed]

theorem IsSource.getLast?_words {c : Call} {p : Path} {text : Text} (hs : IsSource t h o c p text) :
    c.words.getLast? = some p.text := by
  cases hs with
  | report => simp [reportCall]
  | format => simp [formatCall]
  | library => exact List.getLast?_concat

/-- The path of the library leads to its place if the directory leads to itself; and only then, if
the name of the library does not lead back. -/
theorem resolve_libraryPath :
    (IsFixed t h o → (libraryCall t h o).resolve h (libraryPath t h o).text =
      (libraryPath t h o).place h.here) ∧
    (parentName ∉ (ofText (Toolchain.libraryName Toolchain.platform o.module)).names →
      (libraryCall t h o).resolve h (libraryPath t h o).text = (libraryPath t h o).place h.here →
      IsFixed t h o) := by
  have hrelative : (ofText (Toolchain.libraryName Toolchain.platform o.module)).root = .relative :=
    rfl
  rw [Call.resolve, ofText_text isClean_libraryPath, place_libraryCall, libraryPath,
    FileTree.place_join_of_relative hrelative, FileTree.place_join_of_relative hrelative]
  refine ⟨fun hfixed => by rw [hfixed], fun hnames heq => ?_⟩
  rw [FileTree.place_of_relative hrelative hnames FileTree.parentName_notMem_place,
    FileTree.place_of_relative hrelative hnames FileTree.parentName_notMem_place] at heq
  exact List.append_cancel_right heq

/-- **The paths that a build gives to its commands.**

Every command works on a file that the build wrote, whose path is its last word: to report on the
harness, else the entry file.  Seen from the directory that the command is started in, the path
leads to that file if the command is started in the working directory, or else if and only if the
directory of the files leads to itself.  The same holds of the path that the library is built at,
which is the one that the module is returned with.  The directory leads to itself if it is given
from a root, and does not if it is given by a relative path without `..`. -/
theorem paths_of_calls (t : Toolchain) (h : Host) (o : Options) (w : Workspace) :
    let result := (run t o).runIn h w
    ∃ made, result.2.calls = w.calls ++ made ∧ made <+: calls t h o ∧
      (∀ c ∈ made, ∃ p text, IsSource t h o c p text ∧ IsWritten h p text result.2.files ∧
        c.words.getLast? = some p.text ∧
        (c.resolve h p.text = p.place h.here ↔ c.directory = none ∨ IsFixed t h o)) ∧
      ("-femit-bin=" ++ (libraryPath t h o).text ∈ (libraryCall t h o).words ∧
        (IsFixed t h o → (libraryCall t h o).resolve h (libraryPath t h o).text =
          (libraryPath t h o).place h.here) ∧
        (parentName ∉ (ofText (Toolchain.libraryName Toolchain.platform o.module)).names →
          (libraryCall t h o).resolve h (libraryPath t h o).text =
            (libraryPath t h o).place h.here → IsFixed t h o) ∧
        ∀ outcome m, result.1 = .ok outcome → outcome.module? = some m →
          m.libraryPath = some (libraryPath t h o).text) ∧
      ((directory t h o).root ≠ .relative → IsFixed t h o) ∧
      ((directory t h o).root = .relative → parentName ∉ (directory t h o).names →
        ¬ IsFixed t h o) := by
  intro result
  obtain ⟨made, hmade, hprefix, hsources⟩ := exists_isSource t h o w
  refine ⟨made, hmade, hprefix, fun c hc => ?_, ⟨?_, resolve_libraryPath.1, resolve_libraryPath.2,
    ?_⟩, isFixed_of_ne_relative, not_isFixed⟩
  · obtain ⟨p, text, hsource, hwritten⟩ := hsources c hc
    exact ⟨p, text, hsource, hwritten, hsource.getLast?_words, hsource.resolve_eq_iff⟩
  · simp [libraryCall]
  · intro outcome m houtcome hm
    rcases isRendered_or_isAborted houtcome with hrendered | haborted
    · obtain ⟨m', hm', -, hlibrary⟩ := hrendered.module
      rw [hm] at hm'
      rw [Option.some.inj hm', hlibrary]
    · rw [haborted.module] at hm
      cases hm

/-! ## Two staging roots -/

def rootedToolchain : Toolchain := { smallToolchain with stagingRoot := some "/tmp/s" }

def relativeToolchain : Toolchain := { smallToolchain with stagingRoot := some "s" }

/-- From a root, all three commands are given files that stand where they look for them. -/
theorem paths_of_calls_rooted :
    let result := (run rootedToolchain smallOptions).runIn obligingHost emptyWorkspace
    result.2.calls.length = 3 ∧
      ∀ c ∈ result.2.calls, ∃ p text, c.words.getLast? = some p.text ∧
        c.resolve obligingHost p.text = p.place obligingHost.here ∧
        IsWritten obligingHost p text result.2.files := by
  obtain ⟨made, hmade, -, hsources, -, hfixed, -⟩ :=
    paths_of_calls rootedToolchain obligingHost smallOptions emptyWorkspace
  have hroot : (directory rootedToolchain obligingHost smallOptions).root ≠ .relative := by
    decide +kernel
  have hlength : ((run rootedToolchain smallOptions).runIn obligingHost
      emptyWorkspace).2.calls.length = 3 := by
    rw [run_eq_spelledRun]
    decide +kernel
  refine ⟨hlength, fun c hc => ?_⟩
  rw [hmade] at hc
  obtain ⟨p, text, -, hwritten, hlast, hresolve⟩ := hsources c hc
  exact ⟨p, text, hlast, hresolve.mpr (.inr (hfixed hroot)), hwritten⟩

/-- A compiler that reports nothing. -/
def refusingHost : Host := { obligingHost with run := fun _ => { code := 1 } }

/-- Given by a path from the working directory, the harness is there, but not where the compiler
looks for it. -/
theorem no_harness_of_relative :
    let result := (run relativeToolchain smallOptions).runIn refusingHost emptyWorkspace
    let c := reportCall relativeToolchain refusingHost smallOptions
    let path := harnessPath relativeToolchain refusingHost smallOptions
    result.2.calls = [c] ∧ c.words.getLast? = some path.text ∧
      (result.2.files.bytesAt? (path.place refusingHost.here)).isSome ∧
      c.resolve refusingHost path.text ≠ path.place refusingHost.here ∧
      result.2.files.bytesAt? (c.resolve refusingHost path.text) = none := by
  refine ⟨?_, ?_, ?_, ?_, ?_⟩
  all_goals decide +kernel

end Pipeline

end ZigNif
