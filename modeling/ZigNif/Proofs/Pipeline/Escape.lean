import ZigNif.Proofs.Import.Stop
import ZigNif.Proofs.Pipeline.Commands
import ZigNif.Proofs.Report
import ZigNif.Proofs.Shelf

/-!
# Proofs/Pipeline/Escape — failures that leave a build

A build makes build errors its outcome and nothing else, so it is total only as far as its stages
turn their failures into build errors.  Not all of them do: a path that cannot be used while the
sources are staged or a file is written, a null byte in a path, a number that is too long, an answer
of the compiler that is no text, sources and reports that are nested too deeply, and a report with
parameters that are no list leave the build as they are.  `Escapes` has these failures stage by
stage.
-/

namespace ZigNif

open Build

variable {t : Toolchain} {h : Host} {o : Options} {w w' : Workspace} {m : Module} {e : Failure}

/-! ## Failures of single stages -/

namespace Build

/-- A write fails with the fault of its path. -/
theorem isFault_of_writeText {p : Path} {text : Text}
    (hrun : (writeText p text).runIn h w = (.error e, w')) : Staging.IsFault e := by
  have hkeeps : Keeps h SameCalls Staging.IsFault (writeText p text) w :=
    .writeText (fun _ _ => rfl) .nullByte fun _ => .file ..
  exact hkeeps.fails_of_eq hrun

end Build

theorem Staging.IsFault.ne_build (he : IsFault e) (b : BuildError) : e ≠ .build b := by
  cases he <;> exact nofun

namespace Pipeline

/-- What the compiler answers instead of a report leaves the build: no text; complaints that name a
place with a number that is too long; values that are nested too deeply; or a report that is spoiled
otherwise. -/
inductive SpoilsReport (limit : Nat) (reply : Reply) (m : Module) : Failure → Prop
  | unread {e : Failure} (unread : IsUnread reply e) : SpoilsReport limit reply m e
  | complaints {fault : Text.LongNumeral} (readable : reply.fault = none) (code : reply.code ≠ 0)
    (remap : Diagnostic.remap reply.errors (m.stagedPath.map Path.text) m.manifest = .error fault) :
    SpoilsReport limit reply m (.longNumeral fault)
  | deep {kind : Text} (readable : reply.fault = none) (code : reply.code = 0)
    (overflow : Json.overflow? limit reply.output = some kind) :
    SpoilsReport limit reply m (Report.overflow kind)
  | report {e : Failure} (readable : reply.fault = none) (code : reply.code = 0)
    (shallow : Json.overflow? limit reply.output = none)
    (spoils : Report.Spoils (some m.file) reply.output e) : SpoilsReport limit reply m e

/-- What is wrong with an imported file that stops a build, and leaves it: a null byte in its path,
or groups that are nested too deeply. -/
inductive IsUnusable (h : Host) (files : FileTree) (name : Text) : Failure → Prop
  | null (null : '\x00' ∈ (ground h).readPath name) : IsUnusable h files name .nullByte
  | deep {text : Text} (read : (shelf h files).read ((ground h).readPath name) = .ok text)
    (deep : Source.Overflows h.stack.groups text) :
    IsUnusable h files name (.tooDeep " in comparison")

/-- The entry file fails if it cannot be written, or if the compiler's answer cannot be read. -/
theorem precompile_eq_error_iff (hm : IsStaged t h o m) (hfinished : Glue.IsFinished m) :
    ((t.precompile m).runIn h w).1 = .error e ↔
      ∃ entry, Glue.renderEntry m = .ok entry ∧
        (((writeText (entryPath t h o) entry).runIn h w).1 = .error e ∨
          ((writeText (entryPath t h o) entry).runIn h w).1 = .ok () ∧
            IsUnread (h.run (formatCall t h o)) e) := by
  obtain ⟨entry, hentry, ⟨e', w₁, hwrite, hrun⟩ | ⟨w₁, log, hwrite, hrun⟩⟩ :=
    runIn_precompile (w := w) hm hfinished
  · simp [hentry, hrun, hwrite]
  · simp only [hentry, hrun, hwrite, Except.ok.injEq, exists_eq_left', reduceCtorEq, false_or,
      true_and]
    exact map_eq_error_iff.trans Reply.read_eq_error_iff

/-- The failure leaves the build: the stage that it comes from does not make it a build error. -/
inductive Escapes (t : Toolchain) (h : Host) (o : Options) (w : Workspace) : Failure → Prop
  /-- The path of the code has a null byte. -/
  | codePath {path : Text} (noCode : o.code = none) (codePath : o.codePath = some path)
    (null : hasNull (o.fileDirectory.join (.ofText path))) : Escapes t h o w .nullByte
  /-- A path cannot be used on the way from the author's sources to the staged ones. -/
  | staging (a : Accepted h o w) {e : Failure} {w' : Workspace}
    (stage : (Staging.stage t.stagingRoot (Module.ofOptions o a.declared) a.code).runIn h w =
      (.error e, w')) : Escapes t h o w e
  /-- A marker in the code has a line number that is too long. -/
  | number (a : Accepted h o w) {staged : Module} {w' : Workspace} {fault : Text.LongNumeral}
    (stage : (Staging.stage t.stagingRoot (Module.ofOptions o a.declared) a.code).runIn h w =
      (.ok staged, w')) (number : Manifest.ofSource o.file a.code = .error fault) :
    Escapes t h o w (.longNumeral fault)
  /-- The harness cannot be written. -/
  | harness (n : Numbered t h o w) {e : Failure} {w' : Workspace}
    (write : (writeHarness t h o).runIn h n.atStaged = (.error e, w')) : Escapes t h o w e
  /-- What the compiler answers instead of a report cannot be used. -/
  | report (n : Numbered t h o w) {w' : Workspace} {e : Failure}
    (write : (writeHarness t h o).runIn h n.atStaged = (.ok (), w'))
    (spoils : SpoilsReport h.stack.values (h.run (reportCall t h o)) n.numbered e) :
    Escapes t h o w e
  /-- The groups of the code are nested too deeply. -/
  | code (r : Reported t h o w) (deep : Source.Overflows (h.stack.groups + 1) r.code) :
    Escapes t h o w (.tooDeep " in comparison")
  /-- An imported file has a null byte in its path, or groups that are nested too deeply. -/
  | imports (r : Reported t h o w) {source : Source.Parsed} {name : Text} {e : Failure}
    (shallow : ¬ Source.Overflows (h.stack.groups + 1) r.code)
    (parse : Source.parseFile (some o.file) r.code = .ok source)
    (mem : name ∈ (importWalk h r.atReported.files o.sourcePath.text source).1.names)
    (unusable : IsUnusable h r.atReported.files name e) : Escapes t h o w e
  /-- The entry file cannot be written. -/
  | entry (v : Verified t h o w) {entry : Text} {e : Failure} {w' : Workspace}
    (render : Glue.renderEntry v.module = .ok entry)
    (write : (writeText (entryPath t h o) entry).runIn h v.atVerified = (.error e, w')) :
    Escapes t h o w e
  /-- The entry file was formatted, and what the compiler wrote is no text. -/
  | formatted (v : Verified t h o w) {entry : Text} {e : Failure} {w' : Workspace}
    (render : Glue.renderEntry v.module = .ok entry)
    (write : (writeText (entryPath t h o) entry).runIn h v.atVerified = (.ok (), w'))
    (unread : IsUnread (h.run (formatCall t h o)) e) : Escapes t h o w e
  /-- The library was built or not, and what the compiler wrote is no text. -/
  | built (a : Assembled t h o w) {e : Failure} (unread : IsUnread (h.run (libraryCall t h o)) e) :
    Escapes t h o w e
  /-- The library cannot be built, and the complaints name a place with a number that is too
  long. -/
  | library (a : Assembled t h o w) {fault : Text.LongNumeral}
    (readable : (h.run (libraryCall t h o)).fault = none)
    (code : (h.run (libraryCall t h o)).code ≠ 0)
    (remap : Diagnostic.remap (h.run (libraryCall t h o)).errors (some (stagedPath t h o).text)
      a.module.manifest = .error fault) : Escapes t h o w (.longNumeral fault)

/-- **What leaves a build is the fault of a path, a number that is too long, bytes that are no text,
a structure that is too deep, or a value that is no list.** -/
theorem Escapes.kind (he : Escapes t h o w e) :
    Staging.IsFault e ∨ (∃ fault, e = .longNumeral fault) ∨ (∃ fault, e = .encoding fault) ∨
      (∃ doing, e = .tooDeep doing) ∨ ∃ kind, e = .notIterable kind := by
  cases he with
  | codePath noCode codePath null => exact .inl .nullByte
  | staging a stage => exact .inl ((Staging.keeps_stage ..).fails_of_eq stage)
  | number a stage number => exact .inr (.inl ⟨_, rfl⟩)
  | harness n write => exact .inl (isFault_of_writeText write)
  | report n write spoils =>
    cases spoils with
    | unread unread => exact .inr (.inr (.inl unread.exists_encoding))
    | complaints readable code remap => exact .inr (.inl ⟨_, rfl⟩)
    | deep readable code overflow => exact .inr (.inr (.inr (.inl ⟨_, rfl⟩)))
    | report readable code shallow spoils =>
      cases spoils with
      | numeral hparse hfault => exact .inr (.inl ⟨_, rfl⟩)
      | params hparse hfunctions hbefore hfields => exact .inr (.inr (.inr (.inr ⟨_, rfl⟩)))
  | code r deep => exact .inr (.inr (.inr (.inl ⟨_, rfl⟩)))
  | imports r shallow parse mem unusable =>
    cases unusable with
    | null null => exact .inl .nullByte
    | deep read deep => exact .inr (.inr (.inr (.inl ⟨_, rfl⟩)))
  | entry v render write => exact .inl (isFault_of_writeText write)
  | formatted v render write unread => exact .inr (.inr (.inl unread.exists_encoding))
  | built a unread => exact .inr (.inr (.inl unread.exists_encoding))
  | library a readable code remap => exact .inr (.inl ⟨_, rfl⟩)

theorem Escapes.ne_build (he : Escapes t h o w e) (b : BuildError) : e ≠ .build b := by
  rcases he.kind with he | ⟨_, rfl⟩ | ⟨_, rfl⟩ | ⟨_, rfl⟩ | ⟨_, rfl⟩
  · exact he.ne_build b
  all_goals exact nofun

/-- A failure that a build has is what the build ends with. -/
theorem Stops.runIn_run (hs : Stops t h o w e w') : (run t o).runIn h w = conclude o e w' := by
  rw [Pipeline.runIn_run, hs.runIn_body]

/-- A host whose compiler answers every command in the same way. -/
def hostOf (reply : Reply) : Host := { here := ["w"], temporary := "/tmp", run := fun _ => reply }

end Pipeline

end ZigNif
