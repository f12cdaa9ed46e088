import ZigNif.Pipeline
import ZigNif.Proofs.Module
import ZigNif.Proofs.Path
import ZigNif.Proofs.Staging

/-!
# Proofs/Pipeline — the stages of a build, one after the other

A build comes to its end or stops at a stage.  `Verified` and `Assembled` hold what the stages up to
a point gave, with the workspace that each left; `Stops` says how a build can stop, with one case
for each stage.  What is true of all builds is then looked up case by case.

A build runs at most three commands, always in the same order, and only the last one decides whether
there is a library: nothing behind it can fail.
-/

namespace ZigNif

open Build ZigNif.Path

namespace Pipeline

variable {t : Toolchain} {h : Host} {o : Options} {w w' : Workspace} {m m' : Module} {e : Failure}

/-! ## Places and commands -/

section Commands

variable (t : Toolchain) (h : Host) (o : Options)

/-- The path of the staged source. -/
def stagedPath : Path :=
  (Staging.directory h t.stagingRoot o.env o.module).join (.ofText (Staging.sourceName o.module))

/-- The directory of the files that a build writes for the compiler. -/
def directory : Path := (stagedPath t h o).parent

/-- The path of the harness. -/
def harnessPath : Path := (directory t h o).join (.ofText Harness.fileName)

/-- The path of the entry file. -/
def entryPath : Path := (directory t h o).join (.ofText Toolchain.entryName)

/-- The path of the library. -/
def libraryPath : Path :=
  (directory t h o).join (.ofText (Toolchain.libraryName Toolchain.platform o.module))

/-- Has the harness report on the staged source. -/
def reportCall : Call where
  words := [t.executable, "run", (harnessPath t h o).text]
  directory := some (directory t h o).text

/-- Has the entry file formatted. -/
def formatCall : Call where
  words := [t.executable, "fmt", (entryPath t h o).text]

/-- Has the library built from the entry file. -/
def libraryCall : Call where
  words :=
    [t.executable, "build-lib", "-dynamic", "-O", t.optimize,
      "-femit-bin=" ++ (libraryPath t h o).text] ++
      t.extraArgs ++ [(entryPath t h o).text]
  directory := some (directory t h o).text

/-- The commands of a build, in order. -/
def calls : List Call := [reportCall t h o, formatCall t h o, libraryCall t h o]

end Commands

theorem isClean_stagedPath : (stagedPath t h o).IsClean :=
  isClean_join (isClean_ofText _) (isClean_ofText _)

theorem isClean_directory : (directory t h o).IsClean := isClean_parent isClean_stagedPath

theorem isClean_harnessPath : (harnessPath t h o).IsClean :=
  isClean_join isClean_directory (isClean_ofText _)

theorem isClean_entryPath : (entryPath t h o).IsClean :=
  isClean_join isClean_directory (isClean_ofText _)

theorem isClean_libraryPath : (libraryPath t h o).IsClean :=
  isClean_join isClean_directory (isClean_ofText _)

/-! ## The stages that run commands -/

/-- The module is that of the options, and staged. -/
structure IsStaged (t : Toolchain) (h : Host) (o : Options) (m : Module) : Prop where
  name : m.name = o.module
  file : m.file = o.file
  options : m.options = o
  stagedPath : m.stagedPath = some (stagedPath t h o)

/-- A module that is staged is never out of order. -/
theorem IsStaged.stagedPath_eq (hm : IsStaged t h o m) (stage : Stage) :
    Toolchain.stagedPath m stage = pure (Pipeline.stagedPath t h o) := by
  rw [Toolchain.stagedPath, hm.stagedPath]

/-- The module with the report that a command gives. -/
def askReport (c : Call) (m : Module) : Build Module := do
  let reply ← call c
  if reply.code ≠ 0 then throw (Toolchain.failure "sema" reply.errors m)
  note "sema" ("sema for " ++ m.name ++ ": " ++ Text.trim reply.output)
  let limit := (← read).stack.values
  let reported ← Build.ofExcept (Report.ofTextWithin limit (some m.file) reply.output)
  pure { m with reported := some reported }

/-- Writes the harness for the staged source. -/
def writeHarness (t : Toolchain) (h : Host) (o : Options) : Build Unit :=
  writeText (harnessPath t h o) (Harness.source (stagedPath t h o).name)

/-- The harness is written first, and then the report is asked for. -/
theorem withReport_eq (hm : IsStaged t h o m) :
    t.withReport m = (do writeHarness t h o; askReport (reportCall t h o) m) := by
  rw [Toolchain.withReport, hm.stagedPath_eq, pure_bind]
  simp only [askReport, reportCall, writeHarness, harnessPath, directory]

/-- What a report comes to, if so many arrays and objects may be nested in it. -/
def reportResult (limit : Nat) (reply : Reply) (m : Module) : Except Failure Module := do
  let reply ← reply.read
  if reply.code ≠ 0 then .error (Toolchain.failure "sema" reply.errors m)
  else (Report.ofTextWithin limit (some m.file) reply.output).map fun reported =>
    { m with reported := some reported }

/-- A report adds its exports to the module, and changes nothing else in it. -/
theorem exists_of_reportResult {limit : Nat} {reply : Reply}
    (hm : reportResult limit reply m = .ok m') :
    ∃ exports, m' = { m with reported := some exports } := by
  obtain ⟨reply', -, hm⟩ := bind_eq_ok_iff.mp hm
  split at hm
  · cases hm
  · obtain ⟨exports, -, rfl⟩ := map_eq_ok_iff.mp hm
    exact ⟨exports, rfl⟩

/-- Asking runs one command, whatever it answers. -/
theorem runIn_askReport (c : Call) : ∃ log, (askReport c m).runIn h w =
    (reportResult h.stack.values (h.run c) m, { w with calls := w.calls ++ [c], log }) := by
  simp only [askReport, runIn_bind, runIn_call, reportResult]
  cases hread : (h.run c).read with
  | error e => exact ⟨w.log, rfl⟩
  | ok reply =>
    simp only [ok_bind]
    split
    · exact ⟨w.log, rfl⟩
    · simp only [runIn_bind, runIn_note, runIn_read, runIn_ofExcept]
      cases Report.ofTextWithin h.stack.values (some m.file) reply.output with
      | error e => exact ⟨_, rfl⟩
      | ok reported => exact ⟨_, rfl⟩

/-- **The report is asked for once, if its harness can be written.** -/
theorem runIn_withReport (hm : IsStaged t h o m) :
    (∃ e w₁, (writeHarness t h o).runIn h w = (.error e, w₁) ∧
      (t.withReport m).runIn h w = (.error e, w₁)) ∨
    ∃ w₁ log, (writeHarness t h o).runIn h w = (.ok (), w₁) ∧
      (t.withReport m).runIn h w = (reportResult h.stack.values (h.run (reportCall t h o)) m,
        { w₁ with calls := w₁.calls ++ [reportCall t h o], log }) := by
  rw [withReport_eq hm, runIn_bind]
  rcases (writeHarness t h o).runIn h w with ⟨e | _, w₁⟩
  · exact .inl ⟨e, w₁, rfl, rfl⟩
  · obtain ⟨log, hask⟩ := runIn_askReport (h := h) (w := w₁) (m := m) (reportCall t h o)
    exact .inr ⟨w₁, log, rfl, hask⟩

/-- The entry file is written and then formatted. -/
theorem precompile_eq (hm : IsStaged t h o m) {entry : Text}
    (hentry : Glue.renderEntry m = .ok entry) :
    t.precompile m = (do
      writeText (entryPath t h o) entry
      t.format (entryPath t h o)
      note "compiler" ("wrote module code to " ++ (entryPath t h o).text)) := by
  rw [Toolchain.precompile, hm.stagedPath_eq, pure_bind, hentry]
  simp only [entryPath, directory, Build.ofExcept, pure_bind]

/-- Formatting fails only if the answer of the compiler cannot be read. -/
theorem runIn_format : ∃ log, (t.format (entryPath t h o)).runIn h w =
    ((h.run (formatCall t h o)).read.map fun _ => (),
      { w with calls := w.calls ++ [formatCall t h o], log }) := by
  simp only [Toolchain.format, runIn_bind, runIn_call, formatCall]
  cases (h.run { words := [t.executable, "fmt", (entryPath t h o).text] }).read with
  | error e => exact ⟨w.log, rfl⟩
  | ok reply =>
    simp only
    split
    · exact ⟨_, rfl⟩
    · exact ⟨_, rfl⟩

/-- **The entry file is formatted once, if it can be written.** -/
theorem runIn_precompile (hm : IsStaged t h o m) (hfinished : Glue.IsFinished m) :
    ∃ entry, Glue.renderEntry m = .ok entry ∧
      ((∃ e w₁, (writeText (entryPath t h o) entry).runIn h w = (.error e, w₁) ∧
        (t.precompile m).runIn h w = (.error e, w₁)) ∨
      ∃ w₁ log, (writeText (entryPath t h o) entry).runIn h w = (.ok (), w₁) ∧
        (t.precompile m).runIn h w = ((h.run (formatCall t h o)).read.map fun _ => (),
          { w₁ with calls := w₁.calls ++ [formatCall t h o], log })) := by
  obtain ⟨entry, hentry⟩ := Glue.exists_renderEntry hfinished
  refine ⟨entry, hentry, ?_⟩
  rw [precompile_eq hm hentry, runIn_bind]
  rcases (writeText (entryPath t h o) entry).runIn h w with ⟨e | _, w₁⟩
  · exact .inl ⟨e, w₁, rfl, rfl⟩
  · obtain ⟨log, hformat⟩ := runIn_format (t := t) (h := h) (o := o) (w := w₁)
    simp only [runIn_bind, hformat]
    refine .inr ⟨w₁, ?_⟩
    cases (h.run (formatCall t h o)).read with
    | error e => exact ⟨log, rfl, rfl⟩
    | ok reply => exact ⟨_, rfl, rfl⟩

/-- What building the library comes to. -/
def libraryResult (t : Toolchain) (h : Host) (o : Options) (m : Module) :
    Except Failure Module := do
  let reply ← (h.run (libraryCall t h o)).read
  if reply.code ≠ 0 then .error (Toolchain.failure "compile" reply.errors m)
  else .ok { m with libraryPath := some (libraryPath t h o).text }

/-- **The library is built if and only if its command succeeds.** -/
theorem runIn_compile (hm : IsStaged t h o m) : ∃ log, (t.compile m).runIn h w =
    (libraryResult t h o m, { w with calls := w.calls ++ [libraryCall t h o], log }) := by
  rw [Toolchain.compile, hm.stagedPath_eq, pure_bind, libraryResult, libraryCall, libraryPath,
    entryPath, directory]
  simp only [hm.name, runIn_bind, runIn_note, runIn_call]
  rcases (h.run _).read with e | reply
  · exact ⟨_, rfl⟩
  · simp only [ok_bind]
    split
    · exact ⟨_, rfl⟩
    · exact ⟨_, rfl⟩

/-- There is a library if its command succeeded, and its answer could be read. -/
theorem libraryResult_eq_ok_iff : libraryResult t h o m = .ok m' ↔
    (h.run (libraryCall t h o)).fault = none ∧ (h.run (libraryCall t h o)).code = 0 ∧
      m' = { m with libraryPath := some (libraryPath t h o).text } := by
  simp only [libraryResult, bind_eq_ok_iff, Reply.read_eq_ok_iff]
  constructor
  · rintro ⟨reply, ⟨hfault, rfl⟩, hm⟩
    split at hm
    · cases hm
    · rename_i hcode
      exact ⟨hfault, not_not.mp hcode, (Except.ok.inj hm).symm⟩
  · rintro ⟨hfault, hcode, rfl⟩
    exact ⟨_, ⟨hfault, rfl⟩, if_neg (not_not.mpr hcode)⟩

/-! ## How far a build comes -/

theorem isStaged_of_stage {declared : Declared} {code : Text}
    (hm : (Staging.stage t.stagingRoot (Module.ofOptions o declared) code).runIn h w =
      (.ok m, w')) : IsStaged t h o m := by
  obtain ⟨rfl, -⟩ := Staging.exists_of_stage hm
  exact ⟨rfl, rfl, rfl, rfl⟩

/-- The options are accepted: the code can be read, and the list of nifs has a normal form. -/
structure Accepted (h : Host) (o : Options) (w : Workspace) where
  code : Text
  source : o.source.runIn h w = (.ok code, w)
  declared : Declared
  normal : o.declared = .ok declared

/-- The code is staged, and its lines are numbered. -/
structure Numbered (t : Toolchain) (h : Host) (o : Options) (w : Workspace) extends
    Accepted h o w where
  staged : Module
  atStaged : Workspace
  stage : (Staging.stage t.stagingRoot (Module.ofOptions o declared) code).runIn h w =
    (.ok staged, atStaged)
  numbered : Module
  number : staged.withManifest code = .ok numbered

/-- The compiler has reported. -/
structure Reported (t : Toolchain) (h : Host) (o : Options) (w : Workspace) extends
    Numbered t h o w where
  reported : Module
  atReported : Workspace
  report : (t.withReport numbered).runIn h atStaged = (.ok reported, atReported)

/-- The code is parsed, its imports are found, and the nifs are verified. -/
structure Verified (t : Toolchain) (h : Host) (o : Options) (w : Workspace) extends
    Reported t h o w where
  parsed : Module
  atParsed : Workspace
  parse : (reported.withParsed code).runIn h atReported = (.ok parsed, atParsed)
  verified : Module
  atVerified : Workspace
  verify : parsed.verify.runIn h atParsed = (.ok verified, atVerified)

/-- The module that the entry file is written for. -/
def Verified.module (v : Verified t h o w) : Module := v.verified.withNifResources.withDocs

/-- The entry file is written; `atLibrary` is the workspace that the library is built in. -/
structure Assembled (t : Toolchain) (h : Host) (o : Options) (w : Workspace) extends
    Verified t h o w where
  atLibrary : Workspace
  precompile : (t.precompile toVerified.module).runIn h atVerified = (.ok (), atLibrary)

/-- The build stops with a failure, in a workspace. -/
inductive Stops (t : Toolchain) (h : Host) (o : Options) (w : Workspace) :
    Failure → Workspace → Prop
  | source {e : Failure} (stop : o.source.runIn h w = (.error e, w)) : Stops t h o w e w
  | normal {code : Text} {e : BuildError} (source : o.source.runIn h w = (.ok code, w))
    (stop : o.declared = .error e) : Stops t h o w (.build e) w
  | staging (a : Accepted h o w) {e : Failure} {w' : Workspace}
    (stop : (Staging.stage t.stagingRoot (Module.ofOptions o a.declared) a.code).runIn h w =
      (.error e, w')) : Stops t h o w e w'
  | number (a : Accepted h o w) {staged : Module} {w' : Workspace} {e : Failure}
    (stage : (Staging.stage t.stagingRoot (Module.ofOptions o a.declared) a.code).runIn h w =
      (.ok staged, w')) (stop : staged.withManifest a.code = .error e) : Stops t h o w e w'
  | report (n : Numbered t h o w) {e : Failure} {w' : Workspace}
    (stop : (t.withReport n.numbered).runIn h n.atStaged = (.error e, w')) : Stops t h o w e w'
  | parse (r : Reported t h o w) {e : Failure} {w' : Workspace}
    (stop : (r.reported.withParsed r.code).runIn h r.atReported = (.error e, w')) :
    Stops t h o w e w'
  | verify (r : Reported t h o w) {parsed : Module} {atParsed w' : Workspace} {e : Failure}
    (parse : (r.reported.withParsed r.code).runIn h r.atReported = (.ok parsed, atParsed))
    (stop : parsed.verify.runIn h atParsed = (.error e, w')) : Stops t h o w e w'
  | entry (v : Verified t h o w) {e : Failure} {w' : Workspace}
    (stop : (t.precompile v.module).runIn h v.atVerified = (.error e, w')) : Stops t h o w e w'
  | library (a : Assembled t h o w) {e : Failure} {w' : Workspace}
    (stop : (t.compile a.module).runIn h a.atLibrary = (.error e, w')) : Stops t h o w e w'

/-! ## The modules on the way -/

/-- What keeps name, file, options and staged path of a module keeps it staged. -/
theorem IsStaged.of_eq_ok {m₁ : Module} (hm : IsStaged t h o m) (hname : m₁.name = m.name)
    (hfile : m₁.file = m.file) (hoptions : m₁.options = m.options)
    (hstaged : m₁.stagedPath = m.stagedPath) : IsStaged t h o m₁ :=
  ⟨hname.trans hm.name, hfile.trans hm.file, hoptions.trans hm.options, hstaged.trans hm.stagedPath⟩

theorem Numbered.isStaged (n : Numbered t h o w) : IsStaged t h o n.numbered := by
  obtain ⟨manifest, -, hnumbered⟩ := Module.exists_withManifest_eq n.number
  rw [hnumbered]
  exact (isStaged_of_stage n.stage).of_eq_ok rfl rfl rfl rfl

/-- What a report gives: exports for the module, and one command that was run behind the harness. -/
theorem Reported.exists_exports (r : Reported t h o w) : ∃ exports,
    reportResult h.stack.values (h.run (reportCall t h o)) r.numbered =
      .ok { r.numbered with reported := some exports } ∧
    r.reported = { r.numbered with reported := some exports } ∧
    ∃ w₁ log, (writeHarness t h o).runIn h r.atStaged = (.ok (), w₁) ∧
      r.atReported = { w₁ with calls := w₁.calls ++ [reportCall t h o], log } := by
  rcases runIn_withReport (w := r.atStaged) r.toNumbered.isStaged with
    ⟨e, w₁, -, hrun⟩ | ⟨w₁, log, hwrite, hrun⟩
  · rw [r.report] at hrun
    cases hrun
  · rw [r.report, Prod.mk.injEq] at hrun
    obtain ⟨exports, hr⟩ := exists_of_reportResult hrun.1.symm
    exact ⟨exports, hr ▸ hrun.1.symm, hr, w₁, log, hwrite, hrun.2⟩

theorem Reported.isStaged (r : Reported t h o w) : IsStaged t h o r.reported := by
  obtain ⟨exports, -, hr, -⟩ := r.exists_exports
  rw [hr]
  exact r.toNumbered.isStaged.of_eq_ok rfl rfl rfl rfl

/-- What parsing gives: the declarations of the code, and the files that the walk over its imports
found. -/
theorem Reported.exists_parsed (r : Reported t h o w) {parsed : Module}
    (hparse : (r.reported.withParsed r.code).runIn h r.atReported = (.ok parsed, w')) :
    ∃ source log, Source.parseFile (some o.file) r.code = .ok source ∧
      (importWalk h r.atReported.files o.sourcePath.text source).2 = none ∧
      parsed = { r.reported with
        parsed := some source
        dependencies := (importWalk h r.atReported.files o.sourcePath.text source).1.names } ∧
      w' = { r.atReported with log } := by
  have hr := r.isStaged
  rcases Module.runIn_withParsed (h := h) (w := r.atReported) (m := r.reported) r.code with
    ⟨fault, e, -, -, hrun⟩ | ⟨-, hrun⟩ | ⟨source, log, -, hsource, hrun⟩
  · rw [hparse] at hrun
    cases hrun
  · rw [hparse] at hrun
    cases hrun
  · have hpath : r.reported.options.sourcePath = o.sourcePath := by rw [hr.options]
    rw [hparse, Prod.mk.injEq, hpath] at hrun
    rw [hr.file] at hsource
    cases hstop : (importWalk h r.atReported.files o.sourcePath.text source).2 with
    | some e => rw [hstop] at hrun; cases hrun.1
    | none =>
      rw [hstop] at hrun
      exact ⟨source, log, hsource, hstop, Except.ok.inj hrun.1, hrun.2⟩

theorem Reported.exists_reported_of_parse (r : Reported t h o w) {parsed : Module}
    (hparse : (r.reported.withParsed r.code).runIn h r.atReported = (.ok parsed, w')) :
    ∃ exports, parsed.reported = some exports := by
  obtain ⟨exports, -, hr, -⟩ := r.exists_exports
  obtain ⟨source, log, -, -, hparsed, -⟩ := r.exists_parsed hparse
  exact ⟨exports, by rw [hparsed, hr]⟩

/-- Verification that fails gives a build error, and leaves everything as it was. -/
theorem Reported.of_verify_eq_error (r : Reported t h o w) {parsed : Module}
    {atParsed : Workspace}
    (hparse : (r.reported.withParsed r.code).runIn h r.atReported = (.ok parsed, atParsed))
    (hstop : parsed.verify.runIn h atParsed = (.error e, w')) :
    (∃ b, e = .build b) ∧ w' = atParsed :=
  have ⟨_, hreported⟩ := r.exists_reported_of_parse hparse
  Module.of_verify_eq_error hreported hstop

/-- What verifying gives. -/
theorem Verified.exists_nifs (v : Verified t h o w) :
    ∃ nifs log, nifs ≠ [] ∧ v.verified = { v.parsed with nifs } ∧
      v.atVerified = { v.atParsed with log } := by
  obtain ⟨exports, hreported⟩ := v.exists_reported_of_parse v.parse
  rcases Module.runIn_verify (h := h) (w := v.atParsed) hreported with
    ⟨e, hrun⟩ | ⟨nifs, log, hnifs, hrun⟩
  · rw [v.verify] at hrun
    cases hrun
  · rw [v.verify, Prod.mk.injEq] at hrun
    exact ⟨nifs, log, hnifs, Except.ok.inj hrun.1, hrun.2⟩

theorem Verified.isStaged (v : Verified t h o w) : IsStaged t h o v.module := by
  obtain ⟨source, -, -, -, hparsed, -⟩ := v.exists_parsed v.parse
  obtain ⟨nifs, -, -, hverified, -⟩ := v.exists_nifs
  refine v.toReported.isStaged.of_eq_ok ?_ ?_ ?_ ?_ <;>
    simp [module, Module.withDocs, Module.withNifResources, hverified, hparsed]

/-- **No guard of the renderers stops a build that was verified.** -/
theorem Verified.isFinished (v : Verified t h o w) : Glue.IsFinished v.module := by
  obtain ⟨source, -, -, -, hparsed, -⟩ := v.exists_parsed v.parse
  obtain ⟨nifs, -, hnifs, hverified, -⟩ := v.exists_nifs
  refine Module.isFinished_withDocs ?_ ?_
  · rw [hverified]
    exact hnifs
  · rw [hverified, hparsed]
    rfl

/-! ## How a build ends -/

/-- A build without the handler of its build errors. -/
def body (t : Toolchain) (o : Options) : Build Compiled := do
  let code ← o.source
  compile t o code

/-- **A build stops at one of its stages, or its library is built.** -/
theorem body_cases :
    (∃ e w', Stops t h o w e w' ∧ (body t o).runIn h w = (.error e, w')) ∨
    ∃ (a : Assembled t h o w) (rendered : Text) (log : List LogLine),
      ((h.run (libraryCall t h o)).fault = none ∧ (h.run (libraryCall t h o)).code = 0) ∧
      (body t o).runIn h w =
        (.ok ⟨{ a.module with libraryPath := some (libraryPath t h o).text, manifest := none },
            rendered⟩,
          { a.atLibrary with calls := a.atLibrary.calls ++ [libraryCall t h o], log }) := by
  generalize hrun : (body t o).runIn h w = result
  simp only [body, compile, runIn_bind, runIn_ofBuild, runIn_ofExcept] at hrun
  rcases hsource : o.source.runIn h w with ⟨e | code, w₁⟩ <;> rw [hsource] at hrun <;>
    obtain rfl : w₁ = w := by
      simpa [hsource] using Options.runIn_source_snd (h := h) (w := w) (o := o)
  · exact .inl ⟨e, _, .source hsource, hrun.symm⟩
  rcases hdeclared : o.declared with e | declared <;> rw [hdeclared] at hrun
  · exact .inl ⟨_, _, .normal hsource hdeclared, hrun.symm⟩
  let a : Accepted h o w₁ := ⟨code, hsource, declared, hdeclared⟩
  simp only [mapError_ok] at hrun
  rcases hstage : (Staging.stage t.stagingRoot (Module.ofOptions o declared) code).runIn h w₁ with
    ⟨e | staged, atStaged⟩ <;> rw [hstage] at hrun
  · exact .inl ⟨_, _, .staging a hstage, hrun.symm⟩
  rcases hnumber : staged.withManifest code with e | numbered <;> simp only [hnumber] at hrun
  · exact .inl ⟨_, _, .number a hstage hnumber, hrun.symm⟩
  let n : Numbered t h o w₁ := ⟨a, staged, atStaged, hstage, numbered, hnumber⟩
  rcases hreport : (t.withReport numbered).runIn h atStaged with ⟨e | reported, atReported⟩ <;>
    rw [hreport] at hrun
  · exact .inl ⟨_, _, .report n hreport, hrun.symm⟩
  let r : Reported t h o w₁ := ⟨n, reported, atReported, hreport⟩
  rcases hparse : (reported.withParsed code).runIn h atReported with ⟨e | parsed, atParsed⟩ <;>
    simp only [hparse] at hrun
  · exact .inl ⟨_, _, .parse r hparse, hrun.symm⟩
  rcases hverify : parsed.verify.runIn h atParsed with ⟨e | verified, atVerified⟩ <;>
    rw [hverify] at hrun
  · exact .inl ⟨_, _, .verify r hparse hverify, hrun.symm⟩
  let v : Verified t h o w₁ := ⟨r, parsed, atParsed, hparse, verified, atVerified, hverify⟩
  rcases hprecompile : (t.precompile verified.withNifResources.withDocs).runIn h atVerified with
    ⟨e | _, atLibrary⟩ <;> simp only [hprecompile] at hrun
  · exact .inl ⟨_, _, .entry v hprecompile, hrun.symm⟩
  let b : Assembled t h o w₁ := ⟨v, atLibrary, hprecompile⟩
  obtain ⟨log, hcompile⟩ := runIn_compile (w := atLibrary) v.isStaged
  rw [show verified.withNifResources.withDocs = v.module from rfl, hcompile] at hrun
  cases hlibrary : libraryResult t h o v.module with
  | error e =>
    rw [hlibrary] at hcompile hrun
    exact .inl ⟨_, _, .library b hcompile, hrun.symm⟩
  | ok built =>
    obtain ⟨hfault, hcode, rfl⟩ := libraryResult_eq_ok_iff.mp hlibrary
    rw [hlibrary] at hrun
    obtain ⟨rendered, hrendered⟩ : ∃ rendered, Glue.render (Module.withoutManifest { v.module with
        libraryPath := some (libraryPath t h o).text }) = .ok rendered :=
      Glue.exists_render v.isFinished
    simp only [hrendered] at hrun
    exact .inr ⟨b, rendered, _, ⟨hfault, hcode⟩, hrun.symm⟩

/-- There is no other way to stop: what `Stops` says of a build is what it does. -/
theorem Stops.runIn_body (hs : Stops t h o w e w') : (body t o).runIn h w = (.error e, w') := by
  simp only [body, compile, runIn_bind, runIn_ofBuild, runIn_ofExcept]
  cases hs with
  | source stop => rw [stop]
  | normal source stop => simp only [source, stop, mapError_error]
  | staging a stop => simp only [a.source, a.normal, mapError_ok, stop]
  | number a stage stop => simp only [a.source, a.normal, mapError_ok, stage, stop]
  | report n stop => simp only [n.source, n.normal, mapError_ok, n.stage, n.number, stop]
  | parse r stop => simp only [r.source, r.normal, mapError_ok, r.stage, r.number, r.report, stop]
  | verify r parse stop =>
    simp only [r.source, r.normal, mapError_ok, r.stage, r.number, r.report, parse, stop]
  | entry v stop =>
    rw [Verified.module] at stop
    simp only [v.source, v.normal, mapError_ok, v.stage, v.number, v.report, v.parse, v.verify,
      stop]
  | library a stop =>
    have hprecompile := a.precompile
    rw [Verified.module] at stop hprecompile
    simp only [a.source, a.normal, mapError_ok, a.stage, a.number, a.report, a.parse, a.verify,
      hprecompile, stop]

/-- What a failure makes of a build: a build error is an outcome, anything else leaves the build. -/
def conclude (o : Options) (e : Failure) (w : Workspace) : Except Failure Outcome × Workspace :=
  match e with
  | .build error => (.ok (.aborted error), { w with
      log := w.log ++ [⟨"compiler", "build of " ++ o.module ++ " aborted: " ++ error.reason⟩] })
  | e => (.error e, w)

/-- All failures but build errors leave a build. -/
theorem conclude_eq_error_iff {e' : Failure} :
    (conclude o e w).1 = .error e' ↔ e = e' ∧ ∀ b, e ≠ .build b := by
  cases e with
  | build b => exact iff_of_false nofun fun ⟨_, hb⟩ => hb b rfl
  | _ => simp [conclude]

/-- What is rendered is the outcome of a build, and its failures are concluded. -/
theorem runIn_run : (run t o).runIn h w =
    match (body t o).runIn h w with
    | (.ok compiled, w₁) => (.ok (.rendered compiled), w₁)
    | (.error e, w₁) => conclude o e w₁ := by
  simp only [run, runIn_tryCatch, body, runIn_bind]
  rcases o.source.runIn h w with ⟨e | code, w₁⟩
  · cases e <;> rfl
  · simp only
    rcases (compile t o code).runIn h w₁ with ⟨e | compiled, w₂⟩
    · cases e <;> rfl
    · rfl

/-- **A build stops at one of its stages and concludes, or it renders its glue code.** -/
theorem run_cases :
    (∃ e w', Stops t h o w e w' ∧ (run t o).runIn h w = conclude o e w') ∨
    ∃ (a : Assembled t h o w) (rendered : Text) (log : List LogLine),
      ((h.run (libraryCall t h o)).fault = none ∧ (h.run (libraryCall t h o)).code = 0) ∧
      (run t o).runIn h w =
        (.ok (.rendered ⟨{ a.module with
            libraryPath := some (libraryPath t h o).text, manifest := none }, rendered⟩),
          { a.atLibrary with calls := a.atLibrary.calls ++ [libraryCall t h o], log }) := by
  rw [runIn_run]
  rcases body_cases (t := t) (h := h) (o := o) (w := w) with
    ⟨e, w', hstops, hrun⟩ | ⟨a, rendered, log, hreply, hrun⟩
  · exact .inl ⟨e, w', hstops, by rw [hrun]⟩
  · exact .inr ⟨a, rendered, log, hreply, by rw [hrun]⟩

end Pipeline

end ZigNif
