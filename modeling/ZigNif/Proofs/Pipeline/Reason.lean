import ZigNif.Proofs.Pipeline.Escape

/-!
# Proofs/Pipeline/Reason — the stages that build errors come from

The reason code of a build error tells which stages it can come from.  Errors in the configuration
are found before anything is staged, with one exception: the mode that the author sets for a nif is
looked at when the nif is verified, and by then the compiler has reported.
-/

namespace ZigNif

open Build BuildError

variable {t : Toolchain} {h : Host} {o : Options} {w w' : Workspace} {m : Module}
  {file : Option Text} {text : Text} {b : BuildError} {e : Failure}

/-! ## Reasons of single stages -/

/-- A build error of reading a file is what the caller complains with. -/
theorem Build.exists_eq_of_readTextOr {complain : Text → BuildError} {p : Path}
    (hb : ((readTextOr complain p).runIn h w).1 = .error (.build b)) : ∃ why, b = complain why := by
  simp only [readTextOr, runIn_bind, runIn_read, runIn_get] at hb
  cases hfile : fileText h w.files p with
  | ok code => rw [hfile] at hb; cases hb
  | error failure =>
    simp only [hfile] at hb
    cases hfault : readFault? failure with
    | some why =>
      rw [hfault] at hb
      cases hb
      exact ⟨why, rfl⟩
    | none =>
      rw [hfault] at hb
      obtain rfl := eq_nullByte_of_fileText hfile ((readFault?_eq_none_iff hfile).mp hfault)
      cases hb

namespace Options

/-- All that is wrong with where the code is from is an error in the configuration, and about no
nif. -/
theorem reason_of_source (hb : (o.source.runIn h w).1 = .error (.build b)) :
    b.reason = configReason ∧ b.nif = none := by
  unfold source at hb
  split at hb
  · cases hb
    exact ⟨rfl, rfl⟩
  · obtain ⟨why, rfl⟩ := exists_eq_of_readTextOr hb
    exact ⟨rfl, rfl⟩
  · cases hb
  · cases hb
    exact ⟨rfl, rfl⟩

theorem reason_of_declared (hb : o.declared = .error b) :
    b.reason = configReason ∧ b.nif = none := by
  unfold declared at hb
  split at hb
  · cases hb
  · cases hb
    exact ⟨rfl, rfl⟩

end Options

theorem Toolchain.reason_of_failure {what output : Text} (hb : failure what output m = .build b) :
    b.reason = compileReason := by
  simp only [failure, Diagnostic.failure] at hb
  cases hremap : Diagnostic.remap output (m.stagedPath.map Path.text) m.manifest with
  | ok r => rw [hremap] at hb; cases hb; rfl
  | error fault => rw [hremap] at hb; cases hb

theorem Source.reason_of_parseFile (hb : parseFile file text = .error b) :
    b.reason = parseReason := by
  unfold parseFile at hb
  split at hb
  · cases hb
  · cases hb
    rfl

theorem Source.reason_of_parseFileWithin {limit : Nat}
    (hb : parseFileWithin limit file text = .error (.build b)) : b.reason = parseReason := by
  rcases parseFileWithin_eq_error_iff.mp hb with ⟨-, heq⟩ | ⟨-, fault, hparse, heq⟩
  · cases heq
  · cases heq
    exact reason_of_parseFile hparse

namespace Import

variable {s : Shelf} {g : Ground}

/-- A walk along imports stops with a dependency that cannot be read, or one that cannot be parsed.
-/
theorem reason_of_readDeps {referrer : Text} {deps : List Text} {walk : Walk}
    (hb : (readDeps s g referrer deps walk).2 = some (.build b)) :
    b.reason = dependencyReason ∨ b.reason = parseReason := by
  obtain ⟨dep, -, -, ⟨-, hnull⟩ | ⟨why, -, hbuild⟩ | ⟨text, -, hparse⟩⟩ :=
    readDeps_stop_cases (Prod.ext rfl hb)
  · cases hnull
  · cases hbuild
    exact .inl rfl
  · exact .inr (Source.reason_of_parseFileWithin hparse)

theorem reason_of_walk {walk : Walk} (hb : (Import.walk s g walk).2 = some (.build b)) :
    b.reason = dependencyReason ∨ b.reason = parseReason := by
  fun_induction Import.walk s g walk with
  | case1 walk hp => cases hb
  | case2 walk referrer deps rest hp walk' failure hr =>
    exact reason_of_readDeps ((congrArg Prod.snd hr).trans hb)
  | case3 walk referrer deps rest hp walk' hr ih => exact ih hb

end Import

theorem Module.reason_of_withParsed {code : Text}
    (hb : ((m.withParsed code).runIn h w).1 = .error (.build b)) :
    b.reason = dependencyReason ∨ b.reason = parseReason := by
  simp only [withParsed, runIn_bind, runIn_read] at hb
  cases hparse : Source.parseFileWithin (h.stack.groups + 1) (some m.file) code with
  | error failure =>
    rw [hparse] at hb
    cases failure with
    | build fault =>
      have hfault := Source.reason_of_parseFileWithin hparse
      simp only at hb
      split at hb
      · cases hb
        exact .inr hfault
      · cases hb
        exact .inr hfault
    | _ => cases hb
  | ok parsed =>
    obtain ⟨log, hrun⟩ := runIn_imports (h := h) (w := w) m.options.sourcePath.text parsed
    rw [hparse] at hb
    simp only [runIn_bind, hrun] at hb
    cases hstop : (importWalk h w.files m.options.sourcePath.text parsed).2 with
    | none => rw [hstop] at hb; cases hb
    | some failure =>
      rw [hstop] at hb
      cases hb
      exact Import.reason_of_walk hstop

/-- The error is about the mode that the author sets for a nif. -/
def Options.IsAboutMode (o : Options) (b : BuildError) : Prop :=
  ∃ d name options v, o.declared = .ok d ∧ (name, options) ∈ d.entries ∧
    Table.get? options Nif.modeOption = some v ∧ Mode.ofJson? v = none ∧
    b = Nif.badMode (some o.file) name v

/-- Verifying finds one kind of error in the configuration: a bad mode. -/
theorem Nif.exists_badMode_of_verify {d : Declared} {reported : List Export} {module : Option Text}
    (hb : Nif.verify d reported file module = .error b) (hreason : b.reason = configReason) :
    ∃ name options v, (name, options) ∈ d.entries ∧ Table.get? options modeOption = some v ∧
      Mode.ofJson? v = none ∧ b = badMode file name v := by
  rcases verify_eq_error_iff.mp hb with hfound | ⟨-, rfl⟩
  · cases complaint_of_found hfound with
    | missing => exact absurd hreason (show missingReason ≠ configReason by decide)
    | mode hauto hentries hbefore hname hv hmode =>
      exact ⟨_, _, _, hentries ▸ List.mem_append_right _ List.mem_cons_self, hv, hmode, rfl⟩
    | @reportedMode _ _ name _ hauto hnames hbefore hv hmode =>
      -- a name without options sets no mode
      have hsome : d.get? name = some (d.optionsOf name) := by
        rw [Declared.optionsOf] at hv ⊢
        cases hget : d.get? name with
        | none => rw [hget] at hv; cases hv
        | some options => rfl
      exact ⟨_, _, _, Table.mem_of_get? hsome, hv, hmode, rfl⟩
    | unreported => exact absurd hreason (show missingReason ≠ configReason by decide)
    | nothing => exact absurd hreason (show emptyReason ≠ configReason by decide)
  · exact absurd hreason (show emptyReason ≠ configReason by decide)

/-- Verification has three reasons to fail: a bad mode, a missing function, and nothing to export.
-/
theorem Nif.reason_of_verify {d : Declared} {reported : List Export} {module : Option Text}
    (hb : verify d reported file module = .error b) :
    b.reason = configReason ∨ b.reason = missingReason ∨ b.reason = emptyReason := by
  rcases verify_eq_error_iff.mp hb with hfound | ⟨-, rfl⟩
  · cases complaint_of_found hfound with
    | missing => exact .inr (.inl rfl)
    | mode => exact .inl rfl
    | reportedMode => exact .inl rfl
    | unreported => exact .inr (.inl rfl)
    | nothing => exact .inr (.inr rfl)
  · exact .inr (.inr rfl)

theorem Module.exists_verify_eq_error (hb : (m.verify.runIn h w).1 = .error (.build b)) :
    ∃ reported, Nif.verify m.declared reported (some m.file) (some m.name) = .error b := by
  unfold verify at hb
  split at hb
  · cases hb
  · rename_i reported hreported
    rw [runIn_bind, runIn_ofBuild] at hb
    cases hnifs : Nif.verify m.declared reported (some m.file) (some m.name) with
    | ok nifs => rw [hnifs] at hb; cases hb
    | error e =>
      rw [hnifs] at hb
      cases hb
      exact ⟨reported, hnifs⟩

/-! ## Reasons along a build -/

namespace Pipeline

theorem declared_of_stage {declared : Declared} {code : Text}
    (hm : (Staging.stage t.stagingRoot (Module.ofOptions o declared) code).runIn h w =
      (.ok m, w')) : m.declared = declared := by
  obtain ⟨rfl, -⟩ := Staging.exists_of_stage hm
  rfl

theorem Numbered.declared_numbered (n : Numbered t h o w) : n.numbered.declared = n.declared := by
  obtain ⟨manifest, -, hnumbered⟩ := Module.exists_withManifest_eq n.number
  have hstaged : n.staged.declared = n.declared := declared_of_stage n.stage
  rw [hnumbered]
  exact hstaged

/-- The nifs are verified against the list that the options were accepted with. -/
theorem Reported.declared_parsed (r : Reported t h o w) {parsed : Module}
    (hparse : (r.reported.withParsed r.code).runIn h r.atReported = (.ok parsed, w')) :
    parsed.declared = r.declared := by
  obtain ⟨exports, -, hr, -⟩ := r.exists_exports
  obtain ⟨source, log, -, -, hparsed, -⟩ := r.exists_parsed hparse
  rw [hparsed, hr]
  exact r.toNumbered.declared_numbered

theorem reason_of_reportResult {limit : Nat} {reply : Reply}
    (hb : reportResult limit reply m = .error (.build b)) : b.reason = compileReason := by
  rcases bind_eq_error_iff.mp hb with hread | ⟨reply', -, hb⟩
  · obtain ⟨fault, -, heq⟩ := Reply.read_eq_error_iff.mp hread
    cases heq
  · split at hb
    · exact Toolchain.reason_of_failure (Except.error.inj hb)
    · have hreport := map_eq_error_iff.mp hb
      rw [Report.ofTextWithin] at hreport
      split at hreport
      · cases hreport
      · exact (Report.isComplaint_of_ofText hreport).reason

theorem reason_of_withReport (hm : IsStaged t h o m)
    (hstop : (t.withReport m).runIn h w = (.error (.build b), w')) : b.reason = compileReason := by
  rcases runIn_withReport (w := w) hm with ⟨e, w₁, hwrite, hrun⟩ | ⟨w₁, log, -, hrun⟩
  · rw [hstop] at hrun
    cases hrun
    exact absurd rfl ((isFault_of_writeText hwrite).ne_build b)
  · rw [hstop] at hrun
    exact reason_of_reportResult (congrArg Prod.fst hrun).symm

theorem reason_of_compile (hm : IsStaged t h o m)
    (hstop : (t.compile m).runIn h w = (.error (.build b), w')) : b.reason = compileReason := by
  obtain ⟨log, hrun⟩ := runIn_compile (w := w) hm
  rw [hstop] at hrun
  rcases libraryResult_eq_error_iff.mp (congrArg Prod.fst hrun).symm with
    hunread | ⟨-, -, hfailure⟩
  · exact absurd rfl (hunread.ne_build b)
  · exact Toolchain.reason_of_failure hfailure.symm

/-- An error in the configuration that the verification finds is about a mode. -/
theorem Reported.isAboutMode_of_verify (r : Reported t h o w) {parsed : Module}
    {atParsed : Workspace}
    (hparse : (r.reported.withParsed r.code).runIn h r.atReported = (.ok parsed, atParsed))
    (hstop : parsed.verify.runIn h atParsed = (.error (.build b), w'))
    (hreason : b.reason = configReason) :
    o.IsAboutMode b ∧ w'.calls = w.calls ++ [reportCall t h o] ∧ HasHarness t h o w'.files := by
  obtain ⟨source, log, -, -, hparsed, hatParsed⟩ := r.exists_parsed hparse
  obtain ⟨-, hw'⟩ := r.of_verify_eq_error hparse hstop
  obtain ⟨reported, hverify⟩ := Module.exists_verify_eq_error (congrArg Prod.fst hstop)
  obtain ⟨name, options, v, hentry, hv, hmode, rfl⟩ := Nif.exists_badMode_of_verify hverify hreason
  rw [r.declared_parsed hparse] at hentry
  have hfile : parsed.file = o.file := by rw [hparsed, r.isStaged.file]
  rw [hw', hatParsed, hfile]
  exact ⟨⟨_, name, options, v, r.normal, hentry, hv, hmode, rfl⟩, r.calls_atReported, r.hasHarness⟩

/-- What a build error tells about the stage that it comes from: it is about the configuration and
nothing was done, or about a command, or the parser or the verification has stopped the build. -/
theorem Stops.build_cases (hs : Stops t h o w (.build b) w') :
    (w' = w ∧ b.reason = configReason ∧ b.nif = none) ∨ b.reason = compileReason ∨
    (∃ r : Reported t h o w,
      (r.reported.withParsed r.code).runIn h r.atReported = (.error (.build b), w')) ∨
    ∃ (r : Reported t h o w) (parsed : Module) (atParsed : Workspace),
      (r.reported.withParsed r.code).runIn h r.atReported = (.ok parsed, atParsed) ∧
      parsed.verify.runIn h atParsed = (.error (.build b), w') := by
  cases hs with
  | source stop => exact .inl ⟨rfl, Options.reason_of_source (congrArg Prod.fst stop)⟩
  | normal source stop => exact .inl ⟨rfl, Options.reason_of_declared stop⟩
  | staging a stop => exact absurd rfl (((Staging.keeps_stage ..).fails_of_eq stop).ne_build b)
  | number a stage stop =>
    obtain ⟨fault, -, hfault⟩ := Module.exists_withManifest_eq_error stop
    cases hfault
  | report n stop => exact .inr (.inl (reason_of_withReport n.isStaged stop))
  | parse r stop => exact .inr (.inr (.inl ⟨r, stop⟩))
  | verify r parse stop => exact .inr (.inr (.inr ⟨r, _, _, parse, stop⟩))
  | entry v stop =>
    obtain ⟨entry, -, hwrite | ⟨-, hunread⟩⟩ :=
      (precompile_eq_error_iff v.isStaged v.isFinished).mp (congrArg Prod.fst stop)
    · exact absurd rfl ((isFault_of_writeText (runIn_eq_of_fst hwrite)).ne_build b)
    · exact absurd rfl (hunread.ne_build b)
  | library a stop => exact .inr (.inl (reason_of_compile a.isStaged stop))

/-- **An error in the configuration stops a build before it does anything, or it is about a mode and
stops the build behind its report.** -/
theorem Stops.config (hs : Stops t h o w (.build b) w') (hreason : b.reason = configReason) :
    (w' = w ∧ b.nif = none) ∨
    (o.IsAboutMode b ∧ w'.calls = w.calls ++ [reportCall t h o] ∧ HasHarness t h o w'.files) := by
  rcases hs.build_cases with ⟨hw, -, hnif⟩ | hcompile | ⟨r, stop⟩ | ⟨r, parsed, _, parse, stop⟩
  · exact .inl ⟨hw, hnif⟩
  · exact absurd (hreason.symm.trans hcompile) (by decide)
  · rcases Module.reason_of_withParsed (congrArg Prod.fst stop) with hother | hother
    · exact absurd (hreason.symm.trans hother) (by decide)
    · exact absurd (hreason.symm.trans hother) (by decide)
  · exact .inr (r.isAboutMode_of_verify parse stop hreason)

/-- Only the parser reports faults of the source and imports that cannot be read. -/
theorem Stops.exists_reported (hs : Stops t h o w (.build b) w')
    (hreason : b.reason = parseReason ∨ b.reason = dependencyReason) :
    ∃ r : Reported t h o w,
      (r.reported.withParsed r.code).runIn h r.atReported = (.error (.build b), w') := by
  have hother : ∀ {reason : Text}, b.reason = reason → reason ≠ parseReason →
      reason ≠ dependencyReason → False := by
    intro reason heq hparse hdependency
    rcases hreason with hreason | hreason
    · exact hparse (heq.symm.trans hreason)
    · exact hdependency (heq.symm.trans hreason)
  rcases hs.build_cases with ⟨-, hconfig, -⟩ | hcompile | hstop | ⟨r, parsed, _, parse, stop⟩
  · exact (hother hconfig (by decide) (by decide)).elim
  · exact (hother hcompile (by decide) (by decide)).elim
  · exact hstop
  · obtain ⟨reported, hverify⟩ := Module.exists_verify_eq_error (congrArg Prod.fst stop)
    rcases Nif.reason_of_verify hverify with heq | heq | heq
    · exact (hother heq (by decide) (by decide)).elim
    · exact (hother heq (by decide) (by decide)).elim
    · exact (hother heq (by decide) (by decide)).elim

/-- A build that is aborted stopped at one of its stages, and left files and commands as they were
there. -/
theorem Stops.of_aborted (hrun : (run t o).runIn h w = (.ok (.aborted b), w')) :
    ∃ w₁, Stops t h o w (.build b) w₁ ∧ w'.files = w₁.files ∧ w'.calls = w₁.calls := by
  rcases run_cases (t := t) (h := h) (o := o) (w := w) with
    ⟨e, w₁, hstops, hconclude⟩ | ⟨a, rendered, log, -, hrendered⟩
  · rw [hrun] at hconclude
    cases e with
    | build error =>
      cases hconclude
      exact ⟨w₁, hstops, rfl, rfl⟩
    | _ => cases hconclude
  · rw [hrun] at hrendered
    cases hrendered

/-- **Errors in the configuration are found before anything is done, but for bad modes.**

If the error is about no declared mode, no file or directory was made or changed and no command was
run.  If it is, the build has staged the code, written the harness and asked for the report, and it
has run nothing else. -/
theorem run_config (hrun : (run t o).runIn h w = (.ok (.aborted b), w'))
    (hreason : b.reason = configReason) :
    (¬ o.IsAboutMode b → w'.files = w.files ∧ w'.calls = w.calls) ∧
    (o.IsAboutMode b → w'.calls = w.calls ++ [reportCall t h o] ∧ HasHarness t h o w'.files) := by
  obtain ⟨w₁, hstops, hfiles, hcalls⟩ := Stops.of_aborted hrun
  rw [hfiles, hcalls]
  rcases hstops.config hreason with ⟨rfl, hnif⟩ | ⟨hmode, hlate⟩
  · refine ⟨fun _ => ⟨rfl, rfl⟩, ?_⟩
    rintro ⟨d, name, options, v, -, -, -, -, rfl⟩
    cases hnif
  · exact ⟨fun hnot => absurd hmode hnot, fun _ => hlate⟩

/-- Options with two places for the code. -/
def ambiguousOptions : Options := { smallOptions with codePath := some "m.zig" }

theorem run_config_ambiguous :
    let result := (run smallToolchain ambiguousOptions).runIn obligingHost emptyWorkspace
    ∃ b, result.1 = .ok (.aborted b) ∧ b.reason = configReason ∧ ¬ ambiguousOptions.IsAboutMode b ∧
      result.2.files = emptyWorkspace.files ∧ result.2.calls = [] := by
  have hmode : ¬ ambiguousOptions.IsAboutMode (.config
      "you may not supply literal code when `code_path` is specified" ambiguousOptions.span
      (some ambiguousOptions.module)) := by
    rintro ⟨d, name, options, v, -, -, -, -, heq⟩
    cases congrArg BuildError.nif heq
  refine ⟨_, rfl, rfl, hmode, ?_⟩
  exact (run_config (t := smallToolchain) (h := obligingHost) (w := emptyWorkspace) rfl rfl).1 hmode

/-- Options with a mode that there is not, for the nif that is reported. -/
def modelessOptions : Options :=
  { smallOptions with nifs := [.arr [.str "f", .obj [("concurrency", .str "fast")]]] }

/-- The reason of an abort, and how many commands were run before it. -/
def abortion? : Except Failure Outcome × Workspace → Option (Text × Nat)
  | (.ok (.aborted b), w) => some (b.reason, w.calls.length)
  | _ => none

/-- A bad mode is found behind the report. -/
theorem late_config_of_badMode : ¬ ∀ t h o w b w',
    (run t o).runIn h w = (.ok (.aborted b), w') → b.reason = configReason →
      w'.files = w.files ∧ w'.calls = w.calls := by
  intro hearly
  have hlate : abortion? ((run smallToolchain modelessOptions).runIn obligingHost emptyWorkspace) =
      some (configReason, 1) := by
    rw [run_eq_spelledRun]
    decide +kernel
  generalize hrun : (run smallToolchain modelessOptions).runIn obligingHost emptyWorkspace = result
    at hlate
  obtain ⟨outcome, w'⟩ := result
  unfold abortion? at hlate
  split at hlate
  · rename_i b _ heq
    cases heq
    obtain ⟨hreason, hcalls⟩ := Prod.mk.inj (Option.some.inj hlate)
    rw [(hearly _ _ _ _ b w' hrun hreason).2] at hcalls
    cases hcalls
  · cases hlate

end Pipeline

end ZigNif
