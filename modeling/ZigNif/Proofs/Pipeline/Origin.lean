import ZigNif.Proofs.Import.Dependency
import ZigNif.Proofs.Import.Stop
import ZigNif.Proofs.Manifest.Rows
import ZigNif.Proofs.Pipeline.Reason
import ZigNif.Proofs.Source.Level

/-!
# Proofs/Pipeline/Origin — where the faults of the staged source are reported

The manifest knows which of the author's files a line of the staged source comes from.  A fault that
the parser finds is reported there.  An import whose file cannot be read is not: it is reported in
the path that imports are relative to, and that is the file that the import comes from only if the
two happen to be spelled alike.
-/

namespace ZigNif

open Build BuildError

/-! ## The path that imports are relative to -/

/-- Without a directory, imports of literal code are relative to the author's file. -/
theorem Options.sourcePath_of_dir {o : Options} (hpath : o.codePath = none)
    (hdir : Span.named o.dir = none) : o.sourcePath = .ofText o.file := by
  have hclean := Path.isClean_ofText o.file
  rw [sourcePath, hpath, codeDirectory, hdir, Option.getD_none, fileDirectory,
    Path.ofText_text (Path.isClean_parent hclean), Path.join_parent hclean]

/-! ## The files that rows come from -/

namespace Manifest

/-- The author's file that a staged line comes from. -/
def origin (m : Manifest) (line : Int) : Text :=
  ((m.segmentAt? line).map Segment.file).getD m.file

theorem file_resolve (m : Manifest) (line : Int) (column : Option Int) :
    (m.resolve line column).file = some (m.origin line) := by
  rw [resolve, origin]
  cases m.segmentAt? line <;> rfl

end Manifest

namespace Source

/-- The token is an import of the file in the code. -/
structure Imports (code : Text) (tok : Token) (dep : Text) : Prop where
  mem : tok ∈ (lex code).tokens
  terminal : tok.terminal = .importCall
  target : importTarget tok = .ok dep

theorem exists_imports {code dep : Text} {parsed : Parsed} (hparsed : parse code = .ok parsed)
    (hdep : dep ∈ parsed.dependencies) : ∃ tok, Imports code tok dep := by
  obtain ⟨-, s, targets, -, htargets, rfl⟩ := parse_eq_ok_iff_holds.mp hparsed
  have hmem : dep ∈ targets := List.mem_of_mem_filter (Text.mem_distinct.mp hdep)
  obtain ⟨tok, htok, htarget⟩ := exists_of_mem_mapM htargets hmem
  obtain ⟨hmem, hterminal⟩ := List.mem_filter.mp htok
  exact ⟨tok, hmem, of_decide_eq_true hterminal, htarget⟩

end Source

/-! ## The parser as a stage -/

namespace Module

variable {h : Host} {w : Workspace} {m : Module} {code : Text} {b : BuildError}

/-- Where parsing gives a build error, the stack lasts for the code. -/
theorem not_overflows_of_withParsed {w' : Workspace}
    (hstop : (m.withParsed code).runIn h w = (.error (.build b), w')) :
    ¬ Source.Overflows (h.stack.groups + 1) code := by
  rcases runIn_withParsed (h := h) (w := w) (m := m) code with
    ⟨_, _, hshallow, -, -⟩ | ⟨-, hrun⟩ | ⟨_, _, hshallow, -, -⟩
  · exact hshallow
  · rw [hstop] at hrun
    cases hrun
  · exact hshallow

/-- A fault of the code is reported where the manifest says that it comes from. -/
theorem runIn_withParsed_of_fault {manifest : Manifest} (hm : m.manifest = some manifest)
    (hshallow : ¬ Source.Overflows (h.stack.groups + 1) code) {fault : Source.Fault} (hfault : Source.parse code = .error fault) :
    ∃ b : BuildError, ((m.withParsed code).runIn h w).1 = .error (.build b) ∧
      b.span = manifest.resolve fault.position.line (some (fault.position.column : Int)) := by
  have hparse : Source.parseFile (some m.file) code =
      .error { reason := parseReason, message := fault.message,
               span := fault.position.span (some m.file) } := by
    rw [Source.parseFile, hfault]
  have hmodule : ({ m with manifest := some manifest } : Module) = m := by rw [← hm]
  have hrun := withParsed_of_fault hparse rfl manifest hshallow w
  rw [hmodule] at hrun
  exact ⟨_, congrArg Prod.fst hrun, rfl⟩

/-- An import that cannot be read is reported in the path that imports are relative to. -/
theorem runIn_withParsed_of_isMissing {parsed : Source.Parsed} {dep : Text}
    (hshallow : ¬ Source.Overflows (h.stack.groups + 1) code)
    (hparsed : Source.parse code = .ok parsed)
    (hmissing : Import.IsMissing (shelf h w.files) (ground h) m.options.sourcePath.text dep
      parsed.dependencies) :
    ∃ b : BuildError, ((m.withParsed code).runIn h w).1 = .error (.build b) ∧
      b.reason = dependencyReason ∧ b.span = { file := some m.options.sourcePath.text } := by
  have hparse : Source.parseFileWithin (h.stack.groups + 1) (some m.file) code = .ok parsed :=
    Source.parseFileWithin_of_parse hshallow hparsed
  obtain ⟨why, hstop⟩ := Import.walkFrom_of_isMissing hmissing
  obtain ⟨log, himports⟩ := runIn_imports (h := h) (w := w) m.options.sourcePath.text parsed
  rw [importWalk, hstop] at himports
  simp only [withParsed, runIn_bind, runIn_read, hparse, himports]
  exact ⟨_, rfl, rfl, rfl⟩

end Module

namespace Pipeline

variable {t : Toolchain} {h : Host} {o : Options} {w w' : Workspace} {b : BuildError}
  {code : Text}

theorem Reported.exists_manifest (r : Reported t h o w) : ∃ manifest,
    Manifest.ofSource o.file r.code = .ok manifest ∧ r.reported.manifest = some manifest := by
  obtain ⟨exports, -, hr, -⟩ := r.exists_exports
  obtain ⟨manifest, hmanifest, hnumbered⟩ := Module.exists_withManifest_eq r.number
  rw [(isStaged_of_stage r.stage).file] at hmanifest
  exact ⟨manifest, hmanifest, by rw [hr, hnumbered]⟩

/-- **A fault of the staged source is reported where it comes from, and a missing import is not.**

Whatever the markers in literal code, a fault of the parser is reported where the manifest resolves
its place to.  If an import of the code cannot be read, the error names the path that imports are
relative to; this is the file that the import comes from if and only if the two are spelled alike.
Without markers and without a directory they are, if the author's file is in normal spelling. -/
theorem run_origin (hcode : o.code = some code) (hpath : o.codePath = none)
    (hrun : (run t o).runIn h w = (.ok (.aborted b), w'))
    (hreason : b.reason = parseReason ∨ b.reason = dependencyReason) :
    ∃ manifest, Manifest.ofSource o.file code = .ok manifest ∧
      (∀ fault, Source.parse code = .error fault →
        b.span = manifest.resolve fault.position.line (some (fault.position.column : Int))) ∧
      (∀ parsed dep, Source.parse code = .ok parsed →
        Import.IsMissing (shelf h w'.files) (ground h) o.sourcePath.text dep parsed.dependencies →
        b.reason = dependencyReason ∧ b.span = { file := some o.sourcePath.text } ∧
        (∃ tok, Source.Imports code tok dep) ∧
        ∀ tok, Source.Imports code tok dep → ∀ column,
          (b.span.file = (manifest.resolve tok.position.line column).file ↔
            manifest.origin tok.position.line = o.sourcePath.text)) ∧
      (Span.named o.dir = none → o.sourcePath = Path.ofText o.file) := by
  obtain ⟨w₁, hstops, hfiles, -⟩ := Stops.of_aborted hrun
  obtain ⟨r, hstop⟩ := hstops.exists_reported hreason
  obtain rfl : r.code = code := by
    have hsource : (o.source.runIn h w).1 = .ok code := by
      rw [Options.source, hcode, hpath]
      rfl
    rw [r.source] at hsource
    exact Except.ok.inj hsource
  obtain ⟨manifest, hmanifest, hreported⟩ := r.exists_manifest
  have hfiles' : w'.files = r.atReported.files := by
    have hkept := Module.files_withParsed (h := h) (w := r.atReported) (m := r.reported) r.code
    rw [hstop] at hkept
    exact hfiles.trans hkept
  have hshallow := Module.not_overflows_of_withParsed hstop
  refine ⟨manifest, hmanifest, fun fault hfault => ?_, fun parsed dep hparsed hmissing => ?_,
    Options.sourcePath_of_dir hpath⟩
  · obtain ⟨b', hrun', hspan⟩ :=
      Module.runIn_withParsed_of_fault (h := h) (w := r.atReported) hreported hshallow hfault
    rw [hstop] at hrun'
    cases hrun'
    exact hspan
  · have hsource : r.reported.options.sourcePath = o.sourcePath := by rw [r.isStaged.options]
    rw [hfiles', ← hsource] at hmissing
    obtain ⟨b', hrun', hdependency, hspan⟩ :=
      Module.runIn_withParsed_of_isMissing hshallow hparsed hmissing
    rw [hstop] at hrun'
    cases hrun'
    rw [hsource] at hspan
    refine ⟨hdependency, hspan, Source.exists_imports hparsed hmissing.mem, fun tok _ column => ?_⟩
    rw [hspan, Manifest.file_resolve, Option.some.injEq]
    exact eq_comm

/-! ## A row of another file -/

/-- Code with a row that comes from another file. -/
def foreignCode (row : Text) : Text := "// ref other.ex:10\n" ++ row

def foreignOptions (row : Text) : Options := { smallOptions with code := some (foreignCode row) }

def importRow : Text := "const a = @import(\"missing.zig\");"

theorem foreignManifest (row : Text) (hrow : Manifest.marker? row = none)
    (hlines : Text.lines (foreignCode row) = ["// ref other.ex:10".toList, row]) :
    Manifest.ofSource "m.ex" (foreignCode row) = .ok ⟨"m.ex", [⟨2, "other.ex", 10⟩]⟩ := by
  rw [Manifest.ofSource, hlines, Manifest.segmentsFrom, Manifest.segmentsFrom, hrow]
  rfl

/-- What a build is aborted with, and whether the file at the path cannot be read in the end. -/
def refusal? (path : Text) : Except Failure Outcome × Workspace → Option (Text × Span × Bool)
  | (.ok (.aborted b), w) => some (b.reason, b.span,
    match (shelf obligingHost w.files).read path with
    | .error (some _) => true
    | _ => false)
  | _ => none

theorem exists_of_refusal? {path reason : Text} {span : Span} {isMissing : Bool}
    {result : Except Failure Outcome × Workspace}
    (hresult : refusal? path result = some (reason, span, isMissing)) :
    ∃ b w', result = (.ok (.aborted b), w') ∧ b.reason = reason ∧ b.span = span ∧
      (isMissing = true → ∃ why, (shelf obligingHost w'.files).read path = .error (some why)) := by
  unfold refusal? at hresult
  split at hresult
  · rename_i b w
    cases hresult
    refine ⟨b, w, rfl, rfl, rfl, fun hmissing => ?_⟩
    split at hmissing
    · exact ⟨_, by assumption⟩
    · cases hmissing
  · cases hresult

/-- The build is aborted because of the import, which is missing all the while. -/
theorem exists_missing_foreign : ∃ b w', (run smallToolchain (foreignOptions importRow)).runIn
    obligingHost emptyWorkspace = (.ok (.aborted b), w') ∧ b.reason = dependencyReason ∧
      b.span = { file := some "m.ex" } ∧
      Import.IsMissing (shelf obligingHost w'.files) (ground obligingHost)
        (foreignOptions importRow).sourcePath.text "missing.zig" ["missing.zig"] := by
  have hrefusal : refusal? "/w/missing.zig"
      ((run smallToolchain (foreignOptions importRow)).runIn obligingHost emptyWorkspace) =
        some (dependencyReason, { file := some "m.ex" }, true) := by
    rw [run_eq_spelledRun]
    decide +kernel
  obtain ⟨b, w', hrun, hreason, hspan, hmissing⟩ := exists_of_refusal? hrefusal
  obtain ⟨why, hread⟩ := hmissing rfl
  have hpath : (ground obligingHost).readPath ((ground obligingHost).name
      (foreignOptions importRow).sourcePath.text "missing.zig") = "/w/missing.zig".toList := by
    decide +kernel
  exact ⟨b, w', hrun, hreason, hspan, .here (hpath ▸ hread)⟩

theorem parse_importRow : Source.parse (foreignCode importRow) =
    .ok { code := [{ name := "a", kind := .const, isPub := false, doc := none, line := 2 }]
          dependencies := ["missing.zig"] } := by
  decide +kernel

theorem line_of_imports {tok : Source.Token} {dep : Text}
    (h : Source.Imports (foreignCode importRow) tok dep) : tok.position.line = 2 := by
  have hall : ∀ tok ∈ (Source.lex (foreignCode importRow)).tokens, tok.terminal = .importCall →
      tok.position.line = 2 := by decide +kernel
  exact hall tok h.mem h.terminal

/-- A brace without its partner is reported in the other file, a missing import in the own one. -/
theorem run_origin_foreign :
    (∃ b w', (run smallToolchain (foreignOptions "\x7d")).runIn obligingHost emptyWorkspace =
        (.ok (.aborted b), w') ∧
      b.span = { file := some "other.ex", line := some 10, column := some 1 }) ∧
    ∃ b w', (run smallToolchain (foreignOptions importRow)).runIn obligingHost emptyWorkspace =
        (.ok (.aborted b), w') ∧ b.span = { file := some "m.ex" } := by
  constructor
  · have hrefusal : (refusal? "" ((run smallToolchain (foreignOptions "\x7d")).runIn obligingHost
        emptyWorkspace)).map Prod.fst = some parseReason := by decide +kernel
    obtain ⟨⟨_, _, _⟩, hresult, rfl⟩ := Option.map_eq_some_iff.mp hrefusal
    obtain ⟨b, w', hrun, hreason, -, -⟩ := exists_of_refusal? hresult
    obtain ⟨manifest, hmanifest, hfault, -, -⟩ := run_origin rfl rfl hrun (.inl hreason)
    obtain rfl := Except.ok.inj ((foreignManifest "\x7d" rfl rfl).symm.trans hmanifest)
    have hbrace : Source.parse (foreignCode "\x7d") = .error (.shape (.token ⟨19, 2, 1⟩)) := by
      decide +kernel
    exact ⟨b, w', hrun, hfault _ hbrace⟩
  · obtain ⟨b, w', hrun, hreason, -, hmissing⟩ := exists_missing_foreign
    obtain ⟨_, -, -, hmissed, -⟩ := run_origin rfl rfl hrun (.inr hreason)
    obtain ⟨-, hspan, -, -⟩ := hmissed _ "missing.zig" parse_importRow hmissing
    exact ⟨b, w', hrun, hspan⟩

/-- A missing import need not be reported in the file that it comes from. -/
theorem missingImport_of_foreign : ¬ ∀ t h o w w' b code manifest parsed dep,
    o.code = some code → o.codePath = none → (run t o).runIn h w = (.ok (.aborted b), w') →
      Manifest.ofSource o.file code = .ok manifest → Source.parse code = .ok parsed →
      Import.IsMissing (shelf h w'.files) (ground h) o.sourcePath.text dep parsed.dependencies →
        ∃ tok, Source.Imports code tok dep ∧
          b.span.file = (manifest.resolve tok.position.line none).file := by
  intro hall
  obtain ⟨b, w', hrun, -, hspan, hmissing⟩ := exists_missing_foreign
  obtain ⟨tok, htok, hfile⟩ := hall _ _ _ _ w' b _ _ _ "missing.zig" rfl rfl hrun
    (foreignManifest importRow rfl rfl) parse_importRow hmissing
  rw [line_of_imports htok, hspan] at hfile
  exact absurd hfile (by decide)

end Pipeline

end ZigNif
