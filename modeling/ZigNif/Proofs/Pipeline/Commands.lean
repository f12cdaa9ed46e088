import ZigNif.Proofs.Files.Tree
import ZigNif.Proofs.Pipeline

/-!
# Proofs/Pipeline/Commands — the commands that a build runs

A build asks for a report, has the entry file formatted, and has the library built, in this order.
It stops before the first of these, after it, or after the last: formatting cannot stop it, unless
the compiler answers something that is no text.  So the commands that were run are the first ones of
the three, and what the last one answers decides whether the build renders.  What the build wrote
for its commands, the harness and the entry file, is still there when it ends (`Stops.progress`).
-/

namespace ZigNif.Pipeline

open Build

variable {t : Toolchain} {h : Host} {o : Options} {w w' : Workspace} {e : Failure}
  {p q : Path} {s text : Text}

/-! ## Files that were written -/

/-- The text is in the file that the path leads to from the working directory. -/
def IsWritten (h : Host) (p : Path) (text : Text) (files : FileTree) : Prop :=
  files.bytesAt? (p.place h.here) = some (Utf8.encode text)

/-- A text is written, or writing fails and changes nothing. -/
theorem writeText_cases {r : Except Failure Unit} (hrun : (writeText p text).runIn h w = (r, w')) :
    (r = .ok () ∧ w.files.write h.here p (Utf8.encode text) = .ok w'.files) ∨
      ((∃ e, r = .error e) ∧ w' = w) := by
  rw [writeText, writeBytes, runIn_change] at hrun
  split at hrun
  · cases hrun
    exact .inr ⟨⟨_, rfl⟩, rfl⟩
  · split at hrun
    case h_1 files hwrite =>
      cases hrun
      exact .inl ⟨rfl, hwrite⟩
    case h_2 =>
      cases hrun
      exact .inr ⟨⟨_, rfl⟩, rfl⟩

/-- What was written is there. -/
theorem isWritten_of_writeText (hrun : (writeText p text).runIn h w = (.ok (), w')) :
    IsWritten h p text w'.files := by
  rcases writeText_cases hrun with ⟨-, hwrite⟩ | ⟨⟨e, he⟩, -⟩
  · rw [IsWritten, FileTree.bytesAt?_of_write hwrite, if_pos rfl]
  · cases he

/-- What was written stays, whatever becomes of a file elsewhere. -/
theorem IsWritten.writeText {r : Except Failure Unit} (hw : IsWritten h q s w.files)
    (hne : q.place h.here ≠ p.place h.here) (hrun : (writeText p text).runIn h w = (r, w')) :
    IsWritten h q s w'.files := by
  rcases writeText_cases hrun with ⟨-, hwrite⟩ | ⟨-, rfl⟩
  · rw [IsWritten, FileTree.bytesAt?_of_write hwrite, if_neg hne]
    exact hw
  · exact hw

theorem place_harnessPath {here : Location} : (harnessPath t h o).place here =
    (directory t h o).place here ++ [Harness.fileName] :=
  FileTree.place_join (by decide)

theorem place_entryPath {here : Location} : (entryPath t h o).place here =
    (directory t h o).place here ++ [Toolchain.entryName] :=
  FileTree.place_join (by decide)

/-- The entry file does not take the place of the harness. -/
theorem place_harnessPath_ne :
    (harnessPath t h o).place h.here ≠ (entryPath t h o).place h.here := by
  rw [place_harnessPath, place_entryPath]
  intro heq
  exact absurd (List.append_cancel_left heq) (by decide)

/-- The harness of the staged file is written. -/
def HasHarness (t : Toolchain) (h : Host) (o : Options) (files : FileTree) : Prop :=
  IsWritten h (harnessPath t h o) (Harness.source (stagedPath t h o).name) files

/-! ## Commands, stage by stage -/

theorem calls_of_writeText {p : Path} {text : Text} {r : Except Failure Unit}
    (hrun : (writeText p text).runIn h w = (r, w')) : w'.calls = w.calls := by
  have hkeeps : Keeps h SameCalls (fun _ => True) (writeText p text) w :=
    .writeText (fun _ _ => rfl) trivial fun _ => trivial
  exact hkeeps.leaves_of_eq hrun

/-- Staging runs no command. -/
theorem calls_of_stage {a : Accepted h o w} {r : Except Failure Module}
    (hrun : (Staging.stage t.stagingRoot (Module.ofOptions o a.declared) a.code).runIn h w =
      (r, w')) : w'.calls = w.calls :=
  (Staging.keeps_stage ..).leaves_of_eq hrun

/-- A report is asked for once. -/
theorem Reported.calls_atReported (r : Reported t h o w) :
    r.atReported.calls = w.calls ++ [reportCall t h o] := by
  obtain ⟨exports, -, -, w₁, log, hwrite, hr⟩ := r.exists_exports
  rw [hr, calls_of_writeText hwrite, calls_of_stage r.stage]

theorem Reported.hasHarness (r : Reported t h o w) : HasHarness t h o r.atReported.files := by
  obtain ⟨exports, -, -, w₁, log, hwrite, hr⟩ := r.exists_exports
  have hfiles : r.atReported.files = w₁.files := by rw [hr]
  rw [hfiles]
  exact isWritten_of_writeText hwrite

theorem Verified.calls_atVerified (v : Verified t h o w) :
    v.atVerified.calls = w.calls ++ [reportCall t h o] := by
  obtain ⟨source, log, -, -, -, hparse⟩ := v.exists_parsed v.parse
  obtain ⟨nifs, log', -, -, hverify⟩ := v.exists_nifs
  rw [hverify, hparse, ← v.calls_atReported]

/-- Parsing and verifying change no file. -/
theorem Verified.files_atVerified (v : Verified t h o w) :
    v.atVerified.files = v.atReported.files := by
  obtain ⟨source, log, -, -, -, hparse⟩ := v.exists_parsed v.parse
  obtain ⟨nifs, log', -, -, hverify⟩ := v.exists_nifs
  rw [hverify, hparse]

theorem Verified.hasHarness (v : Verified t h o w) : HasHarness t h o v.atVerified.files := by
  rw [v.files_atVerified]
  exact v.toReported.hasHarness

/-- The entry file is written, and formatted once. -/
theorem Assembled.exists_entry (a : Assembled t h o w) :
    ∃ entry w₁ log, Glue.renderEntry a.module = .ok entry ∧
      (writeText (entryPath t h o) entry).runIn h a.atVerified = (.ok (), w₁) ∧
      a.atLibrary = { w₁ with calls := w₁.calls ++ [formatCall t h o], log } := by
  obtain ⟨entry, hentry, ⟨e, w₁, -, hrun⟩ | ⟨w₁, log, hwrite, hrun⟩⟩ :=
    runIn_precompile (w := a.atVerified) a.isStaged a.isFinished
  · rw [a.precompile] at hrun
    cases hrun
  · rw [a.precompile, Prod.mk.injEq] at hrun
    exact ⟨entry, w₁, log, hentry, hwrite, hrun.2⟩

/-- When the library is built, two commands have been run. -/
theorem Assembled.calls_atLibrary (a : Assembled t h o w) :
    a.atLibrary.calls = w.calls ++ [reportCall t h o, formatCall t h o] := by
  obtain ⟨entry, w₁, log, -, hwrite, ha⟩ := a.exists_entry
  rw [ha, calls_of_writeText hwrite, a.calls_atVerified, List.append_assoc]
  rfl

theorem Assembled.hasHarness (a : Assembled t h o w) : HasHarness t h o a.atLibrary.files := by
  obtain ⟨entry, w₁, log, -, hwrite, ha⟩ := a.exists_entry
  have hfiles : a.atLibrary.files = w₁.files := by rw [ha]
  rw [hfiles]
  exact IsWritten.writeText a.toVerified.hasHarness place_harnessPath_ne hwrite

/-- The entry file of the module that the stages gave is written. -/
def HasEntry (v : Verified t h o w) (files : FileTree) : Prop :=
  ∃ entry, Glue.renderEntry v.module = .ok entry ∧ IsWritten h (entryPath t h o) entry files

/-- When the library is built, the entry file is written. -/
theorem Assembled.hasEntry (a : Assembled t h o w) :
    HasEntry a.toVerified a.atLibrary.files := by
  obtain ⟨entry, w₁, log, hentry, hwrite, ha⟩ := a.exists_entry
  have hfiles : a.atLibrary.files = w₁.files := by rw [ha]
  rw [hfiles]
  exact ⟨entry, hentry, isWritten_of_writeText hwrite⟩

/-- What was answered is no text, and that is the failure. -/
def IsUnread (r : Reply) (e : Failure) : Prop := ∃ fault, r.fault = some fault ∧ e = .encoding fault

/-- That bytes are no text is a failure of its own. -/
theorem IsUnread.exists_encoding {r : Reply} (hr : IsUnread r e) : ∃ fault, e = .encoding fault :=
  hr.imp fun _ => And.right

theorem IsUnread.ne_build {r : Reply} (hr : IsUnread r e) (b : BuildError) : e ≠ .build b := by
  obtain ⟨fault, rfl⟩ := hr.exists_encoding
  exact nofun

/-- There is no library if the answer is no text, or if it is a text and the command failed. -/
theorem libraryResult_eq_error_iff {m : Module} : libraryResult t h o m = .error e ↔
    IsUnread (h.run (libraryCall t h o)) e ∨
      (h.run (libraryCall t h o)).fault = none ∧ (h.run (libraryCall t h o)).code ≠ 0 ∧
        e = Toolchain.failure "compile" (h.run (libraryCall t h o)).errors m := by
  simp only [libraryResult, bind_eq_error_iff, Reply.read_eq_ok_iff, Reply.read_eq_error_iff]
  refine or_congr Iff.rfl ⟨?_, ?_⟩
  · rintro ⟨reply, ⟨hfault, rfl⟩, hm⟩
    split at hm
    · rename_i hcode
      exact ⟨hfault, hcode, (Except.error.inj hm).symm⟩
    · cases hm
  · rintro ⟨hfault, hcode, rfl⟩
    exact ⟨_, ⟨hfault, rfl⟩, if_pos hcode⟩

/-- The harness could not be written, or its report was asked for in vain. -/
theorem Numbered.progress (n : Numbered t h o w)
    (hstop : (t.withReport n.numbered).runIn h n.atStaged = (.error e, w')) :
    w'.calls = w.calls ∨
      w'.calls = w.calls ++ [reportCall t h o] ∧ HasHarness t h o w'.files := by
  have hn := calls_of_stage n.stage
  rcases runIn_withReport (w := n.atStaged) n.isStaged with
    ⟨e', w₁, hwrite, hrun⟩ | ⟨w₁, log, hwrite, hrun⟩
  · rw [hstop] at hrun
    cases hrun
    exact .inl ((calls_of_writeText hwrite).trans hn)
  · rw [hstop, Prod.mk.injEq] at hrun
    have hfiles : w'.files = w₁.files := by rw [hrun.2]
    refine .inr ⟨by rw [hrun.2, calls_of_writeText hwrite, hn], ?_⟩
    rw [hfiles]
    exact isWritten_of_writeText hwrite

/-- The entry file could not be written, or the compiler answered something that is no text. -/
theorem Verified.progress (v : Verified t h o w)
    (hstop : (t.precompile v.module).runIn h v.atVerified = (.error e, w')) :
    HasHarness t h o w'.files ∧
      (w'.calls = w.calls ++ [reportCall t h o] ∨
        w'.calls = w.calls ++ [reportCall t h o, formatCall t h o] ∧ HasEntry v w'.files ∧
          IsUnread (h.run (formatCall t h o)) e) := by
  obtain ⟨entry, hentry, ⟨e', w₁, hwrite, hrun⟩ | ⟨w₁, log, hwrite, hrun⟩⟩ :=
    runIn_precompile (w := v.atVerified) v.isStaged v.isFinished
  · rw [hstop, Prod.mk.injEq] at hrun
    rw [hrun.2]
    exact ⟨IsWritten.writeText v.hasHarness place_harnessPath_ne hwrite,
      .inl (by rw [calls_of_writeText hwrite, v.calls_atVerified])⟩
  · rw [hstop, Prod.mk.injEq] at hrun
    have hfiles : w'.files = w₁.files := by rw [hrun.2]
    rw [hfiles]
    refine ⟨IsWritten.writeText v.hasHarness place_harnessPath_ne hwrite, .inr ⟨?_, ?_, ?_⟩⟩
    · rw [hrun.2, calls_of_writeText hwrite, v.calls_atVerified, List.append_assoc]
      rfl
    · exact ⟨entry, hentry, isWritten_of_writeText hwrite⟩
    · exact Reply.read_eq_error_iff.mp (map_eq_error_iff.mp hrun.1.symm)

/-- The library was asked for in vain. -/
theorem Assembled.progress (a : Assembled t h o w)
    (hstop : (t.compile a.module).runIn h a.atLibrary = (.error e, w')) :
    w'.calls = w.calls ++ Pipeline.calls t h o ∧ w'.files = a.atLibrary.files ∧
      ((h.run (libraryCall t h o)).code ≠ 0 ∨ IsUnread (h.run (libraryCall t h o)) e) := by
  obtain ⟨log, hrun⟩ := runIn_compile (w := a.atLibrary) a.isStaged
  rw [hstop, Prod.mk.injEq] at hrun
  refine ⟨?_, by rw [hrun.2], ?_⟩
  · rw [hrun.2, a.calls_atLibrary, List.append_assoc]
    rfl
  · rcases libraryResult_eq_error_iff.mp hrun.1.symm with hunread | ⟨-, hcode, -⟩
    · exact .inr hunread
    · exact .inl hcode

/-- **A build that stops has run no command, has asked for the report, or has run the first two or
all three in vain.**  What it wrote for its commands is there. -/
theorem Stops.progress (hs : Stops t h o w e w') :
    w'.calls = w.calls ∨
    (w'.calls = w.calls ++ [reportCall t h o] ∧ HasHarness t h o w'.files) ∨
    (∃ v : Verified t h o w, w'.calls = w.calls ++ [reportCall t h o, formatCall t h o] ∧
      HasHarness t h o w'.files ∧ HasEntry v w'.files ∧
      IsUnread (h.run (formatCall t h o)) e) ∨
    (w'.calls = w.calls ++ Pipeline.calls t h o ∧
      (∃ a : Assembled t h o w, w'.files = a.atLibrary.files) ∧
      ((h.run (libraryCall t h o)).code ≠ 0 ∨ IsUnread (h.run (libraryCall t h o)) e)) := by
  cases hs with
  | source stop => exact .inl rfl
  | normal source stop => exact .inl rfl
  | staging a stop => exact .inl (calls_of_stage stop)
  | number a stage stop => exact .inl (calls_of_stage stage)
  | report n stop => exact (n.progress stop).imp_right .inl
  | parse r stop =>
    obtain ⟨log, hlog⟩ :=
      Module.exists_log_withParsed (h := h) (w := r.atReported) (m := r.reported) r.code
    obtain rfl : w' = { r.atReported with log } := (congrArg Prod.snd stop).symm.trans hlog
    exact .inr (.inl ⟨r.calls_atReported, r.hasHarness⟩)
  | verify r parse stop =>
    obtain ⟨source, log, -, -, -, hparse⟩ := r.exists_parsed parse
    rw [(r.of_verify_eq_error parse stop).2, hparse]
    exact .inr (.inl ⟨r.calls_atReported, r.hasHarness⟩)
  | entry v stop =>
    obtain ⟨hharness, hcalls | ⟨hcalls, hentry, hunread⟩⟩ := v.progress stop
    · exact .inr (.inl ⟨hcalls, hharness⟩)
    · exact .inr (.inr (.inl ⟨v, hcalls, hharness, hentry, hunread⟩))
  | library a stop =>
    obtain ⟨hcalls, hfiles, hvain⟩ := a.progress stop
    exact .inr (.inr (.inr ⟨hcalls, ⟨a, hfiles⟩, hvain⟩))

/-! ## What a build comes to -/

namespace Outcome

/-- The module that was built. -/
def module? : Outcome → Option Module
  | rendered compiled => some compiled.module
  | aborted _ => none

/-- The glue code. -/
def rendered? : Outcome → Option Text
  | rendered compiled => some compiled.rendered
  | aborted _ => none

/-- Why there is neither. -/
def error? : Outcome → Option BuildError
  | rendered _ => none
  | aborted error => some error

/-- The outcome has a module with a library and without a manifest, glue code, and no error. -/
structure IsRendered (library : Text) (outcome : Outcome) : Prop where
  module : ∃ m, outcome.module? = some m ∧ m.manifest = none ∧ m.libraryPath = some library
  rendered : outcome.rendered?.isSome
  error : outcome.error? = none

/-- The outcome has an error and nothing else. -/
structure IsAborted (outcome : Outcome) : Prop where
  module : outcome.module? = none
  rendered : outcome.rendered? = none
  error : outcome.error?.isSome

/-- No outcome is both. -/
theorem IsRendered.not_isAborted {library : Text} {outcome : Outcome}
    (hrendered : outcome.IsRendered library) : ¬ outcome.IsAborted := by
  rintro ⟨-, -, herror⟩
  rw [hrendered.error] at herror
  cases herror

end Outcome

theorem formatCall_ne_reportCall : formatCall t h o ≠ reportCall t h o := by
  simp [formatCall, reportCall]

theorem libraryCall_ne_reportCall : libraryCall t h o ≠ reportCall t h o := by
  simp [libraryCall, reportCall]

/-- A failure that a build ends with gives no rendered outcome. -/
theorem isAborted_of_conclude {outcome : Outcome} (hrun : (conclude o e w).1 = .ok outcome) :
    outcome.IsAborted := by
  cases e with
  | build error =>
    obtain rfl : Outcome.aborted error = outcome := Except.ok.inj hrun
    exact ⟨rfl, rfl, rfl⟩
  | _ => cases hrun

/-- The module, the library and the glue code of a build that comes to its end are there. -/
theorem isRendered_of_assembled (a : Assembled t h o w) (rendered : Text) :
    Outcome.IsRendered (libraryPath t h o).text (.rendered ⟨{ a.module with
      libraryPath := some (libraryPath t h o).text, manifest := none }, rendered⟩) :=
  ⟨⟨_, rfl, rfl, rfl⟩, rfl, rfl⟩

/-- **Whatever a build returns is rendered or aborted.** -/
theorem isRendered_or_isAborted {outcome : Outcome}
    (hrun : ((run t o).runIn h w).1 = .ok outcome) :
    outcome.IsRendered (libraryPath t h o).text ∨ outcome.IsAborted := by
  rcases run_cases (t := t) (h := h) (o := o) (w := w) with
    ⟨e, w', -, hcase⟩ | ⟨a, rendered, log, -, hcase⟩
  · rw [hcase] at hrun
    exact .inr (isAborted_of_conclude hrun)
  · rw [hcase] at hrun
    exact .inl (Except.ok.inj hrun ▸ isRendered_of_assembled a rendered)

theorem calls_conclude : (conclude o e w).2.calls = w.calls := by
  cases e <;> rfl

theorem files_conclude : (conclude o e w).2.files = w.files := by
  cases e <;> rfl

/-- A build that has run all three commands has come as far as its library.  It changes no file
after that, and the module that it gives depends on the same files. -/
theorem exists_assembled (hcalls : ((run t o).runIn h w).2.calls = w.calls ++ calls t h o) :
    ∃ a : Assembled t h o w, ((run t o).runIn h w).2.files = a.atLibrary.files ∧
      ∀ outcome m, ((run t o).runIn h w).1 = .ok outcome → outcome.module? = some m →
        m.dependencies = a.module.dependencies := by
  rcases run_cases (t := t) (h := h) (o := o) (w := w) with
    ⟨e, w', hstops, hrun⟩ | ⟨a, rendered, log, -, hrun⟩
  · rw [hrun, calls_conclude] at hcalls
    rcases hstops.progress with hmade | ⟨hmade, -⟩ | ⟨-, hmade, -⟩ | ⟨-, ⟨a, hfiles⟩, -⟩
    · rw [hmade] at hcalls
      simp [calls] at hcalls
    · rw [hmade] at hcalls
      simp [calls] at hcalls
    · rw [hmade] at hcalls
      simp [calls] at hcalls
    · refine ⟨a, by rw [hrun, files_conclude, hfiles], fun outcome m houtcome hm => ?_⟩
      rw [hrun] at houtcome
      rw [(isAborted_of_conclude houtcome).module] at hm
      cases hm
  · refine ⟨a, by rw [hrun], fun outcome m houtcome hm => ?_⟩
    rw [hrun] at houtcome
    rw [← Except.ok.inj houtcome] at hm
    rw [← Option.some.inj hm]

/-- What a build that stops returns is aborted, so it is rendered only in cases that do not come
up. -/
theorem rendered_iff_of_stop {library : Text} {P Q : Prop} (hP : ¬ P)
    (hQ : ∀ outcome, (conclude o e w).1 = .ok outcome → ¬ Q) :
    ((∃ outcome, (conclude o e w).1 = .ok outcome ∧ outcome.IsRendered library) ↔ P) ∧
      ∀ outcome, (conclude o e w).1 = .ok outcome →
        (outcome.IsRendered library ↔ Q) ∧ (outcome.IsRendered library ∨ outcome.IsAborted) := by
  have hnot : ∀ outcome, (conclude o e w).1 = .ok outcome → ¬ outcome.IsRendered library :=
    fun _ houtcome hrendered => hrendered.not_isAborted (isAborted_of_conclude houtcome)
  refine ⟨iff_of_false ?_ hP, fun outcome houtcome => ⟨?_, .inr (isAborted_of_conclude houtcome)⟩⟩
  · rintro ⟨outcome, houtcome, hrendered⟩
    exact hnot outcome houtcome hrendered
  · exact iff_of_false (hnot outcome houtcome) (hQ outcome houtcome)

/-- An answer that is no text leaves the build. -/
theorem IsUnread.conclude {r : Reply} (hr : IsUnread r e) :
    ∃ fault, r.fault = some fault ∧ (conclude o e w).1 = .error (.encoding fault) := by
  obtain ⟨fault, hfault, rfl⟩ := hr
  exact ⟨fault, hfault, rfl⟩

/-- **The commands of a build.**

They are the first ones of three: to report, to format the entry file, to build the library.  The
last two are run only after the options were accepted, the code was staged, reported on and parsed,
its imports were found and the nifs were verified.  Once the entry file is formatted, well or not,
the library is built; only an answer that is no text is a failure, and the build does not return.
The build returns what is rendered if and only if all three commands were run and the last one
succeeded, with an answer that is a text.  All else that it returns is aborted. -/
theorem run_commands (t : Toolchain) (h : Host) (o : Options) (w : Workspace) :
    let result := (run t o).runIn h w
    ∃ made, result.2.calls = w.calls ++ made ∧ made <+: calls t h o ∧
      (formatCall t h o ∈ made ∨ libraryCall t h o ∈ made → Nonempty (Verified t h o w)) ∧
      (formatCall t h o ∈ made → libraryCall t h o ∈ made ∨
        ∃ fault, (h.run (formatCall t h o)).fault = some fault ∧
          result.1 = .error (.encoding fault)) ∧
      ((∃ outcome, result.1 = .ok outcome ∧ outcome.IsRendered (libraryPath t h o).text) ↔
        made = calls t h o ∧ (h.run (libraryCall t h o)).fault = none ∧
          (h.run (libraryCall t h o)).code = 0) ∧
      ∀ outcome, result.1 = .ok outcome →
        (outcome.IsRendered (libraryPath t h o).text ↔
          made = calls t h o ∧ (h.run (libraryCall t h o)).code = 0) ∧
        (outcome.IsRendered (libraryPath t h o).text ∨ outcome.IsAborted) := by
  intro result
  obtain ⟨result', hresult⟩ : ∃ r, r = result := ⟨_, rfl⟩
  rw [← hresult]
  rcases run_cases (t := t) (h := h) (o := o) (w := w) with
    ⟨e, w', hstops, hrun⟩ | ⟨a, rendered, log, hreply, hrun⟩
  · obtain rfl : result' = conclude o e w' := hresult.trans hrun
    rw [calls_conclude]
    rcases hstops.progress with hmade | ⟨hmade, -⟩ | ⟨v, hmade, -, -, hunread⟩ |
      ⟨hmade, ⟨a, -⟩, hvain⟩
    · exact ⟨[], by rw [hmade, List.append_nil], List.nil_prefix, by simp, by simp,
        rendered_iff_of_stop (by simp [calls]) (by simp [calls])⟩
    · refine ⟨_, hmade, ⟨_, rfl⟩, ?_, ?_, rendered_iff_of_stop (by simp [calls]) (by simp [calls])⟩
      · simp [formatCall_ne_reportCall, libraryCall_ne_reportCall]
      · simp [formatCall_ne_reportCall]
    · exact ⟨_, hmade, ⟨_, rfl⟩, fun _ => ⟨v⟩, fun _ => .inr hunread.conclude,
        rendered_iff_of_stop (by simp [calls]) (by simp [calls])⟩
    · refine ⟨_, hmade, List.prefix_rfl, fun _ => ⟨a.toVerified⟩, fun _ => .inl (by simp [calls]),
        rendered_iff_of_stop ?_ ?_⟩
      · rintro ⟨-, hfault, hcode⟩
        obtain hne | ⟨fault, hsome, -⟩ := hvain
        · exact hne hcode
        · rw [hsome] at hfault
          cases hfault
      · rintro outcome houtcome ⟨-, hcode⟩
        obtain hne | hunread := hvain
        · exact hne hcode
        · obtain ⟨fault, -, herror⟩ := hunread.conclude (o := o) (w := w')
          rw [herror] at houtcome
          cases houtcome
  · obtain rfl := hresult.trans hrun
    have hrendered := isRendered_of_assembled a rendered
    refine ⟨calls t h o, ?_, List.prefix_rfl, fun _ => ⟨a.toVerified⟩,
      fun _ => .inl (by simp [calls]),
      iff_of_true ⟨_, rfl, hrendered⟩ ⟨rfl, hreply⟩, fun outcome houtcome => ?_⟩
    · simp [a.calls_atLibrary, calls]
    · obtain rfl := Except.ok.inj houtcome
      exact ⟨iff_of_true hrendered ⟨rfl, hreply.2⟩, .inl hrendered⟩

/-! ## A build whose entry file cannot be formatted -/

/-- A compiler that reports one function, formats nothing, and builds every library. -/
def obligingRun (c : Call) : Reply :=
  if c.words[1]? = some ("run" : Text) then
    { output := "\x7b\"functions\":[\x7b\"name\":\"f\"\x7d]\x7d" }
  else if c.words[1]? = some ("fmt" : Text) then { code := 1 }
  else {}

/-- A host with that compiler and a working directory `/w`. -/
def obligingHost : Host := { here := ["w"], temporary := "/tmp", run := obligingRun }

/-- A module with one line of code and one nif. -/
def smallOptions : Options where
  module := "M"
  file := "m.ex"
  code := some "const x = 1;"
  nifs := [.str "f"]
  env := "dev"

/-- A working directory and a directory for temporary files, with nothing in them. -/
def emptyWorkspace : Workspace where
  files := .directory [("w", .directory []), ("tmp", .directory [])]

def smallToolchain : Toolchain := { executable := "zig" }

/-- The build with its literals spelled out as characters.  A closed build is evaluated in this
form: to decode the literals takes the kernel longer than everything that the build does. -/
def spelledRun (t : Toolchain) (o : Options) : { build : Build Outcome // run t o = build } :=
  ⟨_, by
    unfold run compile Toolchain.withReport Harness.source
    repeat rewrite [String.toList_ofList]
    rfl⟩

theorem run_eq_spelledRun (t : Toolchain) (o : Options) : run t o = (spelledRun t o).val :=
  (spelledRun t o).property

/-- The compiler does not format the entry file, and the library is built all the same. -/
theorem run_commands_unformatted :
    (obligingHost.run (formatCall smallToolchain obligingHost smallOptions)).code = 1 ∧
    let result := (run smallToolchain smallOptions).runIn obligingHost emptyWorkspace
    result.2.calls = calls smallToolchain obligingHost smallOptions ∧
      ∃ outcome, result.1 = .ok outcome ∧
        outcome.IsRendered (libraryPath smallToolchain obligingHost smallOptions).text := by
  obtain ⟨made, hcalls, hprefix, -, -, hrendered, -⟩ :=
    run_commands smallToolchain obligingHost smallOptions emptyWorkspace
  have hreply : obligingHost.run (libraryCall smallToolchain obligingHost smallOptions) = {} := by
    decide +kernel
  have hmade : made = calls smallToolchain obligingHost smallOptions := by
    refine hprefix.eq_of_length ?_
    have hlength : ((run smallToolchain smallOptions).runIn obligingHost
      emptyWorkspace).2.calls.length = 3 := by
      rw [run_eq_spelledRun]
      decide +kernel
    rw [hcalls] at hlength
    exact hlength
  exact ⟨by decide +kernel, hcalls.trans hmade,
    hrendered.mpr ⟨hmade, by rw [hreply], by rw [hreply]⟩⟩

end ZigNif.Pipeline
