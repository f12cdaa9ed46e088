import ZigNif.Proofs.CommandLine.Report
import ZigNif.Proofs.CommandLine.Words
import ZigNif.Proofs.Config.Lines
import ZigNif.Proofs.Files.Kinds
import ZigNif.Proofs.Pipeline.Confined
import ZigNif.Proofs.Workspace.Imports

/-!
# Proofs/CommandLine/Build — how a build request is answered

A build request is prepared, goes through the pipeline, and what comes out is delivered.  It is
refused by the build error of one of the first two, or it is answered after the third; nothing else
leads to an answer (`build_cases`).  A refusal touches no file, so what a refused build changes is
what its pipeline changes: the file that the glue code was meant for is left alone.
-/

namespace ZigNif.CommandLine

open Build

variable {r : BuildRequest} {h : Host} {w w' : Workspace} {o o' : Options} {t t' : Toolchain}
  {e : BuildError} {answer : Answer} {compiled : Pipeline.Compiled} {isJson : Bool}

/-! ## The parts of a build -/

/-- What is done before the pipeline: the config file is loaded, and a compiler is found. -/
def prepare (r : BuildRequest) : Build (Options × Toolchain) := do
  let options ← Config.load r.config
  pure (options, ← Toolchain.find r.zig r.stagingRoot)

/-- Writes glue code to the file that it goes to, if it goes to one. -/
def store (out : Destination) (glue : Text) : Build Unit :=
  match out with
  | .output => pure ()
  | .nameless => throw .namelessOutput
  | .file path => do
    makeDirectories path.parent
    writeText path glue

/-- What is answered when a build comes to its end. -/
def delivered (r : BuildRequest) (compiled : Pipeline.Compiled) : Answer :=
  if r.isJson then { output := jsonLine (moduleReport compiled.module) }
  else if r.out = .output then { output := compiled.rendered }
  else {}

theorem build_eq (r : BuildRequest) : build r = (do
    match ← attempt (prepare r) with
    | .error e => rejection r.isJson e
    | .ok (o, t) =>
      match ← Pipeline.run t o with
      | .aborted e => rejection r.isJson e
      | .rendered compiled => do
        store r.out compiled.rendered
        pure (delivered r compiled)) := by
  obtain ⟨config, out, zig, root, isJson⟩ := r
  cases out with
  | file path =>
    cases isJson <;> simp only [build, store, delivered, prepare, bind_assoc] <;> rfl
  | output => cases isJson <;> rfl
  | nameless => cases isJson <;> rfl

/-- The config file gives the options, and the toolchain is found. -/
structure IsPrepared (r : BuildRequest) (h : Host) (w : Workspace) (o : Options) (t : Toolchain) :
    Prop where
  options : ((Config.load r.config).runIn h w).1 = .ok o
  toolchain : ((Toolchain.find r.zig r.stagingRoot).runIn h w).1 = .ok t

theorem IsPrepared.unique (hp : IsPrepared r h w o t) (hp' : IsPrepared r h w o' t') :
    o = o' ∧ t = t' :=
  ⟨Except.ok.inj (hp.options.symm.trans hp'.options),
    Except.ok.inj (hp.toolchain.symm.trans hp'.toolchain)⟩

/-- The config, the search for a compiler, or the pipeline ends with the build error. -/
inductive IsRefused (r : BuildRequest) (h : Host) (w : Workspace) (e : BuildError) : Prop
  | config (stop : ((Config.load r.config).runIn h w).1 = .error (.build e))
  | toolchain {o : Options} (options : ((Config.load r.config).runIn h w).1 = .ok o)
    (stop : ((Toolchain.find r.zig r.stagingRoot).runIn h w).1 = .error (.build e))
  | pipeline {o : Options} {t : Toolchain} (prepared : IsPrepared r h w o t)
    (stop : ((Pipeline.run t o).runIn h w).1 = .ok (.aborted e))

/-- What is there before anything is stored: what was there, or what the pipeline leaves. -/
inductive IsLeft (r : BuildRequest) (h : Host) (w : Workspace) : Workspace → Prop
  | unprepared (unprepared : ∀ o t, ¬ IsPrepared r h w o t) : IsLeft r h w w
  | run {o : Options} {t : Toolchain} (prepared : IsPrepared r h w o t) :
    IsLeft r h w ((Pipeline.run t o).runIn h w).2

/-- The pipeline of a request that is refused renders nothing. -/
theorem IsRefused.not_rendered (he : IsRefused r h w e) : ¬ ∃ o t compiled,
    IsPrepared r h w o t ∧ ((Pipeline.run t o).runIn h w).1 = .ok (.rendered compiled) := by
  rintro ⟨o, t, compiled, hp, hrendered⟩
  cases he with
  | config stop =>
    rw [hp.options] at stop
    cases stop
  | toolchain _ stop =>
    rw [hp.toolchain] at stop
    cases stop
  | pipeline prepared stop =>
    obtain ⟨rfl, rfl⟩ := hp.unique prepared
    rw [hrendered] at stop
    cases stop

/-! ## Preparing -/

theorem runIn_load_snd {p : Path} : ((Config.load p).runIn h w).2 = w :=
  runIn_bind_snd (by rw [runIn_readTextOr]) fun _ => runIn_bind_snd (by rw [runIn_ofExcept]) fun _ =>
    runIn_bind_snd rfl fun _ => by rw [runIn_ofBuild]

theorem runIn_find_snd {exe root : Option Text} :
    ((Toolchain.find exe root).runIn h w).2 = w := by
  rw [Toolchain.find]
  split
  · rfl
  · refine runIn_bind_snd (runIn_bind_snd rfl fun h' => ?_) fun _ => rfl
    split <;> rfl

theorem isPrepared_iff : IsPrepared r h w o t ↔ (prepare r).runIn h w = (.ok (o, t), w) := by
  rw [prepare, runIn_bind_eq_ok_iff]
  constructor
  · rintro ⟨ho, ht⟩
    exact ⟨o, w, Prod.ext ho runIn_load_snd,
      runIn_bind_eq_ok_iff.mpr ⟨t, w, Prod.ext ht runIn_find_snd, rfl⟩⟩
  · rintro ⟨o', w₁, hload, hrest⟩
    obtain rfl : w₁ = w := (congrArg Prod.snd hload).symm.trans runIn_load_snd
    obtain ⟨t', w₂, hfind, hpair⟩ := runIn_bind_eq_ok_iff.mp hrest
    cases hpair
    exact ⟨by rw [hload], by rw [hfind]⟩

theorem runIn_prepare_snd : ((prepare r).runIn h w).2 = w :=
  runIn_bind_snd runIn_load_snd fun _ => runIn_bind_snd runIn_find_snd fun _ => rfl

/-- Preparing fails as one of its two parts does. -/
theorem isRefused_of_prepare (hrun : ((prepare r).runIn h w).1 = .error (.build e)) :
    IsRefused r h w e := by
  rw [prepare, runIn_bind] at hrun
  rcases hload : (Config.load r.config).runIn h w with ⟨f | o, w₁⟩
  · rw [hload] at hrun
    obtain rfl : f = .build e := Except.error.inj hrun
    exact .config (by rw [hload])
  · obtain rfl : w₁ = w := (congrArg Prod.snd hload).symm.trans runIn_load_snd
    rw [hload] at hrun
    simp only [runIn_bind] at hrun
    rcases hfind : (Toolchain.find r.zig r.stagingRoot).runIn h w₁ with ⟨f | t, w₂⟩
    · rw [hfind] at hrun
      obtain rfl : f = .build e := Except.error.inj hrun
      exact .toolchain (congrArg Prod.fst hload) (by rw [hfind])
    · rw [hfind] at hrun
      cases hrun

/-! ## Answers -/

/-- The answer that the build error stops the request: there is no output, or a report of the
error. -/
structure IsRejection (isJson : Bool) (e : BuildError) (answer : Answer) : Prop where
  code : answer.code = 2
  output : isJson = false → answer.output = []
  report : isJson = true → IsJsonLine answer.output (abortReport e)

theorem of_rejection (hrun : (rejection isJson e).runIn h w = (.ok answer, w')) :
    IsRejection isJson e answer ∧ w' = w := by
  rw [rejection] at hrun
  split at hrun
  case isTrue => cases hrun
  case isFalse hwritable =>
    have hreadable := isReadable_abortReport (e := e) (by simpa using hwritable)
    cases isJson with
    | true =>
      cases hrun
      exact ⟨⟨rfl, nofun, fun _ => isJsonLine_jsonLine hreadable⟩, rfl⟩
    | false =>
      cases hrun
      exact ⟨⟨rfl, fun _ => rfl, nofun⟩, rfl⟩

theorem runIn_attempt {α : Type} {x : Build α} {a : Except BuildError α} :
    (attempt x).runIn h w = (.ok a, w') ↔
      (∃ b, a = .ok b ∧ x.runIn h w = (.ok b, w')) ∨
        ∃ e, a = .error e ∧ x.runIn h w = (.error (.build e), w') := by
  rw [attempt, runIn_tryCatch, map_eq_pure_bind, runIn_bind]
  rcases x.runIn h w with ⟨f | b, w₁⟩
  · cases f <;> simp [eq_comm]
  · simp [eq_comm]

theorem read_of_store {p : Path} {glue : Text}
    (hrun : (store (.file p) glue).runIn h w = (.ok (), w')) :
    w'.files.read h.here p = .ok (Utf8.encode glue) := by
  obtain ⟨_, w₁, -, hwrite⟩ := runIn_bind_eq_ok_iff.mp hrun
  rcases Pipeline.writeText_cases hwrite with ⟨-, hwrite⟩ | ⟨⟨e, he⟩, -⟩
  · exact FileTree.read_of_write hwrite
  · cases he

/-- **How a build request is answered.**  It is refused before the pipeline, with everything as it
was, or after it, with everything as the pipeline left it; or the glue code is stored. -/
theorem build_cases (hrun : (build r).runIn h w = (.ok answer, w')) :
    (∃ e, IsRefused r h w e ∧ IsRejection r.isJson e answer ∧ IsLeft r h w w') ∨
    ∃ o t compiled w₁, IsPrepared r h w o t ∧
      (Pipeline.run t o).runIn h w = (.ok (.rendered compiled), w₁) ∧
      (store r.out compiled.rendered).runIn h w₁ = (.ok (), w') ∧
      answer = delivered r compiled := by
  rw [build_eq] at hrun
  obtain ⟨a, w₁, hattempt, hrest⟩ := runIn_bind_eq_ok_iff.mp hrun
  rcases runIn_attempt.mp hattempt with ⟨⟨o, t⟩, rfl, hprepare⟩ | ⟨e, rfl, hprepare⟩
  · obtain rfl : w₁ = w := (congrArg Prod.snd hprepare).symm.trans runIn_prepare_snd
    have hprepared := isPrepared_iff.mpr hprepare
    obtain ⟨outcome, w₂, hpipeline, hrest⟩ := runIn_bind_eq_ok_iff.mp hrest
    cases outcome with
    | aborted e =>
      obtain ⟨hrejection, rfl⟩ := of_rejection hrest
      refine .inl ⟨e, .pipeline hprepared (congrArg Prod.fst hpipeline), hrejection, ?_⟩
      obtain rfl := congrArg Prod.snd hpipeline
      exact .run hprepared
    | rendered compiled =>
      obtain ⟨_, w₃, hstore, hanswer⟩ := runIn_bind_eq_ok_iff.mp hrest
      cases hanswer
      exact .inr ⟨o, t, compiled, w₂, hprepared, hpipeline, hstore, rfl⟩
  · obtain rfl : w₁ = w := (congrArg Prod.snd hprepare).symm.trans runIn_prepare_snd
    obtain ⟨hrejection, rfl⟩ := of_rejection hrest
    refine .inl ⟨e, isRefused_of_prepare (congrArg Prod.fst hprepare), hrejection,
      .unprepared fun o t hp => ?_⟩
    rw [isPrepared_iff, hprepare] at hp
    cases hp

/-- A build whose glue code can be stored is answered. -/
theorem runIn_build {w₁ : Workspace} (hp : IsPrepared r h w o t)
    (hpipeline : (Pipeline.run t o).runIn h w = (.ok (.rendered compiled), w₁))
    (hstore : (store r.out compiled.rendered).runIn h w₁ = (.ok (), w')) :
    (build r).runIn h w = (.ok (delivered r compiled), w') := by
  rw [build_eq, runIn_bind_eq_ok_iff]
  refine ⟨_, w, runIn_attempt.mpr (.inl ⟨_, rfl, isPrepared_iff.mp hp⟩), ?_⟩
  refine runIn_bind_eq_ok_iff.mpr ⟨_, w₁, hpipeline, ?_⟩
  exact runIn_bind_eq_ok_iff.mpr ⟨_, w', hstore, rfl⟩

theorem code_delivered : (delivered r compiled).code = 0 := by
  rw [delivered]
  split
  · rfl
  · split <;> rfl

/-- The log makes no difference but for the error messages. -/
theorem exists_runIn_build {i : Invocation} (hi : i.request = .build r)
    (hrun : i.run.runIn h w = (.ok answer, w')) : ∃ errors,
      (build r).runIn h w = (.ok { answer with errors }, w') := by
  rw [Invocation.run, hi, runIn_bind_eq_ok_iff] at hrun
  obtain ⟨a, w₁, hbuild, hrun⟩ := hrun
  split at hrun
  · obtain ⟨_, _, hget, hrun⟩ := runIn_bind_eq_ok_iff.mp hrun
    cases hget
    cases hrun
    exact ⟨_, hbuild⟩
  · cases hrun
    exact ⟨_, hbuild⟩

theorem exists_runIn_run {i : Invocation} (hi : i.request = .build r)
    (hbuild : (build r).runIn h w = (.ok answer, w')) : ∃ errors,
      i.run.runIn h w = (.ok { answer with errors }, w') := by
  simp only [Invocation.run, hi, runIn_bind_eq_ok_iff]
  by_cases hverbose : i.isVerbose
  · exact ⟨_, answer, w', hbuild, by rw [if_pos hverbose]; rfl⟩
  · exact ⟨_, answer, w', hbuild, by rw [if_neg hverbose]; rfl⟩

/-! ## What a build request does -/

open Pipeline (stagingDirectory ownPlaces HasHarness)

theorem IsLeft.files_eq (hw : IsLeft r h w w') (hnone : ∀ o t, ¬ IsPrepared r h w o t) :
    w'.files = w.files := by
  cases hw with
  | unprepared => rfl
  | run prepared => exact absurd prepared (hnone _ _)

theorem IsLeft.eq_run (hw : IsLeft r h w w') (hp : IsPrepared r h w o t) :
    w' = ((Pipeline.run t o).runIn h w).2 := by
  cases hw with
  | unprepared unprepared => exact absurd hp (unprepared o t)
  | run prepared =>
    obtain ⟨rfl, rfl⟩ := hp.unique prepared
    rfl

/-- **What a build leaves before anything is stored is confined to the staging directory**, but for
the files of a module with a slash. -/
theorem IsLeft.confined (hw : IsLeft r h w w') (hp : IsPrepared r h w o t) :
    Confined h (stagingDirectory t h o) {l | '/' ∈ o.module ∧ l ∈ ownPlaces t h o} w w' :=
  hw.eq_run hp ▸ Pipeline.confined_run

/-- The glue code can be had without a file: it is what the same request puts out otherwise. -/
theorem exists_shown {i : Invocation} {w₁ : Workspace} (hp : IsPrepared r h w o t)
    (hpipeline : (Pipeline.run t o).runIn h w = (.ok (.rendered compiled), w₁)) :
    ∃ shown, ({ i with request := .build { r with out := .output, isJson := false } } :
      Invocation).run.runIn h w = (.ok shown, w₁) ∧ shown.code = 0 ∧
        shown.output = compiled.rendered := by
  have hshown := runIn_build (r := { r with out := .output, isJson := false })
    ⟨hp.options, hp.toolchain⟩ hpipeline rfl
  obtain ⟨errors, hrun⟩ := exists_runIn_run
    (i := { i with request := .build { r with out := .output, isJson := false } }) rfl hshown
  exact ⟨_, hrun, rfl, rfl⟩

/-- **A build request that is refused leaves its output alone.** -/
theorem build_answered {i : Invocation} (hi : i.request = .build r)
    (hrun : i.run.runIn h w = (.ok answer, w')) :
    (answer.code = 0 ∨ answer.code = 2) ∧
    (answer.code = 0 ↔ ∃ o t compiled, IsPrepared r h w o t ∧
      ((Pipeline.run t o).runIn h w).1 = .ok (.rendered compiled)) ∧
    (answer.code = 2 →
      (∃ e, IsRefused r h w e ∧ IsRejection r.isJson e answer) ∧
      ((∀ o t, ¬ IsPrepared r h w o t) → w'.files = w.files) ∧
      ∀ o t, IsPrepared r h w o t →
        Confined h (stagingDirectory t h o) {l | '/' ∈ o.module ∧ l ∈ ownPlaces t h o} w w' ∧
        (∀ q, ¬ (stagingDirectory t h o).place h.here <+: q →
          ('/' ∈ o.module → q ∉ ownPlaces t h o) → w'.files.bytesAt? q = w.files.bytesAt? q) ∧
        (w'.calls ≠ w.calls → HasHarness t h o w'.files)) ∧
    (answer.code = 0 → ∀ p, r.out = .file p → ∃ glue,
      w'.files.read h.here p = .ok (Utf8.encode glue) ∧ ∃ shown w₁,
        ({ i with request := .build { r with out := .output, isJson := false } } :
          Invocation).run.runIn h w = (.ok shown, w₁) ∧ shown.code = 0 ∧ shown.output = glue) := by
  obtain ⟨errors, hbuild⟩ := exists_runIn_build hi hrun
  rcases build_cases hbuild with ⟨e, hrefused, hrejection, hleft⟩ |
    ⟨o, t, compiled, w₁, hp, hpipeline, hstore, hanswer⟩
  · have hcode : answer.code = 2 := hrejection.code
    refine ⟨.inr hcode, iff_of_false (by rw [hcode]; decide) hrefused.not_rendered,
      fun _ => ⟨⟨e, hrefused, hcode, hrejection.output, hrejection.report⟩, hleft.files_eq,
        fun o t hp => ?_⟩, by rw [hcode]; exact nofun⟩
    have hconfined := hleft.confined hp
    refine ⟨hconfined, fun q hout hq => ?_, hleft.eq_run hp ▸ Pipeline.hasHarness_of_calls_ne⟩
    exact hconfined.bytesAt?_eq hout fun hown => hq hown.1 hown.2
  · have hcode : answer.code = 0 := (congrArg Answer.code hanswer).trans code_delivered
    refine ⟨.inl hcode, iff_of_true hcode ⟨o, t, compiled, hp, congrArg Prod.fst hpipeline⟩,
      by rw [hcode]; exact nofun, fun _ p hout => ?_⟩
    rw [hout] at hstore
    obtain ⟨shown, hshown⟩ := exists_shown (i := i) hp hpipeline
    exact ⟨compiled.rendered, read_of_store hstore, shown, w₁, hshown⟩

/-! ## A build that the compiler refuses -/

open Config (Document document load)

/-- A config for a module of the given name. -/
def refusedConfig (module : Text) : Text :=
  "\x7b\"format\":\"nifbind-module\",\"version\":0,\"module\":\"" ++ module ++
    "\",\"code\":\"const x = 1;\",\"nifs\":[\"f\"]\x7d"

def refusedDocument (module : Text) : Document where
  path := .ofText "c/m.json"
  text := refusedConfig module
  fields := [("format", .str "nifbind-module"), ("version", .int 0), ("module", .str module),
    ("code", .str "const x = 1;"), ("nifs", .arr [.str "f"])]

def refusedOptions (module : Text) : Options where
  module := module
  file := "c/m.json"
  code := some "const x = 1;"
  nifs := [.str "f"]
  env := "dev"
  line := some 1

def refusedRequest : BuildRequest where
  config := .ofText "c/m.json"
  out := .file (.ofText "M.zig")
  isJson := true

/-- The config, and the file that the glue code is for. -/
def refusedWorkspace (module : Text) : Workspace where
  files := .directory [("w", .directory
    [("c", .directory [("m.json", .file (Utf8.encode (refusedConfig module)))]),
      ("M.zig", .file (Utf8.encode "keep"))])]

def refusingHost : Host where
  here := ["w"]
  temporary := "/tmp"
  stagingRoot := some "stage"
  zig := some "zig"
  run := fun _ => { code := 1, errors := "no" }

/-- The error of the build. -/
def refusal (module : Text) : BuildError where
  reason := "compile"
  message := "zig sema failed"
  span := { file := some "c/m.json" }
  module := some module
  notes := ["no"]

/-- The answer to the request. -/
def refusalAnswer (module : Text) : Answer where
  code := 2
  output := jsonLine (abortReport (refusal module))

theorem ofWords_refused : Invocation.ofWords ["build", "c/m.json", "--out", "M.zig", "--json"] =
    .ok { request := .build refusedRequest } := by
  have hplain : ∀ o ∈ ([] ++ [.out "M.zig", .json] : List BuildOption), o.IsPlain := by
    simp [BuildOption.IsPlain]
  exact ofWords_build (by decide) hplain

theorem isPrepared_refused {module : Text}
    (hfile : fileText refusingHost (refusedWorkspace module).files (.ofText "c/m.json") =
      .ok (refusedConfig module))
    (hdocument : document (.ofText "c/m.json") (refusedConfig module) =
      .ok (refusedDocument module))
    (hoptions : (refusedDocument module).options refusingHost = .ok (refusedOptions module)) :
    IsPrepared refusedRequest refusingHost (refusedWorkspace module) (refusedOptions module)
      { executable := "zig" } :=
  ⟨Config.runIn_load (r := .ok _) hfile hdocument hoptions, rfl⟩

set_option maxRecDepth 4000 in
theorem isPrepared_plain : IsPrepared refusedRequest refusingHost (refusedWorkspace "M")
    (refusedOptions "M") { executable := "zig" } :=
  isPrepared_refused (toOption_eq_some_iff.mp (by decide +kernel)) (by with_unfolding_all rfl)
    (by with_unfolding_all rfl)

theorem run_plain : (({ request := .build refusedRequest } : Invocation).run.runIn refusingHost
    (refusedWorkspace "M")).1 = .ok (refusalAnswer "M") :=
  toOption_eq_some_iff.mp (by decide +kernel)

/-- The file that the glue code is for is still what it was. -/
theorem build_answered_refused :
    Invocation.ofWords ["build", "c/m.json", "--out", "M.zig", "--json"] =
      .ok { request := .build refusedRequest } ∧
    ∃ w', ({ request := .build refusedRequest } : Invocation).run.runIn refusingHost
        (refusedWorkspace "M") = (.ok (refusalAnswer "M"), w') ∧
      (∃ e, IsJsonLine (refusalAnswer "M").output (abortReport e)) ∧
      w'.files.bytesAt? ["w", "M.zig"] = some (Utf8.encode "keep") := by
  refine ⟨ofWords_refused, _, runIn_eq_of_fst run_plain, ?_⟩
  obtain ⟨-, -, hrefused, -⟩ := build_answered rfl (runIn_eq_of_fst run_plain)
  obtain ⟨⟨e, -, hrejection⟩, -, hprepared⟩ := hrefused rfl
  obtain ⟨-, hkept, -⟩ := hprepared _ _ isPrepared_plain
  refine ⟨⟨e, hrejection.report rfl⟩, ?_⟩
  rw [hkept _ (by decide +kernel) fun hslash => absurd hslash (by decide)]
  decide +kernel

set_option maxRecDepth 4000 in
theorem isPrepared_slashed : IsPrepared refusedRequest refusingHost (refusedWorkspace "/../../M")
    (refusedOptions "/../../M") { executable := "zig" } :=
  isPrepared_refused (toOption_eq_some_iff.mp (by decide +kernel)) (by with_unfolding_all rfl)
    (by with_unfolding_all rfl)

/-- A slash in the name of the module takes the staged source out of the staging directory: the file
that the glue code is for is replaced, and the build is refused all the same. -/
theorem output_replaced :
    Invocation.ofWords ["build", "c/m.json", "--out", "M.zig", "--json"] =
      .ok { request := .build refusedRequest } ∧
    IsPrepared refusedRequest refusingHost (refusedWorkspace "/../../M")
      (refusedOptions "/../../M") { executable := "zig" } ∧
    ¬ (stagingDirectory { executable := "zig" } refusingHost (refusedOptions "/../../M")).place
      refusingHost.here <+: ["w", "M.zig"] ∧
    (refusedWorkspace "/../../M").files.bytesAt? ["w", "M.zig"] = some (Utf8.encode "keep") ∧
    ∃ answer w', ({ request := .build refusedRequest } : Invocation).run.runIn refusingHost
        (refusedWorkspace "/../../M") = (.ok answer, w') ∧
      answer.code = 2 ∧ w'.files.bytesAt? ["w", "M.zig"] = some (Utf8.encode "const x = 1;") := by
  have hanswer : (({ request := .build refusedRequest } : Invocation).run.runIn refusingHost
      (refusedWorkspace "/../../M")).1 = .ok (refusalAnswer "/../../M") :=
    toOption_eq_some_iff.mp (by decide +kernel)
  exact ⟨ofWords_refused, isPrepared_slashed, by decide +kernel, by decide +kernel, _, _,
    runIn_eq_of_fst hanswer, rfl, by decide +kernel⟩

end ZigNif.CommandLine
