import ZigNif.Proofs.Pipeline.Apart
import ZigNif.Proofs.Pipeline.Escape
import ZigNif.Proofs.Staging.Again
import ZigNif.Proofs.Workspace.Imports

/-!
# Proofs/Pipeline/Again — a build that is done again

A build makes its staging directory and then changes files below it only, while everything that it
looks at outside is as it was.  What it looks at below the directory it has written itself, as the
copies are written before the imports are read; or it comes to nothing, as when the sources are
copied and the staging directory lies below them.  So a second build, which finds all that the first
one left, does the same as the first (`repeats_inDirectory`).

Three things can come in between.  The source can lie where the staging directories are, so that
copying takes files from below them.  What the first build left in the staging directory can be too
deep for the second one, or have paths that are too long, if it is looked into by way of the source.
And the staging directory may not be made: then the first build may have made some of the
directories that lead to it, and the second one fails at another of them.
-/

namespace ZigNif.Pipeline

open Build ZigNif.Path

variable {t : Toolchain} {h : Host} {o : Options} {w w' v : Workspace} {m : Module} {M : Prop}
  {last : FileTree} {code : Text} {declared : Declared} {e : Failure}

/-! ## The parts of a build -/

/-- What a build is given: the code and the declared nifs. -/
def given (o : Options) : Build (Text × Declared) := do
  let code ← o.source
  let declared ← Build.ofBuild o.declared
  pure (code, declared)

/-- What a build does with a module that is staged. -/
def afterStaging (t : Toolchain) (code : Text) (m : Module) : Build Compiled := do
  let m ← Build.ofExcept (m.withManifest code)
  let m ← t.withReport m
  let m ← m.withParsed code
  let m ← m.verify
  let m := m.withNifResources.withDocs
  t.precompile m
  let m := (← t.compile m).withoutManifest
  let rendered ← Build.ofExcept (Glue.render m)
  Build.note "compiler" ("rendered " ++ m.name ++ " (" ++ m.flavor.name ++ ")")
  pure { module := m, rendered }

/-- What a build does when the sources are copied. -/
def afterCopies (t : Toolchain) (h : Host) (o : Options) (code : Text) (declared : Declared) :
    Build Compiled := do
  writeText (stagedPath t h o) code
  note "builder" ("staged " ++ o.module ++ " at " ++ (stagedPath t h o).text)
  afterStaging t code
    { Module.ofOptions o declared with stagedPath := some (stagedPath t h o) }

/-- What a build does in its staging directory. -/
def inDirectory (t : Toolchain) (h : Host) (o : Options) (code : Text) (declared : Declared) :
    Build Compiled := do
  Staging.copySources o.sourcePath.parent (stagingDirectory t h o)
  afterCopies t h o code declared

theorem runIn_body_eq : (body t o).runIn h w = (do
    let (code, declared) ← given o
    makeDirectories (stagingDirectory t h o)
    inDirectory t h o code declared).runIn h w := by
  simp only [given, bind_assoc, pure_bind]
  rw [body, runIn_bind, runIn_bind]
  rcases o.source.runIn h w with ⟨e | code, w₁⟩
  · rfl
  · simp only
    rw [compile, runIn_bind, runIn_bind, runIn_ofBuild]
    rcases o.declared with e | declared
    · rfl
    · simp only [mapError_ok]
      have hstage : ∀ m : Module, (Staging.stage t.stagingRoot m code).runIn h w₁ = (do
          let dir := Staging.directory h t.stagingRoot m.options.env m.name
          let staged := dir.join (.ofText (Staging.sourceName m.name))
          makeDirectories dir
          Staging.copySources m.options.sourcePath.parent dir
          writeText staged code
          note "builder" ("staged " ++ m.name ++ " at " ++ staged.text)
          pure { m with stagedPath := some staged }).runIn h w₁ := fun m => by
        rw [Staging.stage, runIn_bind, runIn_read]
      rw [runIn_bind, hstage, ← runIn_bind]
      simp only [bind_assoc, pure_bind, inDirectory, afterCopies]
      rfl

/-! ## Behind the copies -/

section Stages

variable (hhere : ∀ n ∈ h.here, IsProperName n) (hmodule : '/' ∉ o.module)

theorem isBelow_stagedPath (hmodule : '/' ∉ o.module) :
    FileTree.IsBelow ((stagingDirectory t h o).place h.here) ((stagedPath t h o).place h.here) :=
  ⟨[Staging.sourceName o.module], by simp, Staging.place_stagedSource hmodule⟩

theorem isBelow_harnessPath (hmodule : '/' ∉ o.module) :
    FileTree.IsBelow ((stagingDirectory t h o).place h.here) ((harnessPath t h o).place h.here) :=
  ⟨[Harness.fileName], by simp, by rw [place_harnessPath, directory_eq hmodule]⟩

theorem isBelow_entryPath (hmodule : '/' ∉ o.module) :
    FileTree.IsBelow ((stagingDirectory t h o).place h.here) ((entryPath t h o).place h.here) :=
  ⟨[Toolchain.entryName], by simp, by rw [place_entryPath, directory_eq hmodule]⟩

include hhere hmodule

theorem replays_withReport (hm : IsStaged t h o m) :
    Replays h ((stagingDirectory t h o).place h.here) M last (t.withReport m) w := by
  rw [withReport_eq hm]
  refine .bind (.writeText (fun n hn => (hhere n hn).1) isClean_harnessPath
    (isBelow_harnessPath hmodule)) fun _ w₁ _ _ => ?_
  refine .bind .call fun reply w₂ _ _ => ?_
  split
  · exact .bind .throw fun _ _ _ _ => .bind .note fun _ _ _ _ => .bind .read fun _ _ _ _ =>
      .bind .ofExcept fun _ _ _ _ => .pure _
  · exact .bind .note fun _ _ _ _ => .bind .read fun _ _ _ _ =>
      .bind .ofExcept fun _ _ _ _ => .pure _

omit hmodule in
theorem replays_withParsed (hlast : last.IsProper) (htop : last.kindAt? [] = some true)
    {d : Location} : Replays h d M last (m.withParsed code) w := by
  refine .bind .read fun h' w₁ _ _ => ?_
  split
  · split
    · exact .throw
    · exact .throw
  · exact .throw
  · exact .bind (.imports hhere hlast htop) fun _ _ _ _ => .pure _

omit hhere hmodule in
theorem replays_verify {d : Location} : Replays h d M last m.verify w := by
  unfold Module.verify
  split
  · exact .throw
  · exact .bind .ofBuild fun _ _ _ _ => .bind .note fun _ _ _ _ => .pure _

theorem replays_precompile (hm : IsStaged t h o m) :
    Replays h ((stagingDirectory t h o).place h.here) M last (t.precompile m) w := by
  rw [Toolchain.precompile, hm.stagedPath_eq, pure_bind]
  refine .bind .ofExcept fun entry w₁ _ _ => ?_
  refine .bind (.writeText (fun n hn => (hhere n hn).1) isClean_entryPath
    (isBelow_entryPath hmodule)) fun _ w₂ _ _ => ?_
  refine .bind (.bind .call fun reply w₃ _ _ => ?_) fun _ _ _ _ => .note
  split
  · exact .note
  · exact .pure _

omit hhere hmodule in
theorem replays_compile (hm : IsStaged t h o m) {d : Location} :
    Replays h d M last (t.compile m) w := by
  rw [Toolchain.compile, hm.stagedPath_eq, pure_bind]
  refine .bind .note fun _ w₁ _ _ => .bind .call fun reply w₂ _ _ => ?_
  split
  · exact .bind .throw fun _ _ _ _ => .pure _
  · exact .pure _

omit hhere hmodule in
theorem gives_withManifest (hm : IsStaged t h o m) :
    Gives (IsStaged t h o) (Build.ofExcept (m.withManifest code)) := by
  refine .ofExcept fun m' hm' => ?_
  obtain ⟨manifest, -, rfl⟩ := Module.exists_withManifest_eq hm'
  exact hm.of_eq_ok rfl rfl rfl rfl

variable (hlast : last.IsProper) (htop : last.kindAt? [] = some true)

include hlast htop

theorem replays_afterStaging (hm : IsStaged t h o m) :
    Replays h ((stagingDirectory t h o).place h.here) M last (afterStaging t code m) w := by
  refine .bind .ofExcept fun m₁ w₁ hrun _ => ?_
  have hm₁ : IsStaged t h o m₁ := gives_withManifest hm h w m₁ (by rw [hrun])
  refine .bind (replays_withReport hhere hmodule hm₁) fun m₂ w₂ hrun _ => ?_
  have hm₂ : IsStaged t h o m₂ :=
    Module.gives_withReport t (fun _ => hm₁.of_eq_ok rfl rfl rfl rfl) h w₁ m₂ (by rw [hrun])
  refine .bind (replays_withParsed hhere hlast htop) fun m₃ w₃ hrun _ => ?_
  have hm₃ : IsStaged t h o m₃ :=
    Module.gives_withParsed code (fun _ _ => hm₂.of_eq_ok rfl rfl rfl rfl) h w₂ m₃ (by rw [hrun])
  refine .bind replays_verify fun m₄ w₄ hrun _ => ?_
  have hm₄ : IsStaged t h o m₄ := gives_verify hm₃ h w₃ m₄ (by rw [hrun])
  have hm₅ : IsStaged t h o m₄.withNifResources.withDocs := hm₄.of_eq_ok rfl rfl rfl rfl
  refine .bind (replays_precompile hhere hmodule hm₅) fun _ w₅ _ _ => ?_
  refine .bind (replays_compile hm₅) fun m₆ w₆ _ _ => ?_
  exact .bind .ofExcept fun _ _ _ _ => .bind .note fun _ _ _ _ => .pure _

/-- **What follows the copies is done again as it was**, and makes no directories. -/
theorem replays_afterCopies :
    Replays h ((stagingDirectory t h o).place h.here) M last
      (afterCopies t h o code declared) w := by
  refine .bind (.writeText (fun n hn => (hhere n hn).1) isClean_stagedPath
    (isBelow_stagedPath hmodule)) fun _ w₁ _ _ => .bind .note fun _ w₂ _ _ => ?_
  exact replays_afterStaging hhere hmodule hlast htop ⟨rfl, rfl, rfl, rfl⟩

end Stages

/-! ## In the staging directory -/

/-- The name of the directory of a root is the last one on the way to it. -/
theorem exists_place_rootDirectory (root : Option Text) : ∃ front,
    (Staging.rootDirectory h root).place h.here = front ++ [Staging.directoryName] := by
  rw [Staging.rootDirectory]
  generalize Text.dropEndWhile (· = '/') (((Span.named root).getD h.defaultRoot).map
    fun c => if c = '\\' then '/' else c) = base
  have htext : base ++ ("/" : Text) ++ Staging.directoryName =
      base ++ '/' :: Staging.directoryName := by
    simp [slash_toList]
  have hname : (Text.splitOn '/' Staging.directoryName).filter (fun n => n ≠ [] ∧ n ≠ ['.']) =
      [Staging.directoryName] := by
    decide
  rw [FileTree.place_eq_foldl, htext]
  have hnames : (ofText (base ++ '/' :: Staging.directoryName)).names =
      (ofText base).names ++ [Staging.directoryName] := by
    rw [ofText, ofText, Text.splitOn_append_cons, List.filter_append, hname]
  have hpush : Staging.directoryName ≠ parentName := by decide
  rw [hnames, ← List.append_assoc, List.foldl_append]
  simp only [List.foldl_cons, List.foldl_nil]
  exact ⟨_, push_of_ne hpush⟩

/-- Visible names do not lead from the source to where the build writes, unless the source is in the
directory of the root. -/
theorem not_prefix_of_visible (henv : IsProperName o.env) (hmodule : IsProperName o.module)
    (hsource : ¬ (Staging.rootDirectory h t.stagingRoot).place h.here <+:
      o.sourcePath.parent.place h.here) (names : List Text)
    (hnames : ∀ n ∈ names, Staging.isHidden n = false) :
    ¬ (stagingDirectory t h o).place h.here <+: o.sourcePath.parent.place h.here ++ names := by
  obtain ⟨front, hfront⟩ := exists_place_rootDirectory (h := h) t.stagingRoot
  rw [stagingDirectory, Staging.place_directory henv hmodule]
  rw [hfront] at hsource ⊢
  intro hprefix
  have hroot : front ++ [Staging.directoryName] <+: o.sourcePath.parent.place h.here ++ names :=
    (List.prefix_append _ _).trans hprefix
  -- so the name of the directory of the root is one of the visible names
  obtain ⟨rest, hrest⟩ := (List.prefix_or_prefix_of_prefix hroot
    (List.prefix_append (o.sourcePath.parent.place h.here) names)).resolve_left hsource
  rw [← hrest] at hroot hsource
  have hrest' : rest ≠ [] := fun hnil =>
    hsource ⟨[], by rw [hnil, List.append_nil, List.append_nil]⟩
  have hsub := (List.prefix_append_right_inj _).mp hroot
  have hmem : Staging.directoryName ∈ rest := by
    have hlast := congrArg List.getLast? hrest
    rw [List.getLast?_append_of_ne_nil _ hrest', List.getLast?_concat] at hlast
    exact List.mem_of_getLast? hlast
  have hhidden := hnames _ (hsub.subset hmem)
  cases hhidden

theorem place_stagingDirectory_ne_nil (henv : IsProperName o.env)
    (hmodule : IsProperName o.module) : (stagingDirectory t h o).place h.here ≠ [] := by
  rw [stagingDirectory, Staging.place_directory henv hmodule]
  simp

section Again

variable (hhere : ∀ n ∈ h.here, IsProperName n) (henv : IsProperName o.env)
  (hmodule : IsProperName o.module)
  (hsource : ¬ (Staging.rootDirectory h t.stagingRoot).place h.here <+:
    o.sourcePath.parent.place h.here)

include hhere henv hmodule hsource

theorem replays_inDirectory (hM : M) (hready : Staging.IsReady h (stagingDirectory t h o) w)
    (hlast : last.IsProper) (htop : last.kindAt? [] = some true)
    (hlist : Staging.IsListable h o.sourcePath.parent (stagingDirectory t h o) last)
    (hfalse : w.files.isDirectory h.here o.sourcePath.parent = .ok false →
      ∀ q, w.files.kindAt? q = some true ↔ last.kindAt? q = some true) :
    Replays h ((stagingDirectory t h o).place h.here) M last (inDirectory t h o code declared) w :=
  .bind (Staging.replays_copySources (fun n hn => (hhere n hn).1) (isClean_ofText _) hM
    (not_prefix_of_visible henv hmodule hsource) hlast hlist hready hfalse) fun _ _ _ _ =>
    replays_afterCopies hhere hmodule.1.2.2 hlast htop

/-- Without a directory of sources, what is done in the staging directory makes no directories. -/
theorem changesBelow_inDirectory (code : Text) (declared : Declared)
    (hready : Staging.IsReady h (stagingDirectory t h o) w) :
    FileTree.ChangesBelow ((stagingDirectory t h o).place h.here)
      (w.files.isDirectory h.here o.sourcePath.parent ≠ .ok false) w.files
      ((inDirectory t h o code declared).runIn h w).2.files := by
  have hempty : (FileTree.directory []).IsProper := FileTree.isProper_directory nofun
  by_cases hfalse : w.files.isDirectory h.here o.sourcePath.parent = .ok false
  · have hlook : (isDirectory o.sourcePath.parent).runIn h w = (.ok false, w) := by
      rw [runIn_isDirectory, hfalse]
      split <;> rfl
    have hcopies : (Staging.copySources o.sourcePath.parent (stagingDirectory t h o)).runIn h w =
        (.ok (), w) := by
      rw [Staging.copySources, runIn_bind, hlook]
      rfl
    have hrun : (inDirectory t h o code declared).runIn h w =
        (afterCopies t h o code declared).runIn h w := by
      rw [inDirectory, runIn_bind, hcopies]
    rw [hrun]
    exact (replays_afterCopies hhere hmodule.1.2.2 hempty rfl).changes
  · exact (replays_inDirectory hhere henv hmodule hsource hfalse hready hempty rfl
      (Staging.isListable_empty (place_stagingDirectory_ne_nil henv hmodule))
      fun heq => absurd heq hfalse).changes

/-- The staging directory is there, and there are no files below it. -/
structure IsFresh (t : Toolchain) (h : Host) (o : Options) (w : Workspace) : Prop
    extends Staging.IsReady h (stagingDirectory t h o) w where
  top : w.files.kindAt? [] = some true
  bytesAt? : ∀ q, FileTree.IsBelow ((stagingDirectory t h o).place h.here) q →
    w.files.bytesAt? q = none

/-- The files that are there when the directory is fresh are not touched. -/
theorem bytesAt?_inDirectory (hfresh : IsFresh t h o w) {q : Location} {b : List UInt8}
    (hb : w.files.bytesAt? q = some b) :
    ((inDirectory t h o code declared).runIn h w).2.files.bytesAt? q = some b := by
  have hchanges := changesBelow_inDirectory hhere henv hmodule hsource code declared
    hfresh.toIsReady
  have hq : ¬ FileTree.IsBelow ((stagingDirectory t h o).place h.here) q := fun hq => by
    rw [hfresh.bytesAt? q hq] at hb
    cases hb
  rwa [FileTree.bytesAt?, hchanges.nodeAt? q hq]

/-- **What is done in the staging directory comes to the same again.** -/
theorem repeats_inDirectory (hfresh : IsFresh t h o w)
    (hv : v.files = ((inDirectory t h o code declared).runIn h w).2.files)
    (hlist : Staging.IsListable h o.sourcePath.parent (stagingDirectory t h o) v.files) :
    Repeats h ((stagingDirectory t h o).place h.here)
      ((inDirectory t h o code declared).runIn h w).2.files
      (inDirectory t h o code declared) w v := by
  have hchanges := changesBelow_inDirectory hhere henv hmodule hsource code declared
    hfresh.toIsReady
  refine (replays_inDirectory hhere henv hmodule hsource trivial hfresh.toIsReady
    (hchanges.proper hfresh.proper) (hchanges.fits _ _ hfresh.top) (hv ▸ hlist)
    fun hfalse q => ?_).again v ⟨refl_of FileTree.Fits _, fun _ _ => rfl⟩
    ⟨fun q b hb => ?_, by rw [hv], fun q hq => ?_, hv ▸ hchanges.distinct hfresh.distinct⟩
  · exact ⟨hchanges.fits q true, hchanges.directory (fun hne => hne hfalse) q⟩
  · rw [hv, bytesAt?_inDirectory hhere henv hmodule hsource hfresh hb]
  · rw [hv, hchanges.entriesAt q hq]

end Again

/-! ## The whole build -/

/-- The directory cannot be made in either workspace, and in the first one some of the directories
that lead to it were made before that. -/
structure FailsHalfway (h : Host) (p : Path) (w v : Workspace) (e e' : Failure) : Prop where
  first : ((makeDirectories p).runIn h w).1 = .error e
  second : ((makeDirectories p).runIn h v).1 = .error e'
  made : ∃ q, ((makeDirectories p).runIn h w).2.files.nodeAt? q ≠ w.files.nodeAt? q

/-- The computation is done in the first workspace and then in the second one: it runs the same
commands, comes to the same, unless the making of a directory fails halfway, and leaves every file
and directory as it was left before. -/
structure Recurs {α : Type} (h : Host) (p : Path) (x : Build α) (w v : Workspace) : Prop where
  calls : ∃ made, (x.runIn h w).2.calls = w.calls ++ made ∧ (x.runIn h v).2.calls = v.calls ++ made
  outcome : (x.runIn h v).1 = (x.runIn h w).1 ∨ ∃ e e', FailsHalfway h p w v e e' ∧
    (x.runIn h w).1 = .error e ∧ (x.runIn h v).1 = .error e'
  nodeAt? : ∀ q, (x.runIn h v).2.files.nodeAt? q = (x.runIn h w).2.files.nodeAt? q

theorem Recurs.congr {α : Type} {x y : Build α} {p : Path} (hw : x.runIn h w = y.runIn h w)
    (hv : x.runIn h v = y.runIn h v) (hy : Recurs h p y w v) : Recurs h p x w v where
  calls := by
    rw [hw, hv]
    exact hy.calls
  outcome := by
    rw [hw, hv]
    exact hy.outcome
  nodeAt? q := by rw [hw, hv, hy.nodeAt? q]

theorem recurs_throw {α : Type} {p : Path} (hv : v.files = w.files) :
    Recurs h p (throw e : Build α) w v where
  calls := ⟨[], (List.append_nil _).symm, (List.append_nil _).symm⟩
  outcome := .inl rfl
  nodeAt? q := congrArg (FileTree.nodeAt? · q) hv

theorem runIn_given_snd : ((given o).runIn h w).2 = w := by
  have hsnd := Options.runIn_source_snd (o := o) (h := h) (w := w)
  rw [given, runIn_bind]
  rcases hrun : o.source.runIn h w with ⟨e | code, w₁⟩
  · rw [← hsnd, hrun]
  · obtain rfl : w₁ = w := by rw [← hsnd, hrun]
    simp only [runIn_bind, runIn_ofBuild]
    cases o.declared <;> rfl

/-- What a build is given does not depend on files that came up later, unless nothing was given. -/
theorem runIn_given_again (hfits : w.files.Fits v.files) (hdistinct : v.files.HasDistinctNames)
    (hbytes : ∀ q b, w.files.bytesAt? q = some b → v.files.bytesAt? q = some b)
    (hfails : ∀ e, ((given o).runIn h w).1 = .error e → w.files.kindAt? = v.files.kindAt?) :
    (given o).runIn h v = (((given o).runIn h w).1, v) := by
  have hreplays : Replays h [] True v.files (given o) w :=
    .bind .source fun _ _ _ _ => .bind .ofBuild fun _ _ _ _ => .pure _
  have hends : EndsIn v.files ((given o).runIn h w) := by
    refine ⟨?_, fun e he => ?_⟩
    · rwa [runIn_given_snd]
    · rw [runIn_given_snd]
      exact hfails e he
  have hrepeats := hreplays.again v hends ⟨hbytes, rfl,
    fun q hq => absurd List.nil_prefix hq, hdistinct⟩
  exact Prod.ext hrepeats.result runIn_given_snd

/-- A failure halfway is followed by a failure, and the directories that were made stay. -/
theorem recurs_makeDirectories {p : Path} {x : Build Compiled} (hp : p.IsClean)
    (hrun : (makeDirectories p).runIn h w = (.error e, w')) (hv : v.files = w'.files) :
    Recurs h p (do makeDirectories p; x) w v := by
  obtain ⟨e', hagain⟩ := makeDirectories_error_again hp hrun (by rw [hv])
  have hcalls := calls_makeDirectories (h := h) (w := w) (p := p)
  rw [hrun] at hcalls
  have hfirst : (do makeDirectories p; x : Build Compiled).runIn h w = (.error e, w') := by
    rw [runIn_bind, hrun]
  have hsecond : (do makeDirectories p; x : Build Compiled).runIn h v = (.error e', v) := by
    rw [runIn_bind, hagain]
  refine ⟨⟨[], ?_, ?_⟩, ?_, fun q => ?_⟩
  · rw [hfirst, hcalls, List.append_nil]
  · rw [hsecond, List.append_nil]
  · rw [hfirst, hsecond]
    by_cases hsame : ∀ q, w'.files.nodeAt? q = w.files.nodeAt? q
    · have hkinds : w'.files.kindAt? = w.files.kindAt? := funext fun q => by
        rw [FileTree.kindAt?, FileTree.kindAt?, hsame]
      rw [makeDirectories_error_same hrun hkinds (by rw [hv, hkinds])] at hagain
      exact .inl (congrArg Except.error (Except.error.inj (Prod.mk.inj hagain).1.symm))
    · refine .inr ⟨e, e', ⟨by rw [hrun], by rw [hagain], ?_⟩, rfl, rfl⟩
      rw [hrun]
      exact not_forall.mp hsame
  · rw [hfirst, hsecond, hv]

/-- What a build does with what it is given. -/
def ofGiven (t : Toolchain) (h : Host) (o : Options) (code : Text) (declared : Declared) :
    Build Compiled := do
  makeDirectories (stagingDirectory t h o)
  inDirectory t h o code declared

section Whole

variable (hw : w.files.IsProper) (hhere : w.files.nodeAt? h.here = some none)
  (hdistinct : w.files.HasDistinctNames)
  (henv : IsProperName o.env) (hmodule : IsProperName o.module)
  (hnone : w.files.nodeAt? ((stagingDirectory t h o).place h.here) = none)
  (hsource : ¬ (Staging.rootDirectory h t.stagingRoot).place h.here <+:
    o.sourcePath.parent.place h.here)

include hw hhere

theorem isProperName_here : ∀ n ∈ h.here, IsProperName n := hw h.here (by rw [hhere]; rfl)

theorem makesDirectories_stagingDirectory : FileTree.MakesDirectories w.files
    ((makeDirectories (stagingDirectory t h o)).runIn h w).2.files :=
  makesDirectories (fun n hn => (isProperName_here hw hhere n hn).1) (isClean_ofText _)

include hdistinct hnone

theorem isFresh_of_makeDirectories
    (hrun : (makeDirectories (stagingDirectory t h o)).runIn h w = (.ok (), w')) :
    IsFresh t h o w' := by
  have hmakes := makesDirectories_stagingDirectory (t := t) (o := o) hw hhere
  rw [hrun] at hmakes
  refine ⟨⟨hmakes.proper hw, hmakes.distinct hdistinct, leads_of_makeDirectories hrun⟩,
    hmakes.fits _ _ (FileTree.kindAt?_nil_of_nodeAt? hhere), ?_⟩
  rintro q ⟨r, -, hq⟩
  rw [hmakes.bytesAt?, FileTree.bytesAt?, hq, FileTree.nodeAt?_append_eq_none hnone]
  rfl

include henv hmodule hsource

/-- Files and directories that are there before a build are there after it, and no name comes to
stand for two things. -/
theorem stays_ofGiven (code : Text) (declared : Declared) :
    w.files.Fits ((ofGiven t h o code declared).runIn h w).2.files ∧
    (∀ q b, w.files.bytesAt? q = some b →
      ((ofGiven t h o code declared).runIn h w).2.files.bytesAt? q = some b) ∧
    ((ofGiven t h o code declared).runIn h w).2.files.HasDistinctNames := by
  have hmakes := makesDirectories_stagingDirectory (t := t) (o := o) hw hhere
  rw [ofGiven, runIn_bind]
  rcases hrun : (makeDirectories (stagingDirectory t h o)).runIn h w with ⟨e | ⟨⟩, w'⟩
  · rw [hrun] at hmakes
    exact ⟨hmakes.fits, fun q b hb => (hmakes.bytesAt? q).trans hb, hmakes.distinct hdistinct⟩
  · rw [hrun] at hmakes
    have hnames := isProperName_here hw hhere
    have hfresh := isFresh_of_makeDirectories hw hhere hdistinct hnone hrun
    have hchanges := changesBelow_inDirectory hnames henv hmodule hsource code declared
      hfresh.toIsReady
    exact ⟨trans_of FileTree.Fits hmakes.fits hchanges.fits, fun q b hb =>
      bytesAt?_inDirectory hnames henv hmodule hsource hfresh ((hmakes.bytesAt? q).trans hb),
      hchanges.distinct hfresh.distinct⟩

theorem recurs_ofGiven (hv : v.files = ((ofGiven t h o code declared).runIn h w).2.files)
    (hlist : Staging.IsListable h o.sourcePath.parent (stagingDirectory t h o) v.files) :
    Recurs h (stagingDirectory t h o) (ofGiven t h o code declared) w v := by
  rcases hrun : (makeDirectories (stagingDirectory t h o)).runIn h w with ⟨e | ⟨⟩, w'⟩
  · refine recurs_makeDirectories (isClean_ofText _) hrun ?_
    rw [hv, ofGiven, runIn_bind, hrun]
  · have hfirst : (ofGiven t h o code declared).runIn h w =
        (inDirectory t h o code declared).runIn h w' := by
      rw [ofGiven, runIn_bind, hrun]
    rw [hfirst] at hv
    have hnames := isProperName_here hw hhere
    have hfresh := isFresh_of_makeDirectories hw hhere hdistinct hnone hrun
    have hchanges := changesBelow_inDirectory hnames henv hmodule hsource code declared
      hfresh.toIsReady
    -- the directory is there, so the second time the copying starts at once
    have hsecond : (ofGiven t h o code declared).runIn h v =
        (inDirectory t h o code declared).runIn h v := by
      rw [ofGiven, runIn_bind,
        runIn_makeDirectories_of_leads (hv ▸ hfresh.leads.of_fits hchanges.fits)]
    obtain ⟨hresult, hfiles, made, hw', hv'⟩ :=
      repeats_inDirectory hnames henv hmodule hsource hfresh hv hlist
    have hcalls := calls_makeDirectories (h := h) (w := w) (p := stagingDirectory t h o)
    rw [hrun] at hcalls
    refine ⟨⟨made, ?_, ?_⟩, .inl ?_, fun q => ?_⟩
    · rw [hfirst, hw', hcalls]
    · rw [hsecond, hv']
    · rw [hfirst, hsecond, hresult]
    · rw [hfirst, hsecond, hfiles.nodeAt?_eq]

/-- A build recurs up to its conclusion. -/
theorem recurs_body (hv : v.files = ((body t o).runIn h w).2.files)
    (hlist : Staging.IsListable h o.sourcePath.parent (stagingDirectory t h o) v.files) :
    Recurs h (stagingDirectory t h o) (body t o) w v := by
  rcases hgiven : (given o).runIn h w with ⟨e | ⟨code, declared⟩, w₁⟩
  · obtain rfl : w₁ = w := by rw [← runIn_given_snd (o := o) (h := h) (w := w), hgiven]
    have hbody : ∀ u, (given o).runIn h u = (.error e, u) →
        (body t o).runIn h u = (throw e : Build Compiled).runIn h u := fun u hu => by
      rw [runIn_body_eq, runIn_bind, hu]
      rfl
    have hv : v.files = w₁.files := by
      rw [hv, hbody w₁ hgiven]
      rfl
    have hagain := runIn_given_again (o := o) (h := h) (w := w₁) (v := v)
      (by rw [hv]; exact refl_of FileTree.Fits _) (by rwa [hv]) (by rw [hv]; exact fun _ _ => id)
      fun _ _ => by rw [hv]
    rw [hgiven] at hagain
    exact .congr (hbody w₁ hgiven) (hbody v hagain) (recurs_throw hv)
  · obtain rfl : w₁ = w := by rw [← runIn_given_snd (o := o) (h := h) (w := w), hgiven]
    have hbody : ∀ u, (given o).runIn h u = (.ok (code, declared), u) →
        (body t o).runIn h u = (ofGiven t h o code declared).runIn h u := fun u hu => by
      rw [runIn_body_eq, runIn_bind, hu]
      rfl
    rw [hbody w₁ hgiven] at hv
    obtain ⟨hfits, hbytes, hdistinct'⟩ :=
      stays_ofGiven hw hhere hdistinct henv hmodule hnone hsource code declared
    rw [← hv] at hfits hbytes hdistinct'
    have hagain := runIn_given_again (o := o) hfits hdistinct' hbytes fun e he => by
      rw [hgiven] at he
      cases he
    rw [hgiven] at hagain
    exact .congr (hbody w₁ hgiven) (hbody v hagain)
      (recurs_ofGiven hw hhere hdistinct henv hmodule hnone hsource hv hlist)

end Whole

/-! ## Conclusions -/

theorem calls_run : ((run t o).runIn h w).2.calls = ((body t o).runIn h w).2.calls := by
  rw [runIn_run]
  rcases (body t o).runIn h w with ⟨e | compiled, w'⟩
  · exact calls_conclude
  · rfl

theorem files_run : ((run t o).runIn h w).2.files = ((body t o).runIn h w).2.files := by
  rw [runIn_run]
  rcases (body t o).runIn h w with ⟨e | compiled, w'⟩
  · exact files_conclude
  · rfl

/-- A build comes to what it came to before its conclusion. -/
theorem fst_run_congr (hbody : ((body t o).runIn h v).1 = ((body t o).runIn h w).1) :
    ((run t o).runIn h v).1 = ((run t o).runIn h w).1 := by
  rw [runIn_run, runIn_run]
  rcases hv : (body t o).runIn h v with ⟨e | compiled, v'⟩ <;>
    rcases hw : (body t o).runIn h w with ⟨e' | compiled', w'⟩ <;>
    rw [hv, hw] at hbody <;> cases hbody
  · cases e <;> rfl
  · rfl

/-- A directory that cannot be made is no build error. -/
theorem run_error_of_makeDirectories {p : Path} (hbody : ((body t o).runIn h w).1 = .error e)
    (hmake : ((makeDirectories p).runIn h w).1 = .error e) :
    ((run t o).runIn h w).1 = .error e := by
  have hkeeps : Keeps h SameCalls Staging.IsFault (makeDirectories p) w :=
    .makeDirectories (fun _ _ _ _ _ _ _ => rfl) .nullByte (fun _ _ => .file ..) (.tooDeep _)
  rw [runIn_run]
  rcases hrun : (body t o).runIn h w with ⟨e' | compiled, w'⟩
  · rw [hrun] at hbody
    cases hbody
    exact conclude_eq_error_iff.mpr ⟨rfl, (hkeeps.fails e hmake).ne_build⟩
  · rw [hrun] at hbody
    cases hbody

theorem Recurs.run {p : Path} (hb : Recurs h p (body t o) w v) : Recurs h p (run t o) w v where
  calls := by
    rw [calls_run, calls_run]
    exact hb.calls
  outcome := by
    refine hb.outcome.imp fst_run_congr ?_
    rintro ⟨e, e', hfails, hfirst, hsecond⟩
    exact ⟨e, e', hfails, run_error_of_makeDirectories hfirst hfails.first,
      run_error_of_makeDirectories hsecond hfails.second⟩
  nodeAt? q := by rw [files_run, files_run, hb.nodeAt? q]

/-- **A build is done again as it was.**

In a proper tree, let there be nothing yet where the staging directory is to be, let the environment
and the module be names, and let the directory of the source not be the directory that the staging
directories of the root are in, nor below it.  Let the first run leave no directory, from the
staging directory on, that cannot be looked into by way of the source.  When the build is run a
second time after the first, it runs the same commands, leaves every file and directory as the first
one left it, and comes to the same; only where the staging directory cannot be made, and the first
run has made some of the directories that lead to it, can the two runs fail with different failures
to make it. -/
theorem run_again (t : Toolchain) (h : Host) (o : Options) (w : Workspace)
    (hw : w.files.IsProper) (hhere : w.files.nodeAt? h.here = some none)
    (hdistinct : w.files.HasDistinctNames)
    (henv : IsProperName o.env) (hmodule : IsProperName o.module)
    (hnone : w.files.nodeAt? ((stagingDirectory t h o).place h.here) = none)
    (hsource : ¬ (Staging.rootDirectory h t.stagingRoot).place h.here <+:
      o.sourcePath.parent.place h.here)
    (hlist : Staging.IsListable h o.sourcePath.parent (stagingDirectory t h o)
      ((run t o).runIn h w).2.files) :
    Recurs h (stagingDirectory t h o) (run t o) w ((run t o).runIn h w).2 :=
  .run (recurs_body hw hhere hdistinct henv hmodule hnone hsource files_run hlist)

/-- A toolchain that stages below the working directory. -/
def localToolchain : Toolchain := { smallToolchain with stagingRoot := some "stage" }

theorem hasDistinctNames_libraryWorkspace (dir : Text) :
    (libraryWorkspace dir).files.HasDistinctNames := by
  have hkeys : ["w".toList, "tmp".toList].Nodup := by decide +kernel
  refine FileTree.hasDistinctNames_directory hkeys fun e he => ?_
  rcases List.mem_pair.mp he with rfl | rfl
  · refine FileTree.hasDistinctNames_directory (List.nodup_singleton _) fun e he => ?_
    rw [List.mem_singleton.mp he]
    refine FileTree.hasDistinctNames_directory (List.nodup_singleton _) fun e he => ?_
    rw [List.mem_singleton.mp he]
    exact FileTree.hasDistinctNames_file
  · exact FileTree.hasDistinctNames_directory List.nodup_nil nofun

/-- The directories of a tree that can be looked into by way of the source are found among its
contents. -/
theorem isListable_of_contents {source target : Path} {tree : FileTree}
    (htarget : target.place h.here ≠ [])
    (hall : ∀ e ∈ tree.contents, e.2.isFolder → target.place h.here <+: e.1 →
      let names := e.1.drop (source.place h.here).length
      (tree.locate h.here (source.join { names })).isOk ∧ names.length < h.stack.folders) :
    Staging.IsListable h source target tree := by
  rintro names hin hkind
  obtain ⟨inside, hget⟩ := FileTree.nodeAt?_eq_some_none_iff.mp (FileTree.kindAt?_eq_true_iff.mp hkind)
  have hne : source.place h.here ++ names ≠ [] := fun hnil =>
    htarget (List.prefix_nil.mp (hnil ▸ hin))
  have hdir := hall _ (FileTree.mem_contents hne hget) rfl hin
  rw [List.drop_left] at hdir
  exact ⟨Source.isOk_eq_true_iff.mp hdir.1, hdir.2⟩

/-- The staging directory lies below the directory of the source, and so does an imported file. -/
theorem run_again_below :
    let o := importOptions "lib/a.zig"
    let w := libraryWorkspace "lib"
    o.sourcePath.parent.place obligingHost.here <+:
        (stagingDirectory localToolchain obligingHost o).place obligingHost.here ∧
      Recurs obligingHost (stagingDirectory localToolchain obligingHost o) (run localToolchain o) w
        ((run localToolchain o).runIn obligingHost w).2 :=
  ⟨by decide +kernel,
    run_again localToolchain obligingHost (importOptions "lib/a.zig") (libraryWorkspace "lib")
      (isProper_libraryWorkspace (by decide +kernel)) (by decide +kernel)
      (hasDistinctNames_libraryWorkspace _) (by decide +kernel) (by decide +kernel)
      (by decide +kernel) (by decide +kernel)
      (isListable_of_contents (by decide +kernel) (by
        rw [run_eq_spelledRun]
        decide +kernel))⟩

/-- What a build was doing that ends because the stack runs out. -/
def depthFault? : Except Failure Outcome → Option Text
  | .error (.tooDeep doing) => some doing
  | _ => none

/-- A working directory with the root of the staging directories, and behind it a directory that
holds a Zig file. -/
def stagedLibraryWorkspace : Workspace where
  files := .directory
    [("w", .directory [("stage", .directory []),
      ("lib", .directory [("a.zig", .file (Utf8.encode "const x = 1;"))])]),
      ("tmp", .directory [])]

/-- Where the copies are deeper below the source than the stack lasts: the first time, the directory
of the root is looked into before there are any; the second time, they are looked into themselves. -/
theorem run_again_deep :
    let h : Host := { obligingHost with stack := { folders := 5 } }
    let o := importOptions "lib/a.zig"
    let w := stagedLibraryWorkspace
    let first := (run localToolchain o).runIn h w
    let second := (run localToolchain o).runIn h first.2
    (first.1.toOption.bind Outcome.rendered?).isSome ∧ depthFault? second.1 = some [] := by
  intro h o w first second
  have hfirst : (first.1.toOption.bind Outcome.rendered?).isSome := by
    rw [show first = (run localToolchain o).runIn h w from rfl, run_eq_spelledRun]
    decide +kernel
  have hsecond : depthFault? second.1 = some [] := by
    rw [show second = (run localToolchain o).runIn h ((run localToolchain o).runIn h w).2 from rfl,
      run_eq_spelledRun]
    decide +kernel
  exact ⟨hfirst, hsecond⟩

/-- The path and the fault of a build that ends because of a path. -/
def pathFault? : Except Failure Outcome → Option (FileFault × Text)
  | .error (.file fault path) => some (fault, path)
  | _ => none

/-- An environment of more bytes than a name can have: the first time, the directory of the root is
made before the directory of the environment fails; the second time, the staging directory fails. -/
theorem run_again_halfway :
    let o := otherOptions (List.replicate 256 'e') "M"
    let dir := stagingDirectory localToolchain obligingHost o
    let first := (run localToolchain o).runIn obligingHost emptyWorkspace
    let second := (run localToolchain o).runIn obligingHost first.2
    IsProperName o.env ∧ IsProperName o.module ∧
      emptyWorkspace.files.nodeAt? (dir.place obligingHost.here) = none ∧
      Staging.directoryName ∉ o.sourcePath.parent.place obligingHost.here ∧
      pathFault? first.1 = some (.nameTooLong, dir.parent.text) ∧
      pathFault? second.1 = some (.nameTooLong, dir.text) ∧ second.1 ≠ first.1 := by
  intro o dir first second
  have hfirst : pathFault? first.1 = some (.nameTooLong, dir.parent.text) := by decide +kernel
  have hsecond : pathFault? second.1 = some (.nameTooLong, dir.text) := by decide +kernel
  have hne : dir.text ≠ dir.parent.text := by decide +kernel
  refine ⟨by decide +kernel, by decide +kernel, by decide +kernel, by decide +kernel, hfirst,
    hsecond, fun heq => ?_⟩
  rw [heq, hfirst] at hsecond
  exact hne (Prod.mk.inj (Option.some.inj hsecond)).2.symm

end ZigNif.Pipeline
