import ZigNif.Proofs.Module.Steps
import ZigNif.Proofs.Pipeline.Mirror
import ZigNif.Proofs.Staging.Area

/-!
# Proofs/Pipeline/Phase — a build stage by stage

A build can be done one stage at a time: its `Phase` says how far it has come, and what the stages
so far gave.  From its start, as many stages as there are make the whole build.

Whatever else happens in the workspace between the stages, each of them writes only at the places
that belong to the build: copies below the staging directory, the staged source, the harness and the
entry file.
-/

namespace ZigNif

open Build ZigNif.Path

namespace Pipeline

variable {t : Toolchain} {h : Host} {o : Options} {w w' : Workspace} {m m' : Module}

/-! ## Stages -/

/-- How far a build has come, with the code and the module that it goes on with. -/
inductive Phase
  | start
  | accepted (code : Text) (m : Module)
  | staged (code : Text) (m : Module)
  | reported (code : Text) (m : Module)
  | parsed (m : Module)
  | verified (m : Module)
  | assembled (m : Module)
  | rendered (compiled : Compiled)
  | stopped (e : Failure)

namespace Phase

/-- Does the next stage of a build. -/
def next (t : Toolchain) (o : Options) : Phase → Build Phase
  | start => do
    let code ← o.source
    let declared ← Build.ofBuild o.declared
    pure (accepted code (Module.ofOptions o declared))
  | accepted code m => do
    let m ← Staging.stage t.stagingRoot m code
    let m ← Build.ofExcept (m.withManifest code)
    pure (staged code m)
  | staged code m => do
    let m ← t.withReport m
    pure (reported code m)
  | reported code m => do
    let m ← m.withParsed code
    pure (parsed m)
  | parsed m => do
    let m ← m.verify
    pure (verified m.withNifResources.withDocs)
  | verified m => do
    t.precompile m
    pure (assembled m)
  | assembled m => do
    let m := (← t.compile m).withoutManifest
    let glue ← Build.ofExcept (Glue.render m)
    Build.note "compiler" ("rendered " ++ m.name ++ " (" ++ m.flavor.name ++ ")")
    pure (rendered { module := m, rendered := glue })
  | rendered compiled => pure (rendered compiled)
  | stopped e => pure (stopped e)

/-- Does stages one after another. -/
def nexts (t : Toolchain) (o : Options) : Nat → Phase → Build Phase
  | 0, p => pure p
  | n + 1, p => do nexts t o n (← next t o p)

/-- **Seven stages make a build.** -/
theorem nexts_start : nexts t o 7 start = rendered <$> body t o := by
  simp only [nexts, next, body, compile, bind_assoc, pure_bind, map_bind, map_pure]

end Phase

/-! ## Where a build writes -/

/-- The build may write a file there: a copy, the staged source, the harness, or the entry file. -/
inductive IsOutput (t : Toolchain) (h : Host) (o : Options) : Location → Prop
  | copy {rel : Location} (place : Staging.IsCopyPlace rel) :
    IsOutput t h o ((stagingDirectory t h o).place h.here ++ rel)
  | source : IsOutput t h o ((stagedPath t h o).place h.here)
  | harness : IsOutput t h o ((harnessPath t h o).place h.here)
  | entry : IsOutput t h o ((entryPath t h o).place h.here)

/-- All places where a build may write a file. -/
def area (t : Toolchain) (h : Host) (o : Options) : Set Location := {l | IsOutput t h o l}

/-- Verification keeps a module staged. -/
theorem gives_verify (hm : IsStaged t h o m) : Gives (IsStaged t h o) m.verify := by
  intro h' w m' hrun
  obtain ⟨reported, nifs, -, -, rfl⟩ := Module.exists_verify_eq hrun
  exact hm.of_eq_ok rfl rfl rfl rfl

namespace Phase

/-- The phase belongs to the build: its module is that of the options, staged where the build
stages it. -/
def IsOf (t : Toolchain) (h : Host) (o : Options) : Phase → Prop
  | accepted _ m => ∃ declared, m = Module.ofOptions o declared
  | staged _ m | reported _ m | parsed m | verified m | assembled m => IsStaged t h o m
  | start | rendered _ | stopped _ => True

variable {p p' : Phase}

/-- **A stage leads to a phase of the same build.** -/
theorem IsOf.next (hp : p.IsOf t h o) (hrun : ((p.next t o).runIn h w).1 = .ok p') :
    p'.IsOf t h o := by
  cases p with
  | start =>
    obtain ⟨code, _, -, hrun⟩ := runIn_bind_eq_ok_iff.mp (runIn_eq_of_fst hrun)
    obtain ⟨declared, _, -, hrun⟩ := runIn_bind_eq_ok_iff.mp hrun
    cases hrun
    exact ⟨declared, rfl⟩
  | accepted code m =>
    obtain ⟨declared, rfl⟩ := hp
    obtain ⟨m, _, hstage, hrun⟩ := runIn_bind_eq_ok_iff.mp (runIn_eq_of_fst hrun)
    obtain ⟨m', _, hnumber, hrun⟩ := runIn_bind_eq_ok_iff.mp hrun
    cases hrun
    rw [runIn_ofExcept, Prod.mk.injEq] at hnumber
    obtain ⟨manifest, -, rfl⟩ := Module.exists_withManifest_eq hnumber.1
    exact (isStaged_of_stage hstage).of_eq_ok rfl rfl rfl rfl
  | staged code m =>
    have hgives : Gives (IsOf t h o) (Phase.next t o (staged code m)) :=
      .bind_of (Module.gives_withReport t fun _ => hp.of_eq_ok rfl rfl rfl rfl)
        fun _ hm => .pure hm
    exact hgives h w p' hrun
  | reported code m =>
    have hgives : Gives (IsOf t h o) (Phase.next t o (reported code m)) :=
      .bind_of (Module.gives_withParsed code fun _ _ => hp.of_eq_ok rfl rfl rfl rfl)
        fun _ hm => .pure hm
    exact hgives h w p' hrun
  | parsed m =>
    have hgives : Gives (IsOf t h o) (Phase.next t o (parsed m)) :=
      .bind_of (gives_verify hp) fun _ hm => .pure (hm.of_eq_ok rfl rfl rfl rfl)
    exact hgives h w p' hrun
  | verified m =>
    have hgives : Gives (IsOf t h o) (Phase.next t o (verified m)) := .bind fun _ => .pure hp
    exact hgives h w p' hrun
  | assembled m =>
    have hgives : Gives (IsOf t h o) (Phase.next t o (assembled m)) :=
      .bind fun _ => .bind fun _ => .bind fun _ => .pure trivial
    exact hgives h w p' hrun
  | rendered compiled => cases hrun; trivial
  | stopped e => cases hrun; trivial

section Keeps

variable {R : Workspace → Workspace → Prop} [IsPreorder Workspace R]
  (hR : IsChangeRule h (Staging.IsVisibleWay (stagingDirectory t h o)) (area t h o) R)

include hR

/-- **A stage makes directories on visible ways and writes only where the build may write.** -/
theorem keeps_next (hp : p.IsOf t h o) : Keeps h R (fun _ => True) (p.next t o) w := by
  cases p with
  | start =>
    refine .bind (hR.keeps_of_files_eq (congrArg _ Options.runIn_source_snd)) fun _ _ _ _ => ?_
    refine .bind (hR.keeps_of_files_eq ?_) fun _ _ _ _ => .pure _
    rw [runIn_ofBuild]
  | accepted code m =>
    obtain ⟨declared, rfl⟩ := hp
    refine .bind (Staging.keeps_stage_of hR (fun rel hrel => ?_) ?_) fun _ _ _ _ => ?_
    · exact IsOutput.copy hrel
    · exact IsOutput.source
    · exact .bind (.ofExcept fun _ _ => trivial) fun _ _ _ _ => .pure _
  | staged code m =>
    refine .bind ?_ fun _ _ _ _ => .pure _
    rw [withReport_eq hp]
    refine .bind (hR.keeps_writeText IsOutput.harness) fun _ w₁ _ _ => ?_
    obtain ⟨log, hask⟩ := runIn_askReport (h := h) (w := w₁) (m := m) (reportCall t h o)
    exact hR.keeps_of_files_eq (by rw [hask])
  | reported code m =>
    exact .bind (hR.keeps_of_files_eq (Module.files_withParsed code)) fun _ _ _ _ => .pure _
  | parsed m => exact .bind (hR.keeps_of_files_eq Module.files_verify) fun _ _ _ _ => .pure _
  | verified m =>
    refine .bind ?_ fun _ _ _ _ => .pure _
    rw [Toolchain.precompile, hp.stagedPath_eq, pure_bind]
    refine .bind (.ofExcept fun _ _ => trivial) fun _ _ _ _ => ?_
    refine .bind (hR.keeps_writeText IsOutput.entry) fun _ w₁ _ _ => ?_
    obtain ⟨log, hformat⟩ := runIn_format (t := t) (h := h) (o := o) (w := w₁)
    refine .bind (hR.keeps_of_files_eq ?_) fun _ _ _ _ => hR.keeps_of_files_eq rfl
    exact congrArg (fun r => Workspace.files r.2) hformat
  | assembled m =>
    obtain ⟨log, hcompile⟩ := runIn_compile (w := w) hp
    refine .bind (hR.keeps_of_files_eq (by rw [hcompile])) fun _ _ _ _ => ?_
    refine .bind (.ofExcept fun _ _ => trivial) fun _ _ _ _ => ?_
    exact .bind (hR.keeps_of_files_eq rfl) fun _ _ _ _ => .pure _
  | rendered compiled => exact .pure _
  | stopped e => exact .pure _

theorem keeps_nexts (hp : p.IsOf t h o) (n : Nat) :
    Keeps h R (fun _ => True) (nexts t o n p) w := by
  induction n generalizing p w with
  | zero => exact .pure p
  | succ n ih =>
    refine .bind (keeps_next hR hp) fun p' w₁ hrun _ => ih (hp.next (w := w) ?_)
    rw [hrun]

end Keeps

/-! ## Stages in a workspace -/

/-- What a stage comes to: a failure stops the build. -/
def settle : Except Failure Phase × Workspace → Phase × Workspace
  | (.ok p, w) => (p, w)
  | (.error e, w) => (stopped e, w)

/-- Does the next stage in a workspace. -/
def advance (t : Toolchain) (h : Host) (o : Options) (s : Phase × Workspace) : Phase × Workspace :=
  settle ((s.1.next t o).runIn h s.2)

theorem nexts_stopped (n : Nat) {e : Failure} : nexts t o n (stopped e) = pure (stopped e) := by
  induction n with
  | zero => rfl
  | succ n ih => rw [nexts, next, pure_bind, ih]

theorem iterate_advance (n : Nat) :
    (advance t h o)^[n] (p, w) = settle ((nexts t o n p).runIn h w) := by
  induction n generalizing p w with
  | zero => rfl
  | succ n ih =>
    rw [Function.iterate_succ_apply, advance, nexts, runIn_bind]
    rcases (p.next t o).runIn h w with ⟨e | p', w₁⟩
    · rw [settle, ih, nexts_stopped]
      rfl
    · exact ih

/-- **A build that does its stages one after another is the whole build.** -/
theorem iterate_advance_start : (advance t h o)^[7] (start, w) =
    settle ((rendered <$> body t o).runIn h w) := by
  rw [iterate_advance, nexts_start]

theorem IsOf.advance (hp : p.IsOf t h o) : (Phase.advance t h o (p, w)).1.IsOf t h o := by
  rw [Phase.advance]
  rcases hrun : (p.next t o).runIn h w with ⟨e | p', w₁⟩
  · exact trivial
  · exact hp.next (w := w) (congrArg Prod.fst hrun)

theorem changes_advance (hp : p.IsOf t h o) :
    Changes h (area t h o) w (Phase.advance t h o (p, w)).2 := by
  have hleaves := (keeps_next (w := w) .changes hp).leaves
  rw [Phase.advance]
  rcases hrun : (p.next t o).runIn h w with ⟨e | p', w₁⟩
  · exact congrArg Prod.snd hrun ▸ hleaves
  · exact congrArg Prod.snd hrun ▸ hleaves

end Phase

/-- **What its changes keep, a whole build keeps.** -/
theorem leaves_run {R : Workspace → Workspace → Prop} [IsPreorder Workspace R]
    (hR : IsChangeRule h (Staging.IsVisibleWay (stagingDirectory t h o)) (area t h o) R) :
    R w ((run t o).runIn h w).2 := by
  have hbody : ((body t o).runIn h w).2 = ((Phase.nexts t o 7 .start).runIn h w).2 := by
    rw [Phase.nexts_start, map_eq_pure_bind, runIn_bind]
    rcases (body t o).runIn h w with ⟨e | compiled, w₁⟩ <;> rfl
  have hnexts := (Phase.keeps_nexts (p := .start) (w := w) hR trivial 7).leaves
  rw [← hbody] at hnexts
  rw [runIn_run]
  rcases hrun : (body t o).runIn h w with ⟨e | compiled, w₁⟩
  · rw [hrun] at hnexts
    exact trans_of R hnexts (hR.same _ _ files_conclude)
  · rwa [hrun] at hnexts

/-- **A build writes only where it may write.** -/
theorem changes_run : Changes h (area t h o) w ((run t o).runIn h w).2 := leaves_run .changes

end Pipeline

end ZigNif
