import Mathlib.Data.Set.Lattice
import Mathlib.Order.CompletePartialOrder
import ZigNif.Proofs.Pipeline.Phase

/-!
# Proofs/Pipeline/Apart — two builds in one workspace

Two builds can go on in one workspace in any order, stage by stage.  Each writes only at its own
places, so neither changes what the other staged if they have no place in common.

Whether they have is decided by their staging directories: they must not be the same, and neither
may lie below the other by visible names, where copies go.  An environment and a module that are
names see to that; but they can be any texts, and a slash in one of them, or a dot alone, can make
the directories of different modules the same.
-/

namespace ZigNif.Pipeline

open Build ZigNif.Path

variable {t : Toolchain} {h : Host} {o o₁ o₂ : Options} {w w' : Workspace} {l l' : Location}

/-! ## Places in common -/

/-- One of the directories is the other one, or lies below it by visible names. -/
def Meet (l l' : Location) : Prop :=
  ∃ names, (∀ n ∈ names, Staging.isHidden n = false) ∧ (l' = l ++ names ∨ l = l' ++ names)

theorem directory_eq (hmodule : '/' ∉ o.module) :
    directory t h o = stagingDirectory t h o := by
  rw [directory, stagedPath, Staging.ofText_sourceName hmodule]
  simp [parent, join, stagingDirectory]

theorem isCopyPlace_singleton {name : Text} (hvisible : Staging.isHidden name = false)
    (hzig : (".zig" : Text).isSuffixOf name) : Staging.IsCopyPlace [name] where
  visible _ hn := List.mem_singleton.mp hn ▸ hvisible
  zig := ⟨[], name, rfl, hzig⟩

/-- The harness and the entry file stand where copies can. -/
theorem mem_area_iff (hmodule : '/' ∉ o.module) : l ∈ area t h o ↔
    ∃ rel, l = (stagingDirectory t h o).place h.here ++ rel ∧
      (Staging.IsCopyPlace rel ∨ rel = [Staging.sourceName o.module]) := by
  have hsource : (stagedPath t h o).place h.here =
      (stagingDirectory t h o).place h.here ++ [Staging.sourceName o.module] :=
    Staging.place_stagedSource hmodule
  constructor
  · intro hl
    cases hl with
    | copy place => exact ⟨_, rfl, .inl place⟩
    | source => exact ⟨_, hsource, .inr rfl⟩
    | harness =>
      refine ⟨_, by rw [place_harnessPath, directory_eq hmodule], .inl ?_⟩
      exact isCopyPlace_singleton (by decide) (by decide)
    | entry =>
      refine ⟨_, by rw [place_entryPath, directory_eq hmodule], .inl ?_⟩
      exact isCopyPlace_singleton (by decide) (by decide)
  · rintro ⟨rel, hl, hrel | hrel⟩
    · exact hl ▸ .copy hrel
    · rw [hl, hrel, ← hsource]
      exact .source

/-- Names that lead on to a place of a build are visible: the staged source, the only hidden one,
stands in the directory itself. -/
theorem visible_of_append {names rel : Location} (hrel : rel ≠ [])
    (hplace : Staging.IsCopyPlace (names ++ rel) ∨ ∃ name, names ++ rel = [name]) :
    ∀ n ∈ names, Staging.isHidden n = false := by
  intro n hn
  obtain hcopy | ⟨name, hname⟩ := hplace
  · exact hcopy.visible n (List.mem_append_left _ hn)
  · have hnil : names = [] := by
      have hlength := congrArg List.length hname
      have hpos := List.length_pos_iff.mpr hrel
      rw [List.length_append, List.length_singleton] at hlength
      exact List.length_eq_zero_iff.mp (by omega)
    rw [hnil] at hn
    cases hn

/-- **Two builds have a place in common if and only if their staging directories meet.** -/
theorem disjoint_area_iff (h₁ : '/' ∉ o₁.module) (h₂ : '/' ∉ o₂.module) :
    Disjoint (area t h o₁) (area t h o₂) ↔
      ¬ Meet ((stagingDirectory t h o₁).place h.here) ((stagingDirectory t h o₂).place h.here) := by
  rw [Set.disjoint_left]
  constructor
  · rintro hdisjoint ⟨names, hnames, hmeet⟩
    -- the harness of the lower directory is a place for a copy from the upper one
    have hharness : ∀ names : Location, (∀ n ∈ names, Staging.isHidden n = false) →
        Staging.IsCopyPlace (names ++ [Harness.fileName]) := fun names hnames => by
      refine ⟨fun n hn => ?_, names, _, rfl, by decide⟩
      rcases List.mem_append.mp hn with hn | hn
      · exact hnames n hn
      · exact List.mem_singleton.mp hn ▸ by decide
    have hnil := hharness [] nofun
    have hsub := hharness names hnames
    rcases hmeet with hmeet | hmeet
    · refine hdisjoint (IsOutput.copy hsub) ?_
      rw [← List.append_assoc, ← hmeet]
      exact .copy hnil
    · refine hdisjoint (a := _ ++ [Harness.fileName]) (IsOutput.copy hnil) ?_
      rw [hmeet, List.append_assoc]
      exact .copy hsub
  · intro hmeet l hl₁ hl₂
    obtain ⟨rel₁, heq₁, hrel₁⟩ := (mem_area_iff h₁).mp hl₁
    obtain ⟨rel₂, heq₂, hrel₂⟩ := (mem_area_iff h₂).mp hl₂
    have hne : ∀ {rel : Location} {name : Text}, Staging.IsCopyPlace rel ∨ rel = [name] →
        rel ≠ [] := by
      rintro rel name (⟨-, dirs, last, rfl, -⟩ | rfl)
      · simp
      · simp
    rcases List.append_eq_append_iff.mp (heq₁.symm.trans heq₂) with
      ⟨names, hdir, hrel⟩ | ⟨names, hdir, hrel⟩
    · refine hmeet ⟨names, visible_of_append (hne hrel₂) ?_, .inl hdir⟩
      exact hrel ▸ hrel₁.imp_right fun hname => ⟨_, hname⟩
    · refine hmeet ⟨names, visible_of_append (hne hrel₁) ?_, .inr hdir⟩
      exact hrel ▸ hrel₂.imp_right fun hname => ⟨_, hname⟩

/-- **Environments and modules that are names keep builds apart.** -/
theorem disjoint_area_of_ne (henv₁ : IsProperName o₁.env) (hmodule₁ : IsProperName o₁.module)
    (henv₂ : IsProperName o₂.env) (hmodule₂ : IsProperName o₂.module)
    (hne : (o₁.env, o₁.module) ≠ (o₂.env, o₂.module)) :
    Disjoint (area t h o₁) (area t h o₂) := by
  rw [disjoint_area_iff hmodule₁.1.2.2 hmodule₂.1.2.2]
  rintro ⟨names, -, hmeet⟩
  rw [stagingDirectory, stagingDirectory, Staging.place_directory henv₁ hmodule₁,
    Staging.place_directory henv₂ hmodule₂] at hmeet
  have hnames : names = [] := by
    have hlength : names.length = 0 := by
      rcases hmeet with hmeet | hmeet
      · simpa using congrArg List.length hmeet
      · simpa using congrArg List.length hmeet
    exact List.length_eq_zero_iff.mp hlength
  subst hnames
  have hpair : [o₁.env, o₁.module] = [o₂.env, o₂.module] := by
    rcases hmeet with hmeet | hmeet
    · simpa using hmeet.symm
    · simpa using hmeet
  simp only [List.cons.injEq, and_true] at hpair
  exact hne (Prod.ext hpair.1 hpair.2)

/-! ## Two builds, stage by stage -/

/-- How far two builds have come that were started in one workspace and do their stages in any
order, and the workspace that they have come to. -/
inductive Together (t : Toolchain) (h : Host) (o₁ o₂ : Options) (w : Workspace) :
    Phase → Phase → Workspace → Prop
  | start : Together t h o₁ o₂ w .start .start w
  | first {p₁ p₂ : Phase} {w₁ : Workspace} : Together t h o₁ o₂ w p₁ p₂ w₁ →
    Together t h o₁ o₂ w (Phase.advance t h o₁ (p₁, w₁)).1 p₂ (Phase.advance t h o₁ (p₁, w₁)).2
  | second {p₁ p₂ : Phase} {w₁ : Workspace} : Together t h o₁ o₂ w p₁ p₂ w₁ →
    Together t h o₁ o₂ w p₁ (Phase.advance t h o₂ (p₂, w₁)).1 (Phase.advance t h o₂ (p₂, w₁)).2

theorem Together.isOf {p₁ p₂ : Phase} (hp : Together t h o₁ o₂ w p₁ p₂ w') :
    p₁.IsOf t h o₁ ∧ p₂.IsOf t h o₂ := by
  induction hp with
  | start => exact ⟨trivial, trivial⟩
  | first _ ih => exact ⟨ih.1.advance, ih.2⟩
  | second _ ih => exact ⟨ih.1, ih.2.advance⟩

/-- **Where two builds write, and when neither changes what the other staged.**

All files that a build writes are in its area.  If the areas of two builds have no place in common,
then however far both have come, stage by stage in any order, the next stage of either leaves the
files at the places of the other as they are.  For modules without a slash, the areas have a place
in common if and only if the staging directories meet.  If environments and modules are names,
builds of different ones have none. -/
theorem builds_apart (t : Toolchain) (h : Host) (o₁ o₂ : Options) :
    (∀ w, Changes h (area t h o₁) w ((run t o₁).runIn h w).2) ∧
    (Disjoint (area t h o₁) (area t h o₂) →
      ∀ w p₁ p₂ w₁, Together t h o₁ o₂ w p₁ p₂ w₁ →
        (∀ l ∈ area t h o₁, (Phase.advance t h o₂ (p₂, w₁)).2.files.bytesAt? l =
          w₁.files.bytesAt? l) ∧
        ∀ l ∈ area t h o₂, (Phase.advance t h o₁ (p₁, w₁)).2.files.bytesAt? l =
          w₁.files.bytesAt? l) ∧
    ('/' ∉ o₁.module → '/' ∉ o₂.module →
      (Disjoint (area t h o₁) (area t h o₂) ↔
        ¬ Meet ((stagingDirectory t h o₁).place h.here)
          ((stagingDirectory t h o₂).place h.here))) ∧
    (IsProperName o₁.env → IsProperName o₁.module → IsProperName o₂.env →
      IsProperName o₂.module → (o₁.env, o₁.module) ≠ (o₂.env, o₂.module) →
        Disjoint (area t h o₁) (area t h o₂)) := by
  refine ⟨fun w => changes_run, fun hdisjoint w p₁ p₂ w₁ hp => ?_, disjoint_area_iff,
    disjoint_area_of_ne⟩
  obtain ⟨hp₁, hp₂⟩ := hp.isOf
  constructor
  · intro l hl
    exact (Phase.changes_advance hp₂).bytesAt?_eq (Set.disjoint_left.mp hdisjoint hl)
  · intro l hl
    exact (Phase.changes_advance hp₁).bytesAt?_eq (Set.disjoint_right.mp hdisjoint hl)

/-! ## Modules with one staging directory, and with two -/

/-- Options for other code, for a module and an environment. -/
def otherOptions (env module : Text) : Options :=
  { smallOptions with code := some "const y = 2;", env, module }

/-- The second build stages its module behind the first. -/
theorem builds_apart_other :
    let o₂ := otherOptions "dev" "N"
    let first := (Phase.advance smallToolchain obligingHost smallOptions)^[2]
      (.start, emptyWorkspace)
    let second := Phase.advance smallToolchain obligingHost o₂ (.start, first.2)
    Disjoint (area smallToolchain obligingHost smallOptions)
        (area smallToolchain obligingHost o₂) ∧
      ∀ l ∈ area smallToolchain obligingHost smallOptions,
        (Phase.advance smallToolchain obligingHost o₂ second).2.files.bytesAt? l =
          second.2.files.bytesAt? l := by
  intro o₂ first second
  obtain ⟨-, hstages, -, hnames⟩ := builds_apart smallToolchain obligingHost smallOptions o₂
  have hdisjoint := hnames (by decide +kernel) (by decide +kernel) (by decide +kernel)
    (by decide +kernel) (by decide +kernel)
  exact ⟨hdisjoint, (hstages hdisjoint emptyWorkspace _ _ _ (.second (.first (.first .start)))).1⟩

/-- A slash behind the environment makes another environment, but the same staging directory: the
second build replaces the source that the first has staged. -/
theorem staged_source_replaced :
    let o₂ := otherOptions "dev/" "M"
    let first := (Phase.advance smallToolchain obligingHost smallOptions)^[2]
      (.start, emptyWorkspace)
    let second := (Phase.advance smallToolchain obligingHost o₂)^[2] (.start, first.2)
    let l := (stagedPath smallToolchain obligingHost smallOptions).place obligingHost.here
    (smallOptions.env, smallOptions.module) ≠ (o₂.env, o₂.module) ∧
      first.2.files.bytesAt? l = some (Utf8.encode "const x = 1;") ∧
      second.2.files.bytesAt? l = some (Utf8.encode "const y = 2;") := by
  decide +kernel

end ZigNif.Pipeline
