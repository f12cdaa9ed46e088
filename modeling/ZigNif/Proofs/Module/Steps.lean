import ZigNif.Proofs.Module
import ZigNif.Proofs.Nif.Resources
import ZigNif.Toolchain

/-!
# Proofs/Module/Steps — stages in any order

The stages can be called in any order and any number of times, and also left out.  `Reached` holds
of the modules that come about in this way, with the steps on the way to them.

What is rendered has verified nifs and parsed code.  The resources are another matter.  A module has
those of its author and those that were added on the way.  The guard asks for the resources that are
recorded with the nifs, which verification sets to none, and these are always there (`Sound`).  The
resources that the nifs need are there if they were added behind the last verification.
-/

namespace ZigNif

open Build

namespace Module

variable {m m' : Module}

/-! ## Steps -/

/-- A stage with what it is given besides the module. -/
inductive Step
  | stage (root : Option Text) (code : Text)
  | manifest (source : Text)
  | report (t : Toolchain)
  | parse (code : Text)
  | verify
  | resources
  | docs
  | compile (t : Toolchain)
  | unload

namespace Step

/-- Does a step to a module. -/
def run : Step → Module → Build Module
  | stage root code, m => Staging.stage root m code
  | manifest source, m => Build.ofExcept (m.withManifest source)
  | report t, m => t.withReport m
  | parse code, m => m.withParsed code
  | verify, m => m.verify
  | resources, m => pure m.withNifResources
  | docs, m => pure m.withDocs
  | compile t, m => t.compile m
  | unload, m => pure m.withoutManifest

/-- Does steps one after the other. -/
def runAll : List Step → Module → Build Module
  | [], m => pure m
  | s :: steps, m => s.run m >>= runAll steps

end Step

/-- The resources are the same, and no nif has or needs others than one had and needed before. -/
structure SameNeeds (m m' : Module) : Prop where
  resources : m'.resources = m.resources
  nifs : ∀ n' ∈ m'.nifs, ∃ n ∈ m.nifs, n'.resources = n.resources ∧ n'.required = n.required

theorem SameNeeds.of_eq (hresources : m'.resources = m.resources) (hnifs : m'.nifs = m.nifs) :
    SameNeeds m m' where
  resources := hresources
  nifs n hn := ⟨n, hnifs ▸ hn, rfl, rfl⟩

theorem gives_stage (root : Option Text) (code : Text) :
    Gives (SameNeeds m) (Staging.stage root m code) := by
  refine .bind fun h => .bind fun _ => .bind fun _ => .bind fun _ => .bind fun _ => .pure ?_
  exact .of_eq rfl rfl

theorem gives_withManifest (source : Text) :
    Gives (SameNeeds m) (Build.ofExcept (m.withManifest source)) := by
  refine .ofExcept fun m' hm' => ?_
  obtain ⟨manifest, -, rfl⟩ := exists_withManifest_eq hm'
  exact .of_eq rfl rfl

theorem gives_withReport {p : Module → Prop} (t : Toolchain)
    (hp : ∀ exports, p { m with reported := some exports }) : Gives p (t.withReport m) := by
  refine .bind fun staged => .bind fun _ => .bind fun reply => ?_
  split
  · exact .bind fun _ => .bind fun _ => .bind fun _ => .bind fun _ => .pure (hp _)
  · exact .bind fun _ => .bind fun _ => .bind fun _ => .pure (hp _)

theorem gives_withParsed {p : Module → Prop} (code : Text)
    (hp : ∀ source dependencies, p { m with parsed := some source, dependencies }) :
    Gives p (m.withParsed code) := by
  refine .bind fun h => ?_
  split
  · split
    · exact .throw
    · exact .throw
  · exact .throw
  · exact .bind fun _ => .pure (hp _ _)

theorem gives_compile (t : Toolchain) : Gives (SameNeeds m) (t.compile m) := by
  refine .bind fun staged => .bind fun _ => .bind fun reply => ?_
  split
  · exact .bind fun _ => .pure (.of_eq rfl rfl)
  · exact .pure (.of_eq rfl rfl)

theorem gives_verify :
    Gives (fun m' => m'.resources = m.resources ∧ ∀ n ∈ m'.nifs, n.resources = []) m.verify := by
  intro h w m' hrun
  obtain ⟨reported, nifs, -, hnifs, rfl⟩ := exists_verify_eq hrun
  exact ⟨rfl, Nif.resources_of_verify hnifs⟩

theorem sameNeeds_withDocs : SameNeeds m m.withDocs where
  resources := rfl
  nifs n hn := by
    obtain ⟨n₀, hn₀, rfl⟩ := List.mem_map.mp hn
    exact ⟨n₀, hn₀, rfl, rfl⟩

/-- What a step does to the nifs and the resources of a module. -/
def Step.Effect (m m' : Module) : Step → Prop
  | verify => m'.resources = m.resources ∧ ∀ n ∈ m'.nifs, n.resources = []
  | resources => m' = m.withNifResources
  | _ => SameNeeds m m'

theorem Step.gives_run (s : Step) : Gives (s.Effect m) (s.run m) := by
  cases s with
  | stage root code => exact gives_stage root code
  | manifest source => exact gives_withManifest source
  | report t => exact gives_withReport t fun _ => .of_eq rfl rfl
  | parse code => exact gives_withParsed code fun _ _ => .of_eq rfl rfl
  | verify => exact gives_verify
  | resources => exact .pure rfl
  | docs => exact .pure sameNeeds_withDocs
  | compile t => exact gives_compile t
  | unload => exact .pure (.of_eq rfl rfl)

/-! ## Modules that steps lead to -/

/-- The module comes about by the steps, each with the module that it was done to; the last step is
the first in the list.  Every step is done on some host, in some workspace. -/
inductive Reached (o : Options) (d : Declared) : List (Step × Module) → Module → Prop
  | start : Reached o d [] (ofOptions o d)
  | step {path : List (Step × Module)} {s : Step} {m m' : Module} {h : Host} {w : Workspace} :
    Reached o d path m → ((s.run m).runIn h w).1 = .ok m' → Reached o d ((s, m) :: path) m'

/-- The resources of the nifs were added behind the last verification. -/
def isCurrent : List Step → Bool
  | [] => false
  | .verify :: _ => false
  | .resources :: _ => true
  | _ :: steps => isCurrent steps

/-- The resource is the author's, or a nif needed it when resources were added on the way. -/
inductive IsOwned (o : Options) (path : List (Step × Module)) (r : Resource) : Prop
  | author : r.name ∈ o.resources → r.scope = "root" → IsOwned o path r
  | added {m : Module} {n : Nif} : (Step.resources, m) ∈ path → n ∈ m.nifs → r ∈ n.required →
    IsOwned o path r

section Reached

variable {h : Host} {w : Workspace} {o : Options} {d : Declared} {s : Step}
  {path : List (Step × Module)} {r : Resource}

theorem isOwned_nil_iff : IsOwned o [] r ↔ r ∈ (ofOptions o d).resources := by
  constructor
  · intro h
    cases h with
    | author hname hscope => exact List.mem_map.mpr ⟨r.name, hname, by rw [← hscope]⟩
    | added hmem => cases hmem
  · intro h
    obtain ⟨name, hname, rfl⟩ := List.mem_map.mp h
    exact .author hname rfl

theorem isOwned_cons_iff : IsOwned o ((s, m) :: path) r ↔
    IsOwned o path r ∨ s = .resources ∧ ∃ n ∈ m.nifs, r ∈ n.required := by
  constructor
  · intro h
    cases h with
    | author hname hscope => exact .inl (.author hname hscope)
    | added hmem hn hr =>
      rcases List.mem_cons.mp hmem with heq | hmem
      · cases heq
        exact .inr ⟨rfl, _, hn, hr⟩
      · exact .inl (.added hmem hn hr)
  · rintro (h | ⟨rfl, n, hn, hr⟩)
    · cases h with
      | author hname hscope => exact .author hname hscope
      | added hmem hn hr => exact .added (List.mem_cons_of_mem _ hmem) hn hr
    · exact .added List.mem_cons_self hn hr

theorem isOwned_cons_of_ne (hs : s ≠ .resources) :
    IsOwned o ((s, m) :: path) r ↔ IsOwned o path r := by
  rw [isOwned_cons_iff, or_iff_left fun h => hs h.1]

/-- What is known about the resources of a module after some steps: where they come from, that those
recorded with its nifs are among them, and when these are the ones that the nifs need. -/
structure Sound (o : Options) (path : List (Step × Module)) (m : Module) : Prop where
  mem_resources : ∀ r, r ∈ m.resources ↔ IsOwned o path r
  recorded : ∀ n ∈ m.nifs, ∀ r ∈ n.resources, r ∈ m.resources
  current : isCurrent (path.map Prod.fst) → ∀ n ∈ m.nifs, n.resources = n.required

namespace Sound

theorem start : Sound o [] (ofOptions o d) where
  mem_resources _ := isOwned_nil_iff.symm
  recorded _ hn := by cases hn
  current hcurrent := by cases hcurrent

theorem verify (hm : Sound o path m) (hresources : m'.resources = m.resources)
    (hnifs : ∀ n ∈ m'.nifs, n.resources = []) : Sound o ((.verify, m) :: path) m' where
  mem_resources r := by
    have hne : Step.verify ≠ .resources := nofun
    rw [hresources, hm.mem_resources, isOwned_cons_of_ne hne]
  recorded n hn r hr := by
    rw [hnifs n hn] at hr
    cases hr
  current hcurrent := by cases hcurrent

theorem resources (hm : Sound o path m) :
    Sound o ((.resources, m) :: path) m.withNifResources where
  mem_resources r := by
    rw [withNifResources, List.mem_append, hm.mem_resources, List.mem_flatMap, isOwned_cons_iff,
      and_iff_right rfl]
  recorded n hn r hr := by
    obtain ⟨n₀, hn₀, rfl⟩ := List.mem_map.mp hn
    exact List.mem_append_right _ (List.mem_flatMap.mpr ⟨n₀, hn₀, hr⟩)
  current _ n hn := by
    obtain ⟨n₀, -, rfl⟩ := List.mem_map.mp hn
    rfl

theorem other (hm : Sound o path m) (hneeds : SameNeeds m m') (hs : s ≠ .resources)
    (hcurrent : ∀ steps, isCurrent (s :: steps) = isCurrent steps) :
    Sound o ((s, m) :: path) m' where
  mem_resources r := by rw [hneeds.resources, hm.mem_resources, isOwned_cons_of_ne hs]
  recorded n hn r hr := by
    obtain ⟨n₀, hn₀, hsame, -⟩ := hneeds.nifs n hn
    rw [hneeds.resources]
    exact hm.recorded n₀ hn₀ r (hsame ▸ hr)
  current h n hn := by
    obtain ⟨n₀, hn₀, hsame, hrequired⟩ := hneeds.nifs n hn
    rw [List.map_cons, hcurrent] at h
    rw [hsame, hrequired]
    exact hm.current h n₀ hn₀

/-- **Every step keeps what is known**, with itself on the way. -/
theorem step (hm : Sound o path m) (heffect : s.Effect m m') : Sound o ((s, m) :: path) m' := by
  cases s with
  | verify => exact hm.verify heffect.1 heffect.2
  | resources => exact heffect ▸ hm.resources
  | stage | manifest | report | parse | docs | compile | unload =>
    exact hm.other heffect nofun fun _ => rfl

end Sound

/-- **What is known holds of every module that steps lead to.** -/
theorem Reached.sound (hm : Reached o d path m) : Sound o path m := by
  induction hm with
  | start => exact .start
  | step hm hrun ih => exact ih.step (Step.gives_run _ _ _ _ hrun)

/-- The resources that the guard asks for are there in every reached module. -/
theorem Reached.isFinished_iff (hm : Reached o d path m) :
    Glue.IsFinished m ↔ m.nifs ≠ [] ∧ m.parsed.isSome :=
  ⟨fun h => ⟨h.1, h.2.1⟩, fun h => ⟨h.1, h.2, hm.sound.recorded⟩⟩

/-- **What is rendered of the modules that the stages lead to.**

In whatever order and however often the stages are called, a module can be rendered if and only if
it has nifs and its code is parsed.  It has the author's resources and those that were added on the
way, and no others.  So it has the resources that its nifs need if they were added behind the last
verification; but no guard sees to that. -/
theorem rendered_of_reached (hm : Reached o d path m) :
    ((∃ f, Glue.finish m = .ok f) ↔ m.nifs ≠ [] ∧ m.parsed.isSome) ∧
    ((∃ t, Glue.render m = .ok t) ↔ m.nifs ≠ [] ∧ m.parsed.isSome) ∧
    ((∃ t, Glue.renderEntry m = .ok t) ↔ m.nifs ≠ [] ∧ m.parsed.isSome) ∧
    (∀ r, r ∈ m.resources ↔ IsOwned o path r) ∧
    (isCurrent (path.map Prod.fst) → ∀ n ∈ m.nifs, ∀ r ∈ n.required, r ∈ m.resources) := by
  have hsound : Sound o path m := hm.sound
  refine ⟨Glue.exists_finish_iff.trans hm.isFinished_iff,
    Glue.exists_render_iff.trans hm.isFinished_iff,
    Glue.exists_renderEntry_iff.trans hm.isFinished_iff, hsound.mem_resources, ?_⟩
  intro hcurrent n hn r hr
  rw [← hsound.current hcurrent n hn] at hr
  exact hsound.recorded n hn r hr

/-- What steps one after the other give is reached by them. -/
theorem Reached.exists_of_runAll {steps : List Step} (hm : Reached o d path m)
    (hrun : ((Step.runAll steps m).runIn h w).1 = .ok m') :
    ∃ path', Reached o d (path' ++ path) m' ∧ path'.map Prod.fst = steps.reverse := by
  induction steps generalizing m w path with
  | nil =>
    obtain rfl := Except.ok.inj hrun
    exact ⟨[], hm, rfl⟩
  | cons s steps ih =>
    obtain ⟨m₁, w₁, hstep, hrest⟩ := runIn_bind_eq_ok_iff.mp (runIn_eq_of_fst hrun)
    have hm₁ : Reached o d ((s, m) :: path) m₁ := hm.step (by rw [hstep])
    obtain ⟨path', hreached, hsteps⟩ := ih hm₁ (by rw [hrest])
    refine ⟨path' ++ [(s, m)], ?_, ?_⟩
    · rw [List.append_assoc]
      exact hreached
    · rw [List.map_append, hsteps, List.reverse_cons]
      rfl

end Reached

/-! ## A nif that needs a resource -/

def threadedOptions : Options where
  module := "M"
  file := "m.ex"
  code := some "pub fn f() void \x7b\x7d"
  nifs := [.arr [.str "f", .obj [("concurrency", .str "threaded")]]]
  env := "dev"

def threadedDeclared : Declared := { entries := [("f", [("concurrency", .str "threaded")])] }

/-- A compiler that reports the function whatever it is asked. -/
def threadedHost : Host where
  here := ["w"]
  temporary := "/tmp"
  run := fun _ => { output := "\x7b\"functions\":[\x7b\"name\":\"f\"\x7d]\x7d" }

def threadedWorkspace : Workspace where
  files := .directory [("w", .directory []), ("tmp", .directory [])]

/-- Parsing, and the steps up to verification. -/
def verifyingSteps : List Step :=
  let code : Text := "pub fn f() void \x7b\x7d"
  [.parse code, .stage none code, .report { executable := "zig" }, .verify]

/-- The module after some steps. -/
def afterSteps (steps : List Step) : Except Failure Module :=
  ((Step.runAll steps (ofOptions threadedOptions threadedDeclared)).runIn threadedHost
    threadedWorkspace).1

theorem exists_reached_of_afterSteps {steps : List Step} (hm : afterSteps steps = .ok m) :
    ∃ path, Reached threadedOptions threadedDeclared path m ∧
      path.map Prod.fst = steps.reverse := by
  obtain ⟨path, hpath, hsteps⟩ := Reached.exists_of_runAll .start hm
  rw [List.append_nil] at hpath
  exact ⟨path, hpath, hsteps⟩

theorem rendered_of_reached_added :
    ∃ path m, Reached threadedOptions threadedDeclared path m ∧ isCurrent (path.map Prod.fst) ∧
      (∃ t, Glue.render m = .ok t) ∧ ∀ n ∈ m.nifs, ∀ r ∈ n.required, r ∈ m.resources := by
  have hready : (afterSteps (verifyingSteps ++ [.resources, .docs])).toOption.map
      (fun m => (m.nifs.isEmpty, m.parsed.isSome)) = some (false, true) := by decide +kernel
  obtain ⟨m, hm, hready⟩ := Option.map_eq_some_iff.mp hready
  obtain ⟨path, hpath, hsteps⟩ := exists_reached_of_afterSteps (toOption_eq_some_iff.mp hm)
  have hcurrent : isCurrent (path.map Prod.fst) := by rw [hsteps]; rfl
  obtain ⟨-, hrender, -, -, hneeds⟩ := rendered_of_reached hpath
  obtain ⟨hnifs, hparsed⟩ := Prod.mk.inj hready
  refine ⟨path, m, hpath, hcurrent, hrender.mpr ⟨?_, hparsed⟩, hneeds hcurrent⟩
  exact List.isEmpty_eq_false_iff.mp hnifs

/-- Where the resources are not added, a module can be rendered without those that it needs. -/
theorem rendered_without_required :
    threadedOptions.declared = .ok threadedDeclared ∧
      ∃ path m, Reached threadedOptions threadedDeclared path m ∧
        (∃ f, Glue.finish m = .ok f) ∧ ∃ n ∈ m.nifs, ∃ r ∈ n.required, r ∉ m.resources := by
  have hdeclared : threadedOptions.declared = .ok threadedDeclared := by rfl
  have hafter : (afterSteps verifyingSteps).toOption.map
      (fun m => ((Glue.finish m).toOption.isSome, m.nifs.flatMap Nif.required, m.resources)) =
        some (true, [{ name := "ThreadResource_f" }], []) := by decide +kernel
  obtain ⟨m, hm, hafter⟩ := Option.map_eq_some_iff.mp hafter
  obtain ⟨path, hpath, -⟩ := exists_reached_of_afterSteps (toOption_eq_some_iff.mp hm)
  simp only [Prod.mk.injEq] at hafter
  obtain ⟨hfinish, hrequired, hresources⟩ := hafter
  refine ⟨hdeclared, path, m, hpath, ?_, ?_⟩
  · obtain ⟨f, hf⟩ := Option.isSome_iff_exists.mp hfinish
    exact ⟨f, toOption_eq_some_iff.mp hf⟩
  · have hmem : { name := "ThreadResource_f" } ∈ m.nifs.flatMap Nif.required := by
      rw [hrequired]
      exact List.mem_singleton.mpr rfl
    obtain ⟨n, hn, hr⟩ := List.mem_flatMap.mp hmem
    exact ⟨n, hn, _, hr, by rw [hresources]; exact List.not_mem_nil⟩

end Module

end ZigNif
