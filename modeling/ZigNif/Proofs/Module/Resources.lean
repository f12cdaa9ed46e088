import ZigNif.Proofs.Module
import ZigNif.Proofs.Nif.Resources

/-!
# Proofs/Module/Resources — the resources of a verified module

Adding the resources of the nifs leaves everything else about the nifs as verification left it, and
changes nothing that the documentation reads, so that the two stages commute.  A module that had the
author's resources before has those of its nifs behind them after.
-/

namespace ZigNif

open Build

/-- What verification says about a nif. -/
def Nif.verified (n : Nif) : Text × Mode × Signature × Table Json :=
  (n.name, n.mode, n.signature, n.options)

namespace Module

variable {h : Host} {w : Workspace} {m v : Module}

/-- **Documenting the nifs and adding their resources commute.** -/
theorem withNifResources_withDocs :
    m.withDocs.withNifResources = m.withNifResources.withDocs := by
  simp only [withNifResources, withDocs, List.map_map, List.flatMap_map]
  rfl

theorem resources_of_mem_nifs {n : Nif} (hn : n ∈ m.withNifResources.nifs) :
    n.resources = n.required := by
  obtain ⟨n₀, -, rfl⟩ := List.mem_map.mp hn
  rfl

/-- **The resources of a verified module.**

The resources of the nifs come behind those of the author: one in the root scope for every nif that
is not synchronous, in the order of the nifs, and no two of them are the same.  Every nif has the
resources that it needs, which depend on its name and its mode alone, and is otherwise as
verification left it.  Nifs can be documented before or after.  Once its code is parsed the module
is ready to be rendered in either flavor. -/
theorem resources_of_verified {raw : List Json} {authors : List Text}
    (hdeclared : Declared.ofJson raw = .ok m.declared)
    (hauthors : m.resources = authors.map fun name => { name, scope := "root" })
    (hverify : (m.verify.runIn h w).1 = .ok v) :
    let done := v.withNifResources
    (∃ added,
      done.resources = (authors.map fun name => { name, scope := "root" }) ++ added ∧
      List.Forall₂ Nif.Needs (v.nifs.filter fun n => n.mode ≠ .synchronous) added ∧
      added.Nodup) ∧
    (∀ n ∈ done.nifs, n.resources = n.required ∧
      ∀ other : Module, ∀ n' ∈ other.withNifResources.nifs,
        n'.name = n.name → n'.mode = n.mode → n'.resources = n.resources) ∧
    done.nifs.map Nif.verified = v.nifs.map Nif.verified ∧
    v.withDocs.withNifResources = done.withDocs ∧
    ∀ flavor parsed dependencies,
      let ready := { done with flavor, parsed := some parsed, dependencies }
      ∀ m' ∈ [ready, ready.withDocs],
        (∃ f, Glue.finish m' = .ok f) ∧ ∃ t, Glue.render m' = .ok t := by
  intro done
  obtain ⟨reported, nifs, -, hnifs, rfl⟩ := exists_verify_eq hverify
  refine ⟨⟨nifs.flatMap Nif.required, ?_, Nif.forall₂_needs nifs, ?_⟩, ?_, ?_,
    withNifResources_withDocs, ?_⟩
  · rw [← hauthors]
    rfl
  · have hnames : m.declared.names.Nodup := Declared.nodup_names_of_ofJson hdeclared
    exact Nif.nodup_flatMap_required (Nif.nodup_names_of_verify hnames hnifs)
  · intro n hn
    have hresources := resources_of_mem_nifs hn
    refine ⟨hresources, fun other n' hn' hname hmode => ?_⟩
    rw [resources_of_mem_nifs hn', hresources, Nif.required_congr hname hmode]
  · simp only [done, withNifResources, List.map_map]
    rfl
  · intro flavor parsed dependencies ready m' hm'
    have hne : nifs ≠ [] := (Nif.verify_eq_ok_iff.mp hnifs).2
    have hready : Glue.IsFinished ready :=
      let verified := { m with nifs, flavor, parsed := some parsed, dependencies }
      verified.isFinished_withNifResources hne rfl
    have hm' : Glue.IsFinished m' := by
      rcases List.mem_pair.mp hm' with rfl | rfl
      · exact hready
      · exact hready.withDocs
    exact ⟨Glue.exists_finish hm', Glue.exists_render hm'⟩

/-- An author's resource has the name that one of the nifs needs, and two nifs share a label. -/
def sharedModule : Module where
  name := "M"
  file := "m.ex"
  flavor := .elixir
  options := { module := "M", file := "m.ex", env := "dev" }
  declared := { auto := true }
  reported := some [{ name := "a", mode := .dirtyCpu }, { name := "b", mode := .dirtyIo },
    { name := "c" }, { name := "a_b", mode := .threaded }]
  resources := [{ name := "Handle" }, { name := "DirtyResource_a" }]

/-- A host whose compiler says nothing. -/
def silentHost : Host := { here := [], temporary := "/tmp", run := fun _ => {} }

theorem resources_of_verified_shared :
    Declared.ofJson [.str "..."] = .ok sharedModule.declared ∧
      ∃ v added, (sharedModule.verify.runIn silentHost {}).1 = .ok v ∧
        v.withNifResources.resources = sharedModule.resources ++ added ∧ added.Nodup ∧
        added.map Resource.name = [("DirtyResource_a" : Text), "DirtyResource_b",
          "ThreadResource_a_b"] := by
  have hdeclared : Declared.ofJson [.str "..."] = .ok sharedModule.declared := by rfl
  have hauthors : sharedModule.resources =
      [("Handle" : Text), "DirtyResource_a"].map fun name => { name, scope := "root" } := by rfl
  have hnames : (sharedModule.verify.runIn silentHost {}).1.toOption.map
      (fun v => v.withNifResources.resources.map Resource.name) =
        some ([("Handle" : Text), "DirtyResource_a"] ++
          [("DirtyResource_a" : Text), "DirtyResource_b", "ThreadResource_a_b"]) := by
    decide +kernel
  obtain ⟨v, hv, hnames⟩ := Option.map_eq_some_iff.mp hnames
  have hverify : (sharedModule.verify.runIn silentHost {}).1 = .ok v :=
    toOption_eq_some_iff.mp hv
  obtain ⟨⟨added, hresources, -, hnodup⟩, -⟩ :=
    resources_of_verified hdeclared hauthors hverify
  refine ⟨hdeclared, v, added, hverify, by rw [hresources, hauthors], hnodup, ?_⟩
  rw [hresources, List.map_append] at hnames
  exact List.append_cancel_left hnames

end Module

end ZigNif
