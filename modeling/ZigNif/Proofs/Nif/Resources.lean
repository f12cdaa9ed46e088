import Mathlib.Data.List.Forall2
import Mathlib.Data.List.Nodup
import ZigNif.Proofs.Nif.Verified

/-!
# Proofs/Nif/Resources — the resources that nifs need

A nif needs one resource if its mode is not the synchronous one, and none otherwise (`Needs`).  The
resource bears a label of the mode in front of the nif's name.  Two modes share a label, but no
label contains an underscore, so the name of the nif is what stands behind the first underscore
(`Resource.owner`): nifs with distinct names need distinct resources.

Verification records no resources with the nifs, whatever they need.
-/

namespace ZigNif

/-! ## Labels -/

namespace Mode

variable {mode : Mode} {label : Text}

/-- Only the synchronous mode has no label. -/
theorem resourceLabel?_eq_none_iff : mode.resourceLabel? = none ↔ mode = synchronous := by
  cases mode <;> simp [resourceLabel?]

/-- The first underscore in the name of a resource stands behind its label. -/
theorem underscore_notMem_of_resourceLabel? (h : mode.resourceLabel? = some label) :
    '_' ∉ label := by
  have hlabel : ∀ l ∈ mode.resourceLabel?, '_' ∉ l := by cases mode <;> decide
  exact hlabel label h

end Mode

/-- The name behind the label of a resource. -/
def Resource.owner (r : Resource) : Text := (r.name.dropWhile (· ≠ '_')).tail

/-! ## Nifs and their resources -/

namespace Nif

variable {n : Nif} {ns : List Nif} {r : Resource} {rs : List Resource}

/-- The resource that a nif needs for its mode: the label and the name, in the root scope. -/
inductive Needs (n : Nif) : Resource → Prop
  | root {label : Text} : n.mode.resourceLabel? = some label →
    Needs n { name := label ++ "_" ++ n.name, scope := "root" }

theorem Needs.owner (h : n.Needs r) : r.owner = n.name := by
  obtain ⟨hlabel⟩ := h
  have hnone := Mode.underscore_notMem_of_resourceLabel? hlabel
  rw [Resource.owner, List.append_assoc, List.dropWhile_append_of_pos]
  · rfl
  · intro c hc
    have hne : c ≠ '_' := fun h => hnone (h ▸ hc)
    simpa using hne

theorem required_of_synchronous (h : n.mode = .synchronous) : n.required = [] := by
  rw [required, Mode.resourceLabel?_eq_none_iff.mpr h]

/-- A nif that is not synchronous needs exactly one resource. -/
theorem exists_required (h : n.mode ≠ .synchronous) : ∃ r, n.required = [r] ∧ n.Needs r := by
  obtain ⟨label, hlabel⟩ := Option.ne_none_iff_exists'.mp (mt Mode.resourceLabel?_eq_none_iff.mp h)
  rw [required, hlabel]
  exact ⟨_, rfl, .root hlabel⟩

/-- **There is one resource for every nif that is not synchronous**, in the order of the nifs. -/
theorem forall₂_needs (ns : List Nif) :
    List.Forall₂ Needs (ns.filter fun n => n.mode ≠ .synchronous) (ns.flatMap required) := by
  induction ns with
  | nil => exact .nil
  | cons n ns ih =>
    rw [List.flatMap_cons]
    by_cases hmode : n.mode = .synchronous
    · rw [List.filter_cons_of_neg (by simpa using hmode), required_of_synchronous hmode]
      exact ih
    · obtain ⟨r, hr, hneeds⟩ := exists_required hmode
      rw [List.filter_cons_of_pos (by simpa using hmode), hr]
      exact .cons hneeds ih

/-- Resources that are needed in order have the names of their nifs in order. -/
theorem map_owner_of_forall₂ (h : List.Forall₂ Needs ns rs) :
    rs.map Resource.owner = ns.map Nif.name := by
  induction h with
  | nil => rfl
  | cons hneeds hrest ih => rw [List.map_cons, List.map_cons, hneeds.owner, ih]

/-- **Nifs with distinct names need distinct resources**, whatever the names are. -/
theorem nodup_flatMap_required (h : (ns.map Nif.name).Nodup) :
    (ns.flatMap required).Nodup := by
  refine List.Nodup.of_map Resource.owner ?_
  rw [map_owner_of_forall₂ (forall₂_needs ns)]
  exact h.sublist (List.filter_sublist.map Nif.name)

/-- What a nif needs depends on its name and its mode alone. -/
theorem required_congr {n' : Nif} (hname : n'.name = n.name) (hmode : n'.mode = n.mode) :
    n'.required = n.required := by
  rw [required, required, hname, hmode]

/-! ## Resources before they are added -/

variable {file module : Option Text} {reported : List Export} {d : Declared} {nifs : List Nif}

theorem resources_of_record {e : Export} {options : Table Json} {n : Nif}
    (h : record file e options = .ok n) : n.resources = [] := by
  obtain ⟨mode, -, rfl⟩ := record_eq_ok_iff.mp h
  rfl

theorem resources_of_verify (h : verify d reported file module = .ok nifs) :
    ∀ n ∈ nifs, n.resources = [] := by
  intro n hn
  have hfound := (verify_eq_ok_iff.mp h).1
  cases hauto : d.auto with
  | false =>
    rw [found_of_explicit hauto, verifyExplicit_eq] at hfound
    obtain ⟨entry, -, hentry⟩ := exists_of_mem_mapM hfound hn
    unfold entryNif at hentry
    split at hentry
    · exact resources_of_record hentry
    · cases hentry
  | true =>
    rw [found_of_auto hauto] at hfound
    obtain ⟨entry, -, hentry⟩ := exists_of_mem_mapM (verifyAuto_eq_ok_iff.mp hfound).1 hn
    exact resources_of_record hentry

end Nif

end ZigNif
