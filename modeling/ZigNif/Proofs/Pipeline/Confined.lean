import ZigNif.Proofs.Pipeline.Apart

/-!
# Proofs/Pipeline/Confined — what a build changes outside its staging directory

What is done is confined to a directory, and to some more places, if nothing else changes but that
directories come up on the way to it.  Of each step of a build this is seen from the path that the
step is given: its names are the first names of the directory, or lead on from all of them without
`..`.

A build is confined to its staging directory, but for the staged source, the harness and the entry
file of a module with a slash: `..` behind a slash can take them anywhere.
-/

namespace ZigNif

open Build ZigNif.Path

variable {h : Host} {A B : Set Location} {d p : Path} {w w' : Workspace} {q here : Location}

/-! ## Confined changes -/

/-- The path passes the location: some of its names, from the first one on, lead there. -/
def Path.Passes (here : Location) (p : Path) (q : Location) : Prop :=
  ∃ names, names <+: p.names ∧ q = ({ p with names } : Path).place here

/-- What changes from one workspace to the other is in the directory, or at a location in `A`, or is
a directory that comes up where the path of the directory passes. -/
def Confined (h : Host) (d : Path) (A : Set Location) (w w' : Workspace) : Prop :=
  ∀ q, w'.files.nodeAt? q ≠ w.files.nodeAt? q → d.place h.here <+: q ∨ q ∈ A ∨
    d.Passes h.here q ∧ w.files.nodeAt? q = none ∧ w'.files.nodeAt? q = some none

namespace Confined

instance : IsPreorder Workspace (Confined h d A) where
  refl _ _ hne := absurd rfl hne
  trans w w₁ w₂ hw hw₁ q hne := by
    by_cases hq : w₁.files.nodeAt? q = w.files.nodeAt? q
    · rw [← hq] at hne ⊢
      exact hw₁ q hne
    · rcases hw q hq with hin | hmem | ⟨hpasses, hnone, hdirectory⟩
      · exact .inl hin
      · exact .inr (.inl hmem)
      by_cases hq₁ : w₂.files.nodeAt? q = w₁.files.nodeAt? q
      · exact .inr (.inr ⟨hpasses, hnone, hq₁.trans hdirectory⟩)
      · -- a directory that has come up does not change again on the way
        rcases hw₁ q hq₁ with hin | hmem | ⟨-, hnone₁, -⟩
        · exact .inl hin
        · exact .inr (.inl hmem)
        · rw [hdirectory] at hnone₁
          cases hnone₁

theorem of_files_eq (hfiles : w'.files = w.files) : Confined h d A w w' := fun q hne =>
  absurd (by rw [hfiles]) hne

/-- No file comes up elsewhere, and none changes. -/
theorem bytesAt?_eq (hw : Confined h d A w w') (hout : ¬ d.place h.here <+: q) (hq : q ∉ A) :
    w'.files.bytesAt? q = w.files.bytesAt? q := by
  by_cases hsame : w'.files.nodeAt? q = w.files.nodeAt? q
  · rw [FileTree.bytesAt?, FileTree.bytesAt?, hsame]
  · rcases hw q hsame with hin | hmem | ⟨-, hnone, hdirectory⟩
    · exact absurd hin hout
    · exact absurd hmem hq
    · rw [FileTree.bytesAt?, FileTree.bytesAt?, hnone, hdirectory]
      rfl

end Confined

/-! ## Steps of a build -/

namespace Staging

/-- A visible way to a directory ends where the path of the directory passes, or in it. -/
theorem IsVisibleWay.passes_or (hp : IsVisibleWay d p) :
    d.Passes here (p.place here) ∨ d.place here <+: p.place here := by
  obtain ⟨root, names⟩ := p
  obtain ⟨rfl, rel, hrel, hnames⟩ := hp
  rcases List.prefix_or_prefix_of_prefix hnames (List.prefix_append d.names rel) with
    hfront | ⟨rel', rfl⟩
  · exact .inl ⟨names, hfront, rfl⟩
  · have hrel' : rel' <+: rel := (List.prefix_append_right_inj _).mp hnames
    have hparent : Path.parentName ∉ rel' :=
      parentName_notMem fun n hn => hrel n (hrel'.subset hn)
    exact .inr ⟨rel', (FileTree.place_join (p := d) hparent).symm⟩

/-- **Changes on visible ways to a directory are confined to it.** -/
theorem isChangeRule_confined : IsChangeRule h (IsVisibleWay d)
    {q | d.place h.here <+: q ∨ q ∈ A} (Confined h d A) where
  same _ _ := Confined.of_files_eq
  directory w p files hp hmake q hne := by
    obtain ⟨halters, hnone⟩ := FileTree.alters_of_makeDirectory hmake
    have hq : q = p.place h.here := by
      by_contra hq
      exact hne ((halters.nodeAt? q).trans (if_neg hq))
    subst hq
    rcases hp.passes_or with hpasses | hin
    · exact .inr (.inr ⟨hpasses, hnone, (halters.nodeAt? _).trans (if_pos rfl)⟩)
    · exact .inl hin
  file w p bytes files hp hwrite q hne := by
    have hq : q = p.place h.here := by
      by_contra hq
      exact hne (((FileTree.alters_of_write hwrite).nodeAt? q).trans (if_neg hq))
    subst hq
    exact hp.imp_right .inl

end Staging

/-- What keeps to fewer places keeps to more. -/
theorem IsChangeRule.mono {D : Path → Prop} {R : Workspace → Workspace → Prop}
    (hR : IsChangeRule h D B R) (hAB : A ⊆ B) : IsChangeRule h D A R :=
  { hR with file := fun w p bytes files hp => hR.file w p bytes files (hAB hp) }

namespace Pipeline

variable {t : Toolchain} {o : Options}

/-- The places of the files that a build writes itself: the staged source, the harness and the entry
file. -/
def ownPlaces (t : Toolchain) (h : Host) (o : Options) : Set Location :=
  {l | ∃ p ∈ [stagedPath t h o, harnessPath t h o, entryPath t h o], l = p.place h.here}

theorem area_subset : area t h o ⊆ {l | (stagingDirectory t h o).place h.here <+: l ∨
    l ∈ {l | '/' ∈ o.module ∧ l ∈ ownPlaces t h o}} := by
  intro l hl
  by_cases hslash : '/' ∈ o.module
  · cases hl with
    | copy place => exact .inl (List.prefix_append ..)
    | source => exact .inr ⟨hslash, stagedPath t h o, by simp, rfl⟩
    | harness => exact .inr ⟨hslash, harnessPath t h o, by simp, rfl⟩
    | entry => exact .inr ⟨hslash, entryPath t h o, by simp, rfl⟩
  · obtain ⟨rel, hrel, -⟩ := (mem_area_iff hslash).mp hl
    exact .inl ⟨rel, hrel.symm⟩

/-- **A build is confined to its staging directory**, except for the files that it writes itself if
the name of the module has a slash. -/
theorem confined_run : Confined h (stagingDirectory t h o)
    {l | '/' ∈ o.module ∧ l ∈ ownPlaces t h o} w ((run t o).runIn h w).2 :=
  leaves_run (Staging.isChangeRule_confined.mono area_subset)

/-- Once the compiler is asked for anything, the harness is written. -/
theorem hasHarness_of_calls_ne (hcalls : ((run t o).runIn h w).2.calls ≠ w.calls) :
    HasHarness t h o ((run t o).runIn h w).2.files := by
  rcases run_cases (t := t) (h := h) (o := o) (w := w) with
    ⟨e, w', hstops, hrun⟩ | ⟨a, rendered, log, -, hrun⟩
  · rw [hrun, calls_conclude] at hcalls
    rw [hrun, files_conclude]
    rcases hstops.progress with hsame | ⟨-, hharness⟩ | ⟨v, -, hharness, -⟩ | ⟨-, ⟨a, hfiles⟩, -⟩
    · exact absurd hsame hcalls
    · exact hharness
    · exact hharness
    · exact hfiles ▸ a.hasHarness
  · rw [hrun]
    exact a.hasHarness

end Pipeline

end ZigNif
