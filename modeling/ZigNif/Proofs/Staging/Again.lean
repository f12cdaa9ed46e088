import ZigNif.Proofs.Staging
import ZigNif.Proofs.Workspace.Again

/-!
# Proofs/Staging/Again — copying the sources again

Copying looks into all directories below the source, copies the files that visible names lead to,
and writes below the target only.  If no visible names lead from the source to the target or below
it, nothing is copied from where copies are written.  So the copying finds the same files to copy
when it is done again.

It does look into the target, though, if that lies below the source.  Then it comes upon copies the
second time that were not there the first time, and their directories can be nested too deeply or
have paths that are too long.  `IsListable` says that they are not, and nothing else comes of it.
-/

namespace ZigNif.Staging

open Build ZigNif.Path

variable {h : Host} {d l : Location} {M : Prop} {last : FileTree} {w w' u : Workspace}
  {source target : Path} {names : List Text}

/-! ## Copying one file -/

/-- A file that is its own target is not copied. -/
theorem runIn_copy_of_same (hs : w.files.locate h.here source = .ok l)
    (ht : w.files.locate h.here target = .ok l) :
    (copy source target).runIn h w = (.error (.sameFile source.text target.text), w) := by
  simp only [copy, runIn_bind, runIn_get, runIn_read, hs, ht, if_true]
  rfl

/-- Where the two paths do not lead to one file, copying is reading and writing. -/
theorem runIn_copy_of_ne (hne : ∀ l, w.files.locate h.here source = .ok l →
      w.files.locate h.here target ≠ .ok l) :
    (copy source target).runIn h w =
      match w.files.read h.here source with
      | .ok bytes => (writeBytes target bytes).runIn h w
      | .error fault => (.error (.file fault source.text), w) := by
  simp only [copy, runIn_bind, runIn_get, runIn_read]
  cases hs : w.files.locate h.here source with
  | error fault => cases w.files.read h.here source <;> rfl
  | ok a =>
    cases ht : w.files.locate h.here target with
    | error fault => cases w.files.read h.here source <;> rfl
    | ok b =>
      have hab : a ≠ b := fun heq => hne a hs (heq ▸ ht)
      simp only [hab, if_false]
      cases w.files.read h.here source <;> rfl

/-- A file cannot be written by a path that leads nowhere. -/
theorem exists_writeBytes_error (bytes : List UInt8) {fault : FileFault}
    (ht : w.files.locate h.here target = .error fault) :
    ∃ e, (writeBytes target bytes).runIn h w = (.error e, w) := by
  rw [writeBytes, runIn_change]
  split
  · exact ⟨_, rfl⟩
  · cases hwrite : w.files.write h.here target bytes with
    | error fault => exact ⟨_, rfl⟩
    | ok files =>
      rw [FileTree.locate_of_write hwrite] at ht
      cases ht

/-- The second time the two paths do not lead to one file either: if the target led nowhere the
first time, nothing could be written. -/
theorem locate_target_ne {bytes : List UInt8} (hread : w.files.read h.here source = .ok bytes)
    (hne : ∀ l, w.files.locate h.here source = .ok l → w.files.locate h.here target ≠ .ok l)
    (hfits : w.files.Fits u.files) (hends : EndsIn last ((writeBytes target bytes).runIn h w))
    (hu : FileTree.Agrees d last w.files u.files) :
    ∀ l, u.files.locate h.here source = .ok l → u.files.locate h.here target ≠ .ok l := by
  obtain ⟨l, hl, -⟩ := FileTree.read_eq_ok_iff.mp hread
  intro l' hs ht
  rw [hfits.locate hl] at hs
  obtain rfl := Except.ok.inj hs
  cases htarget : w.files.locate h.here target with
  | ok m =>
    rw [hfits.locate htarget] at ht
    exact hne l hl (Except.ok.inj ht ▸ htarget)
  | error fault =>
    obtain ⟨e, he⟩ := exists_writeBytes_error bytes htarget
    rw [he] at hends
    have hkinds := (hends.fails e rfl).trans hu.kinds.symm
    rw [FileTree.locate_congr hkinds, ht] at htarget
    cases htarget

section Copy

variable (hhere : ∀ n ∈ h.here, IsName n)

include hhere

/-- A file is copied again as it was copied: it is still there with its bytes, as nothing is copied
from where copies are written. -/
theorem replays_copy (htarget : target.IsClean)
    (hbelow : FileTree.IsBelow d (target.place h.here)) :
    Replays h d M last (copy source target) w := by
  by_cases hsame : ∃ l, w.files.locate h.here source = .ok l ∧ w.files.locate h.here target = .ok l
  · obtain ⟨l, hs, ht⟩ := hsame
    refine .of_error (runIn_copy_of_same hs ht) fun u hkinds => ?_
    rw [FileTree.locate_congr hkinds] at hs ht
    exact runIn_copy_of_same hs ht
  · have hne : ∀ l, w.files.locate h.here source = .ok l →
        w.files.locate h.here target ≠ .ok l := fun l hs ht => hsame ⟨l, hs, ht⟩
    cases hread : w.files.read h.here source with
    | error fault =>
      refine .of_error (by rw [runIn_copy_of_ne hne, hread]) fun u hkinds => ?_
      rw [FileTree.locate_congr hkinds, FileTree.locate_congr hkinds] at hne
      rw [runIn_copy_of_ne hne, eq_error_of_map_eq (FileTree.read_congr hkinds) hread]
    | ok bytes =>
      have hwrites : Replays h d M last (writeBytes target bytes) w :=
        .writeBytes hhere htarget hbelow
      refine .of_runIn_eq (by rw [runIn_copy_of_ne hne, hread]) (fun u hends hu => ?_) hwrites
      have hfits : w.files.Fits u.files :=
        hu.fits (trans_of FileTree.Fits hwrites.changes.fits hends.fits)
      rw [runIn_copy_of_ne (locate_target_ne hread hne hfits hends hu),
        hfits.read hu.bytesAt? hread]

end Copy

/-! ## Copying all files -/

/-- Of what a directory holds, copying its files looks at the names only. -/
theorem copyFiles_eq : copyFiles source target names = (do
    let found ← entries (source.join { names })
    forM found fun e =>
      if (".zig" : Text).isSuffixOf e.1 ∧ !(names ++ [e.1]).any isHidden then
        copyInto source target names e.1
      else pure ()) := by
  rw [copyFiles_eq_forM, entries, map_eq_pure_bind, bind_assoc]
  refine bind_congr fun inside => ?_
  rw [pure_bind, FileTree.entriesOf, List.forM_map]

/-- Of what a directory holds, the walk looks at the names, and at what is a directory. -/
theorem copyDirectories_eq {depth : Nat} : copyDirectories source target depth names = (do
    let found ← entries (source.join { names })
    forM found fun e =>
      if e.2 then copySourcesFrom source target depth (names ++ [e.1]) else pure ()) := by
  rw [copyDirectories, entries, map_eq_pure_bind, bind_assoc]
  refine bind_congr fun inside => ?_
  rw [pure_bind, FileTree.entriesOf, List.forM_map]

/-- What copying needs of the workspace: paths have the right names, no name stands for two things,
and the target is there. -/
structure IsReady (h : Host) (target : Path) (w : Workspace) : Prop where
  proper : w.files.IsProper
  distinct : w.files.HasDistinctNames
  leads : Leads h w.files target

/-- Changes below some location leave things ready. -/
theorem IsReady.of_changes {q : Location} (hw : IsReady h target w)
    (hchanges : FileTree.ChangesBelow q M w.files w'.files) : IsReady h target w' :=
  ⟨hchanges.proper hw.proper, hchanges.distinct hw.distinct, hw.leads.of_fits hchanges.fits⟩

/-- The directory of the names is found, and its path leads there. -/
theorem of_runIn_entries {found : List (Text × Bool)} (hnames : ∀ n ∈ names, IsProperName n)
    (hrun : (entries (source.join { names })).runIn h w = (.ok found, w')) :
    w' = w ∧ w.files.locate h.here (source.join { names }) = .ok (source.place h.here ++ names) ∧
      w.files.kindAt? (source.place h.here ++ names) = some true ∧
      w.files.entriesAt (source.place h.here ++ names) = found := by
  rw [runIn_entries, Prod.mk.injEq] at hrun
  have hplace : (source.join { names }).place h.here = source.place h.here ++ names :=
    FileTree.place_join fun hmem => (hnames _ hmem).2 rfl
  cases hlist : (w.files.list h.here (source.join { names })).map FileTree.entriesOf with
  | error fault => rw [hlist] at hrun; cases hrun.1
  | ok entries =>
    rw [hlist] at hrun
    obtain rfl := Except.ok.inj hrun.1
    obtain ⟨l, hl, hkind, hentries⟩ := FileTree.list_eq_ok_iff.mp hlist
    obtain rfl := (FileTree.eq_place_of_locate hl).trans hplace
    exact ⟨hrun.2.symm, hl, hkind, hentries⟩

/-- A directory is listed by any path that leads to it. -/
theorem runIn_entries_of_locate {v : Workspace}
    (hl : v.files.locate h.here (source.join { names }) = .ok l)
    (hkind : v.files.kindAt? l = some true) :
    (entries (source.join { names })).runIn h v = (.ok (v.files.entriesAt l), v) := by
  rw [runIn_entries, FileTree.list_eq_ok_iff.mpr ⟨l, hl, hkind, rfl⟩]
  rfl

/-- The names found in a directory, and those that lead to it. -/
theorem isEnterable_of_entries {found : List (Text × Bool)} (hw : w.files.IsProper)
    (hnames : ∀ n ∈ names, IsProperName n)
    (hrun : (entries (source.join { names })).runIn h w = (.ok found, w')) :
    (∀ n ∈ names, IsEnterable n) ∧ ∀ e ∈ found, IsProperName e.1 := by
  rw [runIn_entries, Prod.mk.injEq] at hrun
  cases hlist : w.files.list h.here (source.join { names }) with
  | error fault => rw [hlist] at hrun; cases hrun.1
  | ok inside =>
    constructor
    · obtain ⟨l, hl, -, -⟩ := FileTree.list_eq_ok_iff.mp (congrArg (Except.map _) hlist)
      obtain ⟨-, henters⟩ := FileTree.locate_eq_ok_iff.mp hl
      intro n hn
      have hmem : n ∈ FileTree.namesFrom h.here (source.join { names }) :=
        List.mem_append_right _ (List.mem_append_right _ hn)
      exact ⟨hnames n hn,
        (FileTree.byteLength_le_of_enters henters n hmem).resolve_left (hnames n hn).2⟩
    · rw [hlist] at hrun
      obtain rfl := Except.ok.inj hrun.1
      intro e he
      obtain ⟨entry, hentry, rfl⟩ := List.mem_map.mp he
      exact hw.of_mem (FileTree.get?_of_list hlist) hentry

/-! ## Looking into the target -/

/-- Every directory that the tree has at the target or below it, and that names lead to from the
source, can be looked into by way of the source: its path is not too long, and the stack lasts. -/
def IsListable (h : Host) (source target : Path) (t : FileTree) : Prop :=
  ∀ names, target.place h.here <+: source.place h.here ++ names →
    t.kindAt? (source.place h.here ++ names) = some true →
    (∃ l, t.locate h.here (source.join { names }) = .ok l) ∧ names.length < h.stack.folders

/-- In an empty tree there is nothing to look into. -/
theorem isListable_empty (htarget : target.place h.here ≠ []) :
    IsListable h source target (.directory []) := by
  rintro names ⟨rest, hrest⟩ hkind
  obtain ⟨name, l, hl⟩ := List.exists_cons_of_ne_nil
    (hrest ▸ List.append_ne_nil_of_left_ne_nil htarget rest)
  rw [hl] at hkind
  cases hkind

theorem any_isHidden_concat (hhidden : names.any isHidden) (n : Text) :
    (names ++ [n]).any isHidden := by
  rw [List.any_append, hhidden, Bool.true_or]

/-- Nothing is copied from a hidden directory. -/
theorem forM_copyInto_of_hidden (hhidden : names.any isHidden) (found : List (Text × Bool)) :
    (forM found fun e =>
      if (".zig" : Text).isSuffixOf e.1 ∧ !(names ++ [e.1]).any isHidden then
        copyInto source target names e.1
      else pure ()).runIn h w = (.ok ⟨⟩, w) := by
  refine runIn_forM_of_forall fun e _ => ?_
  rw [if_neg (by simp [any_isHidden_concat hhidden])]
  rfl

/-- Looking into a hidden directory changes nothing. -/
theorem runIn_copySourcesFrom_snd_of_hidden {depth : Nat} (hhidden : names.any isHidden) :
    ((copySourcesFrom source target depth names).runIn h w).2 = w := by
  have hfiles : ∀ {names}, names.any isHidden →
      Keeps h Eq (fun _ => True) (copyFiles source target names) w := by
    intro names hhidden
    rw [copyFiles_eq]
    refine .bind (.of_eq runIn_entries rfl fun _ _ => trivial) fun found w₁ _ _ => ?_
    exact .of_eq (forM_copyInto_of_hidden hhidden found) rfl nofun
  suffices hkeeps : Keeps h Eq (fun _ => True) (copySourcesFrom source target depth names) w from
    hkeeps.leaves.symm
  induction depth generalizing names with
  | zero =>
    rw [copySourcesFrom_zero]
    exact .bind (hfiles hhidden) fun _ _ _ _ => .throw trivial
  | succ depth ih =>
    rw [copySourcesFrom_succ, copyDirectories_eq]
    refine .bind (hfiles hhidden) fun _ w₁ _ hw₁ => ?_
    refine .bind (.of_eq runIn_entries rfl fun _ _ => trivial) fun found w₂ _ hw₂ => ?_
    refine .forM fun e _ w₃ hw₃ => ?_
    obtain rfl : w = w₃ := hw₁.trans (hw₂.trans hw₃)
    split
    · exact ih (any_isHidden_concat hhidden e.1)
    · exact .pure _

/-- **Looking into the target comes to nothing**, wherever there are no more directories than can be
looked into. -/
theorem runIn_copySourcesFrom_of_isListable {v : Workspace} {depth : Nat}
    (hlist : IsListable h source target last) (hfits : v.files.Fits last)
    (hproper : v.files.IsProper) (hdistinct : v.files.HasDistinctNames)
    (hhidden : names.any isHidden) (hin : target.place h.here <+: source.place h.here ++ names)
    (hl : v.files.locate h.here (source.join { names }) = .ok (source.place h.here ++ names))
    (hkind : v.files.kindAt? (source.place h.here ++ names) = some true)
    (hdepth : names.length + depth = h.stack.folders) :
    (copySourcesFrom source target depth names).runIn h v = (.ok (), v) := by
  induction depth generalizing names with
  | zero =>
    -- so deep a directory cannot be looked into
    have hlength := (hlist names hin (hfits _ _ hkind)).2
    omega
  | succ depth ih =>
    have hlook := runIn_entries_of_locate hl hkind
    rw [copySourcesFrom_succ, copyFiles_eq, copyDirectories_eq, runIn_bind, runIn_bind, hlook]
    simp only [forM_copyInto_of_hidden hhidden]
    rw [runIn_bind, hlook]
    refine runIn_forM_of_forall fun e he => ?_
    split
    · rename_i hfolder
      have hkind' := hdistinct.kindAt?_of_mem he
      rw [hfolder, List.append_assoc] at hkind'
      have hin' : target.place h.here <+: source.place h.here ++ (names ++ [e.1]) :=
        List.append_assoc .. ▸ hin.trans (List.prefix_append _ _)
      have hname : e.1 ≠ parentName := by
        have hnode : (v.files.nodeAt? (source.place h.here ++ (names ++ [e.1]))).isSome := by
          rw [FileTree.kindAt?_eq_true_iff.mp hkind']
          rfl
        exact (hproper _ hnode e.1 (by simp)).2
      obtain ⟨q, hq⟩ := (hlist _ hin' (hfits _ _ hkind')).1
      have hl' := FileTree.locate_join_concat hl hkind hname hq
      rw [List.append_assoc] at hl'
      exact ih (any_isHidden_concat hhidden e.1) hin' hl' hkind' (by
        rw [List.length_append, List.length_singleton]
        omega)
    · rfl

section Copies

variable (hhere : ∀ n ∈ h.here, IsName n) (htarget : target.IsClean) (hM : M)
  (hout : ∀ names, (∀ n ∈ names, isHidden n = false) →
    ¬ target.place h.here <+: source.place h.here ++ names)
  (hlast : last.IsProper) (hlist : IsListable h source target last)

/-- A directory that does not lie in the target lists the same again. -/
theorem replays_entries (hnames : ∀ n ∈ names, IsProperName n)
    (hnot : ¬ target.place h.here <+: source.place h.here ++ names) :
    Replays h (target.place h.here) M last (entries (source.join { names })) w := by
  refine .entries ?_
  rwa [FileTree.place_join fun hmem => (hnames _ hmem).2 rfl]

include hout hlast hlist

/-- The target is looked into a second time, and more can be in it, but nothing comes of it. -/
theorem replays_copySourcesFrom_inside {depth : Nat}
    (hin : target.place h.here <+: source.place h.here ++ names)
    (hl : ∀ v : Workspace, w.files.Fits v.files → v.files.Fits last →
      v.files.locate h.here (source.join { names }) = .ok (source.place h.here ++ names))
    (hkind : w.files.kindAt? (source.place h.here ++ names) = some true)
    (hdepth : names.length + depth = h.stack.folders) (hw : IsReady h target w) :
    Replays h (target.place h.here) M last (copySourcesFrom source target depth names) w := by
  have hhidden : names.any isHidden := by
    by_contra hvisible
    exact hout names (by simpa using hvisible) hin
  have hsnd : ((copySourcesFrom source target depth names).runIn h w).2 = w :=
    runIn_copySourcesFrom_snd_of_hidden hhidden
  refine ⟨?_, fun u hends hu => ?_⟩
  · rw [hsnd]
    exact refl_of (FileTree.ChangesBelow _ M) w.files
  · have hfits : w.files.Fits last := hsnd ▸ hends.fits
    have hfits' : u.files.Fits last := fun q k hk => hu.kinds ▸ hk
    have hwu : w.files.Fits u.files := hu.fits hfits
    have hrun : ∀ v : Workspace, w.files.Fits v.files → v.files.Fits last →
        v.files.HasDistinctNames →
        (copySourcesFrom source target depth names).runIn h v = (.ok (), v) :=
      fun v hv hvlast hdistinct => runIn_copySourcesFrom_of_isListable hlist hvlast
        (hlast.of_fits hvlast) hdistinct hhidden hin (hl v hv hvlast) (hv _ _ hkind) hdepth
    exact .of_runIn (hrun w (refl_of FileTree.Fits _) hfits hw.distinct)
      (hrun u hwu hfits' hu.distinct) hu (exists_calls_of_eq rfl rfl)

theorem replays_copyDirectories {depth : Nat}
    (hrec : ∀ {names w}, (∀ n ∈ names, IsProperName n) →
      ¬ target.place h.here <+: source.place h.here ++ names →
      names.length + depth = h.stack.folders → IsReady h target w →
      Replays h (target.place h.here) M last (copySourcesFrom source target depth names) w)
    (hnames : ∀ n ∈ names, IsProperName n)
    (hnot : ¬ target.place h.here <+: source.place h.here ++ names)
    (hdepth : names.length + (depth + 1) = h.stack.folders) (hw : IsReady h target w) :
    Replays h (target.place h.here) M last (copyDirectories source target depth names) w := by
  rw [copyDirectories_eq]
  refine .bind (replays_entries hnames hnot) fun found w₁ hrun _ => ?_
  obtain ⟨-, hfound⟩ := isEnterable_of_entries hw.proper hnames hrun
  obtain ⟨rfl, hl, hkind, rfl⟩ := of_runIn_entries hnames hrun
  refine .forM fun e he w₂ hw₂ => ?_
  have hdepth' : (names ++ [e.1]).length + depth = h.stack.folders := by
    rw [List.length_append, List.length_singleton]
    omega
  split
  · rename_i hfolder
    by_cases hin : target.place h.here <+: source.place h.here ++ (names ++ [e.1])
    · have hkind' := hw.distinct.kindAt?_of_mem he
      rw [hfolder, List.append_assoc] at hkind'
      refine replays_copySourcesFrom_inside hout hlast hlist hin (fun v hv hvlast => ?_)
        (hw₂.fits _ _ hkind') hdepth' (hw.of_changes hw₂)
      have hwv : w₁.files.Fits v.files := trans_of FileTree.Fits hw₂.fits hv
      obtain ⟨q, hq⟩ := (hlist _ hin (hvlast _ _ (hwv _ _ hkind'))).1
      rw [← List.append_assoc]
      exact FileTree.locate_join_concat (hwv.locate hl) (hwv _ _ hkind) (hfound e he).2 hq
    · refine hrec (fun n hn => ?_) hin hdepth' (hw.of_changes hw₂)
      rcases List.mem_append.mp hn with hn | hn
      · exact hnames n hn
      · exact List.mem_singleton.mp hn ▸ hfound e he
  · exact .pure _

omit hout hlast hlist
include hhere htarget hM

theorem replays_copyInto {name : Text} (hnames : ∀ n ∈ names, IsEnterable n)
    (hname : IsProperName name) (hw : IsReady h target w) :
    Replays h (target.place h.here) M last (copyInto source target names name) w := by
  have hproper : ∀ n ∈ names ++ [name], IsProperName n := fun n hn =>
    (List.mem_append.mp hn).elim (fun hn => (hnames n hn).1) fun hn =>
      List.mem_singleton.mp hn ▸ hname
  refine .bind (.makeDirectories hhere hM htarget hw.leads hnames) fun _ w₁ _ _ => ?_
  refine replays_copy hhere (isClean_join htarget fun n hn => (hproper n hn).1) ?_
  exact ⟨names ++ [name], by simp, FileTree.place_join fun hmem => (hproper _ hmem).2 rfl⟩

/-- The files outside of the target are found again, and copied again. -/
theorem replays_copyFiles (hnames : ∀ n ∈ names, IsProperName n)
    (hnot : ¬ target.place h.here <+: source.place h.here ++ names) (hw : IsReady h target w) :
    Replays h (target.place h.here) M last (copyFiles source target names) w := by
  rw [copyFiles_eq]
  refine .bind (replays_entries hnames hnot) fun found w₁ hrun hw₁ => ?_
  obtain ⟨henterable, hfound⟩ := isEnterable_of_entries hw.proper hnames hrun
  refine .forM fun e he w₂ hw₂ => ?_
  split
  · exact replays_copyInto hhere htarget hM henterable (hfound e he)
      ((hw.of_changes hw₁).of_changes hw₂)
  · exact .pure _

include hout hlast hlist

/-- **The walk outside of the target is done again as it was.**  The induction is on what is left of
the stack; directories of the target are left to `replays_copySourcesFrom_inside`. -/
theorem replays_copySourcesFrom {depth : Nat} (hnames : ∀ n ∈ names, IsProperName n)
    (hnot : ¬ target.place h.here <+: source.place h.here ++ names)
    (hdepth : names.length + depth = h.stack.folders) (hw : IsReady h target w) :
    Replays h (target.place h.here) M last (copySourcesFrom source target depth names) w := by
  induction depth generalizing names w with
  | zero =>
    rw [copySourcesFrom_zero]
    exact .bind (replays_copyFiles hhere htarget hM hnames hnot hw) fun _ _ _ _ => .throw
  | succ depth ih =>
    rw [copySourcesFrom_succ]
    exact .bind (replays_copyFiles hhere htarget hM hnames hnot hw) fun _ w₁ _ hw₁ =>
      replays_copyDirectories hout hlast hlist ih hnames hnot hdepth (hw.of_changes hw₁)

/-- **Copying the sources is done again as it was done.**  Where there was no directory of sources,
no directory may have come up since. -/
theorem replays_copySources (hw : IsReady h target w)
    (hfalse : w.files.isDirectory h.here source = .ok false →
      ∀ q, w.files.kindAt? q = some true ↔ last.kindAt? q = some true) :
    Replays h (target.place h.here) M last (copySources source target) w := by
  refine .bind (.isDirectory hfalse) fun isThere w₁ _ hw₁ => ?_
  split
  · refine .of_runIn_eq (y := copySourcesFrom source target h.stack.folders []) rfl
      (fun _ _ _ => rfl) ?_
    exact replays_copySourcesFrom hhere htarget hM hout hlast hlist nofun (hout [] nofun)
      (Nat.zero_add _) (hw.of_changes hw₁)
  · exact .pure _

end Copies

end ZigNif.Staging
