import ZigNif.Proofs.Files.Tree
import ZigNif.Proofs.Staging

/-!
# Proofs/Staging/Mirror — copies of the sources

Copying the sources visits every Zig file that is neither hidden nor in a hidden directory.  While
it goes on, files and directories come up below the target, also such that are copied again later.
So two facts are kept apart, for one file below the source and the place of its copy: whatever is
done, the copy changes only to what the file holds (`Mirrors`); and where the copying comes to its
end, the file's turn came.
-/

namespace ZigNif

open Build ZigNif.Path

namespace Staging

/-- On the way from one workspace to the other, directories stay and names stay proper; the file at
`l` keeps its bytes, and the file at `l'` keeps its own or gets those. -/
structure Mirrors (l l' : Location) (w w' : Workspace) : Prop where
  directory : ∀ q, w.files.nodeAt? q = some none → w'.files.nodeAt? q = some none
  proper : w.files.IsProper → w'.files.IsProper
  source : w'.files.bytesAt? l = w.files.bytesAt? l
  copy : w'.files.bytesAt? l' = w.files.bytesAt? l' ∨ w'.files.bytesAt? l' = w.files.bytesAt? l

variable {h : Host} {l l' : Location} {w w' : Workspace} {source target : Path}
  {rel names : List Text} {b : List UInt8}

instance : IsPreorder Workspace (Mirrors l l') where
  refl w := ⟨fun _ => id, id, rfl, .inl rfl⟩
  trans w w' w'' h h' := by
    refine ⟨fun q => h'.directory q ∘ h.directory q, h'.proper ∘ h.proper,
      h'.source.trans h.source, ?_⟩
    rcases h'.copy with hcopy | hcopy
    · exact h.copy.imp hcopy.trans hcopy.trans
    · exact .inr (hcopy.trans h.source)

theorem Mirrors.source_eq (h : Mirrors l l' w w') (hb : w.files.bytesAt? l = some b) :
    w'.files.bytesAt? l = some b := h.source.trans hb

/-- Only the files count. -/
theorem Mirrors.of_files_eq {w'' : Workspace} (h : Mirrors l l' w w')
    (hfiles : w''.files = w'.files) : Mirrors l l' w w'' := by
  obtain ⟨hdirectory, hproper, hsource, hcopy⟩ := h
  rw [← hfiles] at hdirectory hproper hsource hcopy
  exact ⟨hdirectory, hproper, hsource, hcopy⟩

/-- A copy stays one. -/
theorem Mirrors.copy_eq (h : Mirrors l l' w w') (hb : w.files.bytesAt? l = some b)
    (hcopy : w.files.bytesAt? l' = some b) : w'.files.bytesAt? l' = some b :=
  h.copy.elim (·.trans hcopy) (·.trans hb)

theorem mirrors_of_makeDirectory {q : Path} {files : FileTree} (hhere : ∀ n ∈ h.here, IsName n)
    (hq : q.IsClean) (hmake : w.files.makeDirectory h.here q = .ok files) :
    Mirrors l l' w { w with files } where
  directory _ := (FileTree.alters_of_makeDirectory hmake).1.directory
  proper hw := hw.of_alters (FileTree.alters_of_makeDirectory hmake).1 fun _ =>
    FileTree.isProperName_place hhere hq
  source := FileTree.bytesAt?_of_makeDirectory hmake
  copy := .inl (FileTree.bytesAt?_of_makeDirectory hmake)

/-- A file that is written elsewhere, or at the place of the copy with what the file holds. -/
theorem mirrors_of_write {p : Path} {bytes : List UInt8} {files : FileTree}
    (hhere : ∀ n ∈ h.here, IsName n) (hp : p.IsClean)
    (hwrite : w.files.write h.here p bytes = .ok files) (hl : l ≠ p.place h.here)
    (hl' : l' = p.place h.here → w.files.bytesAt? l = some bytes) :
    Mirrors l l' w { w with files } where
  directory _ := (FileTree.alters_of_write hwrite).directory
  proper hw := hw.of_alters (FileTree.alters_of_write hwrite) fun _ =>
    FileTree.isProperName_place hhere hp
  source := (FileTree.bytesAt?_of_write hwrite).trans (if_neg hl)
  copy := by
    have hbytes := FileTree.bytesAt?_of_write (q := l') hwrite
    split at hbytes
    · rename_i heq
      exact .inr (hbytes.trans (hl' heq).symm)
    · exact .inl hbytes

theorem mirrors_of_writeText {p : Path} {text : Text} (hhere : ∀ n ∈ h.here, IsName n)
    (hp : p.IsClean) (hl : l ≠ p.place h.here) (hl' : l' ≠ p.place h.here)
    (hrun : (writeText p text).runIn h w = (.ok (), w')) : Mirrors l l' w w' := by
  have hkeeps : Keeps h (Mirrors l l') (fun _ => True) (writeText p text) w :=
    .writeText (fun _ hwrite => mirrors_of_write hhere hp hwrite hl fun heq => absurd heq hl')
      trivial fun _ => trivial
  exact hkeeps.leaves_of_eq hrun

/-- What a directory below the source is listed with. -/
theorem mem_of_list {inside : Table FileTree} {name : Text} {e : FileTree}
    (hparent : parentName ∉ names)
    (hlist : (list (source.join { names })).runIn h w = (.ok inside, w'))
    (hget : w.files.get? (source.place h.here ++ (names ++ [name])) = some e) :
    (name, e) ∈ inside := by
  have hdir := FileTree.get?_of_list (list_of_runIn_list hlist)
  rw [FileTree.place_join hparent] at hdir
  rw [← List.append_assoc, FileTree.get?_append, hdir] at hget
  exact Table.mem_of_get? (by simpa [FileTree.get?] using hget)

/-- The names that lead to a Zig file that is copied: none of them is hidden. -/
structure IsCopied (rel : Location) : Prop where
  proper : ∀ n ∈ rel, IsProperName n
  visible : ∀ n ∈ rel, isHidden n = false
  zig : ∃ dirs name, rel = dirs ++ [name] ∧ (".zig" : Text).isSuffixOf name

/-! ## Copying one file -/

section Copy

variable (hhere : ∀ n ∈ h.here, IsName n) (htarget : target.IsClean)
  (hout : ¬ target.place h.here <+: source.place h.here ++ rel)

include hhere htarget hout

theorem isCopyRule_mirrors :
    IsCopyRule h (Mirrors (source.place h.here ++ rel) (target.place h.here ++ rel))
      (fun w => w.files.IsProper) IsProperName source target where
  keeps _ _ hw := hw.proper
  names _ _ _ hw hlist _ he _ := hw.of_mem (FileTree.get?_of_list hlist) he
  make q hq _ _ _ hmake :=
    mirrors_of_makeDirectory hhere (fun n hn => (hq.mem hn).elim (htarget n) And.left) hmake
  copy names name hnames _ w bytes files _ hread hwrite := by
    have hparent : parentName ∉ names ++ [name] := fun hmem => (hnames _ hmem).2 rfl
    have hread := FileTree.get?_of_read hread
    rw [FileTree.place_join hparent] at hread
    refine mirrors_of_write hhere (isClean_join htarget fun n hn => (hnames n hn).1) hwrite ?_ ?_
    · rw [FileTree.place_join hparent]
      exact fun heq => hout ⟨_, heq.symm⟩
    · rw [FileTree.place_join hparent]
      intro heq
      obtain rfl : rel = names ++ [name] := List.append_cancel_left heq
      exact FileTree.bytesAt?_eq_some_iff.mpr hread

/-- **A file that is copied is copied to its place.** -/
theorem bytesAt?_of_copyInto {name : Text} (hrel : names ++ [name] = rel)
    (hnames : ∀ n ∈ rel, IsProperName n) (hw : w.files.IsProper)
    (hb : w.files.bytesAt? (source.place h.here ++ rel) = some b)
    (hrun : (copyInto source target names name).runIn h w = (.ok (), w')) :
    w'.files.bytesAt? (target.place h.here ++ rel) = some b := by
  subst hrel
  have hparent : parentName ∉ names ++ [name] := fun hmem => (hnames _ hmem).2 rfl
  have hrule := isCopyRule_mirrors hhere htarget hout
  obtain ⟨_, w₁, hmake, hcopy⟩ := runIn_bind_eq_ok_iff.mp hrun
  have hway : IsTowards target IsProperName (target.join { names }) :=
    .join fun n hn => hnames n (List.mem_append_left _ hn)
  have hw₁ := (keeps_makeDirectories hrule hway hw).leaves_of_eq hmake
  rcases runIn_copy (h := h) (w := w₁) (source.join { names := names ++ [name] })
    (target.join { names := names ++ [name] }) with hrun | ⟨fault, hrun⟩ | ⟨bytes, hread, hrun⟩
  · rw [hrun] at hcopy; cases hcopy
  · rw [hrun] at hcopy; cases hcopy
  · have hbytes : bytes = b := by
      refine FileTree.eq_of_read hread ?_
      rw [FileTree.place_join hparent]
      exact hw₁.source_eq hb
    rw [hrun, writeBytes, runIn_change] at hcopy
    split at hcopy
    · cases hcopy
    · split at hcopy
      · rename_i files hwrite
        cases hcopy
        have hat := FileTree.bytesAt?_of_write
          (q := target.place h.here ++ (names ++ [name])) hwrite
        rwa [FileTree.place_join hparent, if_pos rfl, hbytes] at hat
      · cases hcopy

/-! ## Copying all files -/

theorem bytesAt?_of_copyFiles {name : Text} (hrel : names ++ [name] = rel)
    (hnames : ∀ n ∈ rel, IsProperName n) (hw : w.files.IsProper)
    (hb : w.files.bytesAt? (source.place h.here ++ rel) = some b)
    (hvisible : ∀ n ∈ rel, isHidden n = false) (hzig : (".zig" : Text).isSuffixOf name)
    (hrun : (copyFiles source target names).runIn h w = (.ok (), w')) :
    w'.files.bytesAt? (target.place h.here ++ rel) = some b := by
  have hrule := isCopyRule_mirrors hhere htarget hout
  have hfront : ∀ n ∈ names, IsProperName n := fun n hn =>
    hnames n (hrel ▸ List.mem_append_left _ hn)
  have hparent : parentName ∉ names := fun hmem => (hfront _ hmem).2 rfl
  rw [copyFiles_eq_forM] at hrun
  obtain ⟨inside, w₁, hlist, hloop⟩ := runIn_bind_eq_ok_iff.mp hrun
  have hw₁ := (keeps_list (R := Mirrors (source.place h.here ++ rel)
    (target.place h.here ++ rel))).leaves_of_eq hlist
  have hmem : (name, .file b) ∈ inside :=
    mem_of_list hparent hlist (FileTree.bytesAt?_eq_some_iff.mp (hrel ▸ hb))
  obtain ⟨w₂, w₃, hw₂, hstep, hw₃⟩ := Keeps.exists_step (fun e he w₂ hw₂ =>
    keeps_copyFiles_step hrule (hrule.names_append (fun n hn _ => hfront n hn) hw hlist he)
      (hw₂.proper (hw₁.proper hw))) hloop hmem
  have hshown : (!(names ++ [name]).any isHidden) = true := by
    rw [hrel]
    simpa using hvisible
  rw [if_pos ⟨hzig, hshown⟩] at hstep
  have hb₂ := hw₂.source_eq (hw₁.source_eq hb)
  have hcopy := bytesAt?_of_copyInto hhere htarget hout hrel hnames (hw₂.proper (hw₁.proper hw))
    hb₂ hstep
  have hw₂₃ : Mirrors (source.place h.here ++ rel) (target.place h.here ++ rel) w₂ w₃ :=
    (keeps_copyInto hrule (hrel ▸ hnames) hzig (hw₂.proper (hw₁.proper hw))).leaves_of_eq hstep
  exact hw₃.copy_eq (hw₂₃.source_eq hb₂) hcopy

theorem bytesAt?_of_copyDirectories {depth : Nat} {dir : Text} {rest : List Text}
    (hrel : names ++ dir :: rest = rel) (hrest : rest ≠ [])
    (hnames : ∀ n ∈ rel, IsProperName n) (hw : w.files.IsProper)
    (hb : w.files.bytesAt? (source.place h.here ++ rel) = some b)
    (hrec : ∀ {w w'}, w.files.IsProper →
      w.files.bytesAt? (source.place h.here ++ rel) = some b →
      (copySourcesFrom source target depth (names ++ [dir])).runIn h w = (.ok (), w') →
      w'.files.bytesAt? (target.place h.here ++ rel) = some b)
    (hrun : (copyDirectories source target depth names).runIn h w = (.ok (), w')) :
    w'.files.bytesAt? (target.place h.here ++ rel) = some b := by
  have hrule := isCopyRule_mirrors hhere htarget hout
  have hdir : OfVisible IsProperName (names ++ [dir]) := fun n hn _ => hnames n (by
    rw [← hrel, List.append_cons]
    exact List.mem_append_left _ hn)
  have hfront : ∀ n ∈ names, IsProperName n := fun n hn =>
    hnames n (hrel ▸ List.mem_append_left _ hn)
  have hparent : parentName ∉ names := fun hmem => (hfront _ hmem).2 rfl
  obtain ⟨inside, w₁, hlist, hloop⟩ := runIn_bind_eq_ok_iff.mp hrun
  have hw₁ := (keeps_list (R := Mirrors (source.place h.here ++ rel)
    (target.place h.here ++ rel))).leaves_of_eq hlist
  -- a file stands behind the directory, so it is one
  obtain ⟨e, hmem, hfolder⟩ : ∃ e, (dir, e) ∈ inside ∧ e.isFolder := by
    have hsome : (w.files.get? (source.place h.here ++ (names ++ [dir]) ++ rest)).isSome := by
      rw [List.append_assoc, List.append_assoc, List.singleton_append, hrel,
        FileTree.bytesAt?_eq_some_iff.mp hb]
      rfl
    obtain ⟨sub, hsub⟩ := FileTree.exists_directory_of_append hrest hsome
    exact ⟨_, mem_of_list hparent hlist hsub, rfl⟩
  obtain ⟨w₂, w₃, hw₂, hstep, hw₃⟩ := Keeps.exists_step (fun e he w₂ hw₂ =>
    keeps_copyDirectories_step (keeps_copySourcesFrom hrule)
      (hrule.names_append (fun n hn _ => hfront n hn) hw hlist he)
      (hw₂.proper (hw₁.proper hw))) hloop hmem
  rw [if_pos hfolder] at hstep
  have hb₂ := hw₂.source_eq (hw₁.source_eq hb)
  have hproper₂ := hw₂.proper (hw₁.proper hw)
  have hcopy := hrec hproper₂ hb₂ hstep
  have hw₂₃ := (keeps_copySourcesFrom hrule hdir hproper₂).leaves_of_eq hstep
  exact hw₃.copy_eq (hw₂₃.source_eq hb₂) hcopy

/-- The files of a directory are copied before its directories are looked into, and the stack must
last for that. -/
theorem exists_of_copySourcesFrom {depth : Nat} (hnames : ∀ n ∈ names, IsProperName n)
    (hw : w.files.IsProper)
    (hrun : (copySourcesFrom source target depth names).runIn h w = (.ok (), w')) :
    ∃ depth' w₁, (copyFiles source target names).runIn h w = (.ok (), w₁) ∧
      (copyDirectories source target depth' names).runIn h w₁ = (.ok (), w') ∧
      Mirrors (source.place h.here ++ rel) (target.place h.here ++ rel) w w₁ ∧
      Mirrors (source.place h.here ++ rel) (target.place h.here ++ rel) w₁ w' := by
  have hrule := isCopyRule_mirrors hhere htarget hout
  have hvisible : OfVisible IsProperName names := fun n hn _ => hnames n hn
  cases depth with
  | zero =>
    rw [copySourcesFrom_zero] at hrun
    obtain ⟨_, w₁, -, hstop⟩ := runIn_bind_eq_ok_iff.mp hrun
    cases hstop
  | succ depth =>
    rw [copySourcesFrom_succ] at hrun
    obtain ⟨_, w₁, hfiles, hdirs⟩ := runIn_bind_eq_ok_iff.mp hrun
    have hw₁ := (keeps_copyFiles hrule hvisible hw).leaves_of_eq hfiles
    have hw' := (keeps_copyDirectories hrule (keeps_copySourcesFrom hrule) hvisible
      (hw₁.proper hw)).leaves_of_eq hdirs
    exact ⟨depth, w₁, hfiles, hdirs, hw₁, hw'⟩

/-- **Every visible Zig file is copied.**  The induction is on the directories that lead to it: the
file's turn comes when its directory is looked into, and a directory's when that above it is. -/
theorem bytesAt?_of_copySourcesFrom {depth : Nat} {dirs : List Text} {name : Text}
    (hrel : names ++ (dirs ++ [name]) = rel)
    (hnames : ∀ n ∈ rel, IsProperName n) (hw : w.files.IsProper)
    (hb : w.files.bytesAt? (source.place h.here ++ rel) = some b)
    (hvisible : ∀ n ∈ rel, isHidden n = false) (hzig : (".zig" : Text).isSuffixOf name)
    (hrun : (copySourcesFrom source target depth names).runIn h w = (.ok (), w')) :
    w'.files.bytesAt? (target.place h.here ++ rel) = some b := by
  have hfront : ∀ n ∈ names, IsProperName n := fun n hn =>
    hnames n (hrel ▸ List.mem_append_left _ hn)
  obtain ⟨depth', w₁, hfiles, hdirs, hw₁, hw'⟩ :=
    exists_of_copySourcesFrom hhere htarget hout hfront hw hrun
  induction dirs generalizing depth depth' names w w' w₁ with
  | nil =>
    have hcopy := bytesAt?_of_copyFiles hhere htarget hout hrel hnames hw hb hvisible hzig hfiles
    exact hw'.copy_eq (hw₁.source_eq hb) hcopy
  | cons dir dirs ih =>
    have hrest : dirs ++ [name] ≠ [] := by simp
    have hrel' : names ++ [dir] ++ (dirs ++ [name]) = rel := by
      rw [List.append_assoc]
      exact hrel
    have hfront' : ∀ n ∈ names ++ [dir], IsProperName n := fun n hn =>
      hnames n (hrel' ▸ List.mem_append_left _ hn)
    refine bytesAt?_of_copyDirectories hhere htarget hout hrel hrest hnames (hw₁.proper hw)
      (hw₁.source_eq hb) (fun hw₂ hb₂ hrun₂ => ?_) hdirs
    obtain ⟨depth'', w₃, hfiles', hdirs', hw₃, hw₃'⟩ :=
      exists_of_copySourcesFrom hhere htarget hout hfront' hw₂ hrun₂
    exact ih hrel' hw₂ hb₂ hrun₂ hfront' depth'' w₃ hfiles' hdirs' hw₃ hw₃'

theorem mirrors_of_copySources (hw : w.files.IsProper)
    (hrun : (copySources source target).runIn h w = (.ok (), w')) :
    Mirrors (source.place h.here ++ rel) (target.place h.here ++ rel) w w' :=
  (keeps_copySources (isCopyRule_mirrors hhere htarget hout) hw).leaves_of_eq hrun

theorem bytesAt?_of_copySources (hrel : IsCopied rel) (hw : w.files.IsProper)
    (hb : w.files.bytesAt? (source.place h.here ++ rel) = some b)
    (hsource : ((isDirectory source).runIn h w).1 = .ok true)
    (hrun : (copySources source target).runIn h w = (.ok (), w')) :
    w'.files.bytesAt? (target.place h.here ++ rel) = some b := by
  obtain ⟨dirs, name, rfl, hzig⟩ := hrel.zig
  obtain ⟨isThere, w₁, hdirectory, hcopies⟩ := runIn_bind_eq_ok_iff.mp hrun
  obtain rfl : true = isThere :=
    Except.ok.inj (hsource.symm.trans (congrArg Prod.fst hdirectory))
  rw [runIn_isDirectory, Prod.mk.injEq] at hdirectory
  obtain ⟨-, rfl⟩ := hdirectory
  exact bytesAt?_of_copySourcesFrom hhere htarget hout rfl hrel.proper hw hb hrel.visible hzig
    hcopies

end Copy

/-! ## Staging a module -/

section Stage

variable {root : Option Text} {m m' : Module} {code : Text}

/-- A directory stays one while others are made. -/
theorem isDirectory_of_mirrors {p : Path} (hw : Mirrors l l' w w')
    (hp : ((isDirectory p).runIn h w).1 = .ok true) :
    ((isDirectory p).runIn h w').1 = .ok true := by
  rw [runIn_isDirectory_eq_ok_true_iff] at hp ⊢
  exact ⟨hp.1, FileTree.isDirectory_of_follow hp.2 hw.directory⟩

/-- **A module is staged beside copies of the Zig files around its source.** -/
theorem mirrors_of_stage (hhere : ∀ n ∈ h.here, IsName n) (hw : w.files.IsProper)
    (hrun : (stage root m code).runIn h w = (.ok m', w')) :
    let source := m.options.sourcePath.parent
    let target := directory h root m.options.env m.name
    let staged := target.join (.ofText (sourceName m.name))
    ∀ rel, ¬ target.place h.here <+: source.place h.here ++ rel →
      source.place h.here ++ rel ≠ staged.place h.here →
      target.place h.here ++ rel ≠ staged.place h.here →
      Mirrors (source.place h.here ++ rel) (target.place h.here ++ rel) w w' ∧
        (IsCopied rel → ((isDirectory source).runIn h w).1 = .ok true →
          ∀ b, w.files.bytesAt? (source.place h.here ++ rel) = some b →
            w'.files.bytesAt? (target.place h.here ++ rel) = some b) := by
  intro source target staged rel hout hl hl'
  have htarget : target.IsClean := isClean_ofText _
  have hstaged : staged.IsClean := isClean_join htarget (isClean_ofText _)
  have hrule := isCopyRule_mirrors hhere htarget hout
  obtain ⟨-, w₁, w₂, w₃, hmake, hcopy, hwrite, hfiles⟩ := exists_of_stage hrun
  have hw₁ := (keeps_makeDirectories hrule .self hw).leaves_of_eq hmake
  have hw₂ := mirrors_of_copySources hhere htarget hout (hw₁.proper hw) hcopy
  have hw' := (mirrors_of_writeText hhere hstaged hl hl' hwrite).of_files_eq hfiles
  refine ⟨trans_of (Mirrors _ _) hw₁ (trans_of (Mirrors _ _) hw₂ hw'),
    fun hrel hsource b hb => ?_⟩
  have hb₁ := hw₁.source_eq hb
  have hcopied := bytesAt?_of_copySources hhere htarget hout hrel (hw₁.proper hw) hb₁
    (isDirectory_of_mirrors hw₁ hsource) hcopy
  exact hw'.copy_eq (hw₂.source_eq hb₁) hcopied

end Stage

end Staging

end ZigNif
