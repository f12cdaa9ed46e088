import ZigNif.Proofs.Workspace
import ZigNif.Staging

/-!
# Proofs/Staging — what staging does to a workspace

Staging makes directories, copies files and writes one.  What each of these keeps, staging keeps;
and staging fails only with the fault of a path, or where directories are nested too deeply.  Hidden
directories are looked into, but nothing is copied from them.
-/

namespace ZigNif.Staging

open Build

variable {h : Host} {w w' : Workspace} {source target : Path}

/-! ## Copying -/

/-- Copies one file of the directory `names` below `source`. -/
def copyInto (source target : Path) (names : List Text) (name : Text) : Build Unit := do
  makeDirectories (target.join { names })
  copy (source.join { names := names ++ [name] }) (target.join { names := names ++ [name] })

theorem forIn_ite_eq_forM {α : Type} {l : List α} {c : α → Prop} [DecidablePred c]
    {f : α → Build PUnit} :
    (forIn l PUnit.unit fun a _ =>
      if c a then do f a; pure (.yield PUnit.unit) else pure (.yield PUnit.unit)) =
    forM l fun a => if c a then f a else pure PUnit.unit :=
  forIn_eq_forM fun a _ => by split <;> simp

/-- The loop over the files of a directory, with its body by its name. -/
theorem copyFiles_eq_forM (names : List Text) : copyFiles source target names = (do
    let inside ← list (source.join { names })
    forM inside fun e =>
      if (".zig" : Text).isSuffixOf e.1 ∧ !(names ++ [e.1]).any isHidden then
        copyInto source target names e.1
      else pure ()) := by
  simp only [copyFiles, ← forIn_ite_eq_forM, copyInto, bind_assoc, bind_pure_unit]

/-- Copies the Zig files below the directories in the directory `names` below `source`. -/
def copyDirectories (source target : Path) (depth : Nat) (names : List Text) : Build Unit := do
  let inside ← list (source.join { names })
  forM inside fun e =>
    if e.2.isFolder then copySourcesFrom source target depth (names ++ [e.1]) else pure ()

/-- Where the stack ends, the files are copied still, and the directories are not looked into. -/
theorem copySourcesFrom_zero (names : List Text) : copySourcesFrom source target 0 names = (do
    copyFiles source target names
    throw (.tooDeep [])) := rfl

/-- Files come before directories. -/
theorem copySourcesFrom_succ (depth : Nat) (names : List Text) :
    copySourcesFrom source target (depth + 1) names = (do
      copyFiles source target names
      copyDirectories source target depth names) := by
  simp only [copyDirectories, ← forIn_ite_eq_forM]
  rw [copySourcesFrom]
  simp only [bind_pure_unit]

/-- A copy fails because both paths lead to one location, or because the source cannot be read, or
it writes what the source holds. -/
theorem runIn_copy (source target : Path) : (copy source target).runIn h w =
      (.error (.sameFile source.text target.text), w) ∨
    (∃ fault, (copy source target).runIn h w = (.error (.file fault source.text), w)) ∨
    ∃ bytes, w.files.read h.here source = .ok bytes ∧
      (copy source target).runIn h w = (writeBytes target bytes).runIn h w := by
  simp only [copy, runIn_bind, runIn_get, runIn_read]
  cases w.files.read h.here source with
  | error fault =>
    split
    · split
      · exact .inl rfl
      · exact .inr (.inl ⟨fault, rfl⟩)
    · exact .inr (.inl ⟨fault, rfl⟩)
  | ok bytes =>
    split
    · split
      · exact .inl rfl
      · exact .inr (.inr ⟨bytes, rfl, rfl⟩)
    · exact .inr (.inr ⟨bytes, rfl, rfl⟩)

/-! ## What staging keeps -/

section Keeps

variable {R : Workspace → Workspace → Prop} [IsPreorder Workspace R] {P : Failure → Prop}

/-- Staging fails with the faults of paths, or because the stack runs out. -/
inductive IsFault : Failure → Prop
  | nullByte : IsFault .nullByte
  | file (fault : FileFault) (path : Text) : IsFault (.file fault path)
  | sameFile (source target : Text) : IsFault (.sameFile source target)
  | tooDeep (doing : Text) : IsFault (.tooDeep doing)

theorem keeps_copy (hR : ∀ bytes files, w.files.read h.here source = .ok bytes →
      w.files.write h.here target bytes = .ok files → R w { w with files }) :
    Keeps h R IsFault (copy source target) w := by
  rcases runIn_copy (h := h) (w := w) source target with
    hrun | ⟨fault, hrun⟩ | ⟨bytes, hread, hrun⟩
  · exact .of_eq hrun (refl_of R w) fun _ he => Except.error.inj he ▸ .sameFile ..
  · exact .of_eq hrun (refl_of R w) fun _ he => Except.error.inj he ▸ .file ..
  · have hwrite : Keeps h R IsFault (writeBytes target bytes) w :=
      .change (fun files => hR bytes files hread) .nullByte fun fault => .file ..
    exact .of_eq hrun hwrite.leaves hwrite.fails

/-- The path is on the way to the target, or to something below it by names of which `N` holds. -/
structure IsTowards (target : Path) (N : Text → Prop) (q : Path) : Prop where
  root : q.root = target.root
  names : ∃ rel, (∀ n ∈ rel, N n) ∧ q.names <+: target.names ++ rel

namespace IsTowards

variable {N : Text → Prop} {p q : Path}

theorem join {names : List Text} (hnames : ∀ n ∈ names, N n) :
    IsTowards target N (target.join { names }) :=
  ⟨rfl, names, hnames, List.prefix_refl _⟩

theorem self : IsTowards target N target := ⟨rfl, [], nofun, List.prefix_append ..⟩

/-- What is on the way to such a path is such a path. -/
theorem of_prefix (hp : IsTowards target N p) (hroot : q.root = p.root) (hq : q.names <+: p.names) :
    IsTowards target N q := by
  obtain ⟨rel, hrel, hfront⟩ := hp.names
  exact ⟨hroot.trans hp.root, rel, hrel, hq.trans hfront⟩

theorem mem (hq : IsTowards target N q) {n : Text} (hn : n ∈ q.names) : n ∈ target.names ∨ N n := by
  obtain ⟨rel, hrel, hfront⟩ := hq.names
  exact (List.mem_append.mp (hfront.subset hn)).imp_right (hrel n)

end IsTowards

/-- What copying the sources makes of a workspace, step by step: `R` relates the workspaces before
and after a directory is made or a file is copied.  `I` is an invariant of the workspace, and `N`
holds of the visible names in its directories. -/
structure IsCopyRule (h : Host) (R : Workspace → Workspace → Prop) (I : Workspace → Prop)
    (N : Text → Prop) (source target : Path) : Prop where
  keeps : ∀ w w₁, R w w₁ → I w → I w₁
  names : ∀ w p inside, I w → w.files.list h.here p = .ok inside → ∀ e ∈ inside,
    isHidden e.1 = false → N e.1
  make : ∀ q, IsTowards target N q → ∀ w files, I w →
    w.files.makeDirectory h.here q = .ok files → R w { w with files }
  copy : ∀ names name, (∀ n ∈ names ++ [name], N n) → (".zig" : Text).isSuffixOf name →
    ∀ w bytes files, I w →
      w.files.read h.here (source.join { names := names ++ [name] }) = .ok bytes →
      w.files.write h.here (target.join { names := names ++ [name] }) bytes = .ok files →
      R w { w with files }

variable {I : Workspace → Prop} {N : Text → Prop} {names : List Text}

/-- What holds of all names that are visible. -/
def OfVisible (N : Text → Prop) (names : List Text) : Prop :=
  ∀ n ∈ names, isHidden n = false → N n

omit [IsPreorder Workspace R] in
/-- Of names without a hidden one among them, all have what visible names have. -/
theorem OfVisible.of_not_hidden (hnames : OfVisible N names) (hvisible : !names.any isHidden) :
    ∀ n ∈ names, N n := by
  intro n hn
  refine hnames n hn ?_
  simp only [Bool.not_eq_true', List.any_eq_false] at hvisible
  exact Bool.eq_false_iff.mpr (hvisible n hn)

theorem keeps_list {p : Path} : Keeps h R IsFault (list p) w := .list fun _ => .file ..

omit [IsPreorder Workspace R] in
/-- What a directory lists under visible names has names as the rule wants them. -/
theorem IsCopyRule.names_append (hrule : IsCopyRule h R I N source target)
    (hnames : OfVisible N names) (hw : I w) {inside : Table FileTree} {w₁ : Workspace}
    (hlist : (list (source.join { names })).runIn h w = (.ok inside, w₁)) {e : Text × FileTree}
    (he : e ∈ inside) : OfVisible N (names ++ [e.1]) := by
  intro n hn hvisible
  rcases List.mem_append.mp hn with hn | hn
  · exact hnames n hn hvisible
  · obtain rfl := List.mem_singleton.mp hn
    exact hrule.names w _ inside hw (list_of_runIn_list hlist) e he hvisible

theorem keeps_makeDirectories (hrule : IsCopyRule h R I N source target) {p : Path}
    (hp : IsTowards target N p) (hw : I w) : Keeps h R IsFault (makeDirectories p) w :=
  .makeDirectories (fun q hroot hq w₁ files hw₁ => hrule.make q (hp.of_prefix hroot hq) w₁
    files (hrule.keeps w w₁ hw₁ hw)) .nullByte (fun _ _ => .file ..) (.tooDeep _)

/-- Copying a file makes the directories on the way to its copy first. -/
theorem keeps_copyInto (hrule : IsCopyRule h R I N source target) {name : Text}
    (hnames : ∀ n ∈ names ++ [name], N n) (hzig : (".zig" : Text).isSuffixOf name) (hw : I w) :
    Keeps h R IsFault (copyInto source target names name) w := by
  have hmake : IsTowards target N (target.join { names }) :=
    .join fun n hn => hnames n (List.mem_append_left _ hn)
  exact .bind (keeps_makeDirectories hrule hmake hw) fun _ w₁ _ hw₁ =>
    keeps_copy fun bytes files => hrule.copy _ _ hnames hzig w₁ bytes files
      (hrule.keeps w w₁ hw₁ hw)

theorem keeps_copyFiles_step (hrule : IsCopyRule h R I N source target)
    {e : Text × FileTree} (he : OfVisible N (names ++ [e.1])) (hw : I w) :
    Keeps h R IsFault
      (if (".zig" : Text).isSuffixOf e.1 ∧ !(names ++ [e.1]).any isHidden then
        copyInto source target names e.1
      else pure ()) w := by
  split
  · rename_i hcopied
    exact keeps_copyInto hrule (he.of_not_hidden hcopied.2) hcopied.1 hw
  · exact .pure _

/-- Copying the files of a directory keeps what every single copy keeps. -/
theorem keeps_copyFiles (hrule : IsCopyRule h R I N source target)
    (hnames : OfVisible N names) (hw : I w) :
    Keeps h R IsFault (copyFiles source target names) w := by
  rw [copyFiles_eq_forM]
  exact .bind keeps_list fun _ w₁ hlist hw₁ => .forM fun _ he w₂ hw₂ =>
    keeps_copyFiles_step hrule (hrule.names_append hnames hw hlist he)
      (hrule.keeps w₁ w₂ hw₂ (hrule.keeps w w₁ hw₁ hw))

theorem keeps_copyDirectories_step {depth : Nat}
    (hrec : ∀ {names w}, OfVisible N names → I w →
      Keeps h R IsFault (copySourcesFrom source target depth names) w)
    {e : Text × FileTree} (he : OfVisible N (names ++ [e.1])) (hw : I w) :
    Keeps h R IsFault
      (if e.2.isFolder then copySourcesFrom source target depth (names ++ [e.1]) else pure ()) w := by
  split
  · exact hrec he hw
  · exact .pure _

/-- Looking into directories keeps what is kept in each of them. -/
theorem keeps_copyDirectories (hrule : IsCopyRule h R I N source target) {depth : Nat}
    (hrec : ∀ {names w}, OfVisible N names → I w →
      Keeps h R IsFault (copySourcesFrom source target depth names) w)
    (hnames : OfVisible N names) (hw : I w) :
    Keeps h R IsFault (copyDirectories source target depth names) w :=
  .bind keeps_list fun _ w₁ hlist hw₁ => .forM fun _ he w₂ hw₂ =>
    keeps_copyDirectories_step hrec (hrule.names_append hnames hw hlist he)
      (hrule.keeps w₁ w₂ hw₂ (hrule.keeps w w₁ hw₁ hw))

/-- **What making directories and copying files keeps, copying the sources keeps.** -/
theorem keeps_copySourcesFrom (hrule : IsCopyRule h R I N source target) {depth : Nat}
    {names : List Text} {w : Workspace} (hnames : OfVisible N names) (hw : I w) :
    Keeps h R IsFault (copySourcesFrom source target depth names) w := by
  induction depth generalizing names w with
  | zero =>
    rw [copySourcesFrom_zero]
    exact .bind (keeps_copyFiles hrule hnames hw) fun _ _ _ _ => .throw (.tooDeep [])
  | succ depth ih =>
    rw [copySourcesFrom_succ]
    exact .bind (keeps_copyFiles hrule hnames hw) fun _ w₁ _ hw₁ =>
      keeps_copyDirectories hrule ih hnames (hrule.keeps w w₁ hw₁ hw)

/-- **What every copy keeps, copying the sources keeps.** -/
theorem keeps_copySources (hrule : IsCopyRule h R I N source target) (hw : I w) :
    Keeps h R IsFault (copySources source target) w := by
  refine .bind (.isDirectory fun fault => .file ..) fun isThere w₁ _ hw₁ => ?_
  split
  · refine .bind (.of_eq runIn_read (refl_of R w₁) nofun) fun host w₂ hread hw₂ => ?_
    exact keeps_copySourcesFrom hrule nofun
      (hrule.keeps w₁ w₂ hw₂ (hrule.keeps w w₁ hw₁ hw))
  · exact .pure _

end Keeps

/-- Staging makes the directory of the module, copies the sources to it, and writes one file. -/
theorem exists_of_stage {root : Option Text} {m m' : Module} {code : Text} {w' : Workspace}
    (hrun : (stage root m code).runIn h w = (.ok m', w')) :
    let target := directory h root m.options.env m.name
    let staged := target.join (.ofText (sourceName m.name))
    m' = { m with stagedPath := some staged } ∧
    ∃ w₁ w₂ w₃, (makeDirectories target).runIn h w = (.ok (), w₁) ∧
      (copySources m.options.sourcePath.parent target).runIn h w₁ = (.ok (), w₂) ∧
      (writeText staged code).runIn h w₂ = (.ok (), w₃) ∧ w'.files = w₃.files := by
  rw [stage] at hrun
  obtain ⟨_, _, hread, hrun⟩ := runIn_bind_eq_ok_iff.mp hrun
  cases hread
  obtain ⟨_, w₁, hmake, hrun⟩ := runIn_bind_eq_ok_iff.mp hrun
  obtain ⟨_, w₂, hcopy, hrun⟩ := runIn_bind_eq_ok_iff.mp hrun
  obtain ⟨_, w₃, hwrite, hrun⟩ := runIn_bind_eq_ok_iff.mp hrun
  cases hrun
  exact ⟨rfl, w₁, w₂, w₃, hmake, hcopy, hwrite, rfl⟩

/-- **Staging runs no command, and fails only with the fault of a path, or because the stack runs
out.** -/
theorem keeps_stage (root : Option Text) (m : Module) (code : Text) :
    Keeps h SameCalls IsFault (stage root m code) w := by
  rw [stage]
  refine .bind (.of_eq runIn_read rfl (by rintro _ ⟨⟩)) fun host w₁ _ _ => ?_
  refine .bind (.makeDirectories (fun _ _ _ _ _ _ _ => rfl) .nullByte (fun _ _ => .file ..)
    (.tooDeep _)) fun _ w₂ _ _ => ?_
  refine .bind (keeps_copySources (I := fun _ => True) (N := fun _ => True) ?_ trivial)
    fun _ w₃ _ _ => ?_
  · exact ⟨fun _ _ _ _ => trivial, fun _ _ _ _ _ _ _ _ => trivial, fun _ _ _ _ _ _ => rfl,
      fun _ _ _ _ _ _ _ _ _ _ => rfl⟩
  refine .bind (.writeText (fun _ _ => rfl) .nullByte fun _ => .file ..) fun _ w₄ _ _ => ?_
  exact .bind (.of_eq runIn_note rfl (by rintro _ ⟨⟩)) fun _ w₅ _ _ => .pure _

end ZigNif.Staging
