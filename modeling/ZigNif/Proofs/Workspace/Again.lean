import ZigNif.Proofs.Workspace.Directories

/-!
# Proofs/Workspace/Again — doing again what was done

A computation that changes files below a directory only is done in two workspaces: in the first one
for the first time, and in the second one after it, and all that followed it, has been done.  The
second one has everything that the first one has, and more: the files that are still to be written
the first time, with the bytes they had in the end, and their directories (`Agrees`).

`Replays` says that the computation then comes to the same, runs the same commands, and leaves
workspaces of which the same can be said.  Along sequences and loops this holds if it holds of the
parts.  What is found in a workspace with more in it can be another thing, where something was not
found the first time; but then the computation has failed, the first time ended there, and the
second workspace has nothing more.
-/

namespace ZigNif

open ZigNif.Path

/-- The second tree has the files of the first one with their bytes, holds the same outside of `d`,
and has things of the same kinds as the last tree. -/
structure FileTree.Agrees (d : Location) (last t u : FileTree) : Prop where
  bytesAt? : ∀ q b, t.bytesAt? q = some b → u.bytesAt? q = some b
  kinds : u.kindAt? = last.kindAt?
  entriesAt : ∀ q, ¬ d <+: q → u.entriesAt q = t.entriesAt q
  distinct : u.HasDistinctNames

namespace FileTree.Agrees

variable {here d : Location} {last t t' u : FileTree} {p : Path} {bytes : List UInt8}

theorem fits (hu : Agrees d last t u) (hlast : t.Fits last) : t.Fits u :=
  fun q k hk => hu.kinds ▸ hlast q k hk

/-- A file that is written the first time is there the second time, and can be written again. -/
theorem write (hhere : ∀ n ∈ here, IsName n) (hp : p.IsClean) (hbelow : IsBelow d (p.place here))
    (hu : Agrees d last t u) (hwrite : t.write here p bytes = .ok t') (hlast : t'.Fits last) :
    ∃ u', u.write here p bytes = .ok u' ∧ Agrees d last t' u' := by
  have hfits : t.Fits u := hu.fits (trans_of Fits (fits_of_write hwrite) hlast)
  have hfile : u.kindAt? (p.place here) = some false := by
    rw [hu.kinds]
    refine hlast _ _ ?_
    rw [kindAt?, (alters_of_write hwrite).nodeAt?, if_pos rfl]
    rfl
  obtain ⟨u', hwrite'⟩ : ∃ u', u.write here p bytes = .ok u' :=
    exists_write (hfits.locate (locate_of_write hwrite)) (by simp [hfile])
  have hchanges : ChangesBelow d False t t' := changesBelow_of_write hhere hp hbelow hwrite
  have hchanges' : ChangesBelow d False u u' := changesBelow_of_write hhere hp hbelow hwrite'
  refine ⟨u', hwrite', fun q b hb => ?_, funext fun q => ?_, fun q hq => ?_,
    hu.distinct.of_write hwrite'⟩
  · rw [bytesAt?_of_write hwrite] at hb
    rw [bytesAt?_of_write hwrite']
    split at hb
    · rename_i hq
      rw [if_pos hq, hb]
    · rename_i hq
      rw [if_neg hq, hu.bytesAt? q b hb]
  · rw [← hu.kinds, kindAt?, (alters_of_write hwrite').nodeAt?]
    split
    · rename_i hq
      rw [hq, hfile]
      rfl
    · rfl
  · rw [hchanges'.entriesAt q hq, hchanges.entriesAt q hq, hu.entriesAt q hq]

/-- Directories that are made the first time are there the second time. -/
theorem of_makesDirectories (hu : Agrees d last t u) (hmakes : MakesDirectories t t')
    (hentries : ∀ q, ¬ d <+: q → t'.entriesAt q = t.entriesAt q) : Agrees d last t' u where
  bytesAt? q b hb := hu.bytesAt? q b (hmakes.bytesAt? q ▸ hb)
  kinds := hu.kinds
  entriesAt q hq := (hu.entriesAt q hq).trans (hentries q hq).symm
  distinct := hu.distinct

/-- A tree that agrees with the last one holds what that one holds. -/
theorem nodeAt?_eq (hu : Agrees d last last u) (q : Location) : u.nodeAt? q = last.nodeAt? q := by
  have hkind : u.kindAt? q = last.kindAt? q := by rw [hu.kinds]
  refine nodeAt?_eq_of hkind ?_
  cases hb : last.bytesAt? q with
  | some b => exact hu.bytesAt? q b hb
  | none =>
    have hfile : u.kindAt? q ≠ some false := by
      rw [hkind, ne_eq, kindAt?_eq_false_iff, hb]
      exact nofun
    by_contra hsome
    exact hfile (kindAt?_eq_false_iff.mpr (Option.ne_none_iff_exists'.mp hsome))

end FileTree.Agrees

namespace Build

variable {α β : Type} {h : Host} {d : Location} {M : Prop} {last : FileTree} {w u : Workspace}
  {p : Path} {e : Failure}

/-- What is done after the computation ends in the last tree; nothing is done after a failure. -/
structure EndsIn (last : FileTree) (result : Except Failure α × Workspace) : Prop where
  fits : result.2.files.Fits last
  fails : ∀ e, result.1 = .error e → result.2.files.kindAt? = last.kindAt?

/-- The computation comes to the same in both workspaces, and runs the same commands. -/
structure Repeats (h : Host) (d : Location) (last : FileTree) (x : Build α) (w u : Workspace) :
    Prop where
  result : (x.runIn h u).1 = (x.runIn h w).1
  files : FileTree.Agrees d last (x.runIn h w).2.files (x.runIn h u).2.files
  calls : ∃ made, (x.runIn h w).2.calls = w.calls ++ made ∧ (x.runIn h u).2.calls = u.calls ++ made

section Runs

variable {x : Build α} {r : Except Failure α} {w₁ u₁ : Workspace}

theorem Repeats.of_runIn (hw : x.runIn h w = (r, w₁)) (hu : x.runIn h u = (r, u₁))
    (hfiles : FileTree.Agrees d last w₁.files u₁.files)
    (hcalls : ∃ made, w₁.calls = w.calls ++ made ∧ u₁.calls = u.calls ++ made) :
    Repeats h d last x w u where
  result := by rw [hw, hu]
  files := by rwa [hw, hu]
  calls := by rwa [hw, hu]

theorem Repeats.exists_runIn (hx : Repeats h d last x w u) (hw : x.runIn h w = (r, w₁)) :
    ∃ u₁, x.runIn h u = (r, u₁) ∧ FileTree.Agrees d last w₁.files u₁.files ∧
      ∃ made, w₁.calls = w.calls ++ made ∧ u₁.calls = u.calls ++ made := by
  obtain ⟨hresult, hfiles, hcalls⟩ := hx
  rw [hw] at hresult hfiles hcalls
  exact ⟨(x.runIn h u).2, Prod.ext hresult rfl, hfiles, hcalls⟩

/-- No command is run in either workspace. -/
theorem exists_calls_of_eq (hw : w₁.calls = w.calls) (hu : u₁.calls = u.calls) :
    ∃ made, w₁.calls = w.calls ++ made ∧ u₁.calls = u.calls ++ made :=
  ⟨[], by rw [hw, List.append_nil], by rw [hu, List.append_nil]⟩

end Runs

/-- The computation changes files below `d` only, and what it does in the workspace it does again
where it was done, with everything up to the last tree. -/
structure Replays (h : Host) (d : Location) (M : Prop) (last : FileTree) (x : Build α)
    (w : Workspace) : Prop where
  changes : FileTree.ChangesBelow d M w.files (x.runIn h w).2.files
  again : ∀ u, EndsIn last (x.runIn h w) → FileTree.Agrees d last w.files u.files →
    Repeats h d last x w u

namespace Replays

variable {x : Build α} {f : α → Build β}

/-- What does not look at the files. -/
theorem of_const (r : Except Failure α) (made : List Call)
    (hrun : ∀ v, (x.runIn h v).1 = r ∧ (x.runIn h v).2.files = v.files ∧
      (x.runIn h v).2.calls = v.calls ++ made) : Replays h d M last x w where
  changes := (hrun w).2.1 ▸ refl_of (FileTree.ChangesBelow d M) w.files
  again u _ hu := by
    obtain ⟨hw, hwfiles, hwcalls⟩ := hrun w
    obtain ⟨hu', hufiles, hucalls⟩ := hrun u
    exact ⟨hu'.trans hw.symm, by rw [hwfiles, hufiles]; exact hu, made, hwcalls, hucalls⟩

/-- What only looks at the files. -/
theorem of_look {g : FileTree → Except Failure α}
    (hrun : ∀ v, (x.runIn h v).1 = g v.files ∧ (x.runIn h v).2.files = v.files ∧
      (x.runIn h v).2.calls = v.calls)
    (hg : ∀ u : FileTree, FileTree.Agrees d last w.files u → w.files.Fits u →
      (∀ e, g w.files = .error e → w.files.kindAt? = u.kindAt?) → g u = g w.files) :
    Replays h d M last x w where
  changes := (hrun w).2.1 ▸ refl_of (FileTree.ChangesBelow d M) w.files
  again u hends hu := by
    obtain ⟨hw, hwfiles, hwcalls⟩ := hrun w
    obtain ⟨hu', hufiles, hucalls⟩ := hrun u
    obtain ⟨hfits, hfails⟩ := hends
    rw [hwfiles, ← hu.kinds] at hfails
    rw [hwfiles] at hfits
    have hfits' : w.files.Fits u.files := fun q k hk => hu.kinds ▸ hfits q k hk
    refine ⟨?_, by rw [hwfiles, hufiles]; exact hu, [], ?_, ?_⟩
    · rw [hu', hw, hg u.files hu hfits' fun e he => hfails e (hw.trans he)]
    · rw [hwcalls, List.append_nil]
    · rw [hucalls, List.append_nil]

theorem pure (a : α) : Replays h d M last (pure a) w :=
  of_const (.ok a) [] fun _ => ⟨rfl, rfl, (List.append_nil _).symm⟩

theorem throw : Replays h d M last (throw e : Build α) w :=
  of_const (.error e) [] fun _ => ⟨rfl, rfl, (List.append_nil _).symm⟩

theorem read : Replays h d M last (read : Build Host) w :=
  of_const (.ok h) [] fun _ => ⟨rfl, rfl, (List.append_nil _).symm⟩

theorem ofExcept {r : Except Failure α} : Replays h d M last (ofExcept r) w :=
  of_const r [] fun _ => by
    rw [runIn_ofExcept]
    exact ⟨rfl, rfl, (List.append_nil _).symm⟩

theorem ofBuild {r : Except BuildError α} : Replays h d M last (ofBuild r) w :=
  of_const (r.mapError .build) [] fun _ => by
    rw [runIn_ofBuild]
    exact ⟨rfl, rfl, (List.append_nil _).symm⟩

theorem note {topic message : Text} : Replays h d M last (note topic message) w :=
  of_const (.ok ()) [] fun _ => ⟨rfl, rfl, (List.append_nil _).symm⟩

theorem call {c : Call} : Replays h d M last (call c) w :=
  of_const (h.run c).read [c] fun _ => by
    rw [runIn_call]
    exact ⟨rfl, rfl, rfl⟩

/-- What fails and changes nothing, and fails alike where the same kinds of things stand. -/
theorem of_error (hw : x.runIn h w = (.error e, w))
    (hagain : ∀ u : Workspace, w.files.kindAt? = u.files.kindAt? → x.runIn h u = (.error e, u)) :
    Replays h d M last x w where
  changes := by
    rw [hw]
    exact refl_of (FileTree.ChangesBelow d M) w.files
  again u hends hu := by
    rw [hw] at hends
    have hkinds := (hends.fails e rfl).trans hu.kinds.symm
    exact .of_runIn hw (hagain u hkinds) hu (exists_calls_of_eq rfl rfl)

/-- What does the same as another computation, both times. -/
theorem of_runIn_eq {y : Build α} (hw : x.runIn h w = y.runIn h w)
    (hagain : ∀ u, EndsIn last (y.runIn h w) → FileTree.Agrees d last w.files u.files →
      x.runIn h u = y.runIn h u) (hy : Replays h d M last y w) : Replays h d M last x w where
  changes := by
    rw [hw]
    exact hy.changes
  again u hends hu := by
    rw [hw] at hends
    obtain ⟨hresult, hfiles, hcalls⟩ := hy.again u hends hu
    have hu := hagain u hends hu
    exact ⟨by rw [hw, hu, hresult], by rwa [hw, hu], by rwa [hw, hu]⟩

/-- **Parts that are done again one after the other make up a whole that is.** -/
theorem bind (hx : Replays h d M last x w)
    (hf : ∀ a w₁, x.runIn h w = (.ok a, w₁) → FileTree.ChangesBelow d M w.files w₁.files →
      Replays h d M last (f a) w₁) : Replays h d M last (x >>= f) w := by
  obtain ⟨hchanges, hagain⟩ := hx
  rcases hrun : x.runIn h w with ⟨e | a, w₁⟩
  · -- nothing is done after a failure, and the second time the same part fails
    have hbind : (x >>= f).runIn h w = (.error e, w₁) := by rw [runIn_bind, hrun]
    rw [hrun] at hchanges
    refine ⟨by rwa [hbind], fun u hends hu => ?_⟩
    have hends' : EndsIn last (x.runIn h w) := by
      rw [hbind] at hends
      rw [hrun]
      exact ⟨hends.fits, fun _ _ => hends.fails e rfl⟩
    obtain ⟨u₁, hrun', hfiles, hcalls⟩ := (hagain u hends' hu).exists_runIn hrun
    exact .of_runIn hbind (by rw [runIn_bind, hrun']) hfiles hcalls
  · have hbind : (x >>= f).runIn h w = (f a).runIn h w₁ := by rw [runIn_bind, hrun]
    rw [hrun] at hchanges
    obtain ⟨hchanges₁, hagain₁⟩ := hf a w₁ hrun hchanges
    refine ⟨by rw [hbind]; exact trans_of (FileTree.ChangesBelow d M) hchanges hchanges₁,
      fun u hends hu => ?_⟩
    rw [hbind] at hends
    have hends' : EndsIn last (x.runIn h w) := by
      rw [hrun]
      exact ⟨trans_of FileTree.Fits hchanges₁.fits hends.fits, nofun⟩
    obtain ⟨u₁, hrun', hfiles, made, hw, hu⟩ := (hagain u hends' hu).exists_runIn hrun
    have hbind' : (x >>= f).runIn h u = (f a).runIn h u₁ := by rw [runIn_bind, hrun']
    obtain ⟨hresult₁, hfiles₁, made₁, hw₁, hu₁⟩ := hagain₁ u₁ hends hfiles
    exact ⟨by rw [hbind, hbind', hresult₁], by rwa [hbind, hbind'], made ++ made₁,
      by rw [hbind, hw₁, hw, List.append_assoc], by rw [hbind', hu₁, hu, List.append_assoc]⟩

/-- A loop whose steps are done again is done again. -/
theorem forM {l : List α} {f : α → Build PUnit}
    (hf : ∀ a ∈ l, ∀ w₁, FileTree.ChangesBelow d M w.files w₁.files → Replays h d M last (f a) w₁) :
    Replays h d M last (forM l f) w := by
  induction l generalizing w with
  | nil => exact .pure _
  | cons a l ih =>
    rw [List.forM_cons]
    refine .bind (hf a List.mem_cons_self w (refl_of _ _)) fun _ w₁ _ hw₁ =>
      ih fun b hb w₂ hw₂ => ?_
    exact hf b (List.mem_cons_of_mem _ hb) w₂ (trans_of (FileTree.ChangesBelow d M) hw₁ hw₂)

/-! ## Looking at the files -/

theorem isDirectory (hfalse : w.files.isDirectory h.here p = .ok false →
    ∀ q, w.files.kindAt? q = some true ↔ last.kindAt? q = some true) :
    Replays h d M last (isDirectory p) w := by
  refine of_look (g := fun t => if hasNull p then .ok false
    else (t.isDirectory h.here p).mapError (.file · p.text)) (fun v => ?_)
    fun u hu hfits herror => ?_
  · rw [runIn_isDirectory]
    exact ⟨rfl, rfl, rfl⟩
  · by_cases hnull : hasNull p
    · simp only [if_pos hnull]
    · simp only [if_neg hnull] at herror ⊢
      refine congrArg _ ?_
      rcases hdir : w.files.isDirectory h.here p with fault | _ | _
      · rw [← FileTree.isDirectory_congr fun q => by rw [herror _ (by rw [hdir]; rfl)], hdir]
      · rw [← hdir]
        refine (FileTree.isDirectory_congr fun q => ?_).symm
        rw [hfalse hdir, hu.kinds]
      · obtain ⟨l, hl, hkind⟩ := FileTree.isDirectory_eq_ok_true_iff.mp hdir
        exact FileTree.isDirectory_eq_ok_true_iff.mpr ⟨l, hfits.locate hl, hfits _ _ hkind⟩

end Replays

/-- The names in a directory, and whether they are those of directories. -/
def entries (p : Path) : Build (List (Text × Bool)) := FileTree.entriesOf <$> list p

theorem runIn_entries : (entries p).runIn h w =
    (((w.files.list h.here p).map FileTree.entriesOf).mapError (.file · p.text), w) := by
  rw [entries, map_eq_pure_bind, runIn_bind, runIn_list]
  cases w.files.list h.here p <;> rfl

namespace Replays

theorem entries (hout : ¬ d <+: p.place h.here) : Replays h d M last (entries p) w := by
  refine of_look (g := fun t => ((t.list h.here p).map FileTree.entriesOf).mapError
    (.file · p.text)) (fun v => ?_) fun u hu hfits herror => ?_
  · rw [runIn_entries]
    exact ⟨rfl, rfl, rfl⟩
  · refine congrArg _ ?_
    cases hlist : (w.files.list h.here p).map FileTree.entriesOf with
    | error fault =>
      exact eq_error_of_map_eq (FileTree.list_congr (herror _ (by rw [hlist]; rfl))) hlist
    | ok found =>
      obtain ⟨l, hl, hkind, rfl⟩ := FileTree.list_eq_ok_iff.mp hlist
      refine FileTree.list_eq_ok_iff.mpr ⟨l, hfits.locate hl, hfits _ _ hkind, ?_⟩
      exact hu.entriesAt l (FileTree.eq_place_of_locate hl ▸ hout)

/-! ## Changing the files -/

theorem runIn_writeBytes {bytes : List UInt8} : (Build.writeBytes p bytes).runIn h w =
    if hasNull p then (.error .nullByte, w)
    else match w.files.write h.here p bytes with
      | .ok files => (.ok (), { w with files })
      | .error fault => (.error (.file fault p.text), w) :=
  runIn_change

section Change

variable (hhere : ∀ n ∈ h.here, IsName n)

include hhere

theorem writeBytes {bytes : List UInt8} (hp : p.IsClean)
    (hbelow : FileTree.IsBelow d (p.place h.here)) :
    Replays h d M last (writeBytes p bytes) w := by
  by_cases hnull : hasNull p
  · have hrun : ∀ v : Workspace, (Build.writeBytes p bytes).runIn h v = (.error .nullByte, v) :=
      fun v => by rw [runIn_writeBytes, if_pos hnull]
    exact of_error (hrun w) fun u _ => hrun u
  · cases hwrite : w.files.write h.here p bytes with
    | error fault =>
      refine of_error (by rw [runIn_writeBytes, if_neg hnull, hwrite]) fun u hkinds => ?_
      rw [runIn_writeBytes, if_neg hnull,
        eq_error_of_map_eq (FileTree.write_congr hkinds) hwrite]
    | ok files =>
      have hok : ∀ (v : Workspace) files, v.files.write h.here p bytes = .ok files →
          (Build.writeBytes p bytes).runIn h v = (.ok (), { v with files }) := fun v files hv => by
        rw [runIn_writeBytes, if_neg hnull, hv]
      have hw := hok w files hwrite
      refine ⟨by rw [hw]; exact FileTree.changesBelow_of_write hhere hp hbelow hwrite,
        fun u hends hu => ?_⟩
      rw [hw] at hends
      obtain ⟨u', hwrite', hagrees⟩ := hu.write hhere hp hbelow hwrite hends.fits
      exact .of_runIn hw (hok u u' hwrite') hagrees (exists_calls_of_eq rfl rfl)

theorem writeText {text : Text} (hp : p.IsClean) (hbelow : FileTree.IsBelow d (p.place h.here)) :
    Replays h d M last (writeText p text) w :=
  writeBytes hhere hp hbelow

/-- Directories below one that is there. -/
theorem makeDirectories {target : Path} {names : List Text} (hM : M) (htarget : target.IsClean)
    (hleads : Leads h w.files target) (hnames : ∀ n ∈ names, IsEnterable n) :
    Replays h (target.place h.here) M last (makeDirectories (target.join { names })) w := by
  have hchanges := changesBelow_of_makeDirectories hM hhere htarget hleads hnames
  have hcalls := calls_makeDirectories (h := h) (w := w) (p := target.join { names })
  refine ⟨hchanges, fun u hends hu => ?_⟩
  rcases hrun : (Build.makeDirectories (target.join { names })).runIn h w with ⟨e | a, w'⟩
  · rw [hrun] at hends hcalls
    have hkinds := (hends.fails e rfl).trans hu.kinds.symm
    obtain ⟨rfl, hagain⟩ := makeDirectories_join_error hhere htarget hleads hnames hrun hkinds
    exact .of_runIn hrun hagain hu (exists_calls_of_eq rfl rfl)
  · have hmakes := makesDirectories (w := w) hhere (isClean_join_names htarget hnames)
    rw [hrun] at hends hchanges hmakes hcalls
    have hleads' : Leads h u.files (target.join { names }) :=
      (leads_of_makeDirectories hrun).of_fits fun q k hk => hu.kinds ▸ hends.fits q k hk
    exact .of_runIn hrun (runIn_makeDirectories_of_leads hleads')
      (hu.of_makesDirectories hmakes hchanges.entriesAt) (exists_calls_of_eq hcalls rfl)

end Change

end Replays

end Build

end ZigNif
