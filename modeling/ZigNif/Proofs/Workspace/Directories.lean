import ZigNif.Proofs.Files.Below
import ZigNif.Proofs.Workspace

/-!
# Proofs/Workspace/Directories — making directories, and making them again

Making a directory with those that lead to it makes directories only, and where it succeeds the path
leads to one; done again, it succeeds and changes nothing.  Where it fails it can have made some of
the directories on the way.  Done again it fails too, now without changing anything; but what it
fails with can be another fault, because it comes further at once.

Below a directory that is there, names that can be entered one by one cannot fail halfway.
-/

namespace ZigNif

open ZigNif.Path

namespace FileTree

variable {t t' u : FileTree} {here l : Location} {p : Path}

/-- Directories are made, and files stay. -/
structure MakesDirectories (t t' : FileTree) : Prop where
  fits : t.Fits t'
  bytesAt? : ∀ q, t'.bytesAt? q = t.bytesAt? q
  proper : t.IsProper → t'.IsProper
  distinct : t.HasDistinctNames → t'.HasDistinctNames

instance : IsPreorder FileTree MakesDirectories where
  refl _ := ⟨fun _ _ => id, fun _ => rfl, id, id⟩
  trans _ _ _ h h' := ⟨trans_of Fits h.fits h'.fits,
    fun q => (h'.bytesAt? q).trans (h.bytesAt? q), h'.proper ∘ h.proper, h'.distinct ∘ h.distinct⟩

theorem byteLength_append {s r : Text} : byteLength (s ++ r) = byteLength s + byteLength r := by
  simp [byteLength, Utf8.encode]

/-- The text of the directory of a path is no longer than that of the path. -/
theorem byteLength_parent_le (hp : p.IsClean) : byteLength p.parent.text ≤ byteLength p.text := by
  rcases text_parent p with hdot | ⟨rest, htext⟩
  · have hlength : 0 < p.text.length := by
      by_cases hnames : p.names = []
      · have hself : p.parent = p := by
          obtain ⟨root, names⟩ := p
          subst hnames
          rfl
        rw [← hself, hdot]
        exact Nat.one_pos
      · exact Nat.lt_of_lt_of_le (List.length_pos_iff.mpr hnames) (length_names_le_length_text hp)
    have hbytes := length_le_byteLength p.text
    have hone : byteLength ['.'] = 1 := by decide
    rw [hdot]
    omega
  · rw [← htext, byteLength_append]
    omega

theorem namesFrom_parent (hnames : p.names ≠ []) : ∃ n, p.names = p.parent.names ++ [n] ∧
    namesFrom here p = namesFrom here p.parent ++ [n] := by
  have hlast : p.parent.names ++ [p.names.getLast hnames] = p.names :=
    List.dropLast_concat_getLast hnames
  refine ⟨p.names.getLast hnames, hlast.symm, ?_⟩
  rw [namesFrom, namesFrom, List.append_assoc]
  exact congrArg _ hlast.symm

/-- A path leads where its last name leads from where its directory leads. -/
theorem locate_eq_bind (hp : p.IsClean) (hlong : byteLength p.text < tooManyBytes) {n : Text}
    (hfrom : namesFrom here p = namesFrom here p.parent ++ [n]) :
    t.locate here p = (do t.enterAt (← t.locate here p.parent) n) := by
  have hparent : byteLength p.parent.text < tooManyBytes :=
    Nat.lt_of_le_of_lt (byteLength_parent_le hp) hlong
  rw [locate_eq, locate_eq, if_neg (Nat.not_le.mpr hlong), if_neg (Nat.not_le.mpr hparent), hfrom,
    List.foldlM_append]
  simp only [List.foldlM_cons, List.foldlM_nil, bind_pure]

/-- A path that is too long is not missing. -/
theorem byteLength_lt_of_missing (hl : t.locate here p = .error .missing) :
    byteLength p.text < tooManyBytes := by
  by_contra hlong
  rw [locate_eq, if_pos (Nat.not_lt.mp hlong)] at hl
  cases hl

theorem kindAt?_append_eq_none {n : Text} (h : t.kindAt? l ≠ some true) :
    t.kindAt? (l ++ [n]) = none := by
  rw [kindAt?_eq_none_iff, nodeAt?, Option.map_eq_none_iff]
  by_contra hsome
  obtain ⟨inside, hinside⟩ :=
    exists_directory_of_append (List.cons_ne_nil n []) (Option.isSome_iff_ne_none.mpr hsome)
  exact h (kindAt?_eq_true_iff.mpr (nodeAt?_eq_some_none_iff.mpr ⟨inside, hinside⟩))

end FileTree

namespace Build

variable {h : Host} {w w' u : Workspace} {t t' : FileTree} {p d : Path} {e : Failure} {l : Location}
  {names : List Text}

/-- The path leads to a directory. -/
def Leads (h : Host) (t : FileTree) (p : Path) : Prop :=
  ¬ hasNull p ∧ t.isDirectory h.here p = .ok true

theorem Leads.of_fits (hp : Leads h t p) (hfits : t.Fits t') : Leads h t' p := by
  obtain ⟨hnull, hdir⟩ := hp
  obtain ⟨l, hl, hkind⟩ := FileTree.isDirectory_eq_ok_true_iff.mp hdir
  exact ⟨hnull, FileTree.isDirectory_eq_ok_true_iff.mpr ⟨l, hfits.locate hl, hfits _ _ hkind⟩⟩

theorem hasNull_of_parent (hp : hasNull p.parent) : hasNull p := by
  rw [hasNull, decide_eq_true_iff] at hp ⊢
  rcases text_parent p with hdot | hprefix
  · rw [hdot] at hp
    exact absurd hp (by decide)
  · exact hprefix.subset hp

/-- A path that leads anywhere has a directory that its last name is entered in. -/
theorem Leads.parent_of_locate (hp : p.IsClean) (hnames : p.names ≠ []) (hnull : ¬ hasNull p)
    (hl : t.locate h.here p = .ok l) : Leads h t p.parent := by
  obtain ⟨hlong, hl⟩ := FileTree.locate_eq_ok_iff.mp hl
  obtain ⟨n, -, hfrom⟩ : ∃ n, p.names = p.parent.names ++ [n] ∧
      FileTree.namesFrom h.here p = FileTree.namesFrom h.here p.parent ++ [n] :=
    FileTree.namesFrom_parent hnames
  rw [hfrom] at hl
  obtain ⟨m, hm, hkind⟩ := FileTree.kindAt?_of_enters (List.cons_ne_nil n []) hl
  have hparent : t.locate h.here p.parent = .ok m :=
    FileTree.locate_eq_ok_iff.mpr ⟨Nat.lt_of_le_of_lt (FileTree.byteLength_parent_le hp) hlong, hm⟩
  exact ⟨mt hasNull_of_parent hnull, FileTree.isDirectory_eq_ok_true_iff.mpr ⟨m, hparent, hkind⟩⟩

/-! ## Making one directory -/

theorem makeDirectory_of_locate_error {fault : FileFault}
    (hl : t.locate h.here p = .error fault) : t.makeDirectory h.here p = .error fault := by
  have hmake : (t.makeDirectory h.here p).map (fun _ => ()) = _ := FileTree.makeDirectory_eq
  rw [hl] at hmake
  exact eq_error_of_map_eq (x := (.error fault : Except FileFault Unit)) hmake.symm rfl

theorem makeDirectory_of_kindAt? {k : Bool} (hl : t.locate h.here p = .ok l)
    (hkind : t.kindAt? l = some k) : t.makeDirectory h.here p = .error .alreadyExists := by
  have hmake : (t.makeDirectory h.here p).map (fun _ => ()) = _ := FileTree.makeDirectory_eq
  rw [hl] at hmake
  simp only [bind, Except.bind, hkind] at hmake
  exact eq_error_of_map_eq (x := (.error .alreadyExists : Except FileFault Unit)) hmake.symm rfl

theorem exists_makeDirectory (hl : t.locate h.here p = .ok l) (hkind : t.kindAt? l = none) :
    ∃ t', t.makeDirectory h.here p = .ok t' := by
  have hmake : (t.makeDirectory h.here p).map (fun _ => ()) = _ := FileTree.makeDirectory_eq
  rw [hl] at hmake
  simp only [bind, Except.bind, hkind] at hmake
  cases hresult : t.makeDirectory h.here p with
  | error fault => rw [hresult] at hmake; cases hmake
  | ok t' => exact ⟨t', rfl⟩

/-- A directory is made where the path leads to, unless something stands there. -/
theorem runIn_makeDirectory : (makeDirectory p).runIn h w =
    if hasNull p then (.error .nullByte, w)
    else match w.files.makeDirectory h.here p with
      | .ok files => (.ok (), { w with files })
      | .error fault => (if w.files.isDirectory h.here p = .ok true then .ok ()
          else .error (.file fault p.text), w) := by
  rw [makeDirectory, runIn_tryCatch, runIn_change]
  by_cases hnull : hasNull p
  · rw [if_pos hnull, if_pos hnull]
    rfl
  · rw [if_neg hnull, if_neg hnull]
    cases hl : w.files.locate h.here p with
    | error fault =>
      have hdir : w.files.isDirectory h.here p = _ := FileTree.isDirectory_eq
      rw [hl] at hdir
      rw [makeDirectory_of_locate_error hl]
      cases fault <;>
        simp only [runIn_bind, runIn_isDirectory, hnull, hdir, runIn_throw] <;> rfl
    | ok l =>
      have hdir : w.files.isDirectory h.here p = _ := FileTree.isDirectory_eq
      rw [hl] at hdir
      cases hkind : w.files.kindAt? l with
      | none =>
        obtain ⟨files, hmake⟩ := exists_makeDirectory hl hkind
        rw [hmake]
      | some k =>
        rw [makeDirectory_of_kindAt? hl hkind]
        simp only [runIn_bind, runIn_isDirectory, hnull, hdir, hkind]
        cases k <;> rfl

theorem runIn_makeDirectory_of_leads (hp : Leads h w.files p) :
    (makeDirectory p).runIn h w = (.ok (), w) := by
  obtain ⟨hnull, hdir⟩ := hp
  obtain ⟨l, hl, hkind⟩ := FileTree.isDirectory_eq_ok_true_iff.mp hdir
  rw [runIn_makeDirectory, if_neg hnull, makeDirectory_of_kindAt? hl hkind]
  simp only [hdir, if_true]

theorem exists_locate_of_makeDirectory (hrun : (makeDirectory p).runIn h w = (.ok (), w')) :
    ¬ hasNull p ∧ ∃ l, w.files.locate h.here p = .ok l ∧ w.files.Fits w'.files ∧
      w'.files.kindAt? l = some true := by
  rw [runIn_makeDirectory] at hrun
  split at hrun
  · cases hrun
  · rename_i hnull
    refine ⟨hnull, ?_⟩
    split at hrun
    · rename_i files hmake
      cases hrun
      obtain ⟨way, hway, -⟩ := bind_eq_ok_iff.mp hmake
      have hlocate : w.files.locate h.here p = .ok way.place := map_eq_ok_iff.mpr ⟨way, hway, rfl⟩
      refine ⟨_, hlocate, FileTree.fits_of_makeDirectory hmake, ?_⟩
      rw [FileTree.kindAt?_eq_true_iff, (FileTree.alters_of_makeDirectory hmake).1.nodeAt?,
        if_pos (FileTree.eq_place_of_locate hlocate)]
    · rw [Prod.mk.injEq] at hrun
      obtain ⟨hresult, rfl⟩ := hrun
      split at hresult
      · rename_i hdir
        obtain ⟨l, hl, hkind⟩ := FileTree.isDirectory_eq_ok_true_iff.mp hdir
        exact ⟨l, hl, refl_of FileTree.Fits _, hkind⟩
      · cases hresult

/-- Where a directory is made, the path leads to it. -/
theorem leads_of_makeDirectory (hrun : (makeDirectory p).runIn h w = (.ok (), w')) :
    Leads h w'.files p := by
  obtain ⟨hnull, l, hl, hfits, hkind⟩ := exists_locate_of_makeDirectory hrun
  exact ⟨hnull, FileTree.isDirectory_eq_ok_true_iff.mpr ⟨l, hfits.locate hl, hkind⟩⟩

theorem eq_of_makeDirectory_error (hrun : (makeDirectory p).runIn h w = (.error e, w')) :
    w' = w := by
  rw [runIn_makeDirectory] at hrun
  split at hrun
  · exact (Prod.mk.inj hrun).2.symm
  · split at hrun
    · cases hrun
    · exact (Prod.mk.inj hrun).2.symm

/-- Where the same kinds of things stand, making a directory fails alike. -/
theorem makeDirectory_error_congr (hkinds : w.files.kindAt? = u.files.kindAt?)
    (hrun : (makeDirectory p).runIn h w = (.error e, w')) :
    (makeDirectory p).runIn h u = (.error e, u) := by
  rw [runIn_makeDirectory] at hrun ⊢
  split at hrun
  · rename_i hnull
    rw [if_pos hnull, ← (Prod.mk.inj hrun).1]
  · rename_i hnull
    rw [if_neg hnull]
    split at hrun
    · cases hrun
    · rename_i fault hmake
      have hdir : w.files.isDirectory h.here p = u.files.isDirectory h.here p :=
        FileTree.isDirectory_congr fun q => by rw [hkinds]
      rw [eq_error_of_map_eq (FileTree.makeDirectory_congr hkinds) hmake, ← hdir,
        ← (Prod.mk.inj hrun).1]

theorem locate_of_makeDirectory_missing {text : Text}
    (hrun : (makeDirectory p).runIn h w = (.error (.file .missing text), w')) :
    ¬ hasNull p ∧ w.files.locate h.here p = .error .missing := by
  rw [runIn_makeDirectory] at hrun
  split at hrun
  · cases hrun
  · rename_i hnull
    refine ⟨hnull, ?_⟩
    cases hl : w.files.locate h.here p with
    | error fault =>
      rw [makeDirectory_of_locate_error hl] at hrun
      have hresult := (Prod.mk.inj hrun).1
      split at hresult
      · cases hresult
      · cases hresult
        rfl
    | ok l =>
      cases hkind : w.files.kindAt? l with
      | none =>
        obtain ⟨files, hmake⟩ := exists_makeDirectory hl hkind
        rw [hmake] at hrun
        cases hrun
      | some k =>
        rw [makeDirectory_of_kindAt? hl hkind] at hrun
        have hresult := (Prod.mk.inj hrun).1
        split at hresult
        · cases hresult
        · cases hresult

theorem runIn_makeDirectory_of_missing (hnull : ¬ hasNull p)
    (hl : w.files.locate h.here p = .error .missing) :
    (makeDirectory p).runIn h w = (.error (.file .missing p.text), w) := by
  have hdir : w.files.isDirectory h.here p = _ := FileTree.isDirectory_eq
  rw [hl] at hdir
  rw [runIn_makeDirectory, if_neg hnull, makeDirectory_of_locate_error hl, hdir]
  rfl

/-- A directory is made, or is there, where no file stands. -/
theorem exists_runIn_makeDirectory (hnull : ¬ hasNull p) (hl : w.files.locate h.here p = .ok l)
    (hkind : w.files.kindAt? l ≠ some false) :
    ∃ w', (makeDirectory p).runIn h w = (.ok (), w') := by
  rcases hk : w.files.kindAt? l with _ | _ | _
  · obtain ⟨files, hmake⟩ := exists_makeDirectory hl hk
    rw [runIn_makeDirectory, if_neg hnull, hmake]
    exact ⟨_, rfl⟩
  · exact absurd hk hkind
  · exact ⟨w, runIn_makeDirectory_of_leads
      ⟨hnull, FileTree.isDirectory_eq_ok_true_iff.mpr ⟨l, hl, hk⟩⟩⟩

/-! ## Making directories on the way -/

variable {depth : Nat}

/-- Those on the way are made if they are missing, and not too many. -/
theorem runIn_makeDirectoriesWithin : (makeDirectoriesWithin depth p).runIn h w =
    match (makeDirectory p).runIn h w with
    | (.error (.file .missing text), w₁) =>
      if p.names = [] then (.error (.file .missing text), w₁)
      else
        match depth with
        | 0 => (.error tooManyMissing, w₁)
        | depth + 1 => (do makeDirectoriesWithin depth p.parent; makeDirectory p).runIn h w₁
    | result => result := by
  rw [makeDirectoriesWithin.eq_def, runIn_tryCatch]
  rcases (makeDirectory p).runIn h w with ⟨e | a, w₁⟩
  · cases e with
    | file fault text =>
      cases fault with
      | missing =>
        by_cases hnames : p.names = []
        · simp only [hnames, if_true]
          rfl
        · simp only [hnames, if_false]
          cases depth <;> rfl
      | _ => rfl
    | _ => rfl
  · rfl

theorem runIn_makeDirectoriesWithin_of_missing {text : Text} (hnames : p.names ≠ [])
    (hmake : (makeDirectory p).runIn h w = (.error (.file .missing text), w')) :
    (makeDirectoriesWithin (depth + 1) p).runIn h w =
      (do makeDirectoriesWithin depth p.parent; makeDirectory p).runIn h w := by
  rw [runIn_makeDirectoriesWithin, hmake, eq_of_makeDirectory_error hmake]
  simp only [hnames, if_false]

/-- Where the stack ends, nothing is made. -/
theorem runIn_makeDirectoriesWithin_zero {text : Text} (hnames : p.names ≠ [])
    (hmake : (makeDirectory p).runIn h w = (.error (.file .missing text), w')) :
    (makeDirectoriesWithin 0 p).runIn h w = (.error tooManyMissing, w) := by
  rw [runIn_makeDirectoriesWithin, hmake, eq_of_makeDirectory_error hmake]
  simp only [hnames, if_false]

theorem runIn_makeDirectoriesWithin_of_error
    (hmake : (makeDirectory p).runIn h w = (.error e, w'))
    (hlast : p.names = [] ∨ ∀ text, e ≠ .file .missing text) :
    (makeDirectoriesWithin depth p).runIn h w = (.error e, w) := by
  rw [runIn_makeDirectoriesWithin, hmake, eq_of_makeDirectory_error hmake]
  split
  · rename_i heq
    cases heq
    exact if_pos (hlast.resolve_right fun hother => hother _ rfl)
  · rfl

theorem runIn_makeDirectoriesWithin_of_ok (hmake : (makeDirectory p).runIn h w = (.ok (), w')) :
    (makeDirectoriesWithin depth p).runIn h w = (.ok (), w') := by
  rw [runIn_makeDirectoriesWithin, hmake]

theorem runIn_makeDirectoriesWithin_of_leads (hp : Leads h w.files p) :
    (makeDirectoriesWithin depth p).runIn h w = (.ok (), w) :=
  runIn_makeDirectoriesWithin_of_ok (runIn_makeDirectory_of_leads hp)

theorem runIn_makeDirectories_of_leads (hp : Leads h w.files p) :
    (makeDirectories p).runIn h w = (.ok (), w) := by
  rw [runIn_makeDirectories, runIn_makeDirectoriesWithin_of_leads hp]

/-- **Where directories are made, the path leads to one.** -/
theorem leads_of_makeDirectoriesWithin
    (hrun : (makeDirectoriesWithin depth p).runIn h w = (.ok (), w')) : Leads h w'.files p := by
  rw [runIn_makeDirectoriesWithin] at hrun
  split at hrun
  · split at hrun
    · cases hrun
    · split at hrun
      · cases hrun
      · obtain ⟨_, w₂, -, hmake⟩ := runIn_bind_eq_ok_iff.mp hrun
        exact leads_of_makeDirectory hmake
  · exact leads_of_makeDirectory hrun

theorem leads_of_makeDirectories (hrun : (makeDirectories p).runIn h w = (.ok (), w')) :
    Leads h w'.files p :=
  leads_of_makeDirectoriesWithin (runIn_makeDirectories ▸ hrun)

theorem makesDirectories_of_makeDirectory {q : Path} (hhere : ∀ n ∈ h.here, IsName n)
    (hq : q.IsClean) (hmake : t.makeDirectory h.here q = .ok t') :
    FileTree.MakesDirectories t t' where
  fits := FileTree.fits_of_makeDirectory hmake
  bytesAt? _ := FileTree.bytesAt?_of_makeDirectory hmake
  proper ht := ht.of_alters (FileTree.alters_of_makeDirectory hmake).1 fun _ =>
    FileTree.isProperName_place hhere hq
  distinct ht := ht.of_makeDirectory hmake

instance : IsPreorder Workspace fun w w' => FileTree.MakesDirectories w.files w'.files where
  refl w := refl_of FileTree.MakesDirectories w.files
  trans _ _ _ := trans_of FileTree.MakesDirectories

/-- Making directories makes directories only, also where it fails. -/
theorem makesDirectories_within (hhere : ∀ n ∈ h.here, IsName n) (hp : p.IsClean) :
    FileTree.MakesDirectories w.files ((makeDirectoriesWithin depth p).runIn h w).2.files := by
  have hkeeps : Keeps h (fun w w' => FileTree.MakesDirectories w.files w'.files)
      (fun _ => True) (makeDirectoriesWithin depth p) w := by
    refine .makeDirectoriesWithin (fun q _ hq _ _ _ hmake => ?_) trivial (fun _ _ => trivial)
      trivial
    exact makesDirectories_of_makeDirectory hhere (fun n hn => hp n (hq.subset hn)) hmake
  exact hkeeps.leaves

theorem makesDirectories (hhere : ∀ n ∈ h.here, IsName n) (hp : p.IsClean) :
    FileTree.MakesDirectories w.files ((makeDirectories p).runIn h w).2.files :=
  runIn_makeDirectories ▸ makesDirectories_within hhere hp

/-! ## Failing again -/

/-- **How making directories fails.**  The directory itself fails, and not because one above it is
missing; or it does miss one above it, and there are too many of those, or they cannot be made, or
can be made without helping. -/
theorem makeDirectoriesWithin_error_cases
    (hrun : (makeDirectoriesWithin depth p).runIn h w = (.error e, w')) :
    ((makeDirectory p).runIn h w = (.error e, w) ∧
      (p.names = [] ∨ ∀ text, e ≠ .file .missing text) ∧ w' = w) ∨
    ∃ text, p.names ≠ [] ∧ (makeDirectory p).runIn h w = (.error (.file .missing text), w) ∧
      (depth = 0 ∧ e = tooManyMissing ∧ w' = w ∨
        ∃ above, depth = above + 1 ∧
          ((makeDirectoriesWithin above p.parent).runIn h w = (.error e, w') ∨
            (makeDirectoriesWithin above p.parent).runIn h w = (.ok (), w') ∧
              (makeDirectory p).runIn h w' = (.error e, w'))) := by
  rcases hmake : (makeDirectory p).runIn h w with ⟨e₁ | a, w₁⟩
  · obtain rfl := eq_of_makeDirectory_error hmake
    by_cases hmissing : p.names ≠ [] ∧ ∃ text, e₁ = .file .missing text
    · obtain ⟨hnames, text, rfl⟩ := hmissing
      refine .inr ⟨text, hnames, rfl, ?_⟩
      cases depth with
      | zero =>
        rw [runIn_makeDirectoriesWithin_zero hnames hmake, Prod.mk.injEq] at hrun
        exact .inl ⟨rfl, (Except.error.inj hrun.1).symm, hrun.2.symm⟩
      | succ above =>
        refine .inr ⟨above, rfl, ?_⟩
        rw [runIn_makeDirectoriesWithin_of_missing hnames hmake, runIn_bind] at hrun
        rcases hparent : (makeDirectoriesWithin above p.parent).runIn h w₁ with ⟨e₂ | a, w₂⟩
        · rw [hparent] at hrun
          exact .inl hrun
        · rw [hparent] at hrun
          obtain rfl := eq_of_makeDirectory_error hrun
          exact .inr ⟨rfl, hrun⟩
    · have hlast : p.names = [] ∨ ∀ text, e₁ ≠ .file .missing text := by
        rw [not_and_or, not_not, not_exists] at hmissing
        exact hmissing
      rw [runIn_makeDirectoriesWithin_of_error hmake hlast] at hrun
      cases hrun
      exact .inl ⟨rfl, hlast, rfl⟩
  · rw [runIn_makeDirectoriesWithin_of_ok hmake] at hrun
    cases hrun

theorem exists_makeDirectoriesWithin_error (hmake : (makeDirectory p).runIn h u = (.error e, u))
    (hparent : p.names ≠ [] → (∃ text, e = .file .missing text) → ∀ above, depth = above + 1 →
      ((makeDirectoriesWithin above p.parent).runIn h u).2 = u) :
    ∃ e', (makeDirectoriesWithin depth p).runIn h u = (.error e', u) := by
  by_cases hmissing : p.names ≠ [] ∧ ∃ text, e = .file .missing text
  · obtain ⟨hnames, text, rfl⟩ := hmissing
    cases depth with
    | zero => exact ⟨_, runIn_makeDirectoriesWithin_zero hnames hmake⟩
    | succ above =>
      have hparent := hparent hnames ⟨text, rfl⟩ above rfl
      rw [runIn_makeDirectoriesWithin_of_missing hnames hmake, runIn_bind]
      rcases hrun : (makeDirectoriesWithin above p.parent).runIn h u with ⟨e' | a, u'⟩
      · exact ⟨e', by rw [← hparent, hrun]⟩
      · obtain rfl : u' = u := by rw [← hparent, hrun]
        exact ⟨_, hmake⟩
  · rw [not_and_or, not_not, not_exists] at hmissing
    exact ⟨e, runIn_makeDirectoriesWithin_of_error hmake hmissing⟩

/-- **Making directories that failed fails again, and changes nothing.** -/
theorem makeDirectoriesWithin_error_again (hp : p.IsClean)
    (hrun : (makeDirectoriesWithin depth p).runIn h w = (.error e, w'))
    (hkinds : w'.files.kindAt? = u.files.kindAt?) :
    ∃ e', (makeDirectoriesWithin depth p).runIn h u = (.error e', u) := by
  induction depth using Nat.strongRecOn generalizing p w w' e with
  | ind depth ih =>
    rcases makeDirectoriesWithin_error_cases hrun with ⟨hmake, hlast, rfl⟩ |
      ⟨text, hnames, hmake, ⟨rfl, -, rfl⟩ | ⟨above, rfl, hparent | ⟨hparent, hself⟩⟩⟩
    · exact ⟨e, runIn_makeDirectoriesWithin_of_error (makeDirectory_error_congr hkinds hmake) hlast⟩
    · exact ⟨_, runIn_makeDirectoriesWithin_zero hnames (makeDirectory_error_congr hkinds hmake)⟩
    · -- a directory on the way was not made, so nothing behind it can be there
      obtain ⟨e', hagain⟩ := ih above (Nat.lt_succ_self _) (isClean_parent hp) hparent hkinds
      rcases hmake' : (makeDirectory p).runIn h u with ⟨e₃ | a, u'⟩
      · obtain rfl := eq_of_makeDirectory_error hmake'
        exact exists_makeDirectoriesWithin_error hmake' fun _ _ _ h => by
          rw [← Nat.succ.inj h, hagain]
      · obtain ⟨hnull, l, hl, -⟩ := exists_locate_of_makeDirectory hmake'
        have hleads : Leads h u.files p.parent := .parent_of_locate hp hnames hnull hl
        rw [runIn_makeDirectoriesWithin_of_leads hleads] at hagain
        cases hagain
    · -- they were all made, but the last one was not
      have hleads : Leads h u.files p.parent :=
        (leads_of_makeDirectoriesWithin hparent).of_fits fun q k hk => hkinds ▸ hk
      exact exists_makeDirectoriesWithin_error (makeDirectory_error_congr hkinds hself)
        fun _ _ _ _ => by rw [runIn_makeDirectoriesWithin_of_leads hleads]

/-- If no directory was made on the way, the failure is the same. -/
theorem makeDirectoriesWithin_error_same
    (hrun : (makeDirectoriesWithin depth p).runIn h w = (.error e, w'))
    (hsame : w'.files.kindAt? = w.files.kindAt?) (hkinds : w.files.kindAt? = u.files.kindAt?) :
    (makeDirectoriesWithin depth p).runIn h u = (.error e, u) := by
  induction depth using Nat.strongRecOn generalizing p w w' e with
  | ind depth ih =>
    rcases makeDirectoriesWithin_error_cases hrun with ⟨hmake, hlast, rfl⟩ |
      ⟨text, hnames, hmake, ⟨rfl, rfl, -⟩ | ⟨above, rfl, hparent | ⟨hparent, hself⟩⟩⟩
    · exact runIn_makeDirectoriesWithin_of_error (makeDirectory_error_congr hkinds hmake) hlast
    · exact runIn_makeDirectoriesWithin_zero hnames (makeDirectory_error_congr hkinds hmake)
    · rw [runIn_makeDirectoriesWithin_of_missing hnames (makeDirectory_error_congr hkinds hmake),
        runIn_bind, ih above (Nat.lt_succ_self _) hparent hsame hkinds]
    · have hleads : Leads h u.files p.parent := (leads_of_makeDirectoriesWithin hparent).of_fits
        fun q k hk => by rwa [← hkinds, ← hsame]
      rw [runIn_makeDirectoriesWithin_of_missing hnames (makeDirectory_error_congr hkinds hmake),
        runIn_bind, runIn_makeDirectoriesWithin_of_leads hleads]
      exact makeDirectory_error_congr (hsame.trans hkinds) hself

theorem makeDirectories_error_again (hp : p.IsClean)
    (hrun : (makeDirectories p).runIn h w = (.error e, w'))
    (hkinds : w'.files.kindAt? = u.files.kindAt?) :
    ∃ e', (makeDirectories p).runIn h u = (.error e', u) := by
  rw [runIn_makeDirectories] at hrun ⊢
  exact makeDirectoriesWithin_error_again hp hrun hkinds

theorem makeDirectories_error_same (hrun : (makeDirectories p).runIn h w = (.error e, w'))
    (hsame : w'.files.kindAt? = w.files.kindAt?) (hkinds : w.files.kindAt? = u.files.kindAt?) :
    (makeDirectories p).runIn h u = (.error e, u) := by
  rw [runIn_makeDirectories] at hrun ⊢
  exact makeDirectoriesWithin_error_same hrun hsame hkinds

/-! ## Directories below one that is there -/

/-- A name of a file or a directory that is not too long. -/
def IsEnterable (n : Text) : Prop := IsProperName n ∧ FileTree.byteLength n ≤ FileTree.maxNameBytes

theorem isClean_join_names (hd : d.IsClean) (hnames : ∀ n ∈ names, IsEnterable n) :
    (d.join { names }).IsClean :=
  isClean_join hd fun n hn => (hnames n hn).1.1

theorem place_join_names (hnames : ∀ n ∈ names, IsEnterable n) :
    (d.join { names }).place h.here = d.place h.here ++ names :=
  FileTree.place_join fun hmem => (hnames _ hmem).1.2 rfl

/-- Making the directory succeeds, or there are too many missing ones on the way and nothing is
made. -/
def Makes (h : Host) (w : Workspace) (depth : Nat) (p : Path) : Prop :=
  (∃ w', (makeDirectoriesWithin depth p).runIn h w = (.ok (), w')) ∨
    (makeDirectoriesWithin depth p).runIn h w = (.error tooManyMissing, w)

section Concat

variable {n : Text} {text : Text} (hp : p.IsClean) (hfrom : FileTree.namesFrom h.here p =
  FileTree.namesFrom h.here p.parent ++ [n]) (hn : IsEnterable n)

include hp hfrom hn

/-- A path whose last name can be entered misses a directory above the last one, or that one. -/
theorem locate_parent_of_missing (hl : t.locate h.here p = .error .missing) :
    t.locate h.here p.parent = .error .missing ∨
      ∃ m, t.locate h.here p.parent = .ok m ∧ t.kindAt? m = none := by
  rw [FileTree.locate_eq_bind hp (FileTree.byteLength_lt_of_missing hl) hfrom,
    bind_eq_error_iff] at hl
  refine hl.imp_right fun ⟨m, hm, henter⟩ => ⟨m, hm, ?_⟩
  rw [FileTree.enterAt] at henter
  rcases hk : t.kindAt? m with _ | _ | _
  · rfl
  · rw [hk] at henter
    cases henter
  · simp [hk, hn.1.2, Nat.not_lt.mpr hn.2] at henter

/-- Nothing stands where the directory above is to be made, and it can be made. -/
theorem makes_parent
    (hmake : (makeDirectory p).runIn h w = (.error (.file .missing text), w'))
    (hrec : (makeDirectory p.parent).runIn h w = (.error (.file .missing p.parent.text), w) →
      w.files.kindAt? (p.parent.place h.here) = none ∧ Makes h w depth p.parent) :
    w.files.kindAt? (p.parent.place h.here) = none ∧ Makes h w depth p.parent := by
  obtain ⟨hnull, hl⟩ := locate_of_makeDirectory_missing hmake
  have hnull' : ¬ hasNull p.parent := mt hasNull_of_parent hnull
  rcases locate_parent_of_missing hp hfrom hn hl with hl | ⟨m, hm, hkind⟩
  · exact hrec (runIn_makeDirectory_of_missing hnull' hl)
  · obtain ⟨w₁, hmake₁⟩ := exists_runIn_makeDirectory hnull' hm (by simp [hkind])
    exact ⟨by rw [← FileTree.eq_place_of_locate hm, hkind],
      .inl ⟨w₁, runIn_makeDirectoriesWithin_of_ok hmake₁⟩⟩

/-- When the directory above is there, and no file has come up, the last one can be made. -/
theorem exists_makeDirectory_of_parent (hhere : ∀ n ∈ h.here, IsName n)
    (hmake : (makeDirectory p).runIn h w = (.error (.file .missing text), w))
    (hnone : w.files.kindAt? (p.parent.place h.here ++ [n]) = none)
    (hrun : (makeDirectoriesWithin depth p.parent).runIn h w = (.ok (), w')) :
    ∃ w₂, (makeDirectory p).runIn h w' = (.ok (), w₂) := by
  obtain ⟨hnull, hl⟩ := locate_of_makeDirectory_missing hmake
  obtain ⟨m, hm, hkind⟩ :=
    FileTree.isDirectory_eq_ok_true_iff.mp (leads_of_makeDirectoriesWithin hrun).2
  have hl' : w'.files.locate h.here p = .ok (m ++ [n]) := by
    rw [FileTree.locate_eq_bind hp (FileTree.byteLength_lt_of_missing hl) hfrom, hm]
    exact FileTree.enterAt_eq_ok_iff.mpr ⟨hkind, .inr ⟨hn.1.2, hn.2, rfl⟩⟩
  have hbytes : w'.files.bytesAt? = w.files.bytesAt? := by
    have hmakes : FileTree.MakesDirectories w.files
        ((makeDirectoriesWithin depth p.parent).runIn h w).2.files :=
      makesDirectories_within hhere (isClean_parent hp)
    rw [hrun] at hmakes
    exact funext hmakes.bytesAt?
  refine exists_runIn_makeDirectory hnull hl' ?_
  rw [FileTree.eq_place_of_locate hm, ne_eq, FileTree.kindAt?_eq_false_iff, hbytes,
    FileTree.bytesAt?, FileTree.kindAt?_eq_none_iff.mp hnone]
  simp

end Concat

/-- Where a directory below one that is there cannot be made because one on the way is missing, the
ones on the way can be made.  The induction is on the names that lead down. -/
theorem makes_of_missing (hhere : ∀ n ∈ h.here, IsName n) (hd : d.IsClean)
    (hleads : Leads h w.files d) (hnames : ∀ n ∈ names, IsEnterable n) {text : Text}
    (hmake : (makeDirectory (d.join { names })).runIn h w = (.error (.file .missing text), w)) :
    w.files.kindAt? (d.place h.here ++ names) = none ∧ Makes h w depth (d.join { names }) := by
  induction names using List.reverseRecOn generalizing text depth with
  | nil =>
    have hself : d.join { names := [] } = d := by simp [join]
    rw [hself, runIn_makeDirectory_of_leads hleads] at hmake
    cases hmake
  | append_singleton names n ih =>
    have hfront : ∀ m ∈ names, IsEnterable m := fun m hm => hnames m (List.mem_append_left _ hm)
    have hn : IsEnterable n := hnames n (by simp)
    generalize hp : d.join { names := names ++ [n] } = p at hmake ⊢
    have hparent : p.parent = d.join { names } := by
      rw [← hp, parent, join, join, if_pos rfl, if_pos rfl, ← List.append_assoc,
        List.dropLast_concat]
    have hplace : p.parent.place h.here = d.place h.here ++ names := by
      rw [hparent, place_join_names hfront]
    have hclean : p.IsClean := hp ▸ isClean_join_names hd hnames
    have hne : p.names ≠ [] := by rw [← hp]; simp [join]
    have hfrom : FileTree.namesFrom h.here p = FileTree.namesFrom h.here p.parent ++ [n] := by
      rw [hparent, ← hp]
      simp [FileTree.namesFrom, join]
    have habove : ∀ depth, w.files.kindAt? (p.parent.place h.here) = none ∧
        Makes h w depth p.parent := fun depth =>
      makes_parent hclean hfrom hn hmake fun hmake => by
        rw [hplace]
        rw [hparent] at hmake ⊢
        exact ih hfront hmake
    have hnone : w.files.kindAt? (p.parent.place h.here ++ [n]) = none :=
      FileTree.kindAt?_append_eq_none (by simp [(habove 0).1])
    refine ⟨by rw [← List.append_assoc, ← hplace, hnone], ?_⟩
    cases depth with
    | zero => exact .inr (runIn_makeDirectoriesWithin_zero hne hmake)
    | succ depth =>
      rw [Makes, runIn_makeDirectoriesWithin_of_missing hne hmake, runIn_bind]
      rcases (habove depth).2 with ⟨w₁, hrun⟩ | hrun
      · obtain ⟨w₂, hmake₂⟩ :=
          exists_makeDirectory_of_parent hclean hfrom hn hhere hmake hnone hrun
        rw [hrun]
        exact .inl ⟨w₂, hmake₂⟩
      · rw [hrun]
        exact .inr rfl

/-- **Below a directory that is there, making directories does not fail halfway.** -/
theorem makeDirectories_join_error (hhere : ∀ n ∈ h.here, IsName n) (hd : d.IsClean)
    (hleads : Leads h w.files d) (hnames : ∀ n ∈ names, IsEnterable n)
    (hrun : (makeDirectories (d.join { names })).runIn h w = (.error e, w'))
    (hkinds : w'.files.kindAt? = u.files.kindAt?) :
    w' = w ∧ (makeDirectories (d.join { names })).runIn h u = (.error e, u) := by
  have hstays : w' = w := by
    rw [runIn_makeDirectories] at hrun
    rcases makeDirectoriesWithin_error_cases hrun with ⟨-, -, rfl⟩ | ⟨text, -, hmake, -⟩
    · rfl
    · rcases (makes_of_missing hhere hd hleads hnames hmake).2 with ⟨w₂, hrun₂⟩ | hrun₂
      · rw [hrun₂] at hrun
        cases hrun
      · rw [hrun₂] at hrun
        exact (congrArg Prod.snd hrun).symm
  subst hstays
  exact ⟨rfl, makeDirectories_error_same hrun rfl hkinds⟩

/-- A path leads to a directory through directories. -/
theorem Leads.kindAt?_above {q : Path} (hd : Leads h t d) (hroot : q.root = d.root)
    (habove : q.names <+: d.names) (hl : t.locate h.here q = .ok l) : t.kindAt? l = some true := by
  obtain ⟨m, hm, hkind⟩ := FileTree.isDirectory_eq_ok_true_iff.mp hd.2
  obtain ⟨rest, hrest⟩ := habove
  have hfrom : FileTree.namesFrom h.here d = FileTree.namesFrom h.here q ++ rest := by
    rw [FileTree.namesFrom, FileTree.namesFrom, hroot, List.append_assoc, hrest]
  obtain ⟨-, hm⟩ := FileTree.locate_eq_ok_iff.mp hm
  obtain ⟨-, hl⟩ := FileTree.locate_eq_ok_iff.mp hl
  rw [hfrom] at hm
  by_cases hnil : rest = []
  · rw [hnil, List.append_nil, hl] at hm
    rwa [Except.ok.inj hm]
  · obtain ⟨m', hm', hkind'⟩ := FileTree.kindAt?_of_enters hnil hm
    rw [hl] at hm'
    rwa [Except.ok.inj hm']

/-- A directory that is made on the way from one that is there lies below it. -/
theorem isBelow_of_makeDirectory {q : Path} (hleads : Leads h t d)
    (hnames : ∀ n ∈ names, IsEnterable n) (hroot : q.root = d.root)
    (hq : q.names <+: d.names ++ names) (hmake : t.makeDirectory h.here q = .ok t') :
    FileTree.IsBelow (d.place h.here) (q.place h.here) := by
  have hnew : ¬ q.names <+: d.names := by
    intro hprefix
    obtain ⟨way, hway, -⟩ := bind_eq_ok_iff.mp hmake
    have hlocate : t.locate h.here q = .ok way.place := map_eq_ok_iff.mpr ⟨way, hway, rfl⟩
    have hkind := hleads.kindAt?_above hroot hprefix hlocate
    rw [FileTree.eq_place_of_locate hlocate, FileTree.kindAt?_eq_true_iff,
      (FileTree.alters_of_makeDirectory hmake).2] at hkind
    cases hkind
  obtain ⟨rel, hrel⟩ := (List.prefix_or_prefix_of_prefix hq
    (List.prefix_append d.names names)).resolve_left hnew
  have hrel' : ∀ n ∈ rel, IsEnterable n := by
    rw [← hrel] at hq
    exact fun n hn => hnames n (((List.prefix_append_right_inj _).mp hq).subset hn)
  have hjoin : q = d.join { names := rel } := by
    obtain ⟨root, names⟩ := q
    subst hrel
    subst hroot
    rfl
  refine ⟨rel, ?_, by rw [hjoin, place_join_names hrel']⟩
  rintro rfl
  exact hnew ⟨[], by rw [← hrel, List.append_nil, List.append_nil]⟩

instance {q : Location} {M : Prop} :
    IsPreorder Workspace fun w w' => FileTree.ChangesBelow q M w.files w'.files where
  refl w := refl_of (FileTree.ChangesBelow q M) w.files
  trans _ _ _ := trans_of (FileTree.ChangesBelow q M)

/-- **Below a directory that is there, directories are made below it.** -/
theorem changesBelow_of_makeDirectories {M : Prop} (hM : M) (hhere : ∀ n ∈ h.here, IsName n)
    (hd : d.IsClean) (hleads : Leads h w.files d) (hnames : ∀ n ∈ names, IsEnterable n) :
    FileTree.ChangesBelow (d.place h.here) M w.files
      ((makeDirectories (d.join { names })).runIn h w).2.files := by
  have hclean := isClean_join_names hd hnames
  have hkeeps : Keeps h
      (fun w w' => FileTree.ChangesBelow (d.place h.here) M w.files w'.files)
      (fun _ => True) (makeDirectories (d.join { names })) w := by
    refine .makeDirectories (fun q hroot hq w₁ files hw₁ hmake => ?_) trivial (fun _ _ => trivial) trivial
    refine FileTree.changesBelow_of_makeDirectory hhere (fun n hn => hclean n (hq.subset hn)) ?_ hM
      hmake
    exact isBelow_of_makeDirectory (hleads.of_fits hw₁.fits) hnames hroot hq hmake
  exact hkeeps.leaves

theorem calls_makeDirectories : ((makeDirectories p).runIn h w).2.calls = w.calls := by
  have hkeeps : Keeps h SameCalls (fun _ => True) (makeDirectories p) w :=
    .makeDirectories (fun _ _ _ _ _ _ _ => rfl) trivial (fun _ _ => trivial) trivial
  exact hkeeps.leaves

end Build

end ZigNif
