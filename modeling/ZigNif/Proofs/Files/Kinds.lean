import ZigNif.Proofs.Files.Tree

/-!
# Proofs/Files/Kinds — what a path needs of a tree

A path leads to the location that its names spell if a directory stands wherever a name is entered;
if not, the fault says what stands there instead (`locate_eq`).  So in two trees with the same kinds
of things at the same locations, a path leads to the same location or has the same fault.  In a tree
with more files and directories, a path still leads where it led before, but one that led nowhere
may now lead somewhere.

Reading, listing, writing and making directories follow a path and then look at its location only.
-/

namespace ZigNif.FileTree

open ZigNif.Path

variable {t t' u new : FileTree} {here l q : Location} {p : Path} {name : Text} {names : List Text}
  {bytes : List UInt8} {fault : FileFault}

/-! ## Kinds -/

/-- Whether what stands at a location is a directory. -/
def kindAt? (t : FileTree) (q : Location) : Option Bool := (t.nodeAt? q).map Option.isNone

theorem kindAt?_eq_true_iff : t.kindAt? q = some true ↔ t.nodeAt? q = some none := by
  rw [kindAt?]
  rcases t.nodeAt? q with _ | _ | bytes <;> simp

theorem kindAt?_eq_false_iff : t.kindAt? q = some false ↔ ∃ bytes, t.bytesAt? q = some bytes := by
  rw [kindAt?, bytesAt?]
  rcases t.nodeAt? q with _ | _ | bytes <;> simp

theorem kindAt?_eq_none_iff : t.kindAt? q = none ↔ t.nodeAt? q = none := Option.map_eq_none_iff

/-- At the root stands the tree itself. -/
theorem kindAt?_nil : t.kindAt? [] = some t.isFolder := by
  cases t <;> rfl

theorem kindAt?_nil_of_nodeAt? (h : t.nodeAt? q = some none) : t.kindAt? [] = some true := by
  rw [kindAt?_nil]
  cases t with
  | file bytes => cases q <;> cases h
  | directory inside => rfl

/-- Where nothing stands, nothing stands below. -/
theorem nodeAt?_append_eq_none {r : Location} (h : t.nodeAt? q = none) :
    t.nodeAt? (q ++ r) = none := by
  rw [nodeAt?, Option.map_eq_none_iff] at h ⊢
  rw [get?_append, h]
  rfl

/-- A tree in which the bytes and the directories are the same is the same. -/
theorem nodeAt?_eq_of (hkind : t.kindAt? q = u.kindAt? q) (hbytes : t.bytesAt? q = u.bytesAt? q) :
    t.nodeAt? q = u.nodeAt? q := by
  rw [kindAt?, kindAt?] at hkind
  rw [bytesAt?, bytesAt?] at hbytes
  revert hkind hbytes
  rcases t.nodeAt? q with _ | _ | b <;> rcases u.nodeAt? q with _ | _ | b' <;> simp

/-! ## Following names from location to location -/

/-- Where one more name leads from a location. -/
def enterAt (t : FileTree) (l : Location) (name : Text) : Except FileFault Location :=
  match t.kindAt? l with
  | some true =>
    if name = parentName then .ok l.dropLast
    else if byteLength name > maxNameBytes then .error .nameTooLong
    else .ok (l ++ [name])
  | some false => .error .notDirectory
  | none => .error .missing

/-- From a directory a name leads further down if it is not too long, and `..` leads back. -/
theorem enterAt_eq_ok_iff : t.enterAt l name = .ok q ↔ t.kindAt? l = some true ∧
    (name = parentName ∧ q = l.dropLast ∨
      name ≠ parentName ∧ byteLength name ≤ maxNameBytes ∧ q = l ++ [name]) := by
  rw [enterAt]
  rcases t.kindAt? l with _ | _ | _
  · simp
  · simp
  · by_cases hname : name = parentName
    · simp [hname, eq_comm]
    · by_cases hlong : byteLength name > maxNameBytes
      · simp [hname, hlong, Nat.not_le.mpr hlong]
      · simp [hname, hlong, Nat.not_lt.mp hlong, eq_comm]

namespace Way

variable {way : Way}

theorem IsIn.kindAt?_place (h : way.IsIn t) :
    t.kindAt? way.place = (way.target t).map isFolder := by
  rw [kindAt?, FileTree.nodeAt?, h.get?_place]
  rcases way.target t with _ | (_ | _) <;> rfl

theorem IsIn.map_enter (h : way.IsIn t) :
    place <$> way.enter t name = t.enterAt way.place name := by
  rw [enterAt, h.kindAt?_place, Way.enter]
  rcases way.target t with _ | (bytes | inside)
  · rfl
  · rfl
  · change place <$> (if name = parentName then _ else _) = if name = parentName then _ else _
    split
    · cases way with
      | nil => rfl
      | cons step way => simp [place, Functor.map, Except.map]
    · split
      · rfl
      · simp [place, Functor.map, Except.map]

theorem IsIn.map_enters (h : way.IsIn t) :
    place <$> names.foldlM (Way.enter t) way = names.foldlM t.enterAt way.place := by
  induction names generalizing way with
  | nil => rfl
  | cons name names ih =>
    rw [List.foldlM_cons, List.foldlM_cons, ← h.map_enter]
    cases henter : way.enter t name with
    | error fault => rfl
    | ok way₁ => exact ih (h.enter henter).1

end Way

/-- The names that are entered along a path. -/
def namesFrom (here : Location) (p : Path) : List Text :=
  (if p.root = .relative then here else []) ++ p.names

/-- **A path is followed from location to location.** -/
theorem locate_eq : t.locate here p =
    if byteLength p.text ≥ tooManyBytes then .error .nameTooLong
    else (namesFrom here p).foldlM t.enterAt [] := by
  rw [locate, follow]
  split
  · rfl
  · exact Way.isIn_nil.map_enters

/-- A path leads to a location if it is not too long and all its names can be entered. -/
theorem locate_eq_ok_iff : t.locate here p = .ok l ↔ byteLength p.text < tooManyBytes ∧
    (namesFrom here p).foldlM t.enterAt [] = .ok l := by
  rw [locate_eq]
  split
  · rename_i hlong
    simp [Nat.not_lt.mpr hlong]
  · rename_i hlong
    simp [Nat.lt_of_not_le hlong]

/-- Where a path leads, its names spell. -/
theorem eq_place_of_locate (h : t.locate here p = .ok l) : l = p.place here := by
  obtain ⟨way, hway, rfl⟩ := map_eq_ok_iff.mp h
  exact (isIn_of_follow hway).2

/-- Only a directory has names in it to be entered. -/
theorem kindAt?_of_enters {front : List Text} (hnames : names ≠ [])
    (h : (front ++ names).foldlM t.enterAt l = .ok q) :
    ∃ m, front.foldlM t.enterAt l = .ok m ∧ t.kindAt? m = some true := by
  obtain ⟨m, hm, hrest⟩ := foldlM_append_eq_ok_iff.mp h
  obtain ⟨name, names, rfl⟩ := List.exists_cons_of_ne_nil hnames
  obtain ⟨m', hm', -⟩ := foldlM_cons_eq_ok_iff.mp hrest
  exact ⟨m, hm, (enterAt_eq_ok_iff.mp hm').1⟩

/-- A name that was entered is not too long. -/
theorem byteLength_le_of_enters (h : names.foldlM t.enterAt l = .ok q) :
    ∀ n ∈ names, n = parentName ∨ byteLength n ≤ maxNameBytes := by
  induction names generalizing l with
  | nil => exact List.forall_mem_nil _
  | cons name names ih =>
    obtain ⟨m, hm, hrest⟩ := foldlM_cons_eq_ok_iff.mp h
    refine List.forall_mem_cons.mpr ⟨?_, ih hrest⟩
    exact (enterAt_eq_ok_iff.mp hm).2.imp And.left fun hname => hname.2.1

/-- A path with one more name leads one step further from a directory, if it does so in some tree. -/
theorem locate_join_concat (hl : t.locate here (p.join { names }) = .ok l)
    (hkind : t.kindAt? l = some true) (hname : name ≠ parentName)
    (hu : u.locate here (p.join { names := names ++ [name] }) = .ok q) :
    t.locate here (p.join { names := names ++ [name] }) = .ok (l ++ [name]) := by
  obtain ⟨hshort, henters⟩ := locate_eq_ok_iff.mp hu
  have hnames : namesFrom here (p.join { names := names ++ [name] }) =
      namesFrom here (p.join { names }) ++ [name] := by
    simp [namesFrom, join]
  have hlength := (byteLength_le_of_enters henters name (by simp [hnames])).resolve_left hname
  refine locate_eq_ok_iff.mpr ⟨hshort, ?_⟩
  rw [hnames, foldlM_append_eq_ok_iff]
  refine ⟨l, (locate_eq_ok_iff.mp hl).2, foldlM_cons_eq_ok_iff.mpr ⟨_, ?_, rfl⟩⟩
  exact enterAt_eq_ok_iff.mpr ⟨hkind, .inr ⟨hname, hlength, rfl⟩⟩

/-! ## Using a tree at the location that a path leads to -/

/-- The names that a directory holds, and whether they are those of directories. -/
def entriesOf (inside : Table FileTree) : List (Text × Bool) :=
  inside.map fun e => (e.1, e.2.isFolder)

/-- What the directory at a location holds, if there is one. -/
def entriesAt (t : FileTree) (q : Location) : List (Text × Bool) :=
  match t.get? q with
  | some (directory inside) => entriesOf inside
  | _ => []

theorem read_eq : t.read here p = (do
    match t.nodeAt? (← t.locate here p) with
    | some (some bytes) => pure bytes
    | some none => throw .isDirectory
    | none => throw .missing) := by
  rw [read, locate]
  cases hway : t.follow here p with
  | error fault => rfl
  | ok way =>
    simp only [Functor.map, Except.map, bind, Except.bind]
    rw [nodeAt?, (isIn_of_follow hway).1.get?_place]
    rcases way.target t with _ | (_ | _) <;> rfl

theorem isDirectory_eq : t.isDirectory here p =
    match t.locate here p with
    | .ok l => .ok (t.kindAt? l = some true)
    | .error .nameTooLong => .error .nameTooLong
    | .error _ => .ok false := by
  rw [isDirectory, list, locate]
  cases hway : t.follow here p with
  | error fault => cases fault <;> rfl
  | ok way =>
    simp only [Functor.map, Except.map, bind, Except.bind]
    rw [(isIn_of_follow hway).1.kindAt?_place]
    rcases way.target t with _ | (_ | _) <;> rfl

/-- What is in a directory depends on what its path leads to. -/
theorem list_eq : (t.list here p).map entriesOf = (do
    let l ← t.locate here p
    match t.kindAt? l with
    | some true => pure (t.entriesAt l)
    | some false => throw .notDirectory
    | none => throw .missing) := by
  rw [list, locate]
  cases hway : t.follow here p with
  | error fault => rfl
  | ok way =>
    simp only [Functor.map, Except.map, bind, Except.bind]
    rw [(isIn_of_follow hway).1.kindAt?_place, entriesAt, (isIn_of_follow hway).1.get?_place]
    rcases way.target t with _ | (_ | _) <;> rfl

/-- A file can be written where a path leads to, unless that is a directory. -/
theorem write_eq : (t.write here p bytes).map (fun _ => ()) = (do
    match t.kindAt? (← t.locate here p) with
    | some true => throw FileFault.isDirectory
    | _ => pure ()) := by
  rw [write, locate]
  cases hway : t.follow here p with
  | error fault => rfl
  | ok way =>
    simp only [Functor.map, Except.map, bind, Except.bind]
    rw [(isIn_of_follow hway).1.kindAt?_place]
    rcases way.target t with _ | (_ | _) <;> rfl

/-- A file can be written wherever its path leads to no directory. -/
theorem exists_write (hl : t.locate here p = .ok l) (hkind : t.kindAt? l ≠ some true) :
    ∃ t', t.write here p bytes = .ok t' := by
  have hwrite : (t.write here p bytes).map (fun _ => ()) = _ := write_eq
  rw [hl] at hwrite
  cases hresult : t.write here p bytes with
  | ok t' => exact ⟨t', rfl⟩
  | error fault =>
    simp only [hresult, bind, Except.bind] at hwrite
    cases hwrite

theorem locate_of_write (h : t.write here p bytes = .ok t') :
    t.locate here p = .ok (p.place here) := by
  obtain ⟨way, hway, -⟩ := bind_eq_ok_iff.mp h
  rw [← (isIn_of_follow hway).2]
  exact map_eq_ok_iff.mpr ⟨way, hway, rfl⟩

/-- A directory can be made where a path leads to, if there is nothing. -/
theorem makeDirectory_eq : (t.makeDirectory here p).map (fun _ => ()) = (do
    match t.kindAt? (← t.locate here p) with
    | some _ => throw FileFault.alreadyExists
    | none => pure ()) := by
  rw [makeDirectory, locate]
  cases hway : t.follow here p with
  | error fault => rfl
  | ok way =>
    simp only [Functor.map, Except.map, bind, Except.bind]
    rw [(isIn_of_follow hway).1.kindAt?_place]
    rcases way.target t with _ | (_ | _) <;> rfl

/-! ## Trees with the same kinds -/

section Congr

variable (hkinds : t.kindAt? = u.kindAt?)

include hkinds

/-- Where a path leads depends on the kinds of things only. -/
theorem locate_congr : t.locate here p = u.locate here p := by
  have henter : t.enterAt = u.enterAt := by
    funext l name
    rw [enterAt, enterAt, hkinds]
  rw [locate_eq, locate_eq, henter]

/-- Whether a file can be written depends on the kinds of things only. -/
theorem write_congr {bytes' : List UInt8} :
    (t.write here p bytes).map (fun _ => ()) = (u.write here p bytes').map fun _ => () := by
  rw [write_eq, write_eq, locate_congr hkinds, hkinds]

theorem makeDirectory_congr :
    (t.makeDirectory here p).map (fun _ => ()) = (u.makeDirectory here p).map fun _ => () := by
  rw [makeDirectory_eq, makeDirectory_eq, locate_congr hkinds, hkinds]

/-- Whether a file can be read depends on the kinds of things only. -/
theorem read_congr :
    (t.read here p).map (fun _ => ()) = (u.read here p).map fun _ => () := by
  rw [read_eq, read_eq, locate_congr hkinds]
  cases u.locate here p with
  | error fault => rfl
  | ok l =>
    have hkind := congrFun hkinds l
    rw [kindAt?, kindAt?] at hkind
    simp only [bind, Except.bind]
    revert hkind
    rcases t.nodeAt? l with _ | _ | b <;> rcases u.nodeAt? l with _ | _ | b' <;>
      simp [pure, Except.pure, Except.map]

theorem list_congr : ((t.list here p).map entriesOf).map (fun _ => ()) =
    ((u.list here p).map entriesOf).map fun _ => () := by
  rw [list_eq, list_eq, locate_congr hkinds]
  cases u.locate here p with
  | error fault => rfl
  | ok l =>
    simp only [bind, Except.bind, hkinds]
    rcases u.kindAt? l with _ | _ | _ <;> rfl

end Congr

section Directories

variable (hdirs : ∀ q, t.kindAt? q = some true ↔ u.kindAt? q = some true)

include hdirs

/-- Where names lead to no directory in one tree, they lead to none in the other. -/
theorem enters_cases (names : List Text) (l : Location) :
    names.foldlM t.enterAt l = names.foldlM u.enterAt l ∨
      ∃ f g, f ≠ .nameTooLong ∧ g ≠ .nameTooLong ∧ names.foldlM t.enterAt l = .error f ∧
        names.foldlM u.enterAt l = .error g := by
  have hblocked : ∀ (v : FileTree) m name, v.kindAt? m ≠ some true →
      ∃ f, f ≠ .nameTooLong ∧ v.enterAt m name = .error f := by
    intro v m name hkind
    rw [enterAt]
    rcases hv : v.kindAt? m with _ | _ | _
    · exact ⟨.missing, by simp, rfl⟩
    · exact ⟨.notDirectory, by simp, rfl⟩
    · exact absurd hv hkind
  induction names generalizing l with
  | nil => exact .inl rfl
  | cons name names ih =>
    rw [List.foldlM_cons, List.foldlM_cons]
    by_cases hkind : t.kindAt? l = some true
    · have henter : t.enterAt l name = u.enterAt l name := by
        rw [enterAt, enterAt, hkind, (hdirs l).mp hkind]
      rw [henter]
      cases u.enterAt l name with
      | error fault => exact .inl rfl
      | ok m => exact ih m
    · obtain ⟨f, hf, hfault⟩ := hblocked t l name hkind
      obtain ⟨g, hg, hfault'⟩ := hblocked u l name (mt (hdirs l).mpr hkind)
      exact .inr ⟨f, g, hf, hg, by rw [hfault]; rfl, by rw [hfault']; rfl⟩

/-- Only the directories decide whether a path leads to one. -/
theorem isDirectory_congr : t.isDirectory here p = u.isDirectory here p := by
  rw [isDirectory_eq, isDirectory_eq, locate_eq, locate_eq]
  by_cases hlong : byteLength p.text ≥ tooManyBytes
  · rw [if_pos hlong, if_pos hlong]
  · rw [if_neg hlong, if_neg hlong]
    rcases enters_cases hdirs (namesFrom here p) [] with heq | ⟨f, g, hf, hg, hfault, hfault'⟩
    · rw [heq]
      cases (namesFrom here p).foldlM u.enterAt [] with
      | error fault => cases fault <;> rfl
      | ok l => simp only [hdirs l]
    · rw [hfault, hfault']
      cases f <;> cases g <;> first | rfl | contradiction

end Directories

/-! ## Trees with more in them -/

/-- What stands in the first tree stands in the second: directories as directories, files as files,
with whatever bytes. -/
def Fits (t u : FileTree) : Prop := ∀ q k, t.kindAt? q = some k → u.kindAt? q = some k

instance : IsPreorder FileTree Fits where
  refl _ _ _ := id
  trans _ _ _ h h' q k := h' q k ∘ h q k

theorem Alters.fits {e : Option (List UInt8)} (h : t.Alters t' l e)
    (he : ∀ k, t.kindAt? l = some k → k = e.isNone) : t.Fits t' := by
  intro q k hk
  rw [kindAt?, h.nodeAt?]
  split
  · rename_i hq
    rw [hq] at hk
    exact congrArg some (he k hk).symm
  · exact hk

/-- Writing a file changes nothing into a directory, nor a directory into anything. -/
theorem fits_of_write (h : t.write here p bytes = .ok t') : t.Fits t' := by
  have halters := alters_of_write h
  refine halters.fits fun k hk => ?_
  cases k with
  | false => rfl
  | true => exact absurd (kindAt?_eq_true_iff.mp hk) halters.notDirectory

theorem fits_of_makeDirectory (h : t.makeDirectory here p = .ok t') : t.Fits t' := by
  obtain ⟨halters, hnone⟩ := alters_of_makeDirectory h
  refine halters.fits fun k hk => ?_
  rw [kindAt?_eq_none_iff.mpr hnone] at hk
  cases hk

namespace Fits

variable (h : t.Fits u)

include h

theorem enters (hl : names.foldlM t.enterAt l = .ok q) : names.foldlM u.enterAt l = .ok q := by
  induction names generalizing l with
  | nil => exact hl
  | cons name names ih =>
    obtain ⟨m, hm, hrest⟩ := foldlM_cons_eq_ok_iff.mp hl
    obtain ⟨hkind, hname⟩ := enterAt_eq_ok_iff.mp hm
    exact foldlM_cons_eq_ok_iff.mpr ⟨m, enterAt_eq_ok_iff.mpr ⟨h _ _ hkind, hname⟩, ih hrest⟩

/-- A path still leads where it led. -/
theorem locate (hl : t.locate here p = .ok l) : u.locate here p = .ok l := by
  obtain ⟨hlong, hl⟩ := locate_eq_ok_iff.mp hl
  exact locate_eq_ok_iff.mpr ⟨hlong, h.enters hl⟩

end Fits

/-- What is read are the bytes at the location that the path leads to. -/
theorem read_eq_ok_iff : t.read here p = .ok bytes ↔
    ∃ l, t.locate here p = .ok l ∧ t.bytesAt? l = some bytes := by
  rw [read_eq, bind_eq_ok_iff]
  refine exists_congr fun l => and_congr_right fun _ => ?_
  rw [bytesAt?]
  rcases t.nodeAt? l with _ | _ | b <;> simp [pure, Except.pure, throw, throwThe]

/-- **What was written is read.** -/
theorem read_of_write (h : t.write here p bytes = .ok t') : t'.read here p = .ok bytes := by
  refine read_eq_ok_iff.mpr ⟨_, (fits_of_write h).locate (locate_of_write h), ?_⟩
  rw [bytesAt?_of_write h, if_pos rfl]

theorem Fits.read (h : t.Fits u) (hbytes : ∀ q b, t.bytesAt? q = some b → u.bytesAt? q = some b)
    (hread : t.read here p = .ok bytes) : u.read here p = .ok bytes := by
  obtain ⟨l, hl, hb⟩ := read_eq_ok_iff.mp hread
  exact read_eq_ok_iff.mpr ⟨l, h.locate hl, hbytes l bytes hb⟩

/-- What is listed are the entries at the location that the path leads to. -/
theorem list_eq_ok_iff {entries : List (Text × Bool)} :
    (t.list here p).map entriesOf = .ok entries ↔
      ∃ l, t.locate here p = .ok l ∧ t.kindAt? l = some true ∧ t.entriesAt l = entries := by
  rw [list_eq, bind_eq_ok_iff]
  refine exists_congr fun l => and_congr_right fun _ => ?_
  rcases t.kindAt? l with _ | _ | _ <;> simp [pure, Except.pure, throw, throwThe]

theorem isDirectory_eq_ok_true_iff : t.isDirectory here p = .ok true ↔
    ∃ l, t.locate here p = .ok l ∧ t.kindAt? l = some true := by
  rw [isDirectory_eq]
  cases t.locate here p with
  | error fault => cases fault <;> simp
  | ok l => simp

/-- A tree has the paths of a proper tree with the same kinds. -/
theorem IsProper.of_fits (hu : u.IsProper) (h : t.Fits u) : t.IsProper := by
  intro q hq
  obtain ⟨e, he⟩ := Option.isSome_iff_exists.mp hq
  have hkind : t.kindAt? q = some e.isNone := by rw [kindAt?, he]; rfl
  have hu' := h _ _ hkind
  refine hu q ?_
  rw [kindAt?, Option.map_eq_some_iff] at hu'
  obtain ⟨e', he', -⟩ := hu'
  rw [he']
  rfl

end ZigNif.FileTree
