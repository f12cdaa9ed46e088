import ZigNif.Proofs.Import.Again
import ZigNif.Proofs.Module
import ZigNif.Proofs.Shelf
import ZigNif.Proofs.Workspace.Again

/-!
# Proofs/Workspace/Imports — reading the code and its imports again

The text of a file that could be read the first time is the same the second time.  That a file could
not be read ends a build, so the second time nothing more is there, and the file cannot be read for
the same reason.  The walk over the imports is built on this.
-/

namespace ZigNif

open ZigNif.Path

namespace FileTree

variable {t : FileTree} {e : FileTree} {q : Location} {inside : Table FileTree} {name : Text}

/-- What a directory holds is among its contents, with its own. -/
theorem mem_contentsOf (h : (name, e) ∈ inside) : ([name], e) ∈ contentsOf inside ∧
    ∀ c ∈ e.contents, (name :: c.1, c.2) ∈ contentsOf inside := by
  induction inside with
  | nil => cases h
  | cons entry inside ih =>
    obtain ⟨m, sub⟩ := entry
    rw [contentsOf]
    rcases List.mem_cons.mp h with heq | h
    · cases heq
      refine ⟨by simp, fun c hc => ?_⟩
      exact List.mem_append_left _ (List.mem_cons_of_mem _ (List.mem_map.mpr ⟨c, hc, rfl⟩))
    · obtain ⟨hself, hcontents⟩ := ih h
      exact ⟨List.mem_append_right _ hself, fun c hc => List.mem_append_right _ (hcontents c hc)⟩

/-- What stands at a location is among the contents. -/
theorem mem_contents (hq : q ≠ []) (h : t.get? q = some e) : (q, e) ∈ t.contents := by
  induction q generalizing t with
  | nil => exact absurd rfl hq
  | cons name q ih =>
    cases t with
    | file bytes => cases h
    | directory inside =>
      obtain ⟨sub, hsub, h⟩ := Option.bind_eq_some_iff.mp h
      obtain ⟨hself, hcontents⟩ := mem_contentsOf (Table.mem_of_get? hsub)
      rw [contents]
      cases q with
      | nil =>
        obtain rfl : sub = e := Option.some.inj h
        exact hself
      | cons m q => exact hcontents _ (ih (List.cons_ne_nil m q) h)

end FileTree

namespace Build

variable {h : Host} {d : Location} {M : Prop} {last t u : FileTree} {w : Workspace} {p : Path}
  {path text : Text}

/-! ## Reading files -/

theorem fileText_of_read_eq (hread : u.read h.here p = t.read h.here p) :
    fileText h u p = fileText h t p := by
  rw [fileText, fileText, hread]

section Fits

variable (hbytes : ∀ q b, t.bytesAt? q = some b → u.bytesAt? q = some b)

include hbytes

theorem fileText_of_fits (hfits : t.Fits u) (hfile : fileText h t p = .ok text) :
    fileText h u p = .ok text := by
  obtain ⟨bytes, hread, -⟩ := exists_read_of_fileText hfile
  rw [fileText_of_read_eq ((hfits.read hbytes hread).trans hread.symm), hfile]

theorem fileText_congr (hkinds : t.kindAt? = u.kindAt?) : fileText h u p = fileText h t p := by
  refine fileText_of_read_eq ?_
  cases hread : t.read h.here p with
  | error fault => exact eq_error_of_map_eq (FileTree.read_congr hkinds) hread
  | ok bytes =>
    have hfits : t.Fits u := fun q k hk => hkinds ▸ hk
    exact hfits.read hbytes hread

end Fits

/-! ## The shelf -/

/-- What is read by a path from the root without `..` is at the location that its names are. -/
theorem place_of_notMem (hroot : p.root ≠ .relative) (hparent : parentName ∉ p.names) :
    p.place h.here = p.names := by
  rw [FileTree.place_eq_foldl, if_neg hroot, List.nil_append, foldl_push_of_notMem hparent,
    List.nil_append]

theorem ofText_text_of_fileText (ht : t.IsProper) (hfile : fileText h t p = .ok text) :
    ofText p.text = p := by
  obtain ⟨bytes, hread, -⟩ := exists_read_of_fileText hfile
  exact ofText_text (ht.isClean_of_read hread)

/-- A text that can be read by a path from a root without `..` is on the shelf. -/
theorem mem_shelf (htop : t.kindAt? [] = some true) (hroot : p.root ≠ .relative)
    (hparent : parentName ∉ p.names) (hfile : fileText h t p = .ok text) :
    (p.text, text) ∈ (shelf h t).files := by
  obtain ⟨bytes, hread, -⟩ := exists_read_of_fileText hfile
  have hget := FileTree.get?_of_read hread
  rw [place_of_notMem hroot hparent] at hget
  have hnames : p.names ≠ [] := by
    intro hnil
    rw [hnil] at hget
    rw [FileTree.kindAt?, FileTree.nodeAt?, hget] at htop
    cases htop
  refine List.mem_filterMap.mpr ⟨p, List.mem_flatMap.mpr
    ⟨_, FileTree.mem_contents hnames hget, ?_⟩, by rw [hfile]; rfl⟩
  obtain ⟨root, names⟩ := p
  cases root with
  | relative => exact absurd rfl hroot
  | slash => exact List.mem_cons_self
  | doubleSlash => exact List.mem_cons_of_mem _ List.mem_cons_self

/-- The shelf of a proper tree has the texts that can be read by paths from a root, if these have no
`..`. -/
theorem read_shelf_eq_ok_iff (ht : t.IsProper) (htop : t.kindAt? [] = some true)
    (hparent : parentName ∉ (ofText path).names) :
    (shelf h t).read path = .ok text ↔ (ofText path).text = path ∧ (ofText path).root ≠ .relative ∧
      fileText h t (ofText path) = .ok text := by
  constructor
  · intro hread
    obtain ⟨p, hroot, rfl, hfile⟩ := exists_fileText_of_read hread
    rw [ofText_text_of_fileText ht hfile]
    exact ⟨rfl, hroot, hfile⟩
  · rintro ⟨hpath, hroot, hfile⟩
    generalize ofText path = p at hparent hpath hroot hfile
    obtain rfl := hpath
    obtain ⟨found, hfound⟩ : ∃ found, (shelf h t).files.get? p.text = some found :=
      Option.ne_none_iff_exists'.mp (mt Table.get?_eq_none_iff.mp
        (not_not.mpr (List.mem_map.mpr ⟨_, mem_shelf htop hroot hparent hfile, rfl⟩)))
    -- no other file is read by the same path
    obtain ⟨p', -, hentry⟩ := List.mem_filterMap.mp (Table.mem_of_get? hfound)
    obtain ⟨text', hfile', hentry⟩ := Option.map_eq_some_iff.mp hentry
    obtain ⟨hpath, rfl⟩ := Prod.mk.inj hentry
    have hfile' := toOption_eq_some_iff.mp hfile'
    rw [← ofText_text_of_fileText ht hfile', hpath, ofText_text_of_fileText ht hfile, hfile]
      at hfile'
    rw [Import.Shelf.read, hfound, Except.ok.inj hfile']

theorem read_shelf_congr (ht : t.IsProper) (hu : u.IsProper) (htop : t.kindAt? [] = some true)
    (hkinds : t.kindAt? = u.kindAt?)
    (hbytes : ∀ q b, t.bytesAt? q = some b → u.bytesAt? q = some b)
    (hparent : parentName ∉ (ofText path).names) :
    (shelf h u).read path = (shelf h t).read path := by
  have hfile : ∀ p, fileText h u p = fileText h t p := fun _ => fileText_congr hbytes hkinds
  have hiff : ∀ text, (shelf h u).read path = .ok text ↔ (shelf h t).read path = .ok text := by
    intro text
    rw [read_shelf_eq_ok_iff hu (hkinds ▸ htop) hparent, read_shelf_eq_ok_iff ht htop hparent,
      hfile]
  have hfault : (shelf h u).fault path = (shelf h t).fault path := by
    simp only [shelf, hfile]
  cases hread : (shelf h t).read path with
  | ok text => exact (hiff text).mpr hread
  | error fault =>
    cases hread' : (shelf h u).read path with
    | ok text =>
      rw [(hiff text).mp hread'] at hread
      cases hread
    | error fault' =>
      rw [Import.Shelf.read] at hread hread'
      split at hread
      · cases hread
      · split at hread'
        · cases hread'
        · rw [← Except.error.inj hread, ← Except.error.inj hread', hfault]

/-! ## Reading the code and its imports -/

theorem runIn_readTextOr {e : Text → BuildError} : (readTextOr e p).runIn h w =
    ((fileText h w.files p).mapError fun failure =>
      ((readFault? failure).map (.build ∘ e)).getD failure, w) := by
  simp only [readTextOr, runIn_bind, runIn_read, runIn_get]
  rcases fileText h w.files p with failure | text
  · rw [mapError_error]
    cases hwhy : readFault? failure <;> simp only [hwhy] <;> rfl
  · rfl

/-- The imports are looked for by paths without `..`, so the walk finds what it found. -/
theorem importWalk_eq {file : Text} {parsed : Source.Parsed} (hhere : ∀ n ∈ h.here, IsProperName n)
    (hu : u.IsProper) (htop : u.kindAt? [] = some true) (hfits : t.Fits u)
    (hbytes : ∀ q b, t.bytesAt? q = some b → u.bytesAt? q = some b)
    (hkinds : (importWalk h t file parsed).2 ≠ none → t.kindAt? = u.kindAt?) :
    importWalk h u file parsed = importWalk h t file parsed := by
  have ht : t.IsProper := hu.of_fits hfits
  have htop' : t.kindAt? [] = some true := by
    have hkind := hfits [] _ FileTree.kindAt?_nil
    rwa [htop, ← FileTree.kindAt?_nil, eq_comm] at hkind
  have hbase : parentName ∉ (ofText (ground h).base).names := by
    have hclean : h.directory.IsClean := fun n hn => (hhere n hn).1
    rw [ground, ofText_text hclean]
    exact fun hmem => (hhere _ hmem).2 rfl
  have hparent : ∀ referrer dep, parentName ∉
      (ofText ((ground h).readPath ((ground h).name referrer dep))).names :=
    fun _ _ => Import.parentName_notMem_readPath rfl hbase
  refine Import.walk_eq rfl (fun referrer dep text hread => ?_) fun hstop referrer dep => ?_
  · rw [read_shelf_eq_ok_iff ht htop' (hparent _ _)] at hread
    rw [read_shelf_eq_ok_iff hu htop (hparent _ _)]
    exact ⟨hread.1, hread.2.1, fileText_of_fits hbytes hfits hread.2.2⟩
  · exact read_shelf_congr ht hu htop' (hkinds hstop) hbytes (hparent _ _)

namespace Replays

theorem readTextOr {e : Text → BuildError} : Replays h d M last (readTextOr e p) w := by
  refine of_look (g := fun t => (fileText h t p).mapError fun failure =>
    ((readFault? failure).map (.build ∘ e)).getD failure) (fun v => ?_) fun u hu hfits herror => ?_
  · rw [runIn_readTextOr]
    exact ⟨rfl, rfl, rfl⟩
  · cases hfile : fileText h w.files p with
    | ok text => rw [fileText_of_fits hu.bytesAt? hfits hfile]
    | error failure =>
      have hkinds : w.files.kindAt? = u.kindAt? := herror _ (by rw [hfile]; rfl)
      rw [fileText_congr hu.bytesAt? hkinds, hfile]

theorem source {o : Options} : Replays h d M last o.source w := by
  unfold Options.source
  split
  · exact .throw
  · exact .readTextOr
  · exact .pure _
  · exact .throw

/-- **The imports are found again as they were.** -/
theorem imports {file : Text} {parsed : Source.Parsed} (hhere : ∀ n ∈ h.here, IsProperName n)
    (hlast : last.IsProper) (htop : last.kindAt? [] = some true) :
    Replays h d M last (imports file parsed) w := by
  refine of_look (g := fun t => (importWalk h t file parsed).2.elim
    (.ok (importWalk h t file parsed).1.names) .error) (fun v => ?_) fun u hu hfits herror => ?_
  · obtain ⟨log, hrun⟩ := runIn_imports (h := h) (w := v) file parsed
    rw [hrun]
    refine ⟨?_, rfl, rfl⟩
    cases (importWalk h v.files file parsed).2 <;> rfl
  · have hproper : u.IsProper := hlast.of_fits fun q k hk => hu.kinds ▸ hk
    have htop' : u.kindAt? [] = some true := by rw [hu.kinds, htop]
    simp only [importWalk_eq hhere hproper htop' hfits hu.bytesAt? fun hstop => by
      obtain ⟨failure, hfailure⟩ := Option.ne_none_iff_exists'.mp hstop
      exact herror failure (by rw [hfailure]; rfl)]

end Replays

end Build

end ZigNif
