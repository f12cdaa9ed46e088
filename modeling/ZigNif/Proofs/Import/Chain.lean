import ZigNif.Proofs.Import.Canonical
import ZigNif.Proofs.Import.Dependency
import ZigNif.Proofs.Text.Blank

/-!
# Proofs/Import/Chain — imports of imported files

The name of an imported file stands for the file when its own imports are resolved.  The pieces of
the directory that the name gives lead to the location of the file without its last name
(`walked_directory_name`), and so do those of the directory that the import gives.  So an import in
the imported file means the location that the importing file would reach by both imports in one.
-/

namespace ZigNif

namespace Import

open ZigNif.Path

variable {g : Ground} {base referrer dep dep' n t u v : Text} {l : Location} {ps : List Text}

/-! ## Directories in texts -/

/-- The directory of a file, as a text: what is in front of the last piece, without the slashes at
its end unless it is nothing else. -/
def directoryText (t : Text) : Text :=
  let front := Text.dropEndWhile (· ≠ '/') t
  if front.all (· = '/') then front else Text.dropEndWhile (· = '/') front

/-- A path behind a directory, both given as texts. -/
def joinedText (directory t : Text) : Text :=
  if t.head? = some '/' then t
  else if directory = [] ∨ directory.getLast? = some '/' then directory ++ t
  else directory ++ '/' :: t

theorem names_append_slash :
    (ofText (u ++ '/' :: v)).names = (ofText u).names ++ (ofText v).names := by
  rw [ofText, Text.splitOn_append_cons, List.filter_append]
  rfl

theorem names_nil : (ofText []).names = [] := rfl

/-- Slashes at the end do not count. -/
theorem names_append_slashes (h : ∀ c ∈ v, c = '/') :
    (ofText (u ++ v)).names = (ofText u).names := by
  induction v using List.reverseRecOn with
  | nil => rw [List.append_nil]
  | append_singleton v c ih =>
    obtain ⟨hv, hc⟩ := List.forall_mem_append.mp h
    obtain rfl := hc c List.mem_cons_self
    rw [← List.append_assoc, names_append_slash, names_nil, List.append_nil, ih hv]

/-- **The text of a directory has the names of the directory.** -/
theorem names_directoryText (t : Text) :
    (ofText (directoryText t)).names = (directoryOf t).names := by
  have hfront : (ofText (directoryText t)).names =
      (ofText (Text.dropEndWhile (· ≠ '/') t)).names := by
    rw [directoryText]
    split
    · rfl
    · obtain ⟨run, heq, hrun, -⟩ :=
        Text.exists_eq_dropEndWhile_append (· = '/') (Text.dropEndWhile (· ≠ '/') t)
      conv_rhs => rw [heq]
      rw [names_append_slashes fun c hc => of_decide_eq_true (hrun c hc)]
  rw [hfront]
  obtain ⟨last, heq, hlast, hslash⟩ := Text.exists_eq_dropEndWhile_append (· ≠ '/') t
  have hlast : '/' ∉ last := fun hmem => of_decide_eq_true (hlast '/' hmem) rfl
  generalize Text.dropEndWhile (· ≠ '/') t = front at heq hslash
  subst heq
  obtain rfl | ⟨front, c, rfl⟩ := List.eq_nil_or_concat front
  · rw [directoryOf, List.nil_append, Text.splitOn_of_notMem hlast]
    rfl
  · rw [List.concat_eq_append] at hslash ⊢
    have hc : c = '/' := by simpa using hslash c (by simp)
    subst hc
    rw [directoryOf, List.append_assoc, List.singleton_append, Text.splitOn_append_cons,
      Text.splitOn_of_notMem hlast, List.dropLast_concat, names_append_slash, names_nil,
      List.append_nil]
    rfl

theorem names_joinedText (ht : t.head? ≠ some '/') :
    (ofText (joinedText u t)).names = (ofText u).names ++ (ofText t).names := by
  rw [joinedText, if_neg ht]
  split
  · next hcases =>
    rcases hcases with rfl | hlast
    · rfl
    · obtain ⟨u, rfl⟩ := List.getLast?_eq_some_iff.mp hlast
      rw [List.append_assoc, List.singleton_append, names_append_slash, names_append_slash,
        names_nil, List.append_nil]
  · exact names_append_slash

theorem prefix_directoryText (t : Text) : directoryText t <+: t := by
  rw [directoryText]
  split
  · exact Text.isPrefix_dropEndWhile _ t
  · exact (Text.isPrefix_dropEndWhile _ _).trans (Text.isPrefix_dropEndWhile _ t)

theorem directoryText_ne_nil (ht : t.head? = some '/') : directoryText t ≠ [] := by
  intro hnil
  obtain ⟨last, heq, hlast, -⟩ := Text.exists_eq_dropEndWhile_append (· ≠ '/') t
  have hfront : Text.dropEndWhile (· ≠ '/') t ≠ [] := by
    intro hfront
    rw [hfront, List.nil_append] at heq
    exact of_decide_eq_true (hlast '/' (heq ▸ List.mem_of_head? ht)) rfl
  rw [directoryText] at hnil
  split at hnil
  · exact hfront hnil
  · next hall =>
    obtain ⟨run, heq, hrun, -⟩ :=
      Text.exists_eq_dropEndWhile_append (· = '/') (Text.dropEndWhile (· ≠ '/') t)
    rw [hnil, List.nil_append] at heq
    exact hall (List.all_eq_true.mpr fun c hc => hrun c (heq ▸ hc))

/-- Only the directory of a path from the root is a path from the root. -/
theorem head?_directoryText : (directoryText t).head? = some '/' ↔ t.head? = some '/' := by
  obtain ⟨rest, heq⟩ := prefix_directoryText t
  constructor
  · intro h
    rw [← heq, List.head?_append, h]
    rfl
  · intro h
    obtain ⟨c, r, hcons⟩ := List.exists_cons_of_ne_nil (directoryText_ne_nil h)
    rw [hcons, List.cons_append] at heq
    rw [← heq] at h
    rw [hcons]
    exact h

theorem head?_joinedText (ht : t.head? ≠ some '/') :
    (joinedText u t).head? = some '/' ↔ u.head? = some '/' := by
  rw [joinedText, if_neg ht]
  cases u with
  | nil => simpa using ht
  | cons c u => split <;> rfl

theorem not_isDoubled_joinedText (ht : ¬ IsDoubled t) (hu : ¬ IsDoubled u) :
    ¬ IsDoubled (joinedText u t) := by
  rw [joinedText]
  split
  · exact ht
  · next hhead =>
    -- two slashes in front are those of the directory, or the one after a bare `/`
    intro hdouble
    cases u with
    | nil => exact ht hdouble
    | cons c u =>
      cases u with
      | nil =>
        split at hdouble
        · obtain ⟨-, r, hr⟩ := List.cons_prefix_cons.mp hdouble
          exact hhead (List.head?_eq_some_iff.mpr ⟨r, hr.symm⟩)
        · next hlast =>
          obtain ⟨rfl, -⟩ := List.cons_prefix_cons.mp hdouble
          exact hlast (.inr rfl)
      | cons d u =>
        refine hu ?_
        split at hdouble
        all_goals
          obtain ⟨rfl, hrest⟩ := List.cons_prefix_cons.mp hdouble
          obtain ⟨rfl, -⟩ := List.cons_prefix_cons.mp hrest
          exact ⟨u, rfl⟩

/-! ## Locations of directories -/

/-- The pieces of the directory that the imports of a file are relative to. -/
def directory (base referrer : Text) : List Text :=
  behind (Text.splitOn '/' base) referrer ++ (Text.splitOn '/' referrer).dropLast

/-- An import leads on from the directory, or from the root. -/
theorem walked_pieces (base referrer t : Text) : walked (pieces base referrer t) =
    (ofText t).names.foldl (push true) (walked (behind (directory base referrer) t)) := by
  rw [pieces, walked_append]
  rfl

theorem walked_concat (hn : IsProperName n) : walked (ps ++ [n]) = walked ps ++ [n] := by
  rw [walked_append, filter_cons_of_isProperName hn, List.filter_nil, List.foldl_cons,
    List.foldl_nil, push_of_ne hn.2]

/-- The last piece of a Zig file's path is a name. -/
theorem exists_splitOn_of_isZigFile (h : Source.isZigFile t) :
    ∃ ps n, Text.splitOn '/' t = ps ++ [n] ∧ IsProperName n := by
  obtain ⟨u, rfl⟩ := List.isSuffixOf_iff_suffix.mp h
  obtain ⟨ps, last, hsplit⟩ :=
    Text.exists_splitOn_append (c := '/') (v := ".zig".toList) (by decide) u
  have hlength : 4 ≤ (last ++ ".zig".toList).length := by simp
  have hslash : '/' ∉ last ++ ".zig".toList :=
    Text.notMem_of_mem_splitOn (hsplit ▸ List.mem_append_right ps List.mem_cons_self)
  generalize last ++ ".zig".toList = n at hsplit hlength hslash
  refine ⟨ps, n, hsplit, ⟨?_, ?_, hslash⟩, ?_⟩
  all_goals
    rintro rfl
    exact absurd hlength (by decide)

/-- The last pieces of a path's text are its names. -/
theorem exists_splitOn_text {p : Path} (hp : p.IsClean) (hne : p.names ≠ []) :
    ∃ front, Text.splitOn '/' p.text = front ++ p.names := by
  have hjoined : Text.splitOn '/' (Text.joined ['/'] p.names) = p.names :=
    Text.splitOn_joined hne fun n hn => (hp n hn).2.2
  obtain ⟨root, names⟩ := p
  cases root with
  | relative =>
    obtain ⟨n, names, rfl⟩ := List.exists_cons_of_ne_nil hne
    exact ⟨[], hjoined⟩
  | slash => exact ⟨[[]], (Text.splitOn_cons_self '/' _).trans (congrArg _ hjoined)⟩
  | doubleSlash =>
    refine ⟨[[], []], ?_⟩
    have htext : (⟨.doubleSlash, names⟩ : Path).text = '/' :: '/' :: Text.joined ['/'] names := rfl
    rw [htext, Text.splitOn_cons_self, Text.splitOn_cons_self, hjoined]
    rfl

theorem not_isDoubled_text {p : Path} (hp : p.IsClean) (hroot : p.root ≠ .doubleSlash) :
    ¬ IsDoubled p.text := by
  obtain ⟨root, names⟩ := p
  cases root with
  | relative =>
    rintro ⟨r, hr⟩
    exact (head?_text_eq_slash_iff hp).mp (hr ▸ rfl) rfl
  | slash =>
    intro hdouble
    obtain ⟨-, r, hr⟩ := List.cons_prefix_cons.mp hdouble
    have hrun := takeWhile_slash_joined hp
    have hjoined : '/' :: r = Text.joined ['/'] names := hr
    rw [← hjoined, List.takeWhile_cons_of_pos (by decide)] at hrun
    cases hrun
  | doubleSlash => exact absurd rfl hroot

/-- The last piece of a file's name is a name, unless the file is the working directory. -/
theorem exists_splitOn_name (hg : g.IsAbsolute) (hbase : ¬ IsDoubled g.base)
    (hreferrer : ¬ IsDoubled referrer) (hdep : ¬ IsDoubled dep) (hl : Means g.base referrer dep l)
    (hne : l ≠ []) (hhere : l ≠ walked (Text.splitOn '/' g.base)) :
    ¬ IsDoubled (g.name referrer dep) ∧
      ∃ ps n, Text.splitOn '/' (g.name referrer dep) = ps ++ [n] ∧ IsProperName n := by
  have htext : ∀ p : Path, p.root ≠ .doubleSlash → p.names ≠ [] →
      (∀ n ∈ p.names, IsProperName n) →
      ¬ IsDoubled p.text ∧ ∃ ps n, Text.splitOn '/' p.text = ps ++ [n] ∧ IsProperName n := by
    intro p hroot hne hp
    have hclean : p.IsClean := fun n hn => (hp n hn).1
    refine ⟨not_isDoubled_text hclean hroot, ?_⟩
    obtain ⟨front, hsplit⟩ := exists_splitOn_text hclean hne
    obtain hnil | ⟨ps, n, hnames⟩ := List.eq_nil_or_concat p.names
    · exact absurd hnil hne
    · rw [List.concat_eq_append] at hnames
      refine ⟨front ++ ps, n, ?_, hp n (hnames ▸ List.mem_append_right ps List.mem_cons_self)⟩
      rw [hsplit, hnames, List.append_assoc]
  rw [name_eq hg hbase hreferrer hdep hl]
  split
  · next hunder =>
    obtain ⟨rest, rfl⟩ := hunder
    rw [List.drop_left]
    refine htext ⟨.relative, rest⟩ (by simp) ?_ fun n hn => hl.2 n (List.mem_append_right _ hn)
    rintro rfl
    exact hhere (List.append_nil _)
  · exact htext ⟨.slash, l⟩ (by simp) hne hl.2

/-- **The directory of a file's name is the location of the file without its last name.** -/
theorem walked_directory_name (hg : g.IsAbsolute) (hbase : ¬ IsDoubled g.base)
    (hreferrer : ¬ IsDoubled referrer) (hdep : ¬ IsDoubled dep) (hl : Means g.base referrer dep l)
    (hne : l ≠ []) (hhere : l ≠ walked (Text.splitOn '/' g.base)) :
    walked (directory g.base (g.name referrer dep)) = l.dropLast := by
  obtain ⟨-, ps, n, hsplit, hn⟩ := exists_splitOn_name hg hbase hreferrer hdep hl hne hhere
  have hleads := (leadsTo_name hg hbase hreferrer hdep hl).eq_walked
  rw [hsplit, ← List.append_assoc, walked_concat hn] at hleads
  rw [directory, hsplit, List.dropLast_concat, hleads, List.dropLast_concat]

/-- A Zig file lies in the directory that its import gives. -/
theorem exists_walked_pieces_eq (base referrer : Text) (hzig : Source.isZigFile dep) : ∃ n,
    walked (pieces base referrer dep) =
      walked (behind (directory base referrer) dep ++ (Text.splitOn '/' dep).dropLast) ++ [n] := by
  obtain ⟨ps, n, hsplit, hn⟩ := exists_splitOn_of_isZigFile hzig
  refine ⟨n, ?_⟩
  rw [hsplit, List.dropLast_concat, ← walked_concat hn, List.append_assoc, ← hsplit]
  rfl

/-- An import from the directory of another import means what both mean in one. -/
theorem walked_pieces_joinedText {inner : Text} (hinner : walked (directory base inner) =
      walked (behind (directory base referrer) dep ++ (Text.splitOn '/' dep).dropLast)) :
    walked (pieces base inner dep') =
      walked (pieces base referrer (joinedText (directoryText dep) dep')) := by
  rw [walked_pieces, walked_pieces]
  by_cases hslash : dep'.head? = some '/'
  · rw [joinedText, if_pos hslash, behind, if_pos hslash, behind, if_pos hslash]
  · have hbehind : behind (directory base referrer) (joinedText (directoryText dep) dep') =
        behind (directory base referrer) dep := by
      simp only [behind, head?_joinedText hslash, head?_directoryText]
    rw [names_joinedText hslash, List.foldl_append, names_directoryText, hbehind, behind,
      if_neg hslash, hinner, walked_append]
    rfl

/-- **Imports of imported files chain.**  An import in an imported file is resolved through the
file's name, and has the same name as the import of both in one, the second behind the directory of
the first, in the file that imports the first; wherever the file between them lies, but for the
working directory itself. -/
theorem name_chain (hg : g.IsAbsolute) (hbase : ¬ IsDoubled g.base)
    (hreferrer : ¬ IsDoubled referrer) (hdep : ¬ IsDoubled dep) (hdep' : ¬ IsDoubled dep')
    (hzig : Source.isZigFile dep)
    (hhere : ¬ ∃ l, LeadsTo (Text.splitOn '/' g.base) l ∧ Means g.base referrer dep l) :
    g.name (g.name referrer dep) dep' = g.name referrer (joinedText (directoryText dep) dep') := by
  have hmeans : Means g.base referrer dep (walked (pieces g.base referrer dep)) := means_iff.mpr rfl
  obtain ⟨n, hlast⟩ := exists_walked_pieces_eq g.base referrer hzig
  have hne : walked (pieces g.base referrer dep) ≠ [] := by
    rw [hlast]
    exact List.concat_ne_nil _ _
  have hoff : walked (pieces g.base referrer dep) ≠ walked (Text.splitOn '/' g.base) := by
    intro heq
    exact hhere ⟨_, (leadsTo_iff fun _ => Text.notMem_of_mem_splitOn).mpr rfl, heq ▸ hmeans⟩
  have hname := (exists_splitOn_name hg hbase hreferrer hdep hmeans hne hoff).1
  have hdirectory := walked_directory_name hg hbase hreferrer hdep hmeans hne hoff
  rw [hlast, List.dropLast_concat] at hdirectory
  have hjoined : ¬ IsDoubled (joinedText (directoryText dep) dep') :=
    not_isDoubled_joinedText hdep' fun hdouble =>
      hdep (hdouble.trans (prefix_directoryText dep))
  rw [name_eq hg hbase hname hdep' (means_iff.mpr rfl),
    name_eq hg hbase hreferrer hjoined (means_iff.mpr rfl), walked_pieces_joinedText hdirectory]

/-- The file in between lies outside of the working directory, and imports a file inside. -/
theorem name_chain_outside :
    (ringGround.IsAbsolute ∧ ¬ IsDoubled ringGround.base ∧ ¬ IsDoubled "src/n.ex" ∧
      ¬ IsDoubled "../../lib/a.zig" ∧ ¬ IsDoubled "../w/b.zig" ∧
      Source.isZigFile "../../lib/a.zig" ∧ ¬ ∃ l, LeadsTo (Text.splitOn '/' ringGround.base) l ∧
        Means ringGround.base "src/n.ex" "../../lib/a.zig" l) ∧
    ringGround.name "src/n.ex" "../../lib/a.zig" = "/lib/a.zig".toList ∧
    ringGround.name "/lib/a.zig" "../w/b.zig" =
      ringGround.name "src/n.ex" "../../lib/../w/b.zig" := by
  have hg : ringGround.IsAbsolute := rfl
  have hbase : ¬ IsDoubled ringGround.base := by decide
  have hreferrer : ¬ IsDoubled "src/n.ex" := by decide
  have hdep : ¬ IsDoubled "../../lib/a.zig" := by decide
  have hdep' : ¬ IsDoubled "../w/b.zig" := by decide
  have hzig : Source.isZigFile "../../lib/a.zig" := by decide
  have hhere : ¬ ∃ l, LeadsTo (Text.splitOn '/' ringGround.base) l ∧
      Means ringGround.base "src/n.ex" "../../lib/a.zig" l := by
    rintro ⟨l, hl, hmeans⟩
    have hoff : walked (pieces ringGround.base "src/n.ex" "../../lib/a.zig") ≠
        walked (Text.splitOn '/' ringGround.base) := by decide
    rw [leadsTo_iff fun _ => Text.notMem_of_mem_splitOn] at hl
    exact hoff ((means_iff.mp hmeans).symm.trans hl)
  have hname : ringGround.name "src/n.ex" "../../lib/a.zig" = "/lib/a.zig".toList := by
    decide +kernel
  have hjoined : joinedText (directoryText "../../lib/a.zig") "../w/b.zig" =
      "../../lib/../w/b.zig".toList := by decide
  refine ⟨⟨hg, hbase, hreferrer, hdep, hdep', hzig, hhere⟩, hname, ?_⟩
  have hchain := name_chain hg hbase hreferrer hdep hdep' hzig hhere
  rwa [hname, hjoined] at hchain

end Import

end ZigNif
