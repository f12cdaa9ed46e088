import ZigNif.Import.Closure
import ZigNif.Proofs.Path

/-!
# Proofs/Import/Location — an imported file is read by a path of its own

Below an absolute directory, the name of an imported file is the text of a relative path if the file
lies there, and else the text of a path that starts at a root, has no `..`, and does not go through
the directory.  So a name that is put behind the directory never meets a name that is used as it is,
and two files are read by one path only if they have one name.
-/

namespace ZigNif.Import

open ZigNif.Path

variable {g : Ground}

/-- The directory that names are relative to starts at a root. -/
def Ground.IsAbsolute (g : Ground) : Prop := g.base.head? = some '/'

/-- A name that an import can have. -/
def Ground.IsFileName (g : Ground) (name : Text) : Prop :=
  ∃ referrer dep, name = g.name referrer dep

theorem ofSlashes_ne_relative : ∀ {n : Nat}, n ≠ 0 → Root.ofSlashes n ≠ .relative
  | 0, h => absurd rfl h
  | 1, _ => nofun
  | 2, _ => nofun
  | _ + 3, _ => nofun

theorem root_ofText_ne_relative {t : Text} (h : t.head? = some '/') :
    (ofText t).root ≠ .relative := by
  obtain ⟨r, rfl⟩ := List.head?_eq_some_iff.mp h
  exact ofSlashes_ne_relative (by simp)

theorem root_join_ne_relative {p : Path} (h : p.root ≠ .relative) (q : Path) :
    (p.join q).root ≠ .relative := by
  rw [join]
  split
  · exact h
  · assumption

theorem join_of_ne_relative (p : Path) {q : Path} (h : q.root ≠ .relative) : p.join q = q := by
  rw [join, if_neg h]

/-! ## The two kinds of names -/

/-- The name of a file below the directory: a relative path. -/
def IsInside (name : Text) : Prop := ∃ q : Path, q.IsClean ∧ q.root = .relative ∧ name = q.text

/-- The name of a file elsewhere: a path from a root that does not go through the directory. -/
def Ground.IsOutside (g : Ground) (name : Text) : Prop :=
  ∃ p : Path, p.IsClean ∧ p.root ≠ .relative ∧ parentName ∉ p.names ∧
    ¬ (ofText g.base).normal.names <+: p.names ∧ name = p.text

theorem isClean_location (referrer dep : Text) :
    (location (ofText g.base) referrer dep).IsClean :=
  isClean_normal (isClean_join (isClean_join (isClean_ofText _) (isClean_directoryOf _))
    (isClean_ofText _))

theorem root_location_ne_relative (hg : g.IsAbsolute) (referrer dep : Text) :
    (location (ofText g.base) referrer dep).root ≠ .relative :=
  root_join_ne_relative (root_join_ne_relative (root_ofText_ne_relative hg) _) _

theorem parentName_notMem_location (hg : g.IsAbsolute) (referrer dep : Text) :
    parentName ∉ (location (ofText g.base) referrer dep).names :=
  parentName_notMem_normal
    (root_join_ne_relative (root_join_ne_relative (root_ofText_ne_relative hg) _) _)

/-- A name is what comes behind the directory on the way to the file, or the whole way. -/
theorem name_cases (hg : g.IsAbsolute) (referrer dep : Text) :
    (∃ rest, (location (ofText g.base) referrer dep).names =
        (ofText g.base).normal.names ++ rest ∧
      g.name referrer dep = (⟨.relative, rest⟩ : Path).text) ∨
    ¬ (ofText g.base).normal.names <+: (location (ofText g.base) referrer dep).names ∧
      g.name referrer dep = (location (ofText g.base) referrer dep).text := by
  rw [Ground.name, name, join_of_ne_relative _ (root_ofText_ne_relative hg),
    join_of_ne_relative _ (root_location_ne_relative hg referrer dep),
    normal_of_notMem (parentName_notMem_location hg referrer dep), under?]
  generalize location (ofText g.base) referrer dep = place
  by_cases hunder : (ofText g.base).normal.names.isPrefixOf place.names
  · obtain ⟨rest, hrest⟩ := List.isPrefixOf_iff_prefix.mp hunder
    have hdrop : place.names.drop (ofText g.base).normal.names.length = rest := by
      rw [← hrest, List.drop_left]
    simp only [hunder, if_true, hdrop]
    exact .inl ⟨rest, hrest.symm, rfl⟩
  · simp only [hunder]
    exact .inr ⟨mt List.isPrefixOf_iff_prefix.mpr hunder, rfl⟩

/-- **A name lies inside or outside.** -/
theorem isInside_or_isOutside (hg : g.IsAbsolute) (referrer dep : Text) :
    IsInside (g.name referrer dep) ∨ g.IsOutside (g.name referrer dep) := by
  have hclean := isClean_location (g := g) referrer dep
  obtain ⟨rest, hrest, hname⟩ | ⟨hnot, hname⟩ := name_cases hg referrer dep
  · have hinside : (⟨.relative, rest⟩ : Path).IsClean := fun n hn =>
      hclean n (hrest ▸ List.mem_append_right _ hn)
    exact Or.inl ⟨_, hinside, rfl, hname⟩
  · exact Or.inr ⟨_, hclean, root_location_ne_relative hg referrer dep,
      parentName_notMem_location hg referrer dep, hnot, hname⟩

theorem isInside_or_isOutside_of_isFileName (hg : g.IsAbsolute) {name : Text}
    (h : g.IsFileName name) : IsInside name ∨ g.IsOutside name := by
  obtain ⟨referrer, dep, rfl⟩ := h
  exact isInside_or_isOutside hg referrer dep

/-! ## The paths of the two kinds -/

theorem readPath_of_isOutside {name : Text} (h : g.IsOutside name) : g.readPath name = name := by
  obtain ⟨p, hp, hroot, -, -, rfl⟩ := h
  rw [Ground.readPath, readPath, if_pos ((head?_text_eq_slash_iff hp).mpr hroot)]

/-- A name inside is put behind the directory and a slash. -/
theorem exists_readPath_eq_append (g : Ground) :
    ∃ front : Text, (ofText (front ++ ['/'])).names = (ofText g.base).names ∧
      ∀ name, IsInside name → g.readPath name = front ++ '/' :: name := by
  have hinside : ∀ name, IsInside name → ¬ name.head? = some '/' := by
    rintro _ ⟨q, hq, hroot, rfl⟩ hhead
    exact (head?_text_eq_slash_iff hq).mp hhead hroot
  by_cases hlast : g.base.getLast? = some '/'
  · obtain ⟨front, hfront⟩ := List.getLast?_eq_some_iff.mp hlast
    refine ⟨front, by rw [hfront], fun name hname => ?_⟩
    rw [Ground.readPath, readPath, if_neg (hinside name hname), if_pos hlast, hfront,
      List.append_assoc, List.singleton_append]
  · refine ⟨g.base, ?_, fun name hname => ?_⟩
    · simp only [ofText, Text.splitOn_append_cons, List.filter_append]
      simp [Text.splitOn]
    · rw [Ground.readPath, readPath, if_neg (hinside name hname), if_neg hlast, slash_toList,
        List.append_assoc, List.singleton_append]

/-- **The two kinds of names are read by different paths.** -/
theorem readPath_ne_of_isInside_of_isOutside {name other : Text} (hin : IsInside name)
    (hout : g.IsOutside other) : g.readPath name ≠ g.readPath other := by
  obtain ⟨front, hfront, hread⟩ := exists_readPath_eq_append g
  intro heq
  rw [readPath_of_isOutside hout, hread name hin] at heq
  obtain ⟨q, hq, -, rfl⟩ := hin
  obtain ⟨p, hp, -, hparent, hunder, rfl⟩ := hout
  -- the outside path would start with the names of the directory itself
  have hnames : p.names = (ofText g.base).names ++ q.names := by
    calc p.names = (ofText p.text).names := by rw [ofText_text hp]
      _ = (ofText (front ++ ['/'])).names ++ (ofText q.text).names := by
        rw [← heq]
        simp [ofText, Text.splitOn_append_cons, Text.splitOn]
      _ = (ofText g.base).names ++ q.names := by rw [hfront, ofText_text hq]
  have hbase : parentName ∉ (ofText g.base).names := fun h =>
    hparent (hnames ▸ List.mem_append_left _ h)
  rw [normal_of_notMem hbase] at hunder
  exact hunder ⟨q.names, hnames.symm⟩

/-- **A file is read by a path of its own.** -/
theorem readPath_inj (hg : g.IsAbsolute) {name other : Text} (hname : g.IsFileName name)
    (hother : g.IsFileName other) (h : g.readPath name = g.readPath other) : name = other := by
  obtain ⟨front, -, hread⟩ := exists_readPath_eq_append g
  rcases isInside_or_isOutside_of_isFileName hg hname with hin | hout
  · rcases isInside_or_isOutside_of_isFileName hg hother with hin' | hout'
    · rw [hread name hin, hread other hin'] at h
      exact (List.cons.inj (List.append_cancel_left h)).2
    · exact absurd h (readPath_ne_of_isInside_of_isOutside hin hout')
  · rcases isInside_or_isOutside_of_isFileName hg hother with hin' | hout'
    · exact absurd h.symm (readPath_ne_of_isInside_of_isOutside hin' hout)
    · rwa [readPath_of_isOutside hout, readPath_of_isOutside hout'] at h

end ZigNif.Import
