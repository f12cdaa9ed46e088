import ZigNif.Proofs.Files.Tree
import ZigNif.Proofs.Import.Closure
import ZigNif.Proofs.Source.Scan
import ZigNif.Proofs.Text.Distinct

/-!
# Proofs/Import/Dependency — where an imported file is looked for

The name of an imported file is put behind the working directory, or used as it is; either way the
file is looked for where the import says, seen from the file that holds it.  Only Zig files are
imported, so the last name of the place is that of a Zig file.
-/

namespace ZigNif

namespace Text

/-- The piece that a text ends with goes on if something without a separator is put behind it. -/
theorem exists_splitOn_append {c : Char} {v : Text} (hv : c ∉ v) (u : Text) :
    ∃ front last, splitOn c (u ++ v) = front ++ [last ++ v] := by
  induction u with
  | nil => exact ⟨[], [], splitOn_of_notMem hv⟩
  | cons d u ih =>
    obtain ⟨front, last, hsplit⟩ := ih
    rw [List.cons_append, splitOn, hsplit]
    split
    · exact ⟨[] :: front, last, rfl⟩
    · cases front with
      | nil => exact ⟨[], d :: last, rfl⟩
      | cons p ps => exact ⟨(d :: p) :: ps, last, rfl⟩

end Text

/-- A source imports Zig files only. -/
theorem Source.isZigFile_of_mem_dependencies {text dep : Text} {parsed : Parsed}
    (hparsed : parse text = .ok parsed) (hdep : dep ∈ parsed.dependencies) : isZigFile dep := by
  obtain ⟨nodes, hforest⟩ := exists_forest_of_parse hparsed
  obtain ⟨-, targets, -, hdependencies⟩ := (parse_eq_ok_iff hforest).mp hparsed
  rw [hdependencies] at hdep
  exact (List.mem_filter.mp (Text.mem_distinct.mp hdep)).2

namespace Import

open ZigNif.Path

variable {s : Shelf} {g : Ground} {here : Location}

/-! ## Places -/

theorem head?_readPath (hg : g.IsAbsolute) (name : Text) :
    (g.readPath name).head? = some '/' := by
  have hbase : g.base.head? = some '/' := hg
  rw [Ground.readPath, readPath]
  split
  · assumption
  · split <;> simp [List.head?_append, hbase]

theorem names_ofText_append (u v : Text) :
    (ofText (u ++ '/' :: v)).names = (ofText (u ++ ['/'])).names ++ (ofText v).names := by
  simp [ofText, Text.splitOn_append_cons, Text.splitOn]

theorem place_ofText {t : Text} (ht : t.head? = some '/') :
    (ofText t).place here = (ofText t).names.foldl (push true) [] := by
  rw [FileTree.place_eq_foldl, if_neg (root_ofText_ne_relative ht), List.nil_append]

/-- **An imported file is read from the place that the import names.** -/
theorem place_readPath (hg : g.IsAbsolute) (referrer dep : Text) :
    (ofText (g.readPath (g.name referrer dep))).place here =
      (location (ofText g.base) referrer dep).names := by
  have hclean := isClean_location (g := g) referrer dep
  have hparent := parentName_notMem_location hg referrer dep
  rw [place_ofText (head?_readPath hg _)]
  obtain ⟨rest, hrest, hname⟩ | ⟨hnot, hname⟩ := name_cases hg referrer dep
  · -- the name is what comes behind the directory
    have hrestClean : (⟨.relative, rest⟩ : Path).IsClean := fun n hn =>
      hclean n (hrest ▸ List.mem_append_right _ hn)
    have hrestParent : parentName ∉ rest := fun h =>
      hparent (hrest ▸ List.mem_append_right _ h)
    have hbase : (ofText g.base).root ≠ .relative := root_ofText_ne_relative hg
    obtain ⟨front, hfront, hread⟩ := exists_readPath_eq_append g
    rw [hname, hread _ ⟨_, hrestClean, rfl, rfl⟩, names_ofText_append, hfront,
      ofText_text hrestClean, List.foldl_append, foldl_push_of_notMem hrestParent, hrest]
    simp [normal, hbase]
  · -- the name is the place itself
    have hout : g.IsOutside (g.name referrer dep) :=
      ⟨_, hclean, root_location_ne_relative hg referrer dep, hparent, hnot, hname⟩
    rw [readPath_of_isOutside hout, hname, ofText_text hclean, foldl_push_of_notMem hparent,
      List.nil_append]

theorem exists_names_join (p q : Path) : ∃ front, (p.join q).names = front ++ q.names := by
  rw [join]
  split
  · exact ⟨p.names, rfl⟩
  · exact ⟨[], rfl⟩

/-- A place whose last name is that of a Zig file. -/
def IsZigPlace (l : Location) : Prop :=
  ∃ front last, l = front ++ [last] ∧ (".zig" : Text).isSuffixOf last

theorem isZigPlace_location {base : Path} {referrer dep : Text} (hdep : Source.isZigFile dep) :
    IsZigPlace (location base referrer dep).names := by
  obtain ⟨u, rfl⟩ := List.isSuffixOf_iff_suffix.mp hdep
  obtain ⟨front, last, hsplit⟩ := Text.exists_splitOn_append (c := '/')
    (v := ".zig".toList) (by decide) u
  have hlast : last ++ ".zig".toList ≠ [] ∧ last ++ ".zig".toList ≠ ['.'] ∧
      last ++ ".zig".toList ≠ parentName := by
    refine ⟨?_, ?_, ?_⟩ <;> intro h <;> have hlength := congrArg List.length h <;>
      simp at hlength
  obtain ⟨front', hjoin⟩ := exists_names_join (base.join (directoryOf referrer))
    (ofText (u ++ ".zig".toList))
  have hnames : (ofText (u ++ ".zig".toList)).names =
      front.filter (fun n => n ≠ [] ∧ n ≠ ['.']) ++ [last ++ ".zig".toList] := by
    simp only [ofText, hsplit, List.filter_append]
    have hkept : [last ++ ".zig".toList].filter (fun n => n ≠ [] ∧ n ≠ ['.']) =
        [last ++ ".zig".toList] :=
      List.filter_cons_of_pos (decide_eq_true ⟨hlast.1, hlast.2.1⟩)
    rw [hkept]
  have hlocation : (location base referrer (u ++ ".zig".toList)).names =
      (front' ++ front.filter (fun n => n ≠ [] ∧ n ≠ ['.'])).foldl
        (push (((base.join (directoryOf referrer)).join
          (ofText (u ++ ".zig".toList))).root ≠ .relative)) [] ++ [last ++ ".zig".toList] := by
    rw [location, normal, hjoin, hnames, ← List.append_assoc, List.foldl_append, List.foldl_cons,
      List.foldl_nil, push_of_ne hlast.2.2]
  exact ⟨_, _, hlocation, List.isSuffixOf_iff_suffix.mpr (List.suffix_append _ _)⟩

/-! ## The files that a walk finds -/

/-- **A walk that nothing stops has read all files that it names, and they are Zig files.** -/
theorem exists_read_of_mem_names (hg : g.IsAbsolute) {file text : Text} {parsed : Source.Parsed}
    (hparsed : Source.parse text = .ok parsed) (hstop : (walkFrom s g file parsed).2 = none)
    {n : Text} (hn : n ∈ (walkFrom s g file parsed).1.names) :
    (∃ content, s.read (g.readPath n) = .ok content) ∧
      IsZigPlace ((ofText (g.readPath n)).place here) := by
  obtain ⟨hsound, hrunning⟩ := (running_start (s := s) (g := g) (file, parsed.dependencies)).walk
  have hmem : n ∈ (walkFrom s g file parsed).1.seen := mem_names.mp hn
  have hzig : ∀ {text dep referrer : Text} {parsed : Source.Parsed},
      Source.parse text = .ok parsed → dep ∈ parsed.dependencies →
        IsZigPlace ((ofText (g.readPath (g.name referrer dep))).place here) := by
    intro text dep referrer parsed hparsed hdep
    rw [place_readPath hg]
    exact isZigPlace_location (Source.isZigFile_of_mem_dependencies hparsed hdep)
  refine ⟨?_, ?_⟩
  · obtain ⟨deps, content, -, hread, -⟩ := (hrunning hstop).1.hasImports n hmem
    exact ⟨content, hread⟩
  · refine hsound.mem_closed {n | IsZigPlace ((ofText (g.readPath n)).place here)} ?_ n hmem
    refine ⟨fun dep hdep => hzig hparsed hdep, ?_⟩
    rintro name - deps ⟨text, parsed, -, -, hparsed, rfl⟩ dep hdep
    exact hzig hparsed hdep

end Import

end ZigNif
