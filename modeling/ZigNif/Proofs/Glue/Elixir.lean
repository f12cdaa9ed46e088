import ZigNif.Glue.Elixir
import ZigNif.Proofs.Glue.Blocks
import ZigNif.Proofs.Glue.Term
import ZigNif.Proofs.Text.Blank
import ZigNif.Proofs.Text.Rows

/-!
# Proofs/Glue/Elixir — documentation in Elixir modules

Taking the documentation out of a rendered module gives the module without documentation and the
docs of the nifs, line by line, exactly if the module is sealed (`IsSealed`): no doc has a line that
closes it, and names do not bring opening lines of their own into the code.  Names on one line never
do that, so then only the lines of the docs count.
-/

namespace ZigNif.Glue.Elixir

variable {f : Finished} {n : Nif} {ns : List Nif} {l doc : Text} {c rest : List Text}

/-- The nif without documentation. -/
def bare (n : Nif) : Nif := { n with doc := none }

/-- The module without documentation. -/
def undocumented (f : Finished) : Finished := { f with nifs := f.nifs.map bare }

/-- The documentation of the nifs that have any, line by line and without white space at the ends
of lines. -/
def docs (f : Finished) : List (List Text) :=
  (f.nifs.filterMap Nif.doc).map fun doc => (Text.lines doc).map Text.trimEnd

/-- A line two spaces deep; there is nothing in front of an empty one. -/
def indented (l : Text) : Text := if l = [] then [] else "  " ++ l

/-- The names that are written into the module as they are. -/
def names (f : Finished) : List Text :=
  f.name :: f.attributes.map Prod.fst ++ f.nifs.map Nif.name

/-- The documentation of the module is apart from its code. -/
structure IsSealed (f : Finished) : Prop where
  /-- No line of documentation is a closing line. -/
  unclosed : ∀ doc ∈ docs f, ("\"\"\"" : Text) ∉ doc
  /-- No line in front of a documented nif is an opening line. -/
  unopened : ∀ before n after, f.nifs = before ++ n :: after → n.doc ≠ none →
    docOpening ∉ Text.lines (render (undocumented { f with nifs := before }))
  /-- The module without documentation has no block of documentation. -/
  undocumented : (extract (Text.lines (render (undocumented f)))).blocks = []

/-! ## The lines of a module -/

/-- The rows in front of the nifs. -/
def header (f : Finished) : List Text :=
  ["defmodule " ++ f.name ++ " do"] ++
  f.attributes.map (fun a => "  @" ++ a.1 ++ " " ++ term style a.2) ++
  (Text.sorted f.dependencies).map (fun d => "  @external_resource " ++ Json.writeString d) ++
  ([ "  @on_load :__load_nifs__",
    "",
    "  def __load_nifs__ do",
    "    :erlang.load_nif(~c" ++ Json.writeString (loadPath f) ++ ", 0)",
    "  end"] : List Text)

/-- The row that defines a nif. -/
def definition (n : Nif) : Text :=
  "  def " ++ n.name ++ "(" ++ Text.joined ", " (parameters n) ++
    "), do: :erlang.nif_error(:nif_not_loaded)"

/-- The lines inside the block of a doc. -/
def body (doc : Text) : List Text := ((Text.lines doc).map Text.trimEnd).map indented

theorem lines_eq (f : Finished) :
    lines f = header f ++ f.nifs.flatMap nifLines ++ [("end" : Text)] := rfl

theorem lines_render (f : Finished) : Text.lines (render f) =
    (header f).flatMap Text.cut ++
      ((f.nifs.flatMap nifLines).flatMap Text.cut ++ [("end" : Text)]) := by
  have hrender : Text.lines (render f) = (lines f).flatMap Text.cut :=
    Text.lines_unlines_append_newline (List.cons_ne_nil _ _)
  rw [hrender, lines_eq, List.flatMap_append, List.flatMap_append, List.append_assoc]
  rfl

/-- White space at the end of an indented line is white space at the end of the line. -/
theorem trimEnd_indent (l : Text) : Text.trimEnd ("  " ++ l) = indented (Text.trimEnd l) := by
  rw [Text.trimEnd, Text.dropEndWhile_append, indented]
  rfl

theorem isOneLine_of_mem_body (h : l ∈ body doc) : Text.IsOneLine l := by
  obtain ⟨_, hmem, rfl⟩ := List.mem_map.mp h
  obtain ⟨row, hrow, rfl⟩ := List.mem_map.mp hmem
  have htrim : Text.IsOneLine (Text.trimEnd row) :=
    Text.isOneLine_of_subset (Text.isOneLine_of_mem_lines hrow)
      (Text.isPrefix_dropEndWhile _ _).subset
  rw [indented]
  split
  case isTrue => exact nofun
  case isFalse => exact Text.isOneLine_append.mpr ⟨by decide, htrim⟩

theorem nifLines_eq (n : Nif) : nifLines n = [] :: (docLines n ++ [definition n]) := rfl

theorem docLines_of_none (h : n.doc = none) : docLines n = [] := by
  unfold docLines
  rw [h]

theorem docLines_of_some (h : n.doc = some doc) :
    docLines n = docOpening :: (body doc ++ [docClosing]) := by
  have hbody : (Text.lines doc).map (fun l => Text.trimEnd ("  " ++ l)) = body doc := by
    rw [body, List.map_map]
    exact List.map_congr_left fun l _ => trimEnd_indent l
  unfold docLines
  rw [h, ← hbody]
  rfl

/-- The lines of documentation are lines of the file. -/
theorem cut_docLines (n : Nif) : (docLines n).flatMap Text.cut = docLines n := by
  refine Text.flatMap_cut_of_isOneLine fun l hl => ?_
  cases hdoc : n.doc with
  | none =>
    rw [docLines_of_none hdoc] at hl
    cases hl
  | some doc =>
    rw [docLines_of_some hdoc, List.mem_cons, List.mem_append, List.mem_singleton] at hl
    rcases hl with rfl | hl | rfl
    · decide
    · exact isOneLine_of_mem_body hl
    · decide

theorem cut_nifLines (n : Nif) :
    (nifLines n).flatMap Text.cut = [] :: (docLines n ++ Text.cut (definition n)) := by
  rw [nifLines_eq, List.flatMap_cons, List.flatMap_append, cut_docLines, List.flatMap_singleton]
  rfl

theorem cut_nifLines_bare (n : Nif) :
    (nifLines (bare n)).flatMap Text.cut = [] :: Text.cut (definition n) := by
  rw [cut_nifLines, docLines_of_none rfl]
  rfl

/-- The lines of nifs without documentation. -/
def bareLines (ns : List Nif) : List Text := ((ns.map bare).flatMap nifLines).flatMap Text.cut

theorem bareLines_cons (n : Nif) (ns : List Nif) :
    bareLines (n :: ns) = [] :: (Text.cut (definition n) ++ bareLines ns) := by
  rw [bareLines, List.map_cons, List.flatMap_cons, List.flatMap_append, cut_nifLines_bare]
  rfl

/-- The first of a list is what some place of it holds, or it is in front of that place. -/
theorem forall_split_cons_iff {α : Type} {P : List α → α → Prop} {a : α} {as : List α} :
    (∀ before b after, a :: as = before ++ b :: after → P before b) ↔
      P [] a ∧ ∀ before b after, as = before ++ b :: after → P (a :: before) b := by
  constructor
  · exact fun h => ⟨h [] a as rfl, fun before b after hsplit =>
      h (a :: before) b after (congrArg (a :: ·) hsplit)⟩
  · rintro ⟨hfirst, hrest⟩ before b after hsplit
    cases before with
    | nil =>
      obtain ⟨rfl, -⟩ := List.cons.inj hsplit
      exact hfirst
    | cons d before =>
      obtain ⟨rfl, htail⟩ := List.cons.inj hsplit
      exact hrest before b after htail

/-- **The nifs are pieces of code with a block of documentation behind each.** -/
theorem exists_pieces (c rest : List Text) (ns : List Nif) : ∃ ps z,
    c ++ ((ns.flatMap nifLines).flatMap Text.cut ++ rest) = assemble ps z ∧
    c ++ (bareLines ns ++ rest) = ps.flatMap Prod.fst ++ z ∧
    ps.map Prod.snd = (ns.filterMap Nif.doc).map body ∧
    ((∀ p ∈ ps, docOpening ∉ p.1) ↔ ∀ before n after, ns = before ++ n :: after →
      n.doc ≠ none → docOpening ∉ c ++ bareLines before) := by
  induction ns generalizing c with
  | nil => exact ⟨[], c ++ rest, rfl, rfl, rfl, fun _ before n after h => by simp at h, nofun⟩
  | cons n ns ih =>
    rw [List.flatMap_cons, List.flatMap_append, cut_nifLines, forall_split_cons_iff]
    simp only [bareLines_cons]
    cases hdoc : n.doc with
    | none =>
      obtain ⟨ps, z, hlines, hcode, hblocks, hopening⟩ := ih (c ++ [] :: Text.cut (definition n))
      refine ⟨ps, z, ?_, ?_, ?_, ?_⟩
      · rw [docLines_of_none hdoc, ← hlines]
        simp
      · rw [← hcode]
        simp
      · rw [hblocks, List.filterMap_cons_none hdoc]
      · rw [hopening]
        simp only [ne_eq, not_true_eq_false, false_imp_iff, true_and, List.append_assoc,
          List.cons_append]
    | some doc =>
      obtain ⟨ps, z, hlines, hcode, hblocks, hopening⟩ := ih (Text.cut (definition n))
      refine ⟨(c ++ [[]], body doc) :: ps, z, ?_, ?_, ?_, ?_⟩
      · rw [docLines_of_some hdoc, assemble, ← hlines]
        simp
      · rw [List.flatMap_cons, List.append_assoc, ← hcode]
        simp
      · rw [List.map_cons, hblocks, List.filterMap_cons_some hdoc, List.map_cons]
      · have hne : docOpening ≠ [] := List.cons_ne_nil _ _
        have hfirst : docOpening ∉ c ++ [[]] ↔
            (some doc ≠ none → docOpening ∉ c ++ bareLines []) := by
          simp [bareLines, hne]
        rw [List.forall_mem_cons, hopening, hfirst]
        refine and_congr_right fun hc => ?_
        have hfront : docOpening ∉ c := by simpa [bareLines] using hc
        have hbehind : ∀ t : List Text, docOpening ∉ c ++ [] :: t ↔ docOpening ∉ t := by
          simp [hfront, hne]
        simp only [hbehind]

theorem lines_render_undocumented (f : Finished) : Text.lines (render (undocumented f)) =
    (header f).flatMap Text.cut ++ (bareLines f.nifs ++ [("end" : Text)]) :=
  lines_render (undocumented f)

theorem blocks_eq (f : Finished) :
    (docs f).map (fun doc => doc.map indented) = (f.nifs.filterMap Nif.doc).map body := by
  rw [docs, List.map_map]
  rfl

theorem indented_eq_docClosing_iff : indented l = docClosing ↔ l = "\"\"\"" := by
  rw [indented]
  split
  case isTrue h => exact iff_of_false nofun (by rw [h]; exact nofun)
  case isFalse => exact List.append_cancel_left_eq "  ".toList l _ ▸ Iff.rfl

theorem docClosing_mem_iff {doc : List Text} :
    docClosing ∈ doc.map indented ↔ ("\"\"\"" : Text) ∈ doc := by
  simp only [List.mem_map, indented_eq_docClosing_iff, exists_eq_right]

/-- Outside of documentation, the last line opens none. -/
theorem docOpening_notMem_render_iff (f : Finished) :
    docOpening ∉ Text.lines (render (undocumented f)) ↔
      docOpening ∉ (header f).flatMap Text.cut ++ bareLines f.nifs := by
  have hend : docOpening ≠ "end" := by decide
  rw [lines_render_undocumented, ← List.append_assoc, List.mem_append, not_or,
    List.mem_singleton, and_iff_left hend]

/-- What is extracted from a module is what it was put together from if it is sealed, and only
then. -/
theorem extract_render_eq_iff (f : Finished) : extract (Text.lines (render f)) =
    ⟨Text.lines (render (undocumented f)), (docs f).map fun doc => doc.map indented⟩ ↔
      IsSealed f := by
  obtain ⟨ps, z, hlines, hcode, hblocks, hopening⟩ :=
    exists_pieces ((header f).flatMap Text.cut) [("end" : Text)] f.nifs
  have hunopened : (∀ p ∈ ps, docOpening ∉ p.1) ↔ ∀ before n after, f.nifs = before ++ n :: after →
      n.doc ≠ none → docOpening ∉ Text.lines (render (undocumented { f with nifs := before })) := by
    simp only [docOpening_notMem_render_iff]
    exact hopening
  have hunclosed : (∀ p ∈ ps, docClosing ∉ p.2) ↔ ∀ doc ∈ docs f, ("\"\"\"" : Text) ∉ doc := by
    simp only [← docClosing_mem_iff]
    rw [← List.forall_mem_map (P := fun b => docClosing ∉ b), hblocks, ← blocks_eq,
      List.forall_mem_map]
  have hrest : (∀ p ∈ ps, docOpening ∉ p.1) →
      (extract (Text.lines (render (undocumented f)))).blocks = (extract z).blocks := by
    intro h
    have hcode' : docOpening ∉ ps.flatMap Prod.fst := by
      simpa only [List.mem_flatMap, not_exists, not_and] using h
    rw [lines_render_undocumented, hcode, extract_append hcode']
  rw [lines_render, hlines, lines_render_undocumented, hcode, blocks_eq, ← hblocks,
    extract_assemble_eq_iff]
  constructor
  · rintro ⟨hps, hz⟩
    have hopen : ∀ p ∈ ps, docOpening ∉ p.1 := fun p hp => (hps p hp).1
    exact ⟨hunclosed.mp fun p hp => (hps p hp).2, hunopened.mp hopen, (hrest hopen).trans hz⟩
  · rintro ⟨hclosed, hopened, hnone⟩
    have hopen : ∀ p ∈ ps, docOpening ∉ p.1 := hunopened.mpr hopened
    exact ⟨fun p hp => ⟨hopen p hp, hunclosed.mpr hclosed p hp⟩, (hrest hopen).symm.trans hnone⟩

/-! ## Names on one line -/

/-- An attribute is no opening line: a string that is a term ends with the quote it starts with. -/
theorem attribute_ne (key : Text) (v : Json) :
    "  @" ++ key ++ " " ++ term style v ≠ docOpening := by
  intro h
  have hterm : term style v ≠ "\"\"\"" := term_ne (by decide) ⟨'%', rfl, by decide⟩ v
  have hkey : key ++ ' ' :: term style v = ['d', 'o', 'c', ' ', '"', '"', '"'] := by
    have hopening : docOpening = "  @".toList ++ ['d', 'o', 'c', ' ', '"', '"', '"'] := rfl
    simp only [hopening, List.append_assoc] at h
    exact List.append_cancel_left h
  -- the only space of the line is the one behind the key
  rcases key with _ | ⟨c₁, _ | ⟨c₂, _ | ⟨c₃, _ | ⟨c₄, key⟩⟩⟩⟩
  · exact absurd (List.cons.inj hkey).1 (by decide)
  · simp at hkey
  · simp at hkey
  · simp only [List.cons_append, List.nil_append, List.cons.injEq, true_and] at hkey
    exact hterm hkey.2.2.2
  · simp only [List.cons_append, List.cons.injEq] at hkey
    have hspace : ' ' ∈ key ++ ' ' :: term style v := List.mem_append_right _ List.mem_cons_self
    rw [hkey.2.2.2.2] at hspace
    exact absurd hspace (by decide)

theorem isOneLine_header (h : ∀ name ∈ names f, Text.IsOneLine name) :
    ∀ row ∈ header f, Text.IsOneLine row ∧ row ≠ docOpening := by
  have hname : Text.IsOneLine f.name := h f.name (List.mem_append_left _ List.mem_cons_self)
  have hkeys : ∀ a ∈ f.attributes, Text.IsOneLine a.1 := fun a ha =>
    h a.1 (List.mem_append_left _ (List.mem_cons_of_mem _ (List.mem_map_of_mem ha)))
  intro row hrow
  simp only [header, List.mem_append, List.mem_singleton, List.mem_map] at hrow
  rcases hrow with ((rfl | ⟨a, ha, rfl⟩) | ⟨d, -, rfl⟩) | hrow
  · refine ⟨?_, nofun⟩
    exact Text.isOneLine_append.mpr ⟨Text.isOneLine_append.mpr ⟨by decide, hname⟩, by decide⟩
  · refine ⟨?_, attribute_ne a.1 a.2⟩
    have hterm : Text.IsOneLine (term style a.2) := isOneLine_term (by decide) (by decide) a.2
    exact Text.isOneLine_append.mpr ⟨Text.isOneLine_append.mpr ⟨Text.isOneLine_append.mpr
      ⟨by decide, hkeys a ha⟩, by decide⟩, hterm⟩
  · refine ⟨?_, nofun⟩
    exact Text.isOneLine_append.mpr ⟨by decide, Json.isOneLine_writeString d⟩
  · simp only [List.mem_cons, List.not_mem_nil, or_false] at hrow
    rcases hrow with rfl | rfl | rfl | rfl | rfl
    · exact ⟨by decide, nofun⟩
    · exact ⟨by decide, nofun⟩
    · exact ⟨by decide, nofun⟩
    · refine ⟨?_, nofun⟩
      exact Text.isOneLine_append.mpr ⟨Text.isOneLine_append.mpr
        ⟨by decide, Json.isOneLine_writeString (loadPath f)⟩, by decide⟩
    · exact ⟨by decide, nofun⟩

theorem isOneLine_definition (h : Text.IsOneLine n.name) :
    Text.IsOneLine (definition n) ∧ definition n ≠ docOpening := by
  refine ⟨?_, nofun⟩
  have hparameters : ∀ p ∈ parameters n, Text.IsOneLine p := by
    intro p hp
    obtain ⟨i, -, rfl⟩ := List.mem_map.mp hp
    exact Text.isOneLine_append.mpr ⟨by decide, Text.isOneLine_ofNat i⟩
  have hjoined : Text.IsOneLine (Text.joined ", " (parameters n)) :=
    Text.isOneLine_joined (by decide) hparameters
  exact Text.isOneLine_append.mpr ⟨Text.isOneLine_append.mpr ⟨Text.isOneLine_append.mpr
    ⟨Text.isOneLine_append.mpr ⟨by decide, h⟩, by decide⟩, hjoined⟩, by decide⟩

theorem docOpening_notMem_bareLines (h : ∀ n ∈ ns, Text.IsOneLine n.name) :
    docOpening ∉ bareLines ns := by
  induction ns with
  | nil => exact List.not_mem_nil
  | cons n ns ih =>
    obtain ⟨hn, hns⟩ := List.forall_mem_cons.mp h
    obtain ⟨hline, hne⟩ := isOneLine_definition hn
    rw [bareLines_cons, Text.cut_of_isOneLine hline]
    simp only [List.mem_cons, List.mem_append, not_or]
    exact ⟨List.cons_ne_nil _ _, ⟨Ne.symm hne, List.not_mem_nil⟩, ih hns⟩

/-- **Names on one line bring no opening line into the code.** -/
theorem docOpening_notMem_render (h : ∀ name ∈ names f, Text.IsOneLine name) :
    docOpening ∉ Text.lines (render (undocumented f)) := by
  have hheader := isOneLine_header h
  rw [docOpening_notMem_render_iff, List.mem_append, not_or,
    Text.flatMap_cut_of_isOneLine fun row hrow => (hheader row hrow).1]
  exact ⟨fun hmem => (hheader _ hmem).2 rfl, docOpening_notMem_bareLines fun n hn =>
    h n.name (List.mem_append_right _ (List.mem_map_of_mem hn))⟩

theorem isSealed_iff (h : ∀ name ∈ names f, Text.IsOneLine name) :
    IsSealed f ↔ ∀ doc ∈ docs f, ("\"\"\"" : Text) ∉ doc := by
  refine ⟨IsSealed.unclosed, fun hdocs => ⟨hdocs, fun before n after hsplit _ => ?_, ?_⟩⟩
  · refine docOpening_notMem_render fun name hname => h name ?_
    rw [names, hsplit, List.map_append, ← List.append_assoc]
    exact List.mem_append_left _ hname
  · have hlines : extract (Text.lines (render (undocumented f)) ++ []) =
        ⟨Text.lines (render (undocumented f)) ++ [], []⟩ :=
      extract_append (docOpening_notMem_render h)
    rw [List.append_nil] at hlines
    rw [hlines]

/-- **Documentation can be taken out of a rendered module** and read back exactly if the module is
sealed; where names are on one line, exactly if no line of a doc consists of three quotes. -/
theorem extract_render (f : Finished) :
    (extract (Text.lines (render f)) =
        ⟨Text.lines (render (undocumented f)), (docs f).map fun doc => doc.map indented⟩ ↔
      IsSealed f) ∧
    ((∀ name ∈ names f, Text.IsOneLine name) →
      (IsSealed f ↔ ∀ doc ∈ docs f, ("\"\"\"" : Text) ∉ doc)) :=
  ⟨extract_render_eq_iff f, isSealed_iff⟩

/-- A module with a documented nif and one without documentation. -/
def documented (doc : Text) : Finished where
  name := "M"
  flavor := .elixir
  nifs :=
    [{ name := "f", mode := .synchronous, signature := { params := ["i64"] }, doc := some doc },
      { name := "g", mode := .synchronous, signature := { params := [] } }]
  resources := []
  attributes := []
  libraryPath := none
  dependencies := []

theorem extract_render_indented :
    (∀ name ∈ names (documented "Adds.\n \n  x"), Text.IsOneLine name) ∧
      extract (Text.lines (render (documented "Adds.\n \n  x"))) =
        ⟨Text.lines (render (undocumented (documented "Adds.\n \n  x"))),
          [["  Adds.", "", "    x"]]⟩ := by
  have hnames : ∀ name ∈ names (documented "Adds.\n \n  x"), Text.IsOneLine name := by decide
  obtain ⟨hextract, hsealed⟩ := extract_render (documented "Adds.\n \n  x")
  refine ⟨hnames, (hextract.mpr ((hsealed hnames).mpr (by decide +kernel))).trans ?_⟩
  rw [Extract.mk.injEq]
  exact ⟨rfl, by decide +kernel⟩

/-- Behind a line of three quotes, documentation is code. -/
theorem not_extract_render_of_quotes :
    extract (Text.lines (render (documented "a\n\"\"\"\nb"))) ≠
        ⟨Text.lines (render (undocumented (documented "a\n\"\"\"\nb"))),
          (docs (documented "a\n\"\"\"\nb")).map fun doc => doc.map indented⟩ ∧
      ("  b" : Text) ∈ (extract (Text.lines (render (documented "a\n\"\"\"\nb")))).left := by
  refine ⟨fun h => ?_, by decide +kernel⟩
  exact absurd ((extract_render_eq_iff _).mp h).unclosed (by decide +kernel)

end ZigNif.Glue.Elixir
