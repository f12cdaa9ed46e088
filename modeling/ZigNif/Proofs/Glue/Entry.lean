import ZigNif.Proofs.Glue.Functions
import ZigNif.Proofs.Source.Part

/-!
# Proofs/Glue/Entry — reading the entry file back

The entry file is made of parts that pass (`render_eq`): the import of the staged source, and two
tables whose rows are quiet if the names in them are.  So the parser reads back the three constants
of the file and its import (`parse_render`).
-/

namespace ZigNif.Glue.Entry

open Source

variable {f : Finished} {r : Resource} {n : Nif} {name gap rest : Text} {rows : List Text}
  {p : Position} {sc : Scan} {ds : List Decl} {line : Nat}

/-! ## The text by its parts -/

/-- What stands between the braces of a resource. -/
def resourceRow (r : Resource) : Text :=
  " .name = \"" ++ (r.name ++ ("\", .scope = ." ++ (r.scope ++ " ")))

/-- What stands between the two places of a nif's name. -/
def rowMiddle (n : Nif) : Text :=
  "\", .arity = " ++ (Text.ofNat n.arity ++
    (", .concurrency = ." ++ (n.mode.name ++ ", .function = nif_module.")))

/-- What stands between the braces of a nif. -/
def nifRow (n : Nif) : Text :=
  (" .name = \"" ++ (n.name ++ rowMiddle n)) ++ (n.name ++ " ")

/-- The rows of a table, each in braces and on a line of its own. -/
def rowsText (rows : List Text) : Text :=
  rows.flatMap fun q => "    ." ++ ("\x7b" ++ (q ++ ("\x7d" ++ ",\n")))

/-- The beginning of a table. -/
def openingText (name : Text) : Text := constantText true name ++ ("." ++ "\x7b")

/-- A table: a constant that is a group of rows. -/
def tableText (name : Text) (rows : List Text) (gap : Text) : Text :=
  openingText name ++ (("\n" ++ rowsText rows) ++ ("\x7d" ++ (";" ++ gap)))

/-- In front of the import. -/
def importFront : Text := (header ++ "\n") ++ constantText false "nif_module"

/-- In front of the tables. -/
def frontText (name : Text) : Text :=
  importFront ++ (importOf (Staging.sourceName name) ++ (";" ++ "\n\n"))

theorem resourceLine_append (r : Resource) :
    resourceLine r ++ "\n" = "    ." ++ ("\x7b" ++ (resourceRow r ++ ("\x7d" ++ ",\n"))) := by
  unfold resourceLine resourceRow
  simp only [List.append_assoc]
  rfl

theorem nifLine_append (n : Nif) :
    nifLine n ++ "\n" = "    ." ++ ("\x7b" ++ (nifRow n ++ ("\x7d" ++ ",\n"))) := by
  unfold nifLine nifRow rowMiddle
  simp only [List.append_assoc]
  rfl

/-- The line that imports the staged source. -/
theorem importLine_append (src t : Text) :
    "const nif_module = @import(\"" ++ (src ++ ("\");" ++ t)) =
      constantText false "nif_module" ++ (importOf src ++ (";" ++ t)) := by
  have hfront : ("const nif_module = @import(\"" : Text) =
      constantText false "nif_module" ++ ("@import" ++ ("(" ++ "\"")) := by decide +kernel
  have hback : ("\");" : Text) = "\"" ++ (")" ++ ";") := by decide
  unfold importOf
  rw [hfront, hback, importText_eq]
  simp only [List.append_assoc, List.nil_append, List.cons_append]
  rfl

/-- **The parts of an entry file.** -/
theorem render_eq (f : Finished) : render f = frontText f.name ++
    (tableText "resources" (f.resources.map resourceRow) "\n\n" ++
      tableText "nifs" (f.nifs.map nifRow) "\n") := by
  have hresourceRows : f.resources.flatMap (fun r => resourceLine r ++ ['\n']) =
      rowsText (f.resources.map resourceRow) := by
    rw [rowsText, List.flatMap_map]
    exact List.flatMap_congr fun r _ => resourceLine_append r
  have hnifRows : f.nifs.flatMap (fun n => nifLine n ++ ['\n']) =
      rowsText (f.nifs.map nifRow) := by
    rw [rowsText, List.flatMap_map]
    exact List.flatMap_congr fun n _ => nifLine_append n
  have hresources : ("pub const resources = .\x7b" : Text) = openingText "resources" := by
    decide +kernel
  have hnifs : ("pub const nifs = .\x7b" : Text) = openingText "nifs" := by decide +kernel
  unfold render lines tableText frontText importFront
  rw [Text.unlines_append (List.cons_ne_nil _ _)]
  simp only [List.flatMap_append, List.flatMap_map, List.flatMap_cons, List.flatMap_nil,
    hresourceRows, hnifRows, hresources, hnifs, List.append_assoc]
  rw [importLine_append]
  rfl

/-! ## Quiet rows -/

theorem quiet_word (h : IsWord isLetter isNameChar name) : Quiet false name false :=
  quiet_outside fun _ hc => isQuiet_iff.mpr (.inl (all_isNameChar h _ hc))

theorem quiet_resourceRow (hname : ∀ c ∈ r.name, isInner c)
    (hscope : IsWord isLetter isNameChar r.scope) : Quiet false (resourceRow r) false := by
  have hopening : Quiet false " .name = \"" true := by decide
  have hinside : Quiet true r.name true := quiet_inside hname
  have hclosing : Quiet true "\", .scope = ." false := by decide
  have hspace : Quiet false " " false := by decide
  exact hopening.append (hinside.append (hclosing.append ((quiet_word hscope).append hspace)))

theorem quiet_rowMiddle (n : Nif) (a : Bool) : Quiet a (rowMiddle n) !a := by
  have harity : ∀ a, Quiet a "\", .arity = " !a := by decide
  have hconcurrency : ∀ a, Quiet a ", .concurrency = ." a := by decide
  have hfunction : ∀ a, Quiet a ", .function = nif_module." a := by decide
  have hmode : Quiet (!a) n.mode.name !a := by
    cases n.mode <;> cases a <;> decide
  have hdigits : Quiet (!a) (Text.ofNat n.arity) !a := by
    refine quiet_of_all (List.all_eq_true.mpr fun c hc => ?_)
    have hcode := Text.toNat_of_isDigit (Text.charIsDigit_of_mem_ofNat hc)
    have hname : isNameChar c := by
      rw [isNameChar, Bool.or_eq_true, Terminal.isNumeric_iff]
      exact .inr ⟨hcode.1, by omega⟩
    have hinner : isInner c := by
      rw [isInner_iff]
      refine ⟨?_, ?_, ?_⟩ <;> rintro rfl <;> exact absurd hname (by decide)
    simp [isQuiet_iff.mpr (.inl hname), hinner]
  exact (harity a).append (hdigits.append ((hconcurrency _).append (hmode.append (hfunction _))))

/-- A name stands twice in its row, so its quotes come in pairs. -/
theorem quiet_nifRow (h : ∀ c ∈ n.name, c = '"' ∨ isQuiet c ∧ c ≠ '\n') :
    Quiet false (nifRow n) false := by
  have hchars : ∀ c ∈ n.name, c = '"' ∨ isQuiet c ∧ isInner c := fun c hc =>
    (h c hc).imp_right fun ⟨hquiet, hline⟩ => ⟨hquiet, isInner_of_isQuiet hquiet hline⟩
  have hopening : Quiet false " .name = \"" true := by decide
  have hspace : Quiet false " " false := by decide
  rcases quiet_or_flips hchars with hname | hname
  · exact (hopening.append ((hname true).append (quiet_rowMiddle n true))).append
      ((hname false).append hspace)
  · exact (hopening.append ((hname true).append (quiet_rowMiddle n false))).append
      ((hname true).append hspace)

/-! ## Reading a table -/

/-- **A group passes over quiet rows in braces.**  The induction is on the rows, with the quiet text
in front of the next one. -/
theorem passes_rows (hrows : ∀ q ∈ rows, Quiet false q false) (hgap : Quiet false gap false)
    (hrest : ∀ c ∈ rest.head?, ¬ isQuiet c) :
    Passes p (gap ++ rowsText rows) rest ⟨1, sc⟩ ⟨1, sc⟩ [] := by
  induction rows generalizing p gap with
  | nil =>
    rw [rowsText, List.flatMap_nil, List.append_nil]
    exact .quiet hgap hrest
  | cons q rows ih =>
    obtain ⟨hq, hrows⟩ := List.forall_mem_cons.mp hrows
    have hfront : Quiet false (gap ++ "    .") false := hgap.append (by decide)
    have hcomma : Quiet false ",\n" false := by decide
    have hcons : gap ++ rowsText (q :: rows) =
        (gap ++ "    .") ++ ("\x7b" ++ (q ++ ("\x7d" ++ (",\n" ++ rowsText rows)))) := by
      simp only [rowsText, List.flatMap_cons, List.append_assoc]
    rw [hcons]
    exact .trans (.quiet hfront not_isQuiet_leftBrace) (.trans .leftBrace
      (.trans (.quiet hq not_isQuiet_rightBrace) (.trans .rightBrace_deep (ih hrows hcomma))))

theorem isWord_dot : IsWord isOperator isOperator "." :=
  isWord_of_all (c := '.') (t := []) (by decide) (by decide)

/-- The beginning of a table opens a group. -/
theorem passes_openingText (hname : IsWord isLetter isNameChar name) (hp : p.line = line) :
    Passes p (openingText name) rest ⟨0, ⟨ds, {}⟩⟩ ⟨1, .named ds true name line⟩ [] :=
  .trans (passes_constantText hname hp) (.trans
    (.operators (g := []) isWord_dot nofun (by rintro _ ⟨⟩; decide) rfl) .leftBrace)

/-- **A table declares its constant.** -/
theorem passes_table (hname : IsWord isLetter isNameChar name)
    (hrows : ∀ q ∈ rows, Quiet false q false) (hgap : ∀ c ∈ gap, isLayoutBlank c)
    (hp : p.line = line) :
    Passes p (tableText name rows gap) rest ⟨0, ⟨ds, {}⟩⟩
      ⟨0, ⟨ds ++ [.constant true name line], {}⟩⟩ [] := by
  have hnewline : Quiet false "\n" false := by decide
  refine .trans (passes_openingText hname hp) (.trans
    (passes_rows hrows hnewline not_isQuiet_rightBrace) (.trans .rightBrace ?_))
  rw [Scan.behindGroup_named]
  exact .semicolon hgap

/-! ## Reading the file -/

/-- What an entry file should hold: its three constants, and the import of the staged source. -/
def contents (f : Finished) : Parsed where
  code := [.constant false "nif_module" 2, .constant true "resources" 4,
    .constant true "nifs" (f.resources.length + 7)]
  dependencies := [Staging.sourceName f.name]

theorem isLayout_header {rest : Text} : IsLayout rest (header ++ "\n") := by
  have hcomment : IsPlainComment header := by
    refine ⟨⟨header.drop 2, by decide, by decide⟩, ?_⟩
    rintro ⟨r, hr, -⟩
    have hthird : (header.drop 2).head? = some '/' := by
      rw [hr]
      rfl
    exact absurd hthird (by decide)
  have hnewline : IsLayout rest "\n" :=
    isLayout_of_blanks (List.forall_mem_singleton.mpr (by decide))
  exact .comment hcomment (by rintro _ ⟨⟩; rfl) hnewline

theorem isInner_sourceName (hname : ∀ c ∈ name, isInner c) :
    ∀ c ∈ Staging.sourceName name, isInner c := by
  have hends : (∀ c ∈ (".zig" : Text), isInner c) ∧ ∀ c ∈ ("." : Text), isInner c :=
    ⟨List.all_iff_forall_prop.mp (by decide), List.all_iff_forall_prop.mp (by decide)⟩
  intro c hc
  rcases List.mem_append.mp hc with hc | hc
  · exact (List.mem_append.mp hc).elim (hends.2 c) (hname c)
  · exact hends.1 c hc

theorem isWord_nifModule : IsWord isLetter isNameChar "nif_module" :=
  isWord_of_all (c := 'n') (t := "if_module") (by decide) (by decide)

theorem isWord_resources : IsWord isLetter isNameChar "resources" :=
  isWord_of_all (c := 'r') (t := "esources") (by decide) (by decide)

theorem isWord_nifs : IsWord isLetter isNameChar "nifs" :=
  isWord_of_all (c := 'n') (t := "ifs") (by decide) (by decide)

theorem passes_importFront :
    Passes {} importFront rest {} ⟨0, .named [] false "nif_module" 2⟩ [] := by
  have hline : (Position.advance {} (header ++ "\n")).line = 2 := by
    rw [Position.line_advance]
    decide
  exact .trans (.layout isLayout_header) (passes_constantText isWord_nifModule hline)

theorem isLayoutBlank_gap : ∀ c ∈ ("\n\n" : Text), isLayoutBlank c :=
  List.all_iff_forall_prop.mp (by decide)

/-- In front of the tables, the source is imported. -/
theorem passes_front (hname : ∀ c ∈ name, isInner c) : Passes {} (frontText name) rest {}
    ⟨0, ⟨[.constant false "nif_module" 2], {}⟩⟩ [Staging.sourceName name] := by
  have hinner := isInner_sourceName hname
  have hdecode : Literal.decode (Staging.sourceName name) = .ok (Staging.sourceName name) :=
    if_neg fun hslash => (isInner_iff.mp (hinner _ hslash)).2.1 rfl
  exact passes_importFront.append
    ((Passes.importCall (isQuotedPart_of_isInner hinner) hdecode rfl).append
      (.semicolon isLayoutBlank_gap))

/-! ### Lines -/

theorem newline_notMem_of_isWord (h : IsWord isLetter isNameChar name) : '\n' ∉ name :=
  fun hmem => absurd (all_isNameChar h _ hmem) (by decide)

theorem newline_notMem_of_isInner (h : ∀ c ∈ name, isInner c) : '\n' ∉ name :=
  fun hmem => (isInner_iff.mp (h _ hmem)).2.2 rfl

theorem newline_notMem_importOf {raw : Text} (hraw : '\n' ∉ raw) : '\n' ∉ importOf raw := by
  have hliteral : '\n' ∉ '"' :: (raw ++ ['"']) :=
    List.not_mem_cons_of_ne_of_not_mem (by decide) (List.not_mem_append hraw (by decide))
  unfold importOf
  rw [importText_eq]
  exact List.not_mem_append (by decide) (List.not_mem_append (by decide) (List.not_mem_append
    (by decide) (List.not_mem_append (by decide) (List.not_mem_append hliteral (by decide)))))

theorem count_rowsText (h : ∀ q ∈ rows, '\n' ∉ q) : (rowsText rows).count '\n' = rows.length := by
  induction rows with
  | nil => rfl
  | cons q rows ih =>
    obtain ⟨hq, hrows⟩ := List.forall_mem_cons.mp h
    have hrow : ("    ." ++ ("\x7b" ++ (q ++ ("\x7d" ++ ",\n"))) : Text).count '\n' = 1 := by
      simp only [List.count_append, List.count_eq_zero.mpr hq]
      decide
    rw [rowsText, List.flatMap_cons, List.count_append, hrow, ← rowsText, ih hrows,
      List.length_cons, Nat.add_comm]

/-- A table has a line for each row, and one for its opening. -/
theorem count_tableText (hname : IsWord isLetter isNameChar name) (h : ∀ q ∈ rows, '\n' ∉ q) :
    (tableText name rows gap).count '\n' = rows.length + 1 + gap.count '\n' := by
  have hconstant : '\n' ∉ constantText true name :=
    newline_notMem_constantText (newline_notMem_of_isWord hname)
  have hopening : (openingText name).count '\n' = 0 :=
    List.count_eq_zero.mpr (List.not_mem_append hconstant (by decide))
  have hnewline : ("\n" : Text).count '\n' = 1 := by decide
  have hclosing : ("\x7d" : Text).count '\n' = 0 ∧ (";" : Text).count '\n' = 0 := by decide
  rw [tableText, List.count_append, hopening, List.count_append, List.count_append, hnewline,
    count_rowsText h, List.count_append, hclosing.1, List.count_append, hclosing.2]
  omega

theorem count_frontText (hname : ∀ c ∈ name, isInner c) : (frontText name).count '\n' = 3 := by
  have hsource : '\n' ∉ Staging.sourceName name :=
    newline_notMem_of_isInner (isInner_sourceName hname)
  have hends : importFront.count '\n' = 1 ∧ (";" ++ "\n\n" : Text).count '\n' = 2 := by decide
  rw [frontText, List.count_append, hends.1, List.count_append,
    List.count_eq_zero.mpr (newline_notMem_importOf hsource), hends.2]

theorem newline_notMem_resourceRow (hname : ∀ c ∈ r.name, isInner c)
    (hscope : IsWord isLetter isNameChar r.scope) : '\n' ∉ resourceRow r :=
  List.not_mem_append (by decide) (List.not_mem_append (newline_notMem_of_isInner hname)
    (List.not_mem_append (by decide)
      (List.not_mem_append (newline_notMem_of_isWord hscope) (by decide))))

/-- **The entry file is read back** if the names of the module and of resources stand for themselves
in literals, and those of nifs are quiet behind a dot as well.  A quote in the name of a nif has its
like in the same row. -/
theorem parse_render (hname : ∀ c ∈ f.name, isInner c)
    (hresources : ∀ r ∈ f.resources, (∀ c ∈ r.name, isInner c) ∧ IsWord isLetter isNameChar r.scope)
    (hnifs : ∀ n ∈ f.nifs, ∀ c ∈ n.name, c = '"' ∨ isQuiet c ∧ c ≠ '\n') :
    parse (render f) = .ok (contents f) := by
  have hresourceRows : ∀ q ∈ f.resources.map resourceRow, Quiet false q false ∧ '\n' ∉ q := by
    refine List.forall_mem_map.mpr fun r hr => ?_
    obtain ⟨hname, hscope⟩ := hresources r hr
    exact ⟨quiet_resourceRow hname hscope, newline_notMem_resourceRow hname hscope⟩
  have hnifRows : ∀ q ∈ f.nifs.map nifRow, Quiet false q false :=
    List.forall_mem_map.mpr fun n hn => quiet_nifRow (hnifs n hn)
  have hfirst : (Position.advance {} (frontText f.name)).line = 4 := by
    rw [Position.line_advance, count_frontText hname]
  have hsecond : ((Position.advance {} (frontText f.name)).advance
      (tableText "resources" (f.resources.map resourceRow) "\n\n")).line =
        f.resources.length + 7 := by
    rw [Position.line_advance, hfirst, count_tableText isWord_resources fun q hq =>
      (hresourceRows q hq).2, List.length_map]
    have hgap : ("\n\n" : Text).count '\n' = 2 := by decide
    omega
  have hnewline : ∀ c ∈ ("\n" : Text), isLayoutBlank c := List.all_iff_forall_prop.mp (by decide)
  have hall : Passes {} (render f) [] {} ⟨0, ⟨(contents f).code, {}⟩⟩
      (contents f).dependencies := by
    rw [render_eq]
    exact (passes_front hname).append ((passes_table isWord_resources
      (fun q hq => (hresourceRows q hq).1) isLayoutBlank_gap hfirst).append
        (passes_table isWord_nifs hnifRows hnewline hsecond))
  have hzig : isZigFile (Staging.sourceName f.name) :=
    List.isSuffixOf_iff_suffix.mpr (List.suffix_append _ _)
  rw [hall.parse_eq, contents, List.filter_cons_of_pos hzig]
  rfl

end ZigNif.Glue.Entry
