import Mathlib.Tactic.TFAE
import ZigNif.Proofs.Glue.Entry

/-!
# Proofs/Glue/Entry/Names — the names that an entry file can hold

An entry file writes names as they are: those of the module and of the resources into string
literals, that of a nif into a literal and behind a dot.  So it can be read back for all modules
whose names are made of some characters if and only if these characters stand for themselves there
(`tfae_parse_render`).
-/

namespace ZigNif.Glue.Entry

open Source

variable {c : Char} {name front t u s rest : Text} {p : Position} {sc : Scan} {ds : List Decl}
  {parsed : Parsed}

/-- A module with one nif and with the given resources. -/
def sample (module : Text) (resources : List Text) (nif : Text) : Finished where
  name := module
  flavor := .erlang
  nifs := [verified nif []]
  resources := resources.map fun name => { name }
  attributes := []
  libraryPath := none
  dependencies := []

/-! ## The name of the module -/

/-- A backslash in the name of a module is an escape in the import, and there is none with a dot. -/
theorem not_parse_of_escape :
    parse (importFront ++ (importOf (Staging.sourceName ['\\']) ++ t)) ≠ .ok parsed := by
  intro h
  have hzig : ∀ c ∈ (".zig" : Text), isInner c := List.all_iff_forall_prop.mp (by decide)
  have hpart : IsQuotedPart '"' (Staging.sourceName ['\\']) :=
    .plain (by decide) (by decide) (by decide)
      (.escape (by decide) (isQuotedPart_of_isInner fun c hc => hzig c (.tail _ hc)))
  have hdecode : Literal.decode (Staging.sourceName ['\\']) = .error (.escape ['.'] 1) := by
    decide +kernel
  obtain ⟨-, -, us, hus⟩ := passes_importFront.of_parse h
  rw [lexFrom_importOf hpart] at hus
  obtain ⟨target, -, htarget, -⟩ := (importTargets_cons_eq_ok_iff rfl).mp hus
  rw [(imports_importOf hpart).importTarget_eq] at htarget
  obtain ⟨t, ht⟩ := exists_decodeIn_eq_ok_iff.mp ⟨target, htarget⟩
  rw [hdecode] at ht
  cases ht

/-- The first parts of an import that is no call. -/
theorem passes_import (hcall : importLength ("@import" ++ ("(" ++ rest)) = none)
    (hrest : ∀ c ∈ rest.head?, ¬ isOperator c) (hstarted : sc.statement.isStarted) :
    Passes p ("@import" ++ "(") rest ⟨0, sc⟩ ⟨0, sc⟩ [] := by
  have hparen : IsWord isOperator isOperator "(" :=
    isWord_of_all (c := '(') (t := []) (by decide) (by decide)
  exact .trans (.builtin hcall (by rintro _ ⟨⟩; decide) hstarted)
    (.operators (g := []) hparen nofun hrest hstarted)

/-- A literal does not go on in the next line. -/
theorem not_parse_of_newline :
    parse (importFront ++ (importOf (Staging.sourceName ['\n']) ++ t)) ≠ .ok parsed := by
  intro h
  have hsplit : importOf (Staging.sourceName ['\n']) ++ t =
      ("@import" ++ "(") ++ ('"' :: ("." ++ '\n' :: (".zig\")" ++ t))) := rfl
  rw [hsplit, ← List.append_assoc] at h
  have hcall : importLength ("@import" ++ ("(" ++ ('"' :: ("." ++ '\n' :: (".zig\")" ++ t))))) =
      none := rfl
  have hdot : ∀ c ∈ ("." : Text), isInner c := List.all_iff_forall_prop.mp (by decide)
  have hpasses := passes_importFront.append (passes_import hcall (by rintro _ ⟨⟩; decide) rfl)
  exact hpasses.not_isUnmatched h (isUnmatched_of_isQuotedPart (isQuotedPart_of_isInner hdot))

/-- Behind a quote in the name of a module, the last literal of the line is open. -/
theorem not_parse_of_quote :
    parse (importFront ++ (importOf (Staging.sourceName ['"']) ++ (";" ++ ("\n\n" ++ t)))) ≠
      .ok parsed := by
  intro h
  have hsplit : importFront ++ (importOf (Staging.sourceName ['"']) ++ (";" ++ ("\n\n" ++ t))) =
      (importFront ++ (("@import" ++ "(") ++ ("\".\"" ++ ("." ++ "zig")))) ++
        ('"' :: (");" ++ '\n' :: ('\n' :: t))) := by
    rw [List.append_assoc]
    rfl
  have hcall : importLength ("@import" ++ ("(" ++ ("\".\"" ++ ("." ++ ("zig" ++
      ('"' :: (");" ++ '\n' :: ('\n' :: t)))))))) = none := rfl
  have hliteral : IsQuoted '"' "\".\"" :=
    ⟨['.'], isQuotedPart_of_isInner (List.all_iff_forall_prop.mp (by decide)), rfl⟩
  have hzig : IsWord isLetter isNameChar "zig" :=
    isWord_of_all (c := 'z') (t := "ig") (by decide) (by decide)
  have hend : ∀ c ∈ (");" : Text), isInner c := List.all_iff_forall_prop.mp (by decide)
  rw [hsplit] at h
  have hpasses : Passes {} (importFront ++ (("@import" ++ "(") ++ ("\".\"" ++ ("." ++ "zig"))))
      ('"' :: (");" ++ '\n' :: ('\n' :: t))) {}
      ⟨0, (Scan.named [] false "nif_module" 2).word "zig"⟩ [] := by
    refine .trans passes_importFront (.trans (passes_import hcall (by rintro _ ⟨⟩; decide) rfl) ?_)
    refine .trans (.mute (g := []) (takes_string hliteral) (by decide) (by decide) nofun rfl) ?_
    refine .trans (.operators (g := []) isWord_dot nofun (by rintro _ ⟨⟩; decide) rfl) ?_
    exact .word (g := []) hzig nofun (by rintro _ ⟨⟩; decide) (.inl (Option.some_ne_none _))
  exact hpasses.not_isUnmatched h (isUnmatched_of_isQuotedPart (isQuotedPart_of_isInner hend))

/-- **The name of a module must stand for itself in a literal.** -/
theorem isInner_of_parse_module (h : parse (render (sample [c] [] name)) = .ok parsed) :
    isInner c := by
  rw [render_eq, frontText, List.append_assoc, List.append_assoc, List.append_assoc] at h
  rw [isInner_iff]
  refine ⟨?_, ?_, ?_⟩ <;> rintro rfl
  · exact not_parse_of_quote h
  · exact not_parse_of_escape h
  · exact not_parse_of_newline h

/-! ## Names in rows -/

/-- The text in front of the text between the braces of the first row. -/
def rowOpening (name : Text) : Text := openingText name ++ ("\n    ." ++ "\x7b")

/-- The text behind the text between the braces of the only row. -/
def rowClosing (gap : Text) : Text := "\x7d" ++ (",\n" ++ ("\x7d" ++ (";" ++ gap)))

theorem tableText_singleton (name q gap : Text) :
    tableText name [q] gap = rowOpening name ++ (q ++ rowClosing gap) := by
  unfold tableText rowOpening rowClosing rowsText
  simp only [List.flatMap_cons, List.flatMap_nil, List.append_assoc]
  rfl

/-- What stands in front of a row, in two groups. -/
def IsRowFront (front : Text) : Prop := ∀ rest, ∃ sc ts, Passes {} front rest {} ⟨2, sc⟩ ts

theorem passes_rowOpening (hname : IsWord isLetter isNameChar name) :
    Passes p (rowOpening name) rest ⟨0, ⟨ds, {}⟩⟩ ⟨2, .named ds true name p.line⟩ [] := by
  have hgap : Quiet false "\n    ." false := by decide
  exact .trans (passes_openingText hname rfl)
    (.trans (.quiet hgap not_isQuiet_leftBrace) .leftBrace)

theorem isRowFront_resources (hname : ∀ c ∈ name, isInner c) :
    IsRowFront (frontText name ++ rowOpening "resources") :=
  fun _ => ⟨_, _, (passes_front hname).append (passes_rowOpening isWord_resources)⟩

theorem isRowFront_nifs (hname : ∀ c ∈ name, isInner c) :
    IsRowFront (frontText name ++ (tableText "resources" [] "\n\n" ++ rowOpening "nifs")) :=
  fun _ => ⟨_, _, (passes_front hname).append
    ((passes_table isWord_resources (List.forall_mem_nil _) isLayoutBlank_gap rfl).append
      (passes_rowOpening isWord_nifs))⟩

/-- **Behind the quiet part of a row, both groups are closed.** -/
theorem IsRowFront.of_parse (hfront : IsRowFront front) (ht : Quiet false t false)
    (hu : ∀ c ∈ u.head?, ¬ isQuiet c) (hparse : parse (front ++ (t ++ u)) = .ok parsed) :
    ¬ IsUnmatched u ∧ (lex u).stop = none ∧
      closings (lex u).tokens = 2 + openings (lex u).tokens := by
  obtain ⟨sc, ts, hpasses⟩ := hfront (t ++ u)
  have hall := hpasses.append (.quiet ht hu)
  rw [← List.append_assoc] at hparse
  exact ⟨hall.not_isUnmatched hparse, hall.closings_eq hparse⟩

/-- In a row, no literal is open where the line ends. -/
theorem IsRowFront.not_parse (hfront : IsRowFront front) (ht : Quiet false t false)
    (hs : IsQuotedPart '"' s) :
    parse (front ++ (t ++ ('"' :: (s ++ '\n' :: rest)))) ≠ .ok parsed := fun h =>
  (hfront.of_parse ht (by rintro _ ⟨⟩; decide) h).1 (isUnmatched_of_isQuotedPart hs)

/-- **The name of a resource must stand for itself in a literal.** -/
theorem isInner_of_parse_resource {nif : Text} (hname : ∀ c ∈ name, isInner c)
    (h : parse (render (sample name [[c]] nif)) = .ok parsed) : isInner c := by
  have hfront := isRowFront_resources hname
  obtain ⟨rest, htext⟩ : ∃ rest, render (sample name [[c]] nif) = (frontText name ++
      rowOpening "resources") ++ (resourceRow { name := [c] } ++ (rowClosing "\n\n" ++ rest)) := by
    refine ⟨tableText "nifs" ((sample name [[c]] nif).nifs.map nifRow) "\n", ?_⟩
    rw [render_eq]
    change frontText name ++ (tableText "resources" [resourceRow { name := [c] }] "\n\n" ++ _) = _
    rw [tableText_singleton, List.append_assoc, List.append_assoc, List.append_assoc]
  have hscope : ∀ c ∈ (", .scope = .root \x7d," : Text), isInner c :=
    List.all_iff_forall_prop.mp (by decide)
  rw [htext] at h
  rw [isInner_iff]
  refine ⟨?_, ?_, ?_⟩ <;> rintro rfl
  · -- the name closes its literal, and the quote behind it opens another one
    have hsplit : resourceRow { name := ['"'] } ++ (rowClosing "\n\n" ++ rest) = " .name = \"\"" ++
        ('"' :: (", .scope = .root \x7d," ++ '\n' :: ("\x7d;\n\n" ++ rest))) := rfl
    rw [hsplit] at h
    exact hfront.not_parse (by decide) (isQuotedPart_of_isInner hscope) h
  · have hsplit : resourceRow { name := ['\\'] } ++ (rowClosing "\n\n" ++ rest) = " .name = " ++
        ('"' :: ("\\\", .scope = .root \x7d," ++ '\n' :: ("\x7d;\n\n" ++ rest))) := rfl
    rw [hsplit] at h
    exact hfront.not_parse (by decide) (.escape (by decide) (isQuotedPart_of_isInner hscope)) h
  · have hsplit : resourceRow { name := ['\n'] } ++ (rowClosing "\n\n" ++ rest) = " .name = " ++
        ('"' :: ([] ++ '\n' :: ("\", .scope = .root \x7d,\n\x7d;\n\n" ++ rest))) := rfl
    rw [hsplit] at h
    exact hfront.not_parse (by decide) .nil h

theorem render_nif (name nif : Text) : render (sample name [] nif) = (frontText name ++
    (tableText "resources" [] "\n\n" ++ rowOpening "nifs")) ++
      (nifRow (verified nif []) ++ rowClosing "\n") := by
  rw [render_eq]
  change frontText name ++ (_ ++ tableText "nifs" [nifRow (verified nif [])] "\n") = _
  rw [tableText_singleton, List.append_assoc, List.append_assoc]
  rfl

/-- The name of a nif must stand for itself in a literal, unless it is a quote. -/
theorem isInner_of_parse_nif (hname : ∀ c ∈ name, isInner c)
    (h : parse (render (sample name [] [c])) = .ok parsed) : c = '"' ∨ isInner c := by
  have hfront := isRowFront_nifs hname
  have hconcurrency : ∀ c ∈ (", .arity = 0, .concurrency = .synchronous" : Text), isInner c :=
    List.all_iff_forall_prop.mp (by decide)
  have hfunction : ∀ c ∈ (", .function = nif_module." : Text), isInner c :=
    List.all_iff_forall_prop.mp (by decide)
  rw [render_nif] at h
  by_cases hquote : c = '"'
  · exact .inl hquote
  refine .inr (isInner_iff.mpr ⟨hquote, ?_, ?_⟩) <;> rintro rfl
  · have hsplit : nifRow (verified ['\\'] []) ++ rowClosing "\n" = " .name = " ++ ('"' ::
        (("\\\"" ++ (", .arity = 0, .concurrency = .synchronous" ++
          (", .function = nif_module." ++ "\\ \x7d,"))) ++ '\n' :: "\x7d;\n")) := by decide +kernel
    have hend : ∀ c ∈ ("\x7d," : Text), isInner c := List.all_iff_forall_prop.mp (by decide)
    have hpart : IsQuotedPart '"' ("\\\"" ++ (", .arity = 0, .concurrency = .synchronous" ++
        (", .function = nif_module." ++ "\\ \x7d,"))) :=
      .escape (by decide) ((isQuotedPart_of_isInner hconcurrency).append
        ((isQuotedPart_of_isInner hfunction).append (.escape (by decide)
          (isQuotedPart_of_isInner hend))))
    rw [hsplit] at h
    exact hfront.not_parse (by decide) hpart h
  · have hsplit : nifRow (verified ['\n'] []) ++ rowClosing "\n" = " .name = " ++ ('"' ::
        ([] ++ '\n' :: ("\", .arity = 0, .concurrency = .synchronous" ++
          (", .function = nif_module." ++ "\n \x7d,\n\x7d;\n")))) := by decide +kernel
    rw [hsplit] at h
    exact hfront.not_parse (by decide) .nil h

/-- Behind the dot, the groups of the row are closed. -/
theorem closings_of_parse_nif (hname : ∀ c ∈ name, isInner c) (hinner : ∀ d ∈ c :: t, isInner d)
    (hquiet : ¬ isQuiet c) (h : parse (render (sample name [] (c :: t))) = .ok parsed) :
    let u := (c :: t ++ " ") ++ rowClosing "\n"
    ¬ IsUnmatched u ∧ (lex u).stop = none ∧
      closings (lex u).tokens = 2 + openings (lex u).tokens := by
  have hopening : Quiet false " .name = \"" true := by decide
  have hinside : Quiet true (c :: t) true := quiet_inside hinner
  have hmiddle : Quiet true (rowMiddle (verified (c :: t) [])) false := quiet_rowMiddle _ true
  have hrow : nifRow (verified (c :: t) []) ++ rowClosing "\n" =
      (" .name = \"" ++ (c :: t ++ rowMiddle (verified (c :: t) []))) ++
        ((c :: t ++ " ") ++ rowClosing "\n") :=
    List.append_assoc _ _ _
  rw [render_nif, hrow] at h
  exact (isRowFront_nifs hname).of_parse (hopening.append (hinside.append hmiddle))
    (by rintro _ ⟨⟩; exact hquiet) h

/-- **The name of a nif must be quiet**, but for quotes. -/
theorem isQuiet_of_parse_nif {parsed' : Parsed} (hname : ∀ c ∈ name, isInner c)
    (h : parse (render (sample name [] [c])) = .ok parsed)
    (h' : parse (render (sample name [] [c, c])) = .ok parsed') :
    c = '"' ∨ isQuiet c ∧ c ≠ '\n' := by
  rcases isInner_of_parse_nif hname h with hquote | hinner
  · exact .inl hquote
  obtain ⟨hquote, hslash, hline⟩ := isInner_iff.mp hinner
  refine .inr ⟨by_contra fun hquiet => ?_, hline⟩
  have hone := closings_of_parse_nif hname (List.forall_mem_singleton.mpr hinner) hquiet h
  have htwo := closings_of_parse_nif hname
    (List.forall_mem_cons.mpr ⟨hinner, List.forall_mem_singleton.mpr hinner⟩) hquiet h'
  rcases not_isQuiet_iff.mp hquiet with ⟨hblank, hlayout⟩ | hmark
  · exact hone.1 (isUnmatched_of_isBlank hblank hlayout)
  · simp only [List.mem_cons, List.not_mem_nil, or_false, hquote, hslash, false_or] at hmark
    rcases hmark with rfl | rfl | rfl | rfl | rfl
    · exact absurd hone.2.2 (by decide +kernel)
    · exact absurd hone.2.2 (by decide +kernel)
    · exact absurd hone.2.1 (by decide +kernel)
    · exact absurd hone.2.1 (by decide +kernel)
    · -- one slash is a token, but two start a comment
      exact absurd htwo.2.2 (by decide +kernel)

/-! ## All names -/

/-- A finished module whose names are made of the given characters: those of `M` for the module, of
`R` for resources, and of `N` for nifs.  The scopes of resources are words. -/
structure IsNamedFrom (M R N : Char → Prop) (f : Finished) : Prop where
  finished : ∃ m, finish m = .ok f
  module : f.name ≠ [] ∧ ∀ c ∈ f.name, M c
  resources : ∀ r ∈ f.resources,
    (r.name ≠ [] ∧ ∀ c ∈ r.name, R c) ∧ IsWord isLetter isNameChar r.scope
  nifs : ∀ n ∈ f.nifs, n.name ≠ [] ∧ ∀ c ∈ n.name, N c

theorem isNamedFrom_sample {M R N : Char → Prop} {resources : List Text} {nif : Text}
    (hmodule : name ≠ [] ∧ ∀ c ∈ name, M c)
    (hresources : ∀ r ∈ resources, r ≠ [] ∧ ∀ c ∈ r, R c)
    (hnif : nif ≠ [] ∧ ∀ c ∈ nif, N c) : IsNamedFrom M R N (sample name resources nif) where
  finished :=
    ⟨{ name, file := [], flavor := .erlang, options := { module := name, file := [], env := [] }
       parsed := some {}, nifs := [verified nif []]
       resources := resources.map fun name => { name } }, rfl⟩
  module := hmodule
  resources := List.forall_mem_map.mpr fun r hr =>
    ⟨hresources r hr, isWord_of_all (c := 'r') (t := "oot") (by decide) (by decide)⟩
  nifs := List.forall_mem_singleton.mpr hnif

/-- **Names that are written as they are can be read back** if and only if the characters of the
names of modules and resources stand for themselves in literals, and those of the names of nifs are
quiet and no newlines, or quotes, which come in pairs.  With all other characters there is an entry
file that cannot be parsed. -/
theorem tfae_parse_render {M R N : Char → Prop} (hM : ∃ c, M c) (hN : ∃ c, N c) :
    [∀ f, IsNamedFrom M R N f → parse (render f) = .ok (contents f),
      ∀ f, IsNamedFrom M R N f → ∃ parsed, parse (render f) = .ok parsed,
      (∀ c, M c → isInner c) ∧ (∀ c, R c → isInner c) ∧
        ∀ c, N c → c = '"' ∨ isQuiet c ∧ c ≠ '\n'].TFAE := by
  tfae_have 1 → 2 := fun h f hf => ⟨_, h f hf⟩
  tfae_have 2 → 3 := by
    intro h
    obtain ⟨m, hm⟩ := hM
    obtain ⟨n, hn⟩ := hN
    have hone : ∀ {P : Char → Prop} {c}, P c → [c] ≠ [] ∧ ∀ d ∈ [c], P d := fun hc =>
      ⟨List.cons_ne_nil _ _, List.forall_mem_singleton.mpr hc⟩
    have hmodule : ∀ c, M c → isInner c := by
      intro c hc
      obtain ⟨parsed, hparse⟩ :=
        h _ (isNamedFrom_sample (hone hc) (List.forall_mem_nil _) (hone hn))
      exact isInner_of_parse_module hparse
    have hname : ∀ c ∈ [m], isInner c := List.forall_mem_singleton.mpr (hmodule m hm)
    refine ⟨hmodule, fun c hc => ?_, fun c hc => ?_⟩
    · obtain ⟨parsed, hparse⟩ := h _ (isNamedFrom_sample (hone hm)
        (List.forall_mem_singleton.mpr (hone hc)) (hone hn))
      exact isInner_of_parse_resource hname hparse
    · have htwo : [c, c] ≠ [] ∧ ∀ d ∈ [c, c], N d := ⟨List.cons_ne_nil _ _, by simpa using hc⟩
      obtain ⟨parsed, hparse⟩ :=
        h _ (isNamedFrom_sample (hone hm) (List.forall_mem_nil _) (hone hc))
      obtain ⟨parsed', hparse'⟩ := h _ (isNamedFrom_sample (hone hm) (List.forall_mem_nil _) htwo)
      exact isQuiet_of_parse_nif hname hparse hparse'
  tfae_have 3 → 1 := by
    rintro ⟨hM, hR, hN⟩ f hf
    exact parse_render (fun c hc => hM c (hf.module.2 c hc))
      (fun r hr => ⟨fun c hc => hR c ((hf.resources r hr).1.2 c hc), (hf.resources r hr).2⟩)
      fun n hn c hc => hN c ((hf.nifs n hn).2 c hc)
  tfae_finish

/-- Names of letters, digits and underscores are read back. -/
theorem parse_render_words : (∃ c, isNameChar c) ∧
    parse (render (sample "M" ["T"] "f")) = .ok
      ⟨[⟨"nif_module", .const, false, none, 2⟩, ⟨"resources", .const, true, none, 4⟩,
        ⟨"nifs", .const, true, none, 8⟩], [".M.zig"]⟩ := by
  have hletter : ∃ c, isNameChar c := ⟨'a', by decide⟩
  have hinner : ∀ c, isNameChar c → isInner c := fun c hc =>
    isInner_of_isQuiet (isQuiet_iff.mpr (.inl hc)) (by rintro rfl; exact absurd hc (by decide))
  have hquiet : ∀ c, isNameChar c → c = '"' ∨ isQuiet c ∧ c ≠ '\n' := fun c hc =>
    .inr ⟨isQuiet_iff.mpr (.inl hc), (isInner_iff.mp (hinner c hc)).2.2⟩
  have hsample : IsNamedFrom (isNameChar ·) (isNameChar ·) (isNameChar ·)
      (sample "M" ["T"] "f") :=
    isNamedFrom_sample ⟨nofun, List.all_iff_forall_prop.mp (by decide)⟩
      (List.forall_mem_singleton.mpr ⟨nofun, List.all_iff_forall_prop.mp (by decide)⟩)
      ⟨nofun, List.all_iff_forall_prop.mp (by decide)⟩
  have hiff : ((∀ c, isNameChar c → isInner c) ∧ (∀ c, isNameChar c → isInner c) ∧
      ∀ c, isNameChar c → c = '"' ∨ isQuiet c ∧ c ≠ '\n') ↔
        ∀ f, IsNamedFrom (isNameChar ·) (isNameChar ·) (isNameChar ·) f →
          parse (render f) = .ok (contents f) :=
    (tfae_parse_render hletter hletter).out 2 0
  exact ⟨hletter, hiff.mp ⟨hinner, hinner, hquiet⟩ _ hsample⟩

/-- The mark in the name of a nif opens a character literal, which does not end. -/
theorem not_parse_render_of_mark :
    IsNamedFrom (fun _ => True) (fun _ => True) (fun _ => True) (sample "M" [] "it's") ∧
      parse (render (sample "M" [] "it's")) = .error (.shape (.character ⟨244, 8, 90⟩)) :=
  ⟨isNamedFrom_sample ⟨nofun, fun _ _ => trivial⟩ (List.forall_mem_nil _)
    ⟨nofun, fun _ _ => trivial⟩, by decide +kernel⟩

end ZigNif.Glue.Entry
