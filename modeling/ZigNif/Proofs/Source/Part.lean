import ZigNif.Proofs.Source.Quiet
import ZigNif.Proofs.Source.Stop

/-!
# Proofs/Source/Part — reading a source part by part

`Passes` says what a part of a source does to the level of the text in front of it.  Parts that pass
make a source that parses (`Passes.parse_eq`); if a source parses whose first part passes, the lexer
reads the second part to its end, and that closes the groups that are open (`Passes.of_parse`).
-/

namespace ZigNif.Source

variable {p : Position} {k : Terminal} {c : Char} {s t u g name raw rest : Text}
  {l m l' : Level} {sc sc' : Scan} {ts us : List Text} {d line : Nat} {pub : Bool} {ds : List Decl}

/-- In front of `rest`, the text takes the level `l` to `l'`, and imports `ts`. -/
def Passes (p : Position) (t rest : Text) (l l' : Level) (ts : List Text) : Prop :=
  ∃ toks, (lexFrom p (t ++ rest)).bare = (lexFrom (p.advance t) rest).bare.after toks ∧
    toks.foldlM Level.step l = some l' ∧ importTargets toks = .ok ts

theorem Level.started_eq (h : sc.statement.isStarted) : started ⟨0, sc⟩ = ⟨0, sc⟩ := by
  obtain ⟨decls, docs, words, isStarted, kind⟩ := sc
  obtain rfl : isStarted = true := h
  rfl

/-! ## Import calls -/

/-- An import call without white space. -/
def importOf (raw : Text) : Text := importText [] [] ('"' :: (raw ++ ['"'])) []

theorem imports_importOf (hraw : IsQuotedPart '"' raw) :
    Token.Imports ⟨.importCall, importOf raw, p⟩ raw :=
  ⟨rfl, [], [], [], nofun, nofun, hraw, rfl⟩

theorem takes_importCall (h : IsImportCall Text.isBlank s) : Terminal.importCall.Takes s rest where
  spells := h
  longest s' rest' heq hs' := by rw [h.eq_of_append hs' heq.symm]
  first k' s' rest' heq hs' hk' := by
    cases k' with
    | importCall => exact absurd rfl hk'
    | _ => decide

/-- **An import call is one token.** -/
theorem lexFrom_importOf (hraw : IsQuotedPart '"' raw) : lexFrom p (importOf raw ++ rest) =
    (lexFrom (p.advance (importOf raw)) rest).push ⟨.importCall, importOf raw, p⟩ :=
  lexFrom_of_takes (takes_importCall
    ⟨[], [], _, [], nofun, nofun, ⟨raw, hraw, rfl⟩, nofun, rfl⟩)

namespace Passes

theorem append (hs : Passes p s (t ++ rest) l m ts) (ht : Passes (p.advance s) t rest m l' us) :
    Passes p (s ++ t) rest l l' (ts ++ us) := by
  obtain ⟨toks, hlex, hfold, himports⟩ := hs
  obtain ⟨toks', hlex', hfold', himports'⟩ := ht
  refine ⟨toks ++ toks', ?_, ?_, importTargets_append_eq_ok_iff.mpr
    ⟨ts, us, himports, himports', rfl⟩⟩
  · rw [List.append_assoc, hlex, hlex', Lexed.after_after, Position.advance_append]
  · rw [List.foldlM_append, hfold]
    exact hfold'

theorem trans (hs : Passes p s (t ++ rest) l m []) (ht : Passes (p.advance s) t rest m l' []) :
    Passes p (s ++ t) rest l l' [] :=
  hs.append ht

theorem layout (h : IsLayout rest t) : Passes p t rest l l [] :=
  ⟨[], bare_lexFrom_layout h, rfl, rfl⟩

/-- A token that is no import, with the layout behind it. -/
theorem token (h : k.Takes s (g ++ rest)) (hk : k.isLayout = false) (himport : k ≠ .importCall)
    (hg : ∀ c ∈ g, isLayoutBlank c) (hstep : l.step ⟨k, s, p⟩ = some l') :
    Passes p (s ++ g) rest l l' [] := by
  refine ⟨[⟨k, s, p⟩], bare_lexFrom_token rfl h hk hg, ?_, ?_⟩
  · rw [List.foldlM_cons, hstep]
    rfl
  · exact importTargets_cons_of_ne himport

/-! ## Groups -/

theorem leftBrace : Passes p "\x7b" rest ⟨d, sc⟩ ⟨d + 1, sc⟩ [] :=
  token (g := []) (takes_mark (by decide) rfl fun _ _ => .rfl) rfl (by decide) nofun
    (Level.step_leftBrace rfl)

/-- A brace that closes an inner group. -/
theorem rightBrace_deep : Passes p "\x7d" rest ⟨d + 2, sc⟩ ⟨d + 1, sc⟩ [] :=
  token (g := []) (takes_mark (by decide) rfl fun _ _ => .rfl) rfl (by decide) nofun
    (Level.step_rightBrace_deep rfl)

/-- A brace that closes an outer group. -/
theorem rightBrace : Passes p "\x7d" rest ⟨1, sc⟩ ⟨0, sc.behindGroup⟩ [] :=
  token (g := []) (takes_mark (by decide) rfl fun _ _ => .rfl) rfl (by decide) nofun
    (Level.step_rightBrace_one rfl)

/-- **A group passes over quiet text.** -/
theorem quiet (h : Quiet false t false) (hrest : ∀ c ∈ rest.head?, ¬ isQuiet c) :
    Passes p t rest ⟨d + 1, sc⟩ ⟨d + 1, sc⟩ [] := by
  obtain ⟨toks, htoks, hlex⟩ := h.exists_tokens hrest p
  have hterminals : ∀ k ∈ Terminal.quiet, k ≠ .leftBrace ∧ k ≠ .rightBrace ∧ k ≠ .importCall := by
    decide
  refine ⟨toks, hlex, ?_, ?_⟩
  · clear hlex
    induction toks with
    | nil => rfl
    | cons tok toks ih =>
      obtain ⟨htok, htoks⟩ := List.forall_mem_cons.mp htoks
      obtain ⟨hleft, hright, -⟩ := hterminals _ htok
      rw [List.foldlM_cons, Level.step_inside hleft hright]
      exact ih htoks
  · rw [← List.append_nil toks]
    exact importTargets_append_of_ne fun tok htok => (hterminals _ (htoks tok htok)).2.2

/-! ## Statements -/

/-- A token of a statement outside of groups. -/
theorem outside (h : k.Takes s (g ++ rest)) (hg : ∀ c ∈ g, isLayoutBlank c)
    (hk : k ∉ [.leftBrace, .rightBrace, .importCall, .comment, .blank])
    (hstep : sc.step (.leaf ⟨k, s, p⟩) = .ok sc') :
    Passes p (s ++ g) rest ⟨0, sc⟩ ⟨0, sc'⟩ [] := by
  have hlayout : k.isLayout = false := by
    cases k with
    | comment | blank => exact absurd (by decide) hk
    | _ => rfl
  simp only [List.mem_cons, List.not_mem_nil, or_false, not_or] at hk
  refine token h hlayout hk.2.2.1 hg ((Level.step_leaf hk.1 hk.2.1).trans ?_)
  rw [hstep]
  rfl

/-- A word of a statement outside of groups. -/
theorem word (hname : IsWord isLetter isNameChar name) (hg : ∀ c ∈ g, isLayoutBlank c)
    (hrest : ∀ c ∈ (g ++ rest).head?, ¬ isNameChar c) (h : sc.NamesNothing) :
    Passes p (name ++ g) rest ⟨0, sc⟩ ⟨0, sc.word name⟩ [] := by
  refine outside (takes_name hname hrest) hg (by decide) ?_
  rw [Scan.step_name (.inl rfl), Scan.name_of_namesNothing h (nameText_of_name rfl)]

/-- A mute token outside of groups. -/
theorem mute (h : k.Takes s (g ++ rest)) (hk : k ∈ Terminal.mute) (himport : k ≠ .importCall)
    (hg : ∀ c ∈ g, isLayoutBlank c) (hstarted : sc.statement.isStarted) :
    Passes p (s ++ g) rest ⟨0, sc⟩ ⟨0, sc⟩ [] := by
  have hlayout : ∀ k ∈ Terminal.mute, k.isLayout = false := by decide
  refine token h (hlayout k hk) himport hg ((Level.step_mute hk).trans ?_)
  rw [Level.started_eq hstarted]

/-- Punctuation outside of groups. -/
theorem operators (hs : IsWord isOperator isOperator s) (hg : ∀ c ∈ g, isLayoutBlank c)
    (hrest : ∀ c ∈ (g ++ rest).head?, ¬ isOperator c) (hstarted : sc.statement.isStarted) :
    Passes p (s ++ g) rest ⟨0, sc⟩ ⟨0, sc⟩ [] :=
  mute (takes_operators hs hrest) (by decide) (by decide) hg hstarted

theorem semicolon (hg : ∀ c ∈ g, isLayoutBlank c) :
    Passes p (";" ++ g) rest ⟨0, sc⟩ ⟨0, sc.atEnd⟩ [] :=
  outside (takes_mark (by decide) rfl fun _ _ => .rfl) hg (by decide) (Scan.step_semicolon rfl)

/-- The word `@import` in front of what makes no call. -/
theorem builtin (hcall : importLength ("@import" ++ rest) = none)
    (hrest : ∀ c ∈ rest.head?, ¬ isNameChar c) (hstarted : sc.statement.isStarted) :
    Passes p "@import" rest ⟨0, sc⟩ ⟨0, sc⟩ [] := by
  refine mute (g := []) (takes_builtin (fun s rest' heq hs => ?_) hrest) (by decide) (by decide)
    nofun hstarted
  have hsome : importLength (s ++ rest') = some s.length := importLength_append hs
  rw [heq] at hsome
  exact absurd (hsome.symm.trans hcall) (Option.some_ne_none _)

/-- An import call outside of groups. -/
theorem importCall {target : Text} (hraw : IsQuotedPart '"' raw)
    (htarget : Literal.decode raw = .ok target) (hstarted : sc.statement.isStarted) :
    Passes p (importOf raw) rest ⟨0, sc⟩ ⟨0, sc⟩ [target] := by
  have himport : importTarget ⟨.importCall, importOf raw, p⟩ = .ok target := by
    rw [(imports_importOf hraw).importTarget_eq, decodeIn, htarget]
  have hmute : Terminal.importCall ∈ Terminal.mute := by decide
  refine ⟨[⟨.importCall, importOf raw, p⟩], ?_, ?_, ?_⟩
  · rw [lexFrom_importOf hraw, bare_push]
    rfl
  · rw [List.foldlM_cons, Level.step_mute hmute, Level.started_eq hstarted]
    rfl
  · exact (importTargets_cons_eq_ok_iff rfl).mpr ⟨target, [], himport, rfl, rfl⟩

end Passes

/-! ## Constants -/

/-- The words in front of the name of a constant. -/
def constantWords (pub : Bool) : List Text := if pub then ["pub", "const"] else ["const"]

/-- The statement of a constant in front of its name. -/
def Statement.unnamed (pub : Bool) : Statement where
  words := constantWords pub
  isStarted := true

/-- The declaration of a constant without documentation. -/
def Decl.constant (pub : Bool) (name : Text) (line : Nat) : Decl where
  name := name
  kind := .const
  isPub := pub
  doc := none
  line := line

/-- The scan behind the name of a constant. -/
def Scan.named (ds : List Decl) (pub : Bool) (name : Text) (line : Nat) : Scan where
  decls := ds ++ [.constant pub name line]
  statement := { words := constantWords pub ++ [name], isStarted := true, kind := some .const }

theorem Scan.behindGroup_named : (named ds pub name line).behindGroup = named ds pub name line :=
  if_neg (by simp [named])

/-- The text in front of the name of a constant. -/
def unnamedText (pub : Bool) : Text := if pub then "pub " ++ "const " else "const "

/-- The beginning of a constant, up to its value. -/
def constantText (pub : Bool) (name : Text) : Text := unnamedText pub ++ ((name ++ " ") ++ "= ")

theorem passes_unnamedText :
    Passes p (unnamedText pub) rest ⟨0, ⟨ds, {}⟩⟩ ⟨0, ⟨ds, .unnamed pub⟩⟩ [] := by
  have hpub : IsWord isLetter isNameChar "pub" :=
    isWord_of_all (c := 'p') (t := "ub") (by decide) (by decide)
  have hconst : IsWord isLetter isNameChar "const" :=
    isWord_of_all (c := 'c') (t := "onst") (by decide) (by decide)
  have hspace : ∀ {t : Text}, ∀ c ∈ (" " ++ t : Text).head?, ¬ isNameChar c := by
    rintro t _ ⟨⟩
    decide
  have hlast : DeclKind.ofKeyword? "pub" = none := by decide
  cases pub with
  | false => exact .word hconst isLayoutBlank_of_mem_space hspace (.inr rfl)
  | true =>
    exact .trans (.word hpub isLayoutBlank_of_mem_space hspace (.inr rfl))
      (.word hconst isLayoutBlank_of_mem_space hspace (.inr hlast))

/-- Behind the declaring word, a name is declared. -/
theorem passes_name (hname : IsWord isLetter isNameChar name) : Passes p (name ++ " ") rest
    ⟨0, ⟨ds, .unnamed pub⟩⟩ ⟨0, .named ds pub name p.line⟩ [] := by
  have hkeyword : (constantWords pub).getLast?.bind DeclKind.ofKeyword? = some .const := by
    cases pub <;> decide
  have hcontains : (constantWords pub).contains "pub".toList = pub := by
    cases pub <;> decide
  refine .outside (takes_name hname (by rintro _ ⟨⟩; decide)) isLayoutBlank_of_mem_space
    (by decide) ?_
  rw [Scan.step_name (.inl rfl), Scan.name_of_keyword rfl hkeyword (nameText_of_name rfl)]
  simp only [Statement.unnamed, hcontains, Scan.named, Decl.constant]
  rfl

/-- **The beginning of a constant declares it.** -/
theorem passes_constantText (hname : IsWord isLetter isNameChar name) (hp : p.line = line) :
    Passes p (constantText pub name) rest ⟨0, ⟨ds, {}⟩⟩ ⟨0, .named ds pub name line⟩ [] := by
  have hequals : IsWord isOperator isOperator "=" :=
    isWord_of_all (c := '=') (t := []) (by decide) (by decide)
  have hline : (p.advance (unnamedText pub)).line = line := by
    rw [Position.line_advance, hp]
    cases pub <;> rfl
  rw [← hline]
  exact .trans passes_unnamedText (.trans (passes_name hname)
    (.operators hequals isLayoutBlank_of_mem_space (by rintro _ ⟨⟩; decide) rfl))

theorem newline_notMem_constantText (hname : '\n' ∉ name) : '\n' ∉ constantText pub name := by
  have hfront : '\n' ∉ unnamedText pub := by cases pub <;> decide
  exact List.not_mem_append hfront
    (List.not_mem_append (List.not_mem_append hname (by decide)) (by decide))

/-! ## Where the lexer stops -/

theorem IsQuotedPart.append {quote : Char} (hs : IsQuotedPart quote s) (ht : IsQuotedPart quote t) :
    IsQuotedPart quote (s ++ t) := by
  induction hs with
  | nil => exact ht
  | escape hc _ ih => exact .escape hc ih
  | plain hquote hslash hline _ ih => exact .plain hquote hslash hline ih

theorem quotedLength_newline (h : IsQuotedPart '"' s) :
    quotedLength '"' (s ++ '\n' :: rest) = none := by
  induction h with
  | nil =>
    rw [List.nil_append, quotedLength, if_neg (by decide), if_pos (.inl rfl)]
    exact fun _ _ h _ => absurd h (by decide)
  | escape hc _ ih =>
    rw [List.cons_append, List.cons_append, quotedLength, if_neg hc, ih]
    rfl
  | plain hquote hslash hline _ ih =>
    rw [List.cons_append, quotedLength, if_neg hquote, if_neg (not_or.mpr ⟨hline, hslash⟩), ih]
    · rfl
    · exact fun _ _ h _ => absurd h hslash

/-- A literal that is open where its line ends is none. -/
theorem isUnmatched_of_isQuotedPart (h : IsQuotedPart '"' s) :
    IsUnmatched ('"' :: (s ++ '\n' :: rest)) := by
  refine ⟨List.cons_ne_nil _ _, fun k s' rest' heq hs' => ?_⟩
  have hstring : k = .string := by
    obtain ⟨c, r, rfl, hc⟩ := hs'.exists_initial
    obtain ⟨rfl, -⟩ := List.cons.inj heq
    exact eq_of_isInitial_mark (by decide) hc rfl
  subst hstring
  obtain ⟨part, hpart, rfl⟩ := hs'
  have htail : part ++ '"' :: rest' = s ++ '\n' :: rest := by
    simpa using (List.cons.inj heq).2
  have hnone : quotedLength '"' (s ++ '\n' :: rest) = none := quotedLength_newline h
  rw [← htail, quotedLength_append hpart (by decide)] at hnone
  cases hnone

/-- No terminal starts with white space that is no layout. -/
theorem isUnmatched_of_isBlank (hblank : Text.isBlank c) (hlayout : ¬ isLayoutBlank c) :
    IsUnmatched (c :: rest) := by
  refine ⟨List.cons_ne_nil _ _, fun k s' rest' heq hs' => hlayout ?_⟩
  obtain ⟨d, r, rfl, hd⟩ := hs'.exists_initial
  obtain ⟨rfl, -⟩ := List.cons.inj heq
  obtain rfl := hs'.eq_blank rfl hblank
  exact hd

/-! ## Whole sources -/

/-- **Parts that pass make a source that parses**, if they end outside of groups. -/
theorem Passes.parse_eq (h : Passes {} t [] {} ⟨0, sc⟩ ts) :
    parse t = .ok ⟨sc.decls, Text.distinct (ts.filter isZigFile)⟩ := by
  obtain ⟨toks, hlex, hfold, himports⟩ := h
  have hnil : ∀ q, lexFrom q [] = ⟨[], none⟩ := fun q => by rw [lexFrom]
  have hbare : (lexFrom {} t).bare = (Lexed.mk [] none).bare.after toks := by
    rw [List.append_nil, hnil] at hlex
    exact hlex
  obtain ⟨hstop, htokens⟩ := Lexed.of_bare hbare
  rw [parse_eq_ok_iff_holds]
  refine ⟨hstop, sc, ts, ?_, ?_, rfl⟩
  · change (lexFrom {} t).tokens.foldlM _ _ = _
    rw [htokens]
    simpa [visible] using hfold
  · change importTargets (lexFrom {} t).tokens = _
    rw [htokens]
    simpa [visible] using himports

/-- **What is behind a part that passes is read to the end.** -/
theorem Passes.of_parse {parsed : Parsed} (h : Passes {} t u {} l ts)
    (hparse : parse (t ++ u) = .ok parsed) :
    let lexed := lexFrom (Position.advance {} t) u
    lexed.stop = none ∧ (∃ sc, lexed.tokens.foldlM Level.step l = some ⟨0, sc⟩) ∧
      ∃ us, importTargets lexed.tokens = .ok us := by
  obtain ⟨toks, hlex, hfold, -⟩ := h
  obtain ⟨hstop, sc, targets, hall, htargets, -⟩ := parse_eq_ok_iff_holds.mp hparse
  obtain ⟨hrest, htokens⟩ := Lexed.of_bare hlex
  have hsplit : (lex (t ++ u)).tokens =
      toks ++ (lexFrom (Position.advance {} t) u).tokens := htokens
  rw [hsplit, List.foldlM_append, hfold] at hall
  rw [hsplit] at htargets
  obtain ⟨_, us, -, hus, -⟩ := importTargets_append_eq_ok_iff.mp htargets
  exact ⟨hrest.symm.trans hstop, ⟨sc, hall⟩, us, hus⟩

/-- Behind a part that passes, a terminal matches. -/
theorem Passes.not_isUnmatched {parsed : Parsed} (h : Passes {} t u {} l ts)
    (hparse : parse (t ++ u) = .ok parsed) : ¬ IsUnmatched u := by
  intro hu
  have hstop := (h.of_parse hparse).1
  rw [lexFrom_of_isUnmatched hu] at hstop
  cases hstop

/-- Where a text starts does not matter to the terminals of its tokens. -/
theorem map_terminal_lexFrom (p : Position) (t : Text) :
    (lexFrom p t).stop.isNone = (lex t).stop.isNone ∧
    (lexFrom p t).tokens.map Token.terminal = (lex t).tokens.map Token.terminal := by
  have hplace : (lexFrom p t).place (fun _ => ({} : Position)) = (lex t).place fun _ => {} :=
    lexFrom_place (fun _ _ _ _ => rfl) rfl
  have hterminals : ∀ l : Lexed, l.tokens.map Token.terminal =
      (visible (l.place fun _ => {}).lexemes).map Token.terminal := by
    intro l
    change _ = (visible (l.lexemes.map _)).map _
    rw [visible_place, List.map_map]
    rfl
  constructor
  · have hstop := congrArg (fun l => l.stop.isNone) hplace
    simpa [Lexed.place] using hstop
  · rw [hterminals, hplace, ← hterminals]

/-- **Behind a part that passes, the groups that are open are closed.** -/
theorem Passes.closings_eq {parsed : Parsed} (h : Passes {} t u {} l ts)
    (hparse : parse (t ++ u) = .ok parsed) :
    (lex u).stop = none ∧ closings (lex u).tokens = l.depth + openings (lex u).tokens := by
  obtain ⟨hstop, ⟨sc, hfold⟩, -⟩ := h.of_parse hparse
  obtain ⟨hnone, hterminals⟩ := map_terminal_lexFrom (Position.advance {} t) u
  have hcount : ∀ k : Terminal, (lexFrom (Position.advance {} t) u).tokens.countP (·.terminal = k) =
      (lex u).tokens.countP (·.terminal = k) := by
    intro k
    have hmap := congrArg (List.countP (· = k)) hterminals
    rwa [List.countP_map, List.countP_map] at hmap
  have hdepth := Level.depth_foldlM hfold
  rw [openings, closings, hcount, hcount, Nat.zero_add] at hdepth
  rw [hstop] at hnone
  exact ⟨Option.isNone_iff_eq_none.mp hnone.symm, hdepth⟩

end ZigNif.Source
