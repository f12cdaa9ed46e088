import ZigNif.Proofs.Source.Call
import ZigNif.Proofs.Source.Level

/-!
# Proofs/Source/Comment — a comment put into white space

A comment on a line of its own, put into white space between lexemes, changes the places of tokens
and nothing else.  Put into the white space of an import call it takes the call apart: the call is
read no longer, and the source can be read at all only if all white space of the call is layout.
-/

namespace ZigNif.Source

variable {k : Terminal} {s s' t c y u v lit w rest : Text} {ch : Char} {p q : Position}
  {l : Token} {before after toks toks' : List Token}

/-! ## Tokens without their places -/

/-- The token without its place. -/
def Token.unplaced (tok : Token) : Token := tok.place fun _ => ⟨0, 0, 0⟩

/-- The declaration without its line. -/
def Decl.unlined (d : Decl) : Decl := d.reline fun _ => 0

/-- Tokens that are read alike but for their places yield declarations that are alike but for their
lines. -/
theorem exists_fold_of_unplaced {scan : Scan}
    (h : (toks.map Token.unplaced).foldlM Level.step {} =
      (toks'.map Token.unplaced).foldlM Level.step {})
    (hfold : toks.foldlM Level.step {} = some ⟨0, scan⟩) :
    ∃ scan', toks'.foldlM Level.step {} = some ⟨0, scan'⟩ ∧
      scan'.decls.map Decl.unlined = scan.decls.map Decl.unlined := by
  have hplace : ∀ toks : List Token, (toks.map Token.unplaced).foldlM Level.step {} =
      (toks.foldlM Level.step {}).map (Level.put [] fun _ => 0) := by
    intro toks
    have hput : (toks.map Token.unplaced).foldlM Level.step (Level.put [] (fun _ => 0) {}) = _ :=
      Level.foldlM_place (f := fun _ => ⟨0, 0, 0⟩) fun _ => rfl
    exact hput
  rw [hplace, hplace, hfold] at h
  obtain ⟨⟨d, scan'⟩, hfold', heq⟩ := Option.map_eq_some_iff.mp h.symm
  obtain ⟨hd, hscan⟩ := Level.mk.inj heq
  obtain rfl : d = 0 := hd
  exact ⟨scan', hfold', (Scan.mk.inj hscan).1⟩

/-- Where a text starts does not count but for places. -/
theorem lexFrom_unplaced (p q : Position) (t : Text) :
    ((lexFrom p t).stop = none ↔ (lexFrom q t).stop = none) ∧
      (visible (lexFrom p t).lexemes).map Token.unplaced =
        (visible (lexFrom q t).lexemes).map Token.unplaced := by
  have hplace := lexFrom_place (t := t) (p := p) (q := q) (f := fun _ => ⟨0, 0, 0⟩)
    (g := fun _ => ⟨0, 0, 0⟩) (fun _ _ _ _ => rfl) rfl
  obtain ⟨hlexemes, hstop⟩ := Lexed.mk.inj hplace
  constructor
  · rw [← Option.map_eq_none_iff, hstop, Option.map_eq_none_iff]
  · have hvisible := congrArg visible hlexemes
    rwa [visible_place, visible_place] at hvisible

/-! ## Places in white space -/

/-- The place in the lexeme is in a run of white space, or at an end of one.  The lexeme is no
literal, quoted name, multiline string or comment, and the place is not in the literal of an import
call. -/
structure IsGap (l : Token) (s s' : Text) : Prop where
  text : l.text = s ++ s'
  terminal : l.terminal ∉
    [.string, .char, .quotedName, .multilineString, .comment, .docComment]
  white : (∃ ch ∈ s.getLast?, Text.isBlank ch) ∨ ∃ ch ∈ s'.head?, Text.isBlank ch
  literal : '"' ∉ s ∨ '"' ∉ s'

/-- The source with a comment line put in at the place. -/
def commented (before : List Token) (s c s' : Text) (after : List Token) : Text :=
  before.flatMap Token.text ++
    (s ++ (commentLine c ++ (s' ++ after.flatMap Token.text)))

/-- Only white space, import calls, literals, quoted names, multiline strings and comments hold white
space. -/
theorem Terminal.Spells.not_isBlank (h : k.Spells s rest) (hk : k ∉
      [importCall, blank, string, char, quotedName, multilineString, comment, docComment])
    (hch : ch ∈ s) : ¬ Text.isBlank ch := by
  have hmark : ∀ d ∈ ['@', '\x7b', '\x7d', ';', '/', '.'], ¬ Text.isBlank d :=
    List.all_iff_forall_prop.mp (by decide)
  have hname : isLetter ch ∨ isNumeric ch ∨ isNameChar ch → ¬ Text.isBlank ch := by
    refine fun h hblank => Terminal.not_isNameChar_of_isBlank hblank ?_
    rcases h with h | h | h <;> simp_all [isNameChar]
  cases k with
  | builtin =>
    obtain ⟨r, rfl, hr⟩ := h
    rcases List.mem_cons.mp hch with rfl | hch
    · exact hmark _ (by decide)
    · exact hname ((hr.of_mem hch).imp_right .inr)
  | name => exact hname ((IsWord.of_mem h hch).imp_right .inr)
  | leftBrace | rightBrace | semicolon =>
    obtain rfl := h
    obtain rfl := List.mem_singleton.mp hch
    exact hmark _ (by decide)
  | other =>
    rcases h with h | h | rfl
    · rcases h.of_mem hch with hnumeric | hnumeric
      · exact hname (.inr (.inl hnumeric))
      · rcases Bool.or_eq_true_iff.mp hnumeric with hchar | hpoint
        · exact hname (.inr (.inr hchar))
        · rw [beq_iff_eq.mp hpoint]
          exact hmark _ (by decide)
    · exact (Terminal.isOperator_iff.mp (or_self_iff.mp (h.of_mem hch))).1
    · obtain rfl := List.mem_singleton.mp hch
      exact hmark _ (by decide)
  | _ => exact absurd (by decide) hk

/-- Of the lexemes in question, only white space and import calls hold white space. -/
theorem IsGap.eq_blank_or_importCall (h : IsGap l s s') (hl : l.terminal.Spells l.text rest) :
    l.terminal = .blank ∨ l.terminal = .importCall := by
  obtain ⟨ch, hch, hblank⟩ : ∃ ch ∈ l.text, Text.isBlank ch := by
    rw [h.text]
    rcases h.white with ⟨ch, hch, hblank⟩ | ⟨ch, hch, hblank⟩
    · exact ⟨ch, List.mem_append_left _ (List.mem_of_getLast? hch), hblank⟩
    · exact ⟨ch, List.mem_append_right _ (List.mem_of_head? hch), hblank⟩
  by_contra hne
  obtain ⟨hne, hne'⟩ := not_or.mp hne
  refine hl.not_isBlank (fun hmem => ?_) hch hblank
  rcases List.mem_cons.mp hmem with hmem | hmem
  · exact hne' hmem
  · rcases List.mem_cons.mp hmem with hmem | hmem
    · exact hne hmem
    · exact h.terminal hmem

/-! ## In front of the place -/

/-- The source is what is in front of the place and what is behind it. -/
theorem IsGap.eq_text (h : IsGap l s s') (hcut : Cut [] t (before ++ l :: after)) :
    t = before.flatMap Token.text ++ (s ++ (s' ++ after.flatMap Token.text)) := by
  rw [← hcut.flatMap_text, List.flatMap_append, List.flatMap_cons, h.text, List.append_assoc]

/-- No import call reaches from in front of the comment into it. -/
theorem not_isImportCall_of_comment {e r : Text} (hc : IsPlainComment c) (he : e <+: c ++ r) :
    ¬ IsImportCall Text.isBlank (s ++ '\n' :: e) := by
  intro hcall
  obtain ⟨d, hd, hne⟩ := hcall.exists_head
  obtain ⟨e, rfl⟩ := List.head?_eq_some_iff.mp hd
  obtain ⟨⟨r', rfl, -⟩, -⟩ := hc
  exact hne (List.cons_prefix_cons.mp he).1

/-- **What is in front of the comment is read as before.** -/
theorem bare_lex_commented (hcut : Cut [] t (before ++ l :: after)) (h : IsGap l s s')
    (hc : IsPlainComment c) : (lex (commented before s c s' after)).bare =
      (lexFrom (.behind (before.flatMap Token.text))
        (s ++ (commentLine c ++ (s' ++ after.flatMap Token.text)))).bare.after (visible before) := by
  have hline : commentLine c ++ (s' ++ after.flatMap Token.text) =
      '\n' :: (c ++ ('\n' :: (s' ++ after.flatMap Token.text))) := by
    simp [commentLine]
  obtain rfl := h.eq_text hcut
  rw [commented, hline]
  refine bare_lexFrom_newline hcut rfl (fun hhead hlast => ?_) fun ls _ e he => ?_
  · -- the white space is in front of the place or behind it
    rcases h.white with ⟨ch, hch, hblank⟩ | ⟨ch, hch, hblank⟩
    · rw [List.getLast?_append, Option.mem_def.mp hch] at hlast
      obtain rfl : ch = '/' := Option.some.inj hlast
      exact absurd hblank (by decide)
    · rw [List.head?_append, Option.mem_def.mp hch] at hhead
      obtain rfl : ch = '/' := Option.some.inj hhead
      exact absurd hblank (by decide)
  · rw [← List.append_assoc]
    exact not_isImportCall_of_comment hc he

/-- Behind a lexeme the lexer reads what it reads anywhere else. -/
theorem lexFrom_behind (hcut : Cut [] t (before ++ l :: after)) (p : Position) :
    (lexFrom p (after.flatMap Token.text)).stop = none ∧
      (visible (lexFrom p (after.flatMap Token.text)).lexemes).map Token.unplaced =
        (visible after).map Token.unplaced := by
  have hafter := hcut.append_right
  rw [List.flatMap_cons] at hafter
  have hlex := lexFrom_eq_iff.mpr hafter.of_cons.2.2
  have hunplaced := lexFrom_unplaced p (.behind ([] ++ before.flatMap Token.text ++ l.text))
    (after.flatMap Token.text)
  rw [hlex] at hunplaced
  exact ⟨hunplaced.1.mpr rfl, hunplaced.2⟩

/-! ## White space between lexemes -/

/-- **Between lexemes a comment moves tokens and changes nothing else.** -/
theorem lex_commented_blank (hcut : Cut [] t (before ++ l :: after)) (h : IsGap l s s')
    (hc : IsPlainComment c) (hl : l.terminal = .blank) :
    (lex (commented before s c s' after)).stop = none ∧
      (lex (commented before s c s' after)).tokens.map Token.unplaced =
        (visible (before ++ l :: after)).map Token.unplaced := by
  obtain ⟨rest, htakes⟩ := hcut.exists_takes (l := l) (by simp)
  have hlayout : ∀ d ∈ s ++ s', isLayoutBlank d := by
    have hspells := htakes.spells
    rw [hl, h.text] at hspells
    exact (isWord_self_iff.mp hspells).2
  obtain ⟨hs, hs'⟩ := List.forall_mem_append.mp hlayout
  have hskip : IsLayout (after.flatMap Token.text) (s ++ (commentLine c ++ s')) :=
    (isLayout_of_blanks hs).append
      (((isFiller_commentLine hc).isLayout _).append (isLayout_of_blanks hs'))
  have hbare := bare_lex_commented hcut h hc
  rw [← List.append_assoc (commentLine c), ← List.append_assoc s, bare_lexFrom_layout hskip] at hbare
  obtain ⟨hstop, htokens⟩ := lexFrom_behind hcut
    ((Position.behind (before.flatMap Token.text)).advance (s ++ (commentLine c ++ s')))
  obtain ⟨hfirst, hall⟩ := Lexed.of_bare hbare
  refine ⟨hfirst.trans hstop, ?_⟩
  have hblank : visible (l :: after) = visible after := by
    rw [visible, List.filter_cons_of_neg (by simp [hl, Terminal.isLayout])]
    rfl
  rw [hall, visible_append, hblank, List.map_append, List.map_append, htokens]

/-! ## White space of an import call -/

/-- A parenthesis in front of a text becomes a token, together with the punctuation that the text
starts with. -/
theorem lexFrom_parenthesis (p q : Position) (y : Text) :
    ((lexFrom p (")" ++ y)).stop = none ↔ (lexFrom q y).stop = none) ∧
    ∃ tok own rest, tok.terminal = .other ∧ (∀ o ∈ own, o.terminal = .other) ∧
      (visible (lexFrom q y).lexemes).map Token.unplaced = own ++ rest ∧
      (visible (lexFrom p (")" ++ y)).lexemes).map Token.unplaced = tok :: rest := by
  have hops : ∀ d ∈ y.takeWhile isOperator, isOperator d := fun d hd => List.mem_takeWhile_imp hd
  have hrest : ∀ d ∈ (y.dropWhile isOperator).head?, ¬ isOperator d := by
    intro d hd
    have hhead := List.head?_dropWhile_not isOperator y
    rw [Option.mem_def.mp hd] at hhead
    simpa using hhead
  have hsplit := List.takeWhile_append_dropWhile (p := isOperator) (l := y)
  generalize y.takeWhile isOperator = ops at hops hsplit
  generalize y.dropWhile isOperator = y' at hrest hsplit
  subst hsplit
  have hclose : Terminal.other.Takes (")" ++ ops) y' :=
    takes_operators ⟨')', ops, rfl, by decide, hops⟩ hrest
  have hlex := lexFrom_of_takes (p := p) hclose
  rw [List.append_assoc] at hlex
  rw [hlex]
  by_cases hne : ops = []
  · subst hne
    obtain ⟨hstop, htokens⟩ := lexFrom_unplaced (p.advance (")" ++ ([] : Text))) q y'
    exact ⟨hstop, _, [], _, rfl, nofun, rfl, congrArg _ htokens⟩
  · obtain ⟨d, r, rfl⟩ := List.exists_cons_of_ne_nil hne
    have hopen : Terminal.other.Takes (d :: r) y' :=
      takes_operators ⟨d, r, rfl, hops d List.mem_cons_self, fun d' hd' =>
        hops d' (List.mem_cons_of_mem d hd')⟩ hrest
    rw [lexFrom_of_takes hopen]
    obtain ⟨hstop, htokens⟩ :=
      lexFrom_unplaced (p.advance (")" ++ (d :: r))) (q.advance (d :: r)) y'
    refine ⟨hstop, _, [Token.unplaced ⟨.other, d :: r, q⟩], _, rfl, ?_, rfl, congrArg _ htokens⟩
    exact List.forall_mem_singleton.mpr rfl

/-- Where the parts of an import call are read one by one, the lexer goes on behind them if the white
space of the call is layout, and they leave tokens of their own. -/
theorem lexFrom_opened {ins g₁ g₂ g₃ call : Text} (hins : IsFiller ins) (hg₁ : IsOpened ins u g₁)
    (hg₂ : IsOpened ins v g₂) (hg₃ : IsOpened ins w g₃) (hu : ∀ d ∈ u, Text.isBlank d)
    (hv : ∀ d ∈ v, Text.isBlank d) (hlit : IsQuoted '"' lit) (hw : ∀ d ∈ w, Text.isBlank d)
    (htext : call = "@import" ++ (g₁ ++ ("(" ++ (g₂ ++ (lit ++ (g₃ ++ (")" ++ y)))))))
    (hno : ∀ s₀ rest', s₀ ++ rest' = call → ¬ IsImportCall Text.isBlank s₀) :
    ((lexFrom p call).stop = none ↔ ((∀ d ∈ u, isLayoutBlank d) ∧ (∀ d ∈ v, isLayoutBlank d) ∧
      ∀ d ∈ w, isLayoutBlank d) ∧ (lexFrom {} y).stop = none) ∧
    ((lexFrom p call).stop = none → ∃ parts own rest, parts ≠ [] ∧
      (∀ tok ∈ parts ++ own, tok.terminal ∈ [.builtin, .other, .string]) ∧
      (visible (lexFrom {} y).lexemes).map Token.unplaced = own ++ rest ∧
      (visible (lexFrom p call).lexemes).map Token.unplaced = parts ++ rest) := by
  subst htext
  have hquote : ∀ d ∈ (lit ++ (g₃ ++ (")" ++ y))).head?, ¬ isOperator d := by
    obtain ⟨part, -, rfl⟩ := hlit
    rintro _ ⟨⟩
    decide
  have hbuiltin := reads_builtin (p := p) hg₁ hins hu hno (by rintro _ ⟨⟩; decide)
  generalize Position.advance _ _ = p₁ at hbuiltin
  have hparenthesis := reads_parenthesis (p := p₁) hg₂ hins hv hquote
  generalize Position.advance _ _ = p₂ at hparenthesis
  have hstring := reads_string (p := p₂) (r := ")" ++ y) hg₃ hins hw hlit
  generalize Position.advance _ _ = p₃ at hstring
  obtain ⟨hclose, tok, own, rest, htok, hown, hvisible, htokens⟩ := lexFrom_parenthesis p₃ {} y
  refine ⟨?_, fun hnone => ?_⟩
  · rw [hbuiltin.stop, hparenthesis.stop, hstring.stop, hclose]
    simp only [and_assoc]
  · obtain ⟨hstop₁, htokens₁⟩ := hbuiltin.visible_eq hnone
    obtain ⟨hstop₂, htokens₂⟩ := hparenthesis.visible_eq hstop₁
    obtain ⟨-, htokens₃⟩ := hstring.visible_eq hstop₂
    refine ⟨[⟨.builtin, "@import", ⟨0, 0, 0⟩⟩, ⟨.other, "(", ⟨0, 0, 0⟩⟩, ⟨.string, lit, ⟨0, 0, 0⟩⟩,
      tok], own, rest, List.cons_ne_nil _ _, fun o ho => ?_, hvisible, ?_⟩
    · simp only [List.cons_append, List.nil_append, List.mem_cons] at ho
      rcases ho with rfl | rfl | rfl | rfl | ho
      · decide
      · decide
      · simp
      · simp [htok]
      · simp [hown o ho]
    · rw [htokens₁, htokens₂, htokens₃, List.map_cons, List.map_cons, List.map_cons, htokens]
      rfl

/-- No import call is left where the comment was put into one. -/
theorem not_isImportCall_of_commented {s₀ rest' : Text} (h : IsGap l s s') (hc : IsPlainComment c)
    (hcall : IsImportCall Text.isBlank l.text) (heq : s₀ ++ rest' = s ++ (commentLine c ++ rest)) :
    ¬ IsImportCall Text.isBlank s₀ := by
  intro hs₀
  have hline : commentLine c ++ rest = '\n' :: (c ++ ('\n' :: rest)) := by simp [commentLine]
  rw [hline] at heq
  rcases ends_or_reaches heq with ⟨d, rfl, -⟩ | ⟨e, rfl, he⟩
  · -- it would be the call itself, and this ends with a parenthesis
    have hall : s₀ = l.text :=
      hs₀.eq_of_append hcall (by rw [h.text]; simp : s₀ ++ (d ++ s') = l.text ++ [])
    have hsplit := h.text
    rw [← hall, List.append_assoc, List.self_eq_append_right, List.append_eq_nil_iff] at hsplit
    obtain ⟨rfl, rfl⟩ := hsplit
    obtain ⟨u, v, lit, w, -, -, -, -, rfl⟩ := hs₀
    rcases h.white with ⟨ch, hch, hblank⟩ | ⟨_, ⟨⟩, -⟩
    rw [List.append_nil, getLast?_importText] at hch
    obtain rfl := Option.some.inj hch
    exact absurd hblank (by decide)
  · exact not_isImportCall_of_comment hc ⟨rest', he.symm⟩ hs₀

/-- **In an import call a comment takes the call apart.**  The lexer goes on behind it if the white
space of the call is layout. -/
theorem lex_commented_call (hcut : Cut [] t (before ++ l :: after)) (h : IsGap l s s')
    (hc : IsPlainComment c) (hu : ∀ d ∈ u, Text.isBlank d) (hv : ∀ d ∈ v, Text.isBlank d)
    (hlit : IsQuoted '"' lit) (hw : ∀ d ∈ w, Text.isBlank d) (hl : l.text = importText u v lit w) :
    ((lex (commented before s c s' after)).stop = none ↔
      (∀ d ∈ u, isLayoutBlank d) ∧ (∀ d ∈ v, isLayoutBlank d) ∧ ∀ d ∈ w, isLayoutBlank d) ∧
    ((lex (commented before s c s' after)).stop = none → ∃ parts own rest, parts ≠ [] ∧
      (∀ tok ∈ parts ++ own, tok.terminal ∈ [.builtin, .other, .string]) ∧
      (visible after).map Token.unplaced = own ++ rest ∧
      (lex (commented before s c s' after)).tokens.map Token.unplaced =
        (visible before).map Token.unplaced ++ (parts ++ rest)) := by
  obtain ⟨g₁, g₂, g₃, hopened, hg₁, hg₂, hg₃⟩ :=
    exists_opened hlit (hl.symm.trans h.text) h.white h.literal (commentLine c)
  have htext : s ++ (commentLine c ++ (s' ++ after.flatMap Token.text)) = "@import" ++ (g₁ ++
      ("(" ++ (g₂ ++ (lit ++ (g₃ ++ (")" ++ after.flatMap Token.text)))))) := by
    rw [← List.append_assoc (commentLine c), ← List.append_assoc s, hopened]
    simp [importText_eq]
  obtain ⟨hstop, hparts⟩ := lexFrom_opened (p := .behind (before.flatMap Token.text))
    (isFiller_commentLine hc) hg₁ hg₂ hg₃ hu hv hlit hw htext fun s₀ rest' heq =>
      not_isImportCall_of_commented h hc ⟨u, v, lit, w, hu, hv, hlit, hw, hl⟩ heq
  obtain ⟨hafter, hread⟩ := lexFrom_behind hcut {}
  obtain ⟨hfirst, hall⟩ := Lexed.of_bare (bare_lex_commented hcut h hc)
  refine ⟨?_, fun hnone => ?_⟩
  · rw [hfirst]
    exact hstop.trans (and_iff_left hafter)
  · obtain ⟨parts, own, rest, hne, hterminal, hown, htokens⟩ := hparts (hfirst.symm.trans hnone)
    refine ⟨parts, own, rest, hne, hterminal, hread.symm.trans hown, ?_⟩
    rw [hall, List.map_append, htokens]

/-! ## What the source holds -/

theorem importTargets_unplaced_eq_ok_iff {ts : List Text} :
    importTargets (toks.map Token.unplaced) = .ok ts ↔ importTargets toks = .ok ts :=
  importTargets_place_eq_ok_iff (f := fun _ => ⟨0, 0, 0⟩)

/-- Where a call is taken apart, the tokens hold the same declarations and the other imports. -/
theorem exists_holds_of_parts {scan : Scan} {parts own rest : List Token}
    {earlier later : List Text} (himport : l.terminal = .importCall)
    (hfold : (visible (before ++ l :: after)).foldlM Level.step {} = some ⟨0, scan⟩)
    (hearlier : importTargets before = .ok earlier) (hlater : importTargets after = .ok later)
    (hne : parts ≠ []) (hparts : ∀ tok ∈ parts ++ own, tok.terminal ∈ [.builtin, .other, .string])
    (hafter : (visible after).map Token.unplaced = own ++ rest)
    (htoks : toks.map Token.unplaced = (visible before).map Token.unplaced ++ (parts ++ rest)) :
    ∃ decls : List Decl, Holds toks ⟨decls, Text.distinct ((earlier ++ later).filter isZigFile)⟩ ∧
      decls.map Decl.unlined = scan.decls.map Decl.unlined := by
  obtain ⟨hparts, hown⟩ := List.forall_mem_append.mp hparts
  have hmute : ∀ k ∈ [.builtin, .other, .string], k ∈ Terminal.mute ∧ k ≠ .importCall := by decide
  have hcall : visible (l :: after) = l :: visible after :=
    List.filter_cons_of_pos (by simp [himport, Terminal.isLayout])
  have hwhole : (visible (before ++ l :: after)).map Token.unplaced =
      (visible before).map Token.unplaced ++ ((l.unplaced :: own) ++ rest) := by
    rw [visible_append, hcall, List.map_append, List.map_cons, hafter, List.cons_append]
  have hfold' : ((visible (before ++ l :: after)).map Token.unplaced).foldlM Level.step {} =
      (toks.map Token.unplaced).foldlM Level.step {} := by
    rw [hwhole, htoks]
    refine Level.foldlM_replace (List.cons_ne_nil _ _) ?_ hne fun tok htok =>
      (hmute _ (hparts tok htok)).1
    refine List.forall_mem_cons.mpr ⟨?_, fun tok htok => (hmute _ (hown tok htok)).1⟩
    change l.terminal ∈ _
    rw [himport]
    decide
  obtain ⟨scan', hscan', hdecls⟩ := exists_fold_of_unplaced hfold' hfold
  refine ⟨scan'.decls, ⟨scan', earlier ++ later, hscan', ?_, rfl⟩, hdecls⟩
  rw [← importTargets_unplaced_eq_ok_iff, htoks, importTargets_append_eq_ok_iff]
  refine ⟨earlier, later, ?_, ?_, rfl⟩
  · rwa [importTargets_unplaced_eq_ok_iff, importTargets_visible]
  · have hrest : importTargets (own ++ rest) = .ok later := by
      rwa [← hafter, importTargets_unplaced_eq_ok_iff, importTargets_visible]
    rw [importTargets_append_of_ne fun tok htok => (hmute _ (hown tok htok)).2] at hrest
    rwa [importTargets_append_of_ne fun tok htok => (hmute _ (hparts tok htok)).2]

/-- Between lexemes the source with the comment holds what the source held. -/
theorem exists_parse_commented_blank {scan : Scan} {targets : List Text}
    (hcut : Cut [] t (before ++ l :: after)) (h : IsGap l s s') (hc : IsPlainComment c)
    (hl : l.terminal = .blank)
    (hfold : (visible (before ++ l :: after)).foldlM Level.step {} = some ⟨0, scan⟩)
    (htargets : importTargets (visible (before ++ l :: after)) = .ok targets) :
    ∃ decls : List Decl, parse (commented before s c s' after) =
        .ok ⟨decls, Text.distinct (targets.filter isZigFile)⟩ ∧
      decls.map Decl.unlined = scan.decls.map Decl.unlined := by
  obtain ⟨hstop, htokens⟩ := lex_commented_blank hcut h hc hl
  obtain ⟨scan', hscan', hdecls⟩ :=
    exists_fold_of_unplaced (congrArg (List.foldlM Level.step {}) htokens.symm) hfold
  rw [← importTargets_unplaced_eq_ok_iff, ← htokens, importTargets_unplaced_eq_ok_iff] at htargets
  exact ⟨scan'.decls, parse_eq_ok_iff_holds.mpr ⟨hstop, scan', targets, hscan', htargets, rfl⟩, hdecls⟩

/-- Behind a comment in an import call the lexer goes on if the white space of the call is layout. -/
theorem stop_commented_call_iff (hcut : Cut [] t (before ++ l :: after)) (h : IsGap l s s')
    (hc : IsPlainComment c) (hcall : IsImportCall Text.isBlank l.text) :
    (lex (commented before s c s' after)).stop = none ↔ IsImportCall isLayoutBlank l.text := by
  constructor
  · intro hstop
    obtain ⟨u, v, lit, w, hu, hv, hlit, hw, htext⟩ := hcall
    obtain ⟨hu', hv', hw'⟩ := (lex_commented_call hcut h hc hu hv hlit hw htext).1.mp hstop
    exact ⟨u, v, lit, w, hu', hv', hlit, hw', htext⟩
  · rintro ⟨u, v, lit, w, hu, hv, hlit, hw, htext⟩
    have hblank : ∀ {g : Text}, (∀ d ∈ g, isLayoutBlank d) → ∀ d ∈ g, Text.isBlank d :=
      fun hg d hd => Terminal.isBlank_of_isLayoutBlank (hg d hd)
    exact (lex_commented_call hcut h hc (hblank hu) (hblank hv) hlit (hblank hw) htext).1.mpr
      ⟨hu, hv, hw⟩

/-- In an import call the source with the comment holds what the source held, but for the call. -/
theorem exists_parse_commented_call {scan : Scan} {earlier later : List Text}
    (hcut : Cut [] t (before ++ l :: after)) (h : IsGap l s s') (hc : IsPlainComment c)
    (himport : l.terminal = .importCall) (hcall : IsImportCall Text.isBlank l.text)
    (hfold : (visible (before ++ l :: after)).foldlM Level.step {} = some ⟨0, scan⟩)
    (hearlier : importTargets before = .ok earlier) (hlater : importTargets after = .ok later)
    (hstop : (lex (commented before s c s' after)).stop = none) :
    ∃ decls : List Decl, parse (commented before s c s' after) =
        .ok ⟨decls, Text.distinct ((earlier ++ later).filter isZigFile)⟩ ∧
      decls.map Decl.unlined = scan.decls.map Decl.unlined := by
  obtain ⟨u, v, lit, w, hu, hv, hlit, hw, htext⟩ := hcall
  obtain ⟨parts, own, rest, hne, hparts, hafter, htokens⟩ :=
    (lex_commented_call hcut h hc hu hv hlit hw htext).2 hstop
  obtain ⟨decls, hholds, hdecls⟩ :=
    exists_holds_of_parts himport hfold hearlier hlater hne hparts hafter htokens
  exact ⟨decls, parse_eq_ok_iff_holds.mpr ⟨hstop, hholds⟩, hdecls⟩

/-- **A comment in white space.**

Put in between lexemes, a comment on a line of its own changes the lines of declarations and nothing
else.  Put into an import call, it makes the source lose this import, and the source still parses if
and only if all white space of the call is layout: it holds the same declarations, and the imports
that the other calls name. -/
theorem parse_commented {parsed : Parsed} (h : parse t = .ok parsed)
    (hl : (lex t).lexemes = before ++ l :: after) (hgap : IsGap l s s') (hc : IsPlainComment c) :
    t = before.flatMap Token.text ++ (s ++ (s' ++ after.flatMap Token.text)) ∧
    (l.terminal ≠ .importCall → ∃ parsed', parse (commented before s c s' after) = .ok parsed' ∧
      parsed'.code.map Decl.unlined = parsed.code.map Decl.unlined ∧
      parsed'.dependencies = parsed.dependencies) ∧
    (l.terminal = .importCall → ∃ earlier target later, importTargets before = .ok earlier ∧
      importTarget l = .ok target ∧ importTargets after = .ok later ∧
      parsed.dependencies = Text.distinct ((earlier ++ target :: later).filter isZigFile) ∧
      ((∃ parsed', parse (commented before s c s' after) = .ok parsed') ↔
        IsImportCall isLayoutBlank l.text) ∧
      ∀ parsed', parse (commented before s c s' after) = .ok parsed' →
        parsed'.code.map Decl.unlined = parsed.code.map Decl.unlined ∧
        parsed'.dependencies = Text.distinct ((earlier ++ later).filter isZigFile)) := by
  obtain ⟨hstop, scan, targets, hfold, htargets, rfl⟩ := parse_eq_ok_iff_holds.mp h
  have hcut : Cut [] t (before ++ l :: after) := cut_iff.mpr ⟨hstop, hl⟩
  have htokens : (lex t).tokens = visible (before ++ l :: after) := congrArg visible hl
  rw [htokens] at hfold htargets
  obtain ⟨rest, htakes⟩ := hcut.exists_takes (l := l) (by simp)
  refine ⟨hgap.eq_text hcut, fun hne => ?_, fun himport => ?_⟩
  · have hblank := (hgap.eq_blank_or_importCall htakes.spells).resolve_right hne
    obtain ⟨decls, hparse, hdecls⟩ :=
      exists_parse_commented_blank hcut hgap hc hblank hfold htargets
    exact ⟨_, hparse, hdecls, rfl⟩
  · have hcall : IsImportCall Text.isBlank l.text := by
      have hspells := htakes.spells
      rwa [himport] at hspells
    rw [importTargets_visible, importTargets_append_eq_ok_iff] at htargets
    obtain ⟨earlier, _, hearlier, htargets, rfl⟩ := htargets
    obtain ⟨target, later, htarget, hlater, rfl⟩ :=
      (importTargets_cons_eq_ok_iff himport).mp htargets
    have hparse := exists_parse_commented_call hcut hgap hc himport hcall hfold hearlier hlater
    refine ⟨earlier, target, later, hearlier, htarget, hlater, rfl, ?_, fun parsed' hparsed' => ?_⟩
    · rw [← stop_commented_call_iff hcut hgap hc hcall]
      constructor
      · rintro ⟨parsed', hparsed'⟩
        exact (parse_eq_ok_iff_holds.mp hparsed').1
      · intro hstop'
        obtain ⟨decls, hdecls, -⟩ := hparse hstop'
        exact ⟨_, hdecls⟩
    · obtain ⟨decls, hdecls, hlines⟩ := hparse (parse_eq_ok_iff_holds.mp hparsed').1
      obtain rfl := Except.ok.inj (hdecls.symm.trans hparsed')
      exact ⟨hlines, rfl⟩

/-- A documented import. -/
def documentedSource : Text := "/// d\nconst a = @import(\"a.zig\");"

/-- A comment between the documentation and the declaration does not part them. -/
theorem parse_commented_documented :
    ∃ parsed, parse (commented [⟨.docComment, "/// d", ⟨0, 1, 1⟩⟩] [] "// c" "\n"
        [⟨.name, "const", ⟨6, 2, 1⟩⟩, ⟨.blank, " ", ⟨11, 2, 6⟩⟩, ⟨.name, "a", ⟨12, 2, 7⟩⟩,
          ⟨.blank, " ", ⟨13, 2, 8⟩⟩, ⟨.other, "=", ⟨14, 2, 9⟩⟩, ⟨.blank, " ", ⟨15, 2, 10⟩⟩,
          ⟨.importCall, "@import(\"a.zig\")", ⟨16, 2, 11⟩⟩, ⟨.semicolon, ";", ⟨32, 2, 27⟩⟩]) =
        .ok parsed ∧
      parsed.code.map Decl.unlined = [⟨"a", .const, false, some "d", 0⟩] ∧
      parsed.dependencies = [("a.zig" : Text)] := by
  have hparse : parse documentedSource =
      .ok ⟨[⟨"a", .const, false, some "d", 2⟩], ["a.zig"]⟩ := by
    decide +kernel
  have hlexemes : (lex documentedSource).lexemes = [⟨.docComment, "/// d", ⟨0, 1, 1⟩⟩] ++
      ⟨.blank, "\n", ⟨5, 1, 6⟩⟩ ::
        [⟨.name, "const", ⟨6, 2, 1⟩⟩, ⟨.blank, " ", ⟨11, 2, 6⟩⟩, ⟨.name, "a", ⟨12, 2, 7⟩⟩,
          ⟨.blank, " ", ⟨13, 2, 8⟩⟩, ⟨.other, "=", ⟨14, 2, 9⟩⟩, ⟨.blank, " ", ⟨15, 2, 10⟩⟩,
          ⟨.importCall, "@import(\"a.zig\")", ⟨16, 2, 11⟩⟩, ⟨.semicolon, ";", ⟨32, 2, 27⟩⟩] := by
    decide +kernel
  have hgap : IsGap ⟨.blank, "\n", ⟨5, 1, 6⟩⟩ [] "\n" :=
    ⟨rfl, by decide, .inr ⟨'\n', rfl, by decide⟩, .inl nofun⟩
  have hcomment : IsPlainComment "// c" := by
    refine ⟨⟨" c", rfl, by decide⟩, ?_⟩
    rintro ⟨r, hr, -⟩
    exact absurd (List.cons.inj (List.cons.inj (List.cons.inj hr).2).2).1 (by decide)
  exact (parse_commented hparse hlexemes hgap hcomment).2.1 (by decide)

/-- An import call with white space. -/
def spacedSource : Text := "const a = @import( \"a.zig\");"

def spacedFront : List Token :=
  [⟨.name, "const", ⟨0, 1, 1⟩⟩, ⟨.blank, " ", ⟨5, 1, 6⟩⟩, ⟨.name, "a", ⟨6, 1, 7⟩⟩,
    ⟨.blank, " ", ⟨7, 1, 8⟩⟩, ⟨.other, "=", ⟨8, 1, 9⟩⟩, ⟨.blank, " ", ⟨9, 1, 10⟩⟩]

def spacedCall : Token := ⟨.importCall, "@import( \"a.zig\")", ⟨10, 1, 11⟩⟩

/-- With a comment behind its parenthesis, the call imports nothing. -/
theorem import_lost_of_commented :
    parse spacedSource = .ok ⟨[⟨"a", .const, false, none, 1⟩], ["a.zig"]⟩ ∧
    (lex spacedSource).lexemes = spacedFront ++ spacedCall :: [⟨.semicolon, ";", ⟨27, 1, 28⟩⟩] ∧
    IsGap spacedCall "@import(" " \"a.zig\")" ∧
    commented spacedFront "@import(" "// text" " \"a.zig\")" [⟨.semicolon, ";", ⟨27, 1, 28⟩⟩] =
      "const a = @import(\n// text\n \"a.zig\");".toList ∧
    parse "const a = @import(\n// text\n \"a.zig\");" =
      .ok ⟨[⟨"a", .const, false, none, 1⟩], []⟩ := by
  refine ⟨by decide +kernel, by decide +kernel, ?_, by decide +kernel, by decide +kernel⟩
  exact ⟨rfl, by decide, .inr ⟨' ', rfl, by decide⟩, .inl (by decide)⟩

end ZigNif.Source
