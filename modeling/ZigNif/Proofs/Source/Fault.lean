import ZigNif.Proofs.Source.Stop
import ZigNif.Proofs.Source.Unread

/-!
# Proofs/Source/Fault — where a source is faulty

A source that does not parse has a fault, and `Faulty` says which: the first of the characters that
no terminal matches and of the closing braces without an opening one, else the last token if a group
is still open, else the first quoted name at the top level whose escapes denote no text, else the
first import call whose path does not.  Parsing finds just these faults (`parse_eq_error_iff`), and
each of them stands at a place in the source.
-/

namespace ZigNif.Source

variable {t : Text} {toks : List Token} {tok : Token} {ns : List Node} {fault : Fault}

/-! ## Faults -/

/-- The source has the fault.

* No terminal matches at a place that the text can be cut to, and no brace before it is unopened.
* A closing brace has no opening one: the tokens before it are balanced.
* The whole text can be cut, but more groups are opened than closed; the place is the last token.
* The source has a tree, and a quoted name of the top level is the first that denotes no text.
* All these names do, and an import call is the first whose path denotes no text. -/
inductive Faulty (t : Text) : Fault → Prop
  | character {front rest : Text} {lexemes : List Token} : t = front ++ rest →
    CutTo rest [] t lexemes → IsUnmatched rest → IsOpening (visible lexemes) →
    Faulty t (.shape (.character (.behind front)))
  | unopened {rest : Text} {lexemes : List Token} {tok : Token} :
    CutTo rest [] t (lexemes ++ [tok]) → tok.terminal = .rightBrace →
    IsBalanced (visible lexemes) → Faulty t (.shape (.token tok.position))
  | unclosed {lexemes before : List Token} {last : Token} : Cut [] t lexemes →
    IsOpening (visible lexemes) → closings (visible lexemes) < openings (visible lexemes) →
    visible lexemes = before ++ [last] → Faulty t (.shape (.token last.position))
  | quotedName {before after : List Node} {tok : Token} {raw : Text} {e : Literal.Fault} :
    forest t = .ok (before ++ .leaf tok :: after) →
    (∀ x raw', .leaf x ∈ before → x.Quotes raw' → ∃ s, Literal.decode raw' = .ok s) →
    tok.Quotes raw → Literal.decode raw = .error e → Faulty t (.literal tok e)
  | importCall {ns : List Node} {before after : List Token} {tok : Token} {raw : Text}
    {e : Literal.Fault} : forest t = .ok ns →
    (∀ x raw', .leaf x ∈ ns → x.Quotes raw' → ∃ s, Literal.decode raw' = .ok s) →
    Node.tokensOfList ns = before ++ tok :: after →
    (∀ x ∈ before, ∀ raw', x.Imports raw' → ∃ s, Literal.decode raw' = .ok s) →
    tok.Imports raw → Literal.decode raw = .error e → Faulty t (.literal tok e)

theorem forest_eq_error_iff_faulty {e : ShapeFault} :
    forest t = .error e ↔ Faulty t (.shape e) := by
  rw [forest_eq_error_iff]
  constructor
  · rintro (⟨before, tok, after, htokens, hbalanced, hright, rfl⟩ | ⟨hopening, p, hstop, rfl⟩ |
      ⟨hopening, hstop, hless, before, last, hlast, rfl⟩)
    · obtain ⟨rest, lexemes, hcut, rfl, -⟩ := exists_tokens_eq_iff.mp ⟨after, htokens⟩
      exact .unopened hcut hright hbalanced
    · have hlex : lex t = ⟨(lex t).lexemes, some p⟩ := by rw [← hstop]
      obtain ⟨front, rest, htext, hcut, hrest, rfl⟩ := lex_eq_stopped_iff.mp hlex
      exact .character htext hcut hrest hopening
    · exact .unclosed (cut_iff.mpr ⟨hstop, rfl⟩) hopening hless hlast
  · intro h
    cases h with
    | character htext hcut hrest hopening =>
      have hlex := lex_eq_stopped_iff.mpr ⟨_, _, htext, hcut, hrest, rfl⟩
      rw [hlex]
      exact .inr (.inl ⟨hopening, _, rfl, rfl⟩)
    | @unopened rest lexemes tok hcut hright hbalanced =>
      have hvisible : tok.terminal.isLayout = false := by rw [hright]; rfl
      obtain ⟨after, htokens⟩ := exists_tokens_eq_iff.mpr ⟨rest, lexemes, hcut, rfl, hvisible⟩
      exact .inl ⟨_, _, after, htokens, hbalanced, hright, rfl⟩
    | unclosed hcut hopening hless hlast =>
      obtain ⟨hstop, rfl⟩ := cut_iff.mp hcut
      exact .inr (.inr ⟨hopening, hstop, hless, _, _, hlast, rfl⟩)

theorem parse_eq_error_cases : parse t = .error fault ↔
    (∃ e, forest t = .error e ∧ fault = .shape e) ∨
    ∃ ns, forest t = .ok ns ∧ (declarations ns = .error fault ∨
      (∃ ds, declarations ns = .ok ds) ∧ importTargets (Node.tokensOfList ns) = .error fault) := by
  cases hforest : forest t with
  | error e => simp [parse, hforest, bind, Except.bind, eq_comm]
  | ok ns =>
    simp only [parse, hforest, bind_eq_error_iff, pure, Except.pure, reduceCtorEq, false_and,
      and_false, exists_false, false_or, or_false, Except.ok.injEq, exists_eq_left',
      exists_and_right]

/-- The names among some nodes of a tree can be read if their escapes denote texts. -/
theorem forall_isReadable_iff {ms : List Node} (h : forest t = .ok ns) (hms : ms ⊆ ns) :
    (∀ n ∈ ms, n.IsReadable) ↔
      ∀ x raw, .leaf x ∈ ms → x.Quotes raw → ∃ s, Literal.decode raw = .ok s := by
  have hleaf : ∀ x, .leaf x ∈ ms → ((Node.leaf x).IsReadable ↔
      ∀ raw, x.Quotes raw → ∃ s, Literal.decode raw = .ok s) := by
    intro x hx
    obtain ⟨rest, hspells⟩ := spells_of_forest h (mem_tokensOfList_of_leaf (hms hx))
    exact isReadable_leaf_iff hspells
  constructor
  · exact fun hread x raw hx => (hleaf x hx).mp (hread _ hx) raw
  · intro hdecode n hn
    cases n with
    | group opening children closing => trivial
    | leaf x => exact (hleaf x hn).mpr fun raw => hdecode x raw hn

/-- The import calls among some tokens of a tree can be read if their paths denote texts. -/
theorem forall_importTarget_iff (h : forest t = .ok ns) (htoks : toks ⊆ Node.tokensOfList ns) :
    (∀ x ∈ toks, x.terminal = .importCall → ∃ target, importTarget x = .ok target) ↔
      ∀ x ∈ toks, ∀ raw, x.Imports raw → ∃ s, Literal.decode raw = .ok s := by
  refine forall₂_congr fun x hx => ?_
  obtain ⟨rest, hspells⟩ := spells_of_forest h (htoks hx)
  exact exists_importTarget_eq_ok_iff hspells

/-- The names of a tree can be read if their escapes denote texts. -/
theorem exists_declarations_iff_of_forest (h : forest t = .ok ns) :
    (∃ ds, declarations ns = .ok ds) ↔
      ∀ x raw, .leaf x ∈ ns → x.Quotes raw → ∃ s, Literal.decode raw = .ok s := by
  rw [exists_declarations_eq_ok_iff]
  exact forall_isReadable_iff h (List.Subset.refl ns)

/-- The first name of a tree that denotes no text is the fault of its declarations. -/
theorem declarations_eq_error_iff_of_forest (h : forest t = .ok ns) :
    declarations ns = .error fault ↔ ∃ before tok after raw e, ns = before ++ .leaf tok :: after ∧
      (∀ x raw', .leaf x ∈ before → x.Quotes raw' → ∃ s, Literal.decode raw' = .ok s) ∧
      tok.Quotes raw ∧ Literal.decode raw = .error e ∧ fault = .literal tok e := by
  rw [declarations_eq_error_iff]
  constructor
  · rintro ⟨before, tok, after, rfl, hbefore, htok⟩
    have hmem : .leaf tok ∈ before ++ .leaf tok :: after := by simp
    obtain ⟨rest, hspells⟩ := spells_of_forest h (mem_tokensOfList_of_leaf hmem)
    obtain ⟨raw, e, hraw, he, rfl⟩ := (nameText_eq_error_iff hspells).mp htok
    have hnames := (forall_isReadable_iff h (List.subset_append_left _ _)).mp hbefore
    exact ⟨before, tok, after, raw, e, rfl, hnames, hraw, he, rfl⟩
  · rintro ⟨before, tok, after, raw, e, rfl, hbefore, hraw, he, rfl⟩
    have hnames := (forall_isReadable_iff h (List.subset_append_left _ _)).mpr hbefore
    refine ⟨before, tok, after, rfl, hnames, ?_⟩
    rw [hraw.nameText_eq, decodeIn_eq_error_iff]
    exact ⟨e, he, rfl⟩

/-- The first import call of a tree whose path denotes no text is the fault of its imports. -/
theorem importTargets_eq_error_iff_of_forest (h : forest t = .ok ns) :
    importTargets (Node.tokensOfList ns) = .error fault ↔ ∃ before tok after raw e,
      Node.tokensOfList ns = before ++ tok :: after ∧
      (∀ x ∈ before, ∀ raw', x.Imports raw' → ∃ s, Literal.decode raw' = .ok s) ∧
      tok.Imports raw ∧ Literal.decode raw = .error e ∧ fault = .literal tok e := by
  rw [importTargets_eq_error_iff]
  constructor
  · rintro ⟨before, tok, after, hsplit, hbefore, hcall, htok⟩
    have hmem : tok ∈ Node.tokensOfList ns := by simp [hsplit]
    obtain ⟨rest, hspells⟩ := spells_of_forest h hmem
    obtain ⟨raw, e, hraw, he, rfl⟩ := (importTarget_eq_error_iff hspells hcall).mp htok
    have hpaths := (forall_importTarget_iff h (by simp [hsplit])).mp hbefore
    exact ⟨before, tok, after, raw, e, hsplit, hpaths, hraw, he, rfl⟩
  · rintro ⟨before, tok, after, raw, e, hsplit, hbefore, hraw, he, rfl⟩
    have hpaths := (forall_importTarget_iff h (by simp [hsplit])).mpr hbefore
    refine ⟨before, tok, after, hsplit, hpaths, hraw.1, ?_⟩
    rw [hraw.importTarget_eq, decodeIn_eq_error_iff]
    exact ⟨e, he, rfl⟩

/-- **Parsing fails with the faults of the source, and only with these.** -/
theorem parse_eq_error_iff : parse t = .error fault ↔ Faulty t fault := by
  rw [parse_eq_error_cases]
  constructor
  · rintro (⟨e, he, rfl⟩ | ⟨ns, hns, hdecl | ⟨hnames, htargets⟩⟩)
    · exact forest_eq_error_iff_faulty.mp he
    · obtain ⟨before, tok, after, raw, e, rfl, hbefore, hraw, he, rfl⟩ :=
        (declarations_eq_error_iff_of_forest hns).mp hdecl
      exact .quotedName hns hbefore hraw he
    · obtain ⟨before, tok, after, raw, e, hsplit, hbefore, hraw, he, rfl⟩ :=
        (importTargets_eq_error_iff_of_forest hns).mp htargets
      exact .importCall hns ((exists_declarations_iff_of_forest hns).mp hnames) hsplit hbefore
        hraw he
  · intro h
    cases h with
    | character htext hcut hrest hopening =>
      exact .inl ⟨_, forest_eq_error_iff_faulty.mpr (.character htext hcut hrest hopening), rfl⟩
    | unopened hcut hright hbalanced =>
      exact .inl ⟨_, forest_eq_error_iff_faulty.mpr (.unopened hcut hright hbalanced), rfl⟩
    | unclosed hcut hopening hless hlast =>
      exact .inl ⟨_, forest_eq_error_iff_faulty.mpr (.unclosed hcut hopening hless hlast), rfl⟩
    | quotedName hns hbefore hraw he =>
      refine .inr ⟨_, hns, .inl ((declarations_eq_error_iff_of_forest hns).mpr ?_)⟩
      exact ⟨_, _, _, _, _, rfl, hbefore, hraw, he, rfl⟩
    | importCall hns hnames hsplit hbefore hraw he =>
      refine .inr ⟨_, hns, .inr ⟨(exists_declarations_iff_of_forest hns).mpr hnames, ?_⟩⟩
      exact (importTargets_eq_error_iff_of_forest hns).mpr
        ⟨_, _, _, _, _, hsplit, hbefore, hraw, he, rfl⟩

/-! ## Places -/

theorem exists_place (hstop : (lex t).stop = none) (htok : tok ∈ (lex t).tokens) :
    ∃ before rest, t = before ++ rest ∧ rest ≠ [] ∧ tok.position = .behind before := by
  have htiles : Tiles [] (lex t).tokens t := tiles_lexFrom hstop
  obtain ⟨before, rest, hsplit, -, hstands⟩ := htiles.exists_stands htok
  refine ⟨before, tok.text ++ rest, ?_, ?_, hstands.position⟩
  · rw [← List.append_assoc, ← hsplit, List.nil_append]
  · exact List.append_ne_nil_of_left_ne_nil hstands.text_ne rest

/-- **A fault stands at a place in the source**: there is something behind it. -/
theorem Faulty.exists_place (h : Faulty t fault) :
    ∃ before rest, t = before ++ rest ∧ rest ≠ [] ∧ fault.position = .behind before := by
  have htree : ∀ {ns tok}, forest t = .ok ns → tok ∈ Node.tokensOfList ns →
      ∃ before rest, t = before ++ rest ∧ rest ≠ [] ∧ tok.position = .behind before := by
    intro ns tok hns htok
    obtain ⟨hstop, htokens⟩ := tokens_of_forest hns
    exact Source.exists_place hstop (htokens ▸ htok)
  cases h with
  | character htext _ hrest _ => exact ⟨_, _, htext, hrest.1, rfl⟩
  | @unopened rest lexemes tok hcut =>
    obtain ⟨hposition, hne⟩ := hcut.position_eq
    refine ⟨lexemes.flatMap Token.text, tok.text ++ rest, ?_, ?_, hposition⟩
    · rw [hcut.text_eq, List.flatMap_append, List.flatMap_singleton, List.append_assoc]
    · exact List.append_ne_nil_of_left_ne_nil hne rest
  | @unclosed lexemes before last hcut _ _ hlast =>
    obtain ⟨hstop, rfl⟩ := cut_iff.mp hcut
    refine Source.exists_place hstop ?_
    change last ∈ visible (lex t).lexemes
    rw [hlast]
    exact List.mem_append_right before List.mem_cons_self
  | quotedName hns => exact htree hns (mem_tokensOfList_of_leaf (by simp))
  | importCall hns _ hsplit => exact htree hns (by simp [hsplit])

/-- The line of a fault is one of the lines of the source. -/
theorem Faulty.line_bounds (h : Faulty t fault) :
    1 ≤ fault.position.line ∧ fault.position.line ≤ 1 + t.count '\n' := by
  obtain ⟨before, rest, rfl, -, hposition⟩ := h.exists_place
  have hline : fault.position.line = 1 + before.count '\n' := by rw [hposition]; rfl
  rw [hline, List.count_append]
  omega

end ZigNif.Source
