import ZigNif.Proofs.Source.Balance

/-!
# Proofs/Source/Stop — where reading a source stops

A text that cannot be read to its end is cut up to where no terminal matches (`lex_eq_stopped_iff`).
Its tokens cannot be grouped from the first closing brace on that has no opening one, and a group
may be open at the end (`forest_eq_error_iff`).
-/

namespace ZigNif.Source

/-! ## Cut up to a place -/

/-- Behind `front`, the text up to `rest` is cut into lexemes from left to right, each of them the
terminal that is taken where it starts. -/
inductive CutTo (rest : Text) : (front text : Text) → List Token → Prop
  | nil {front : Text} : CutTo rest front rest []
  | cons {front after : Text} {lexeme : Token} {lexemes : List Token} :
    lexeme.position = .behind front → lexeme.terminal.Takes lexeme.text after →
    CutTo rest (front ++ lexeme.text) after lexemes →
    CutTo rest front (lexeme.text ++ after) (lexeme :: lexemes)

/-- No terminal matches where the text starts. -/
def IsUnmatched (t : Text) : Prop :=
  t ≠ [] ∧ ∀ (k : Terminal) (s rest : Text), s ++ rest = t → ¬ k.Spells s rest

variable {front rest t : Text} {p : Position} {lexemes toks : List Token} {tok : Token}

theorem CutTo.text_eq (h : CutTo rest front t lexemes) :
    t = lexemes.flatMap Token.text ++ rest := by
  induction h with
  | nil => rfl
  | cons _ _ _ ih => rw [List.flatMap_cons, List.append_assoc, ← ih]

theorem CutTo.of_takes {k : Terminal} {s after : Text} (h : k.Takes s after)
    (hafter : CutTo rest (front ++ s) after lexemes) :
    CutTo rest front (s ++ after) (⟨k, s, .behind front⟩ :: lexemes) :=
  have hfirst : (⟨k, s, .behind front⟩ : Token).terminal.Takes s after := h
  .cons rfl hfirst hafter

/-- **The lexer goes on behind what is cut.** -/
theorem lexFrom_of_cutTo (h : CutTo rest front t lexemes) : lexFrom (.behind front) t =
    (lexFrom (.behind (front ++ lexemes.flatMap Token.text)) rest).after lexemes := by
  induction h with
  | nil => rw [List.flatMap_nil, List.append_nil]; rfl
  | @cons front after lexeme lexemes hposition htakes _ ih =>
    rw [lexFrom_of_takes htakes, Position.advance_behind, ih, ← hposition, List.flatMap_cons,
      List.append_assoc]
    rfl

theorem CutTo.of_append {before after : List Token} (h : CutTo rest front t (before ++ after)) :
    ∃ rest', CutTo rest' front t before := by
  induction before generalizing front t with
  | nil => exact ⟨t, .nil⟩
  | cons lexeme before ih =>
    cases h with
    | cons hposition htakes h =>
      obtain ⟨rest', h'⟩ := ih h
      exact ⟨rest', .cons hposition htakes h'⟩

theorem CutTo.position_eq {before after : List Token}
    (h : CutTo rest front t (before ++ tok :: after)) :
    tok.position = .behind (front ++ before.flatMap Token.text) ∧ tok.text ≠ [] := by
  induction before generalizing front t with
  | nil =>
    cases h with
    | cons hposition htakes _ =>
      rw [List.flatMap_nil, List.append_nil]
      exact ⟨hposition, htakes.spells.ne_nil⟩
  | cons lexeme before ih =>
    cases h with
    | cons _ _ h =>
      rw [List.flatMap_cons, ← List.append_assoc]
      exact ih h

theorem lexFrom_of_isUnmatched (h : IsUnmatched t) : lexFrom p t = ⟨[], some p⟩ := by
  obtain ⟨c, r, rfl⟩ := List.exists_cons_of_ne_nil h.1
  have hnone : Terminal.first? (c :: r) = none := by
    refine List.findSome?_eq_none_iff.mpr fun k _ => ?_
    rw [Terminal.match?_eq_none_iff.mpr (h.2 k)]
    rfl
  rw [lexFrom, hnone]

/-- Where a text starts, a terminal is taken or none matches. -/
theorem exists_takes_or_isUnmatched (ht : t ≠ []) :
    (∃ (k : Terminal) (s rest : Text), t = s ++ rest ∧ k.Takes s rest) ∨ IsUnmatched t := by
  cases hfirst : Terminal.first? t with
  | none =>
    refine .inr ⟨ht, fun k => ?_⟩
    have hk := List.findSome?_eq_none_iff.mp hfirst k k.mem_byPriority
    exact Terminal.match?_eq_none_iff.mp (Option.map_eq_none_iff.mp hk)
  | some found =>
    obtain ⟨k, n⟩ := found
    have hlength : (t.take n).length = n :=
      List.length_take_of_le (k.isWithin_match? _ _ (Terminal.match?_of_first? hfirst))
    refine .inl ⟨k, t.take n, t.drop n, (List.take_append_drop n t).symm, ?_⟩
    rw [← Terminal.first?_eq_some_iff, List.take_append_drop, hlength, hfirst]

/-- **The lexer cuts a text up to its end, or up to where no terminal matches.** -/
theorem exists_cutTo (front t : Text) : ∃ rest,
    CutTo rest front t (lexFrom (.behind front) t).lexemes ∧
      (rest = [] ∧ (lexFrom (.behind front) t).stop = none ∨
        IsUnmatched rest ∧ (lexFrom (.behind front) t).stop =
          some (.behind (front ++ (lexFrom (.behind front) t).lexemes.flatMap Token.text))) := by
  induction hlength : t.length using Nat.strong_induction_on generalizing front t with
  | _ n ih =>
    by_cases ht : t = []
    · subst ht
      rw [lexFrom]
      exact ⟨[], .nil, .inl ⟨rfl, rfl⟩⟩
    · rcases exists_takes_or_isUnmatched ht with ⟨k, s, after, rfl, htakes⟩ | hnone
      · have hless : after.length < n := by
          have := List.length_pos_iff.mpr htakes.spells.ne_nil
          rw [List.length_append] at hlength
          omega
        obtain ⟨rest, hcut, hstop⟩ := ih after.length hless (front ++ s) after rfl
        have hlex := lexFrom_of_takes (p := .behind front) htakes
        rw [Position.advance_behind] at hlex
        rw [hlex]
        simp only [Lexed.push, List.flatMap_cons, ← List.append_assoc]
        exact ⟨rest, .of_takes htakes hcut, hstop⟩
      · rw [lexFrom_of_isUnmatched hnone]
        exact ⟨t, .nil, .inr ⟨hnone, by simp⟩⟩

/-! ## Braces without partners -/

/-- No prefix of the tokens closes more groups than it opens. -/
def IsOpening (toks : List Token) : Prop := ∀ pre, pre <+: toks → closings pre ≤ openings pre

theorem exists_foldlM_step_iff :
    (∃ s, toks.foldlM Nesting.step {} = .ok s) ↔ IsOpening toks := by
  rw [Nesting.exists_foldlM_iff]
  simp [IsOpening]

theorem Nesting.step_eq_error_iff {s : Nesting} {e : ShapeFault} : s.step tok = .error e ↔
    tok.terminal = .rightBrace ∧ s.stack = [] ∧ e = .token tok.position := by
  constructor
  · intro h
    have hfail : tok.terminal = .rightBrace ∧ s.stack = [] := by
      by_contra hne
      obtain ⟨s', hs'⟩ := exists_step fun hright hstack => hne ⟨hright, hstack⟩
      rw [h] at hs'
      cases hs'
    obtain ⟨hright, hstack⟩ := hfail
    simp only [step, hright, hstack] at h
    exact ⟨hright, hstack, (Except.error.inj h).symm⟩
  · rintro ⟨hright, hstack, rfl⟩
    simp only [step, hright, hstack]

/-- **Tokens cannot be read if one of them closes a group where none is open.** -/
theorem foldlM_step_eq_error_iff {e : ShapeFault} : toks.foldlM Nesting.step {} = .error e ↔
    ∃ before tok after, toks = before ++ tok :: after ∧ IsBalanced before ∧
      tok.terminal = .rightBrace ∧ e = .token tok.position := by
  rw [foldlM_eq_error_iff]
  simp only [Nesting.step_eq_error_iff, isBalanced_iff]
  constructor
  · rintro ⟨before, tok, after, s, hsplit, hs, hright, hstack, he⟩
    exact ⟨before, tok, after, hsplit, ⟨s, hs, hstack⟩, hright, he⟩
  · rintro ⟨before, tok, after, hsplit, ⟨s, hs, hstack⟩, hright, he⟩
    exact ⟨before, tok, after, s, hsplit, hs, hright, hstack, he⟩

/-- Tokens that leave a group open, though they close none that is not. -/
theorem exists_foldlM_step_open_iff :
    (∃ s, toks.foldlM Nesting.step {} = .ok s ∧ s.stack ≠ []) ↔
      IsOpening toks ∧ closings toks < openings toks := by
  rw [← exists_foldlM_step_iff]
  have hcount : ∀ s, toks.foldlM Nesting.step {} = .ok s →
      (s.stack ≠ [] ↔ closings toks < openings toks) := by
    intro s hs
    have hlength := Nesting.length_stack_foldlM hs
    rw [← List.length_pos_iff]
    simp only [List.length_nil] at hlength
    omega
  constructor
  · rintro ⟨s, hs, hstack⟩
    exact ⟨⟨s, hs⟩, (hcount s hs).mp hstack⟩
  · rintro ⟨⟨s, hs⟩, hless⟩
    exact ⟨s, hs, (hcount s hs).mpr hless⟩

theorem forest_eq_error_iff {e : ShapeFault} : forest t = .error e ↔
    (∃ before tok after, (lex t).tokens = before ++ tok :: after ∧ IsBalanced before ∧
      tok.terminal = .rightBrace ∧ e = .token tok.position) ∨
    (IsOpening (lex t).tokens ∧ ∃ p, (lex t).stop = some p ∧ e = .character p) ∨
    (IsOpening (lex t).tokens ∧ (lex t).stop = none ∧
      closings (lex t).tokens < openings (lex t).tokens ∧
      ∃ before last, (lex t).tokens = before ++ [last] ∧ e = .token last.position) := by
  rw [forest, bind_eq_error_iff, foldlM_step_eq_error_iff]
  refine or_congr_right ⟨?_, ?_⟩
  · rintro ⟨s, hs, h⟩
    split at h
    · next p hstop =>
      exact .inl ⟨exists_foldlM_step_iff.mp ⟨s, hs⟩, p, hstop, (Except.error.inj h).symm⟩
    · next g stack last hstop hstack hlast =>
      obtain ⟨hopening, hless⟩ :=
        exists_foldlM_step_open_iff.mp ⟨s, hs, hstack ▸ List.cons_ne_nil g stack⟩
      obtain ⟨before, hbefore⟩ := List.getLast?_eq_some_iff.mp hlast
      exact .inr ⟨hopening, hstop, hless, before, last, hbefore, (Except.error.inj h).symm⟩
    · cases h
  · rintro (⟨hopening, p, hstop, rfl⟩ | ⟨hopening, hstop, hless, before, last, hlast, rfl⟩)
    · obtain ⟨s, hs⟩ := exists_foldlM_step_iff.mpr hopening
      refine ⟨s, hs, ?_⟩
      rw [hstop]
    · obtain ⟨s, hs, hstack⟩ := exists_foldlM_step_open_iff.mpr ⟨hopening, hless⟩
      obtain ⟨g, stack, hcons⟩ := List.exists_cons_of_ne_nil hstack
      refine ⟨s, hs, ?_⟩
      rw [hstop, hcons, hlast, List.getLast?_concat]

/-! ## Lexemes and tokens -/

theorem exists_tokens_eq_iff {before : List Token} :
    (∃ after, (lex t).tokens = before ++ tok :: after) ↔
      ∃ rest lexemes, CutTo rest [] t (lexemes ++ [tok]) ∧ visible lexemes = before ∧
        tok.terminal.isLayout = false := by
  constructor
  · rintro ⟨after, h⟩
    obtain ⟨rest, hcut, -⟩ := exists_cutTo [] t
    change CutTo rest [] t (lex t).lexemes at hcut
    obtain ⟨l₁, l₂, hsplit, hl₁, hl₂⟩ := List.filter_eq_append_iff.mp h
    obtain ⟨l₃, l₄, rfl, hl₃, htok, -⟩ := List.filter_eq_cons_iff.mp hl₂
    rw [hsplit, ← List.append_assoc, List.append_cons] at hcut
    obtain ⟨rest', hcut⟩ := hcut.of_append
    refine ⟨rest', l₁ ++ l₃, hcut, ?_, by simpa using htok⟩
    rw [visible_append, visible, hl₁, visible, List.filter_eq_nil_iff.mpr hl₃, List.append_nil]
  · rintro ⟨rest, lexemes, hcut, rfl, htok⟩
    have hlex := lexFrom_of_cutTo hcut
    change lex t = _ at hlex
    rw [hlex]
    have hvisible : visible [tok] = [tok] := by simp [visible, htok]
    rw [Lexed.tokens, Lexed.after, ← visible, visible_append, visible_append, hvisible,
      List.append_assoc, List.singleton_append]
    exact ⟨_, rfl⟩

theorem lex_eq_stopped_iff : lex t = ⟨lexemes, some p⟩ ↔ ∃ front rest, t = front ++ rest ∧
    CutTo rest [] t lexemes ∧ IsUnmatched rest ∧ p = .behind front := by
  constructor
  · intro h
    obtain ⟨rest, hcut, hstop⟩ := exists_cutTo [] t
    change CutTo rest [] t (lex t).lexemes at hcut
    change rest = [] ∧ (lex t).stop = none ∨ IsUnmatched rest ∧
      (lex t).stop = some (.behind ((lex t).lexemes.flatMap Token.text)) at hstop
    rw [h] at hcut hstop
    rcases hstop with ⟨-, hnone⟩ | ⟨hrest, hsome⟩
    · cases hnone
    · exact ⟨_, rest, hcut.text_eq, hcut, hrest, Option.some.inj hsome⟩
  · rintro ⟨front, rest, htext, hcut, hrest, rfl⟩
    obtain rfl := List.append_cancel_right (htext.symm.trans hcut.text_eq)
    have hlex := lexFrom_of_cutTo hcut
    rw [lexFrom_of_isUnmatched hrest, Lexed.after, List.append_nil, List.nil_append] at hlex
    exact hlex

end ZigNif.Source
