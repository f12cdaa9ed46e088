import ZigNif.Proofs.Source.Cut

/-!
# Proofs/Source/Balance — the texts that have a tree

A text has a tree if it can be cut into terminals and its braces are balanced: no prefix of its
tokens closes more groups than it opens, and all of them close as many as they open.  What counts is
tokens: a brace in a literal, a quoted name, an import call or a comment is no token.
-/

namespace ZigNif.Source

/-! ## Balanced tokens -/

/-- How many groups the tokens open. -/
def openings (toks : List Token) : Nat := toks.countP (·.terminal = .leftBrace)

/-- How many groups the tokens close. -/
def closings (toks : List Token) : Nat := toks.countP (·.terminal = .rightBrace)

/-- No prefix closes more groups than it opens, and all of the tokens close as many as they open. -/
structure IsBalanced (toks : List Token) : Prop where
  closings_le : ∀ pre, pre <+: toks → closings pre ≤ openings pre
  closings_eq : closings toks = openings toks

variable {toks toks' lexemes : List Token} {tok : Token} {ns : List Node} {front t : Text}

theorem openings_append : openings (toks ++ toks') = openings toks + openings toks' :=
  List.countP_append

theorem closings_append : closings (toks ++ toks') = closings toks + closings toks' :=
  List.countP_append

theorem openings_of_leftBrace (h : tok.terminal = .leftBrace) : openings [tok] = 1 := by
  simp [openings, h]

theorem openings_of_ne (h : tok.terminal ≠ .leftBrace) : openings [tok] = 0 := by
  simp [openings, h]

theorem closings_of_rightBrace (h : tok.terminal = .rightBrace) : closings [tok] = 1 := by
  simp [closings, h]

theorem closings_of_ne (h : tok.terminal ≠ .rightBrace) : closings [tok] = 0 := by
  simp [closings, h]

namespace Nesting

variable {s s' : Nesting}

/-! ## Reading tokens -/

/-- **A token opens a group, closes one, or is a leaf.** -/
theorem step_cases (h : s.step tok = .ok s') :
    (tok.terminal = .leftBrace ∧ s' = ⟨[], ⟨tok, s.nodes⟩ :: s.stack⟩) ∨
    (tok.terminal = .rightBrace ∧ ∃ g stack, s.stack = g :: stack ∧
      s' = ⟨g.before ++ [.group g.opening s.nodes tok], stack⟩) ∨
    (tok.terminal ≠ .leftBrace ∧ tok.terminal ≠ .rightBrace ∧ s' = s.add [.leaf tok]) := by
  by_cases hleft : tok.terminal = .leftBrace
  · rw [step_leftBrace hleft] at h
    exact .inl ⟨hleft, (Except.ok.inj h).symm⟩
  · by_cases hright : tok.terminal = .rightBrace
    · obtain ⟨nodes, stack⟩ := s
      cases stack with
      | nil => simp [step, hright] at h
      | cons g stack =>
        rw [step_rightBrace hright] at h
        exact .inr (.inl ⟨hright, g, stack, rfl, (Except.ok.inj h).symm⟩)
    · rw [step_leaf hleft hright] at h
      exact .inr (.inr ⟨hleft, hright, (Except.ok.inj h).symm⟩)

/-- Only a right brace can be refused, where no group is open. -/
theorem exists_step (h : tok.terminal = .rightBrace → s.stack ≠ []) : ∃ s', s.step tok = .ok s' := by
  by_cases hleft : tok.terminal = .leftBrace
  · exact ⟨_, step_leftBrace hleft⟩
  · by_cases hright : tok.terminal = .rightBrace
    · obtain ⟨g, stack, hstack⟩ := List.exists_cons_of_ne_nil (h hright)
      obtain ⟨nodes, _⟩ := s
      obtain rfl := hstack
      exact ⟨_, step_rightBrace hright nodes g stack⟩
    · exact ⟨_, step_leaf hleft hright⟩

theorem length_stack_step (h : s.step tok = .ok s') :
    s'.stack.length + closings [tok] = s.stack.length + openings [tok] := by
  rcases step_cases h with ⟨hleft, rfl⟩ | ⟨hright, g, stack, hstack, rfl⟩ | ⟨hleft, hright, rfl⟩
  · rw [openings_of_leftBrace hleft, closings_of_ne (by simp [hleft])]
    rfl
  · rw [openings_of_ne (by simp [hright]), closings_of_rightBrace hright, hstack]
    rfl
  · rw [openings_of_ne hleft, closings_of_ne hright]
    rfl

/-- **As many groups are open as have been opened and not closed.** -/
theorem length_stack_foldlM (h : toks.foldlM step s = .ok s') :
    s'.stack.length + closings toks = s.stack.length + openings toks := by
  induction toks generalizing s with
  | nil => cases h; rfl
  | cons tok toks ih =>
    obtain ⟨m, hm, h⟩ := foldlM_cons_eq_ok_iff.mp h
    have hstep := length_stack_step hm
    have hrest := ih h
    rw [← List.singleton_append, openings_append, closings_append]
    omega

/-- **Tokens can be read if no prefix of them closes more groups than are open.** -/
theorem exists_foldlM_iff : (∃ s', toks.foldlM step s = .ok s') ↔
    ∀ pre, pre <+: toks → closings pre ≤ s.stack.length + openings pre := by
  induction toks generalizing s with
  | nil =>
    refine ⟨fun _ pre hpre => ?_, fun _ => ⟨s, rfl⟩⟩
    rw [List.prefix_nil.mp hpre]
    exact Nat.zero_le _
  | cons tok toks ih =>
    simp only [foldlM_cons_eq_ok_iff]
    constructor
    · rintro ⟨s', m, hm, h⟩ pre hpre
      cases pre with
      | nil => exact Nat.zero_le _
      | cons tok' pre =>
        obtain ⟨rfl, hprefix⟩ := List.cons_prefix_cons.mp hpre
        have hstep := length_stack_step hm
        have hrest := ih.mp ⟨s', h⟩ pre hprefix
        rw [← List.singleton_append, openings_append, closings_append]
        omega
    · intro h
      have hfirst : tok.terminal = .rightBrace → s.stack ≠ [] := by
        intro hright hstack
        have hle := h [tok] ⟨toks, rfl⟩
        rw [hstack, closings_of_rightBrace hright, openings_of_ne (by simp [hright])] at hle
        exact absurd hle (by simp)
      obtain ⟨m, hm⟩ := exists_step hfirst
      have hstep := length_stack_step hm
      have hrest : ∀ pre, pre <+: toks → closings pre ≤ m.stack.length + openings pre := by
        intro pre hpre
        have hle := h (tok :: pre) (List.cons_prefix_cons.mpr ⟨rfl, hpre⟩)
        rw [← List.singleton_append, openings_append, closings_append] at hle
        omega
      obtain ⟨s', hs'⟩ := ih.mpr hrest
      exact ⟨s', m, hm, hs'⟩

/-! ## Groups -/

/-- All groups so far stand between braces, and every open one has its left brace. -/
def AllBraced (s : Nesting) : Prop :=
  Node.AllBraced s.nodes ∧
    ∀ g ∈ s.stack, Node.AllBraced g.before ∧ g.opening.terminal = .leftBrace

theorem allBraced_empty : AllBraced {} := ⟨trivial, fun _ hg => absurd hg List.not_mem_nil⟩

theorem AllBraced.step (hs : s.AllBraced) (h : s.step tok = .ok s') : s'.AllBraced := by
  obtain ⟨hnodes, hstack⟩ := hs
  rcases step_cases h with ⟨hleft, rfl⟩ | ⟨hright, g, stack, hs, rfl⟩ | ⟨hleft, hright, rfl⟩
  · exact ⟨trivial, List.forall_mem_cons.mpr ⟨⟨hnodes, hleft⟩, hstack⟩⟩
  · rw [hs] at hstack
    obtain ⟨⟨hbefore, hopening⟩, hstack⟩ := List.forall_mem_cons.mp hstack
    have hgroup : (Node.group g.opening s.nodes tok).IsBraced := ⟨hopening, hnodes, hright⟩
    exact ⟨Node.allBraced_append.mpr ⟨hbefore, hgroup, trivial⟩, hstack⟩
  · have hleaf : (Node.leaf tok).IsBraced := ⟨hleft, hright⟩
    exact ⟨Node.allBraced_append.mpr ⟨hnodes, hleaf, trivial⟩, hstack⟩

end Nesting

/-! ## Texts that have a tree -/

/-- The balanced lists of tokens are those that can be read to the end of every group. -/
theorem isBalanced_iff : IsBalanced toks ↔
    ∃ s, toks.foldlM Nesting.step {} = .ok s ∧ s.stack = [] := by
  constructor
  · intro h
    obtain ⟨s, hs⟩ := Nesting.exists_foldlM_iff.mpr fun pre hpre =>
      (h.closings_le pre hpre).trans (Nat.le_add_left _ ({} : Nesting).stack.length)
    have hlength := Nesting.length_stack_foldlM hs
    rw [h.closings_eq] at hlength
    exact ⟨s, hs, List.length_eq_zero_iff.mp (Nat.add_right_cancel hlength)⟩
  · rintro ⟨s, hs, hstack⟩
    have hlength := Nesting.length_stack_foldlM hs
    rw [hstack] at hlength
    refine ⟨fun pre hpre => ?_, by simpa using hlength⟩
    simpa using Nesting.exists_foldlM_iff.mp ⟨s, hs⟩ pre hpre

/-- **A text has the tree if the lexer reads all of it, the groups of the tree stand between braces,
and its tokens are those of the text.** -/
theorem forest_eq_ok_iff : forest t = .ok ns ↔
    (lex t).stop = none ∧ Node.AllBraced ns ∧ Node.tokensOfList ns = (lex t).tokens := by
  constructor
  · intro h
    obtain ⟨hstop, htokens⟩ := tokens_of_forest h
    refine ⟨hstop, ?_, htokens⟩
    rw [forest, bind_eq_ok_iff] at h
    obtain ⟨s, hs, h⟩ := h
    have hbraced : s.AllBraced :=
      foldlM_induction (fun _ _ _ hs h => hs.step h) Nesting.allBraced_empty hs
    split at h
    · cases h
    · cases h
    · cases h
      exact hbraced.1
  · rintro ⟨hstop, hns, htokens⟩
    exact forest_of_tokens hstop htokens.symm hns

theorem isBalanced_tokensOfList (h : Node.AllBraced ns) : IsBalanced (Node.tokensOfList ns) :=
  isBalanced_iff.mpr ⟨_, Nesting.foldlM_tokensOfList {} ns h, rfl⟩

theorem exists_forest_iff :
    (∃ ns, forest t = .ok ns) ↔ (lex t).stop = none ∧ IsBalanced (lex t).tokens := by
  constructor
  · rintro ⟨ns, h⟩
    obtain ⟨hstop, hns, htokens⟩ := forest_eq_ok_iff.mp h
    exact ⟨hstop, htokens ▸ isBalanced_tokensOfList hns⟩
  · rintro ⟨hstop, hbalanced⟩
    obtain ⟨s, hs, hstack⟩ := isBalanced_iff.mp hbalanced
    refine ⟨s.nodes, ?_⟩
    rw [forest, bind_eq_ok_iff]
    refine ⟨s, hs, ?_⟩
    rw [hstop, hstack]

/-! ## Groups inside groups -/

/-- The node is one of the nodes, or stands in one of their groups at any depth. -/
inductive Node.IsIn (n : Node) : List Node → Prop
  | here {ns : List Node} : n ∈ ns → n.IsIn ns
  | inside {ns children : List Node} {opening closing : Token} :
    .group opening children closing ∈ ns → n.IsIn children → n.IsIn ns

theorem Node.IsIn.isBraced {n : Node} (h : n.IsIn ns) (hns : Node.AllBraced ns) : n.IsBraced := by
  induction h with
  | here hn => exact Node.allBraced_iff.mp hns n hn
  | inside hgroup _ ih => exact ih (Node.allBraced_iff.mp hns _ hgroup).2.1

/-! ## Lexemes that hold braces -/

/-- The terminals whose texts can hold braces that are none of the source. -/
def Terminal.quoting : List Terminal :=
  [importCall, docComment, comment, multilineString, quotedName, string, char]

namespace Terminal

variable {k : Terminal} {s rest : Text}

theorem Spells.text_eq_leftBrace_iff (h : k.Spells s rest) : s = ['\x7b'] ↔ k = leftBrace := by
  constructor
  · rintro rfl
    obtain ⟨c, r, hc, hinitial⟩ := h.exists_initial
    obtain ⟨rfl, -⟩ := List.cons.inj hc
    revert hinitial
    cases k <;> decide
  · rintro rfl
    exact h

theorem Spells.text_eq_rightBrace_iff (h : k.Spells s rest) : s = ['\x7d'] ↔ k = rightBrace := by
  constructor
  · rintro rfl
    obtain ⟨c, r, hc, hinitial⟩ := h.exists_initial
    obtain ⟨rfl, -⟩ := List.cons.inj hc
    revert hinitial
    cases k <;> decide
  · rintro rfl
    exact h

/-- **A brace is a token of its own, or part of a literal, a quoted name, an import call or a
comment.** -/
theorem Spells.eq_singleton_or_mem_quoting {c : Char} (h : k.Spells s rest) (hc : c ∈ s)
    (hbrace : c ∈ ['\x7b', '\x7d']) : s = [c] ∨ k ∈ quoting := by
  have hnone : ∀ d ∈ ['\x7b', '\x7d'], d ∉ ['@', ';', '/'] ∧ ¬ isLetter d ∧ ¬ isNameChar d ∧
      ¬ isNumeric d ∧ ¬ (isNameChar d || d == '.') ∧ ¬ isOperator d ∧ ¬ isLayoutBlank d :=
    List.all_iff_forall_prop.mp (by decide)
  obtain ⟨hmark, hletter, hname, hnumeric, hpoint, hoperator, hblank⟩ := hnone c hbrace
  cases k with
  | importCall | docComment | comment | multilineString | quotedName | string | char =>
    exact .inr (by decide)
  | leftBrace | rightBrace =>
    obtain rfl := h
    obtain rfl := List.mem_singleton.mp hc
    exact .inl rfl
  | semicolon =>
    obtain rfl := h
    obtain rfl := List.mem_singleton.mp hc
    exact absurd (by decide) hmark
  | builtin =>
    obtain ⟨r, rfl, hr⟩ := h
    rcases List.mem_cons.mp hc with rfl | hc
    · exact absurd (by decide) hmark
    · exact ((hr.of_mem hc).elim hletter hname).elim
  | name => exact ((h.of_mem hc).elim hletter hname).elim
  | blank => exact ((h.of_mem hc).elim hblank hblank).elim
  | other =>
    rcases h with h | h | rfl
    · exact ((h.of_mem hc).elim hnumeric hpoint).elim
    · exact ((h.of_mem hc).elim hoperator hoperator).elim
    · obtain rfl := List.mem_singleton.mp hc
      exact absurd (by decide) hmark

end Terminal

/-- **The texts that have a tree are those that can be cut into terminals with balanced braces.**

The tree has the tokens of the cut, in their order, and is the only one with these tokens whose
groups stand between braces.  Each of its groups starts with a left brace and ends with the right
brace that is its partner: what is between them is balanced.  A lexeme is a brace if it is the
character alone; all other lexemes that hold braces are literals, quoted names, import calls and
comments, so these braces do not count. -/
theorem forest_iff_cut (t : Text) :
    ((∃ nodes, forest t = .ok nodes) ↔
      ∃ lexemes, Cut [] t lexemes ∧ IsBalanced (visible lexemes)) ∧
    (∀ nodes, forest t = .ok nodes ↔ Node.AllBraced nodes ∧
      ∃ lexemes, Cut [] t lexemes ∧ Node.tokensOfList nodes = visible lexemes) ∧
    (∀ nodes opening children closing, forest t = .ok nodes →
      (Node.group opening children closing).IsIn nodes →
      opening.terminal = .leftBrace ∧ closing.terminal = .rightBrace ∧
        IsBalanced (Node.tokensOfList children)) ∧
    ∀ lexemes, Cut [] t lexemes → lexemes.flatMap Token.text = t ∧ ∀ l ∈ lexemes,
      (l.terminal = .leftBrace ↔ l.text = ['\x7b']) ∧
      (l.terminal = .rightBrace ↔ l.text = ['\x7d']) ∧
      ∀ c ∈ l.text, c ∈ ['\x7b', '\x7d'] → l.text = [c] ∨ l.terminal ∈ Terminal.quoting := by
  refine ⟨?_, fun nodes => ?_, fun nodes opening children closing h hgroup => ?_,
    fun lexemes h => ⟨h.flatMap_text, fun l hl => ?_⟩⟩
  · rw [exists_forest_iff]
    simp only [cut_iff]
    exact ⟨fun ⟨hstop, h⟩ => ⟨_, ⟨hstop, rfl⟩, h⟩, by rintro ⟨_, ⟨hstop, rfl⟩, h⟩; exact ⟨hstop, h⟩⟩
  · rw [forest_eq_ok_iff]
    simp only [cut_iff]
    constructor
    · rintro ⟨hstop, hnodes, htokens⟩
      exact ⟨hnodes, _, ⟨hstop, rfl⟩, htokens⟩
    · rintro ⟨hnodes, _, ⟨hstop, rfl⟩, htokens⟩
      exact ⟨hstop, hnodes, htokens⟩
  · obtain ⟨-, hnodes, -⟩ := forest_eq_ok_iff.mp h
    obtain ⟨hopening, hchildren, hclosing⟩ := hgroup.isBraced hnodes
    exact ⟨hopening, hclosing, isBalanced_tokensOfList hchildren⟩
  · obtain ⟨rest, htakes⟩ := h.exists_takes hl
    exact ⟨htakes.spells.text_eq_leftBrace_iff.symm, htakes.spells.text_eq_rightBrace_iff.symm,
      fun c hc hbrace => htakes.spells.eq_singleton_or_mem_quoting hc hbrace⟩

/-- Braces in a literal and in a comment, and a group. -/
def bracedSource : Text := "a \x7b'\x7d' // \x7b\n\x7d"

/-- The group is closed by the last character. -/
theorem forest_iff_cut_quoted : forest bracedSource = .ok
    [.leaf ⟨.name, "a", ⟨0, 1, 1⟩⟩,
      .group ⟨.leftBrace, "\x7b", ⟨2, 1, 3⟩⟩ [.leaf ⟨.char, "'\x7d'", ⟨3, 1, 4⟩⟩]
        ⟨.rightBrace, "\x7d", ⟨12, 2, 1⟩⟩] := by
  have hcut : Cut [] bracedSource
      [⟨.name, "a", ⟨0, 1, 1⟩⟩, ⟨.blank, " ", ⟨1, 1, 2⟩⟩, ⟨.leftBrace, "\x7b", ⟨2, 1, 3⟩⟩,
        ⟨.char, "'\x7d'", ⟨3, 1, 4⟩⟩, ⟨.blank, " ", ⟨6, 1, 7⟩⟩, ⟨.comment, "// \x7b", ⟨7, 1, 8⟩⟩,
        ⟨.blank, "\n", ⟨11, 1, 12⟩⟩, ⟨.rightBrace, "\x7d", ⟨12, 2, 1⟩⟩] :=
    cut_iff.mpr (by decide +kernel)
  refine ((forest_iff_cut bracedSource).2.1 _).mpr ⟨?_, _, hcut, by decide +kernel⟩
  simp [Node.AllBraced, Node.IsBraced]

end ZigNif.Source
