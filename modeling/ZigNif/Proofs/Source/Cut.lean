import ZigNif.Proofs.Source.Grammar
import ZigNif.Proofs.Source.Lexer

/-!
# Proofs/Source/Cut — a text cut into terminals

A text is cut from left to right: in front of what is left, the terminal that is taken there.  The
lexer does just this (`lexFrom_eq_iff`), so a text has at most one cut.
-/

namespace ZigNif.Source

/-- Behind `front`, the text is cut into lexemes from left to right, each of them the terminal that
is taken where it starts. -/
inductive Cut : (front text : Text) → List Token → Prop
  | nil {front : Text} : Cut front [] []
  | cons {front rest : Text} {lexeme : Token} {lexemes : List Token} :
    lexeme.position = .behind front → lexeme.terminal.Takes lexeme.text rest →
    Cut (front ++ lexeme.text) rest lexemes → Cut front (lexeme.text ++ rest) (lexeme :: lexemes)

variable {k : Terminal} {p : Position} {front s s' t rest rest' : Text} {lexemes : List Token}

theorem Position.advance_append (p : Position) (s t : Text) :
    p.advance (s ++ t) = (p.advance s).advance t :=
  List.foldl_append

/-- **The lexer goes on behind the terminal that is taken.** -/
theorem lexFrom_of_takes (h : k.Takes s rest) :
    lexFrom p (s ++ rest) = (lexFrom (p.advance s) rest).push ⟨k, s, p⟩ := by
  obtain ⟨c, r, rfl⟩ := List.exists_cons_of_ne_nil h.spells.ne_nil
  have hfirst : Terminal.first? (c :: (r ++ rest)) = some (k, r.length + 1) :=
    Terminal.first?_eq_some_iff.mpr h
  rw [List.cons_append, lexFrom, hfirst]
  simp only [List.take_succ_cons, List.take_left, List.drop_left]

theorem Cut.of_takes (h : k.Takes s rest) (hrest : Cut (front ++ s) rest lexemes) :
    Cut front (s ++ rest) (⟨k, s, .behind front⟩ :: lexemes) :=
  have hfirst : (⟨k, s, .behind front⟩ : Token).terminal.Takes s rest := h
  .cons rfl hfirst hrest

theorem exists_takes (ht : t ≠ []) (hstop : (lexFrom p t).stop = none) :
    ∃ (k : Terminal) (s rest : Text), t = s ++ rest ∧ k.Takes s rest := by
  obtain ⟨k, s, rest, rfl, -, hfirst, -⟩ := exists_lexeme ht hstop
  exact ⟨k, s, rest, rfl, Terminal.first?_eq_some_iff.mp hfirst⟩

theorem cut_lexFrom (h : (lexFrom (.behind front) t).stop = none) :
    Cut front t (lexFrom (.behind front) t).lexemes := by
  induction hlength : t.length using Nat.strong_induction_on generalizing front t with
  | _ n ih =>
    by_cases ht : t = []
    · subst ht
      rw [lexFrom]
      exact .nil
    · obtain ⟨k, s, rest, rfl, htakes⟩ := exists_takes ht h
      rw [lexFrom_of_takes htakes, Position.advance_behind] at h ⊢
      have hless : rest.length < n := by
        have := List.length_pos_iff.mpr htakes.spells.ne_nil
        rw [List.length_append] at hlength
        omega
      exact .of_takes htakes (ih rest.length hless h rfl)

/-- **The lexer reads a text to its end if and only if the text is cut**, and then its lexemes are
those of the cut. -/
theorem lexFrom_eq_iff : lexFrom (.behind front) t = ⟨lexemes, none⟩ ↔ Cut front t lexemes := by
  constructor
  · intro h
    have hcut : Cut front t (lexFrom (.behind front) t).lexemes := cut_lexFrom (by rw [h])
    rwa [h] at hcut
  · intro h
    induction h with
    | nil => rw [lexFrom]
    | @cons front rest lexeme lexemes hposition htakes _ ih =>
      rw [lexFrom_of_takes htakes, Position.advance_behind, ih, Lexed.push, ← hposition]

theorem cut_iff :
    Cut [] t lexemes ↔ (lex t).stop = none ∧ (lex t).lexemes = lexemes := by
  rw [← lexFrom_eq_iff]
  change lex t = _ ↔ _
  cases lex t
  simp [and_comm]

theorem Cut.of_cons {lexeme : Token} (h : Cut front (lexeme.text ++ rest) (lexeme :: lexemes)) :
    lexeme.position = .behind front ∧ lexeme.terminal.Takes lexeme.text rest ∧
      Cut (front ++ lexeme.text) rest lexemes := by
  generalize htext : lexeme.text ++ rest = t at h
  cases h with
  | cons hposition htakes hcut =>
    obtain rfl := List.append_cancel_left htext
    exact ⟨hposition, htakes, hcut⟩

theorem Cut.flatMap_text (h : Cut front t lexemes) : lexemes.flatMap Token.text = t := by
  induction h with
  | nil => rfl
  | cons _ _ _ ih => rw [List.flatMap_cons, ih]

theorem Cut.append_right {before after : List Token} (h : Cut front t (before ++ after)) :
    Cut (front ++ before.flatMap Token.text) (after.flatMap Token.text) after := by
  induction before generalizing front t with
  | nil =>
    rw [List.flatMap_nil, List.append_nil]
    rwa [← h.flatMap_text] at h
  | cons l before ih =>
    rw [← h.flatMap_text, List.cons_append, List.flatMap_cons] at h
    obtain ⟨-, -, hrest⟩ := h.of_cons
    rw [List.flatMap_cons, ← List.append_assoc]
    exact ih hrest

theorem Cut.exists_takes (h : Cut front t lexemes) {l : Token} (hl : l ∈ lexemes) :
    ∃ rest, l.terminal.Takes l.text rest := by
  induction h with
  | nil => cases hl
  | @cons _ rest _ _ _ htakes _ ih =>
    rcases List.mem_cons.mp hl with rfl | hl
    · exact ⟨rest, htakes⟩
    · exact ih hl

/-! ## Layout

Layout leaves no token, so the tokens behind it are those of the text behind it. -/

/-- The tokens among the lexemes. -/
def visible (lexemes : List Token) : List Token := lexemes.filter fun l => !l.terminal.isLayout

theorem visible_append (toks toks' : List Token) :
    visible (toks ++ toks') = visible toks ++ visible toks' :=
  List.filter_append toks toks'

/-- What was read, without layout. -/
def Lexed.bare (l : Lexed) : Lexed := { l with lexemes := visible l.lexemes }

theorem bare_push_of_isLayout {l : Lexed} {tok : Token} (h : tok.terminal.isLayout) :
    (l.push tok).bare = l.bare := by
  simp [Lexed.bare, Lexed.push, visible, h]

/-- What was read behind some lexemes. -/
def Lexed.after (toks : List Token) (l : Lexed) : Lexed := { l with lexemes := toks ++ l.lexemes }

theorem Lexed.after_after {l : Lexed} {toks toks' : List Token} :
    (l.after toks').after toks = l.after (toks ++ toks') := by
  simp [Lexed.after]

theorem Lexed.of_bare {l l' : Lexed} {toks : List Token} (h : l.bare = l'.bare.after toks) :
    l.stop = l'.stop ∧ l.tokens = toks ++ visible l'.lexemes :=
  (Lexed.mk.inj h).symm

theorem bare_push {l : Lexed} {tok : Token} : (l.push tok).bare = l.bare.after (visible [tok]) := by
  cases h : tok.terminal.isLayout <;> simp [Lexed.bare, Lexed.push, Lexed.after, visible, h]

/-- A text that holds no character of the kind that comes next ends there at the latest. -/
theorem length_le_of_notMem (heq : s' ++ rest' = s ++ rest) (h : ∀ c ∈ rest.head?, c ∉ s') :
    s'.length ≤ s.length := by
  rcases List.append_eq_append_iff.mp heq with ⟨d, rfl, -⟩ | ⟨d, rfl, hrest⟩
  · rw [List.length_append]
    exact Nat.le_add_right _ _
  · cases d with
    | nil => rw [List.append_nil]
    | cons c d => exact absurd (by simp) (h c (by rw [hrest]; rfl))

/-- White space is taken if it goes on no further. -/
theorem takes_blank (hs : s ≠ []) (hlayout : ∀ c ∈ s, isLayoutBlank c)
    (hrest : ∀ c ∈ rest.head?, ¬ isLayoutBlank c) : Terminal.blank.Takes s rest := by
  obtain ⟨c, r, rfl⟩ := List.exists_cons_of_ne_nil hs
  refine .of_initial (isWord_self_iff.mpr ⟨hs, hlayout⟩) (fun s' rest' heq hs' => ?_)
    fun k hk => ?_
  · exact length_le_of_notMem heq fun d hd hmem =>
      hrest d hd ((isWord_self_iff.mp hs').2 d hmem)
  · by_contra hne
    exact Terminal.not_isBlank_of_isInitial hk hne
      (Terminal.isBlank_of_isLayoutBlank (hlayout c List.mem_cons_self))

theorem bare_lexFrom_cons {c : Char} (hc : isLayoutBlank c) :
    (lexFrom p (c :: t)).bare = (lexFrom (p.next c) t).bare := by
  have hrun : ∀ d ∈ t.takeWhile isLayoutBlank, isLayoutBlank d := fun d hd =>
    List.mem_takeWhile_imp hd
  have hrest : ∀ d ∈ (t.dropWhile isLayoutBlank).head?, ¬ isLayoutBlank d := by
    intro d hd
    have hhead := List.head?_dropWhile_not isLayoutBlank t
    rw [Option.mem_def.mp hd] at hhead
    simpa using hhead
  have hsplit := List.takeWhile_append_dropWhile (p := isLayoutBlank) (l := t)
  generalize t.takeWhile isLayoutBlank = run at hrun hsplit
  generalize t.dropWhile isLayoutBlank = rest at hrest hsplit
  subst hsplit
  have hfirst := takes_blank (List.cons_ne_nil c run) (List.forall_mem_cons.mpr ⟨hc, hrun⟩) hrest
  rw [← List.cons_append, lexFrom_of_takes hfirst, bare_push_of_isLayout rfl]
  by_cases hne : run = []
  · subst hne
    rfl
  · rw [lexFrom_of_takes (takes_blank hne hrun hrest), bare_push_of_isLayout rfl]
    rfl

theorem bare_lexFrom_blanks (hs : ∀ c ∈ s, isLayoutBlank c) :
    (lexFrom p (s ++ t)).bare = (lexFrom (p.advance s) t).bare := by
  induction s generalizing p with
  | nil => rfl
  | cons c s ih =>
    obtain ⟨hc, hs⟩ := List.forall_mem_cons.mp hs
    rw [List.cons_append, bare_lexFrom_cons hc, ih hs]
    rfl

/-- A doc comment does not start where a plain comment reaches to the end of its line. -/
theorem not_docComment_spells (hs : IsPlainComment s) (hrest : EndsLine rest)
    (heq : s' ++ rest' = s ++ rest) : ¬ Terminal.docComment.Spells s' rest' := by
  rintro ⟨r', rfl, -, hhead⟩
  obtain ⟨⟨r, rfl, -⟩, hdoc⟩ := hs
  have hthird : '/' :: (r' ++ rest') = r ++ rest := (List.cons.inj (List.cons.inj heq).2).2
  cases r with
  | nil => exact absurd (hrest '/' (by rw [← List.nil_append rest, ← hthird]; rfl)) (by decide)
  | cons c r =>
    obtain ⟨rfl, htail⟩ := List.cons.inj hthird
    refine hdoc ⟨r, rfl, fun hr => hhead ?_⟩
    obtain ⟨r, rfl⟩ := List.head?_eq_some_iff.mp hr
    rw [htail]
    rfl

/-- A plain comment is taken if it reaches to the end of its line. -/
theorem takes_comment (hs : IsPlainComment s) (hrest : EndsLine rest) :
    Terminal.comment.Takes s rest where
  spells := hs.1
  longest s' rest' heq hs' := by
    obtain ⟨r, rfl, hr⟩ := hs'
    refine length_le_of_notMem heq fun c hc => ?_
    rw [hrest c hc]
    simp [hr]
  first k s' rest' heq hs' hk := by
    have hnone := not_docComment_spells hs hrest heq
    obtain ⟨⟨r, rfl, -⟩, -⟩ := hs
    obtain ⟨c, r', rfl, hc⟩ := hs'.exists_initial
    obtain ⟨rfl, -⟩ := List.cons.inj heq
    cases k with
    | docComment => exact absurd hs' hnone
    | comment => exact absurd rfl hk
    | other => decide
    | _ => exact absurd hc (by decide)

/-- **Layout is skipped.** -/
theorem bare_lexFrom_layout (h : IsLayout rest s) :
    (lexFrom p (s ++ rest)).bare = (lexFrom (p.advance s) rest).bare := by
  induction h generalizing p with
  | nil => rfl
  | @blanks s gap hs _ ih =>
    have hlayout : ∀ c ∈ s, isLayoutBlank c := fun c hc =>
      Terminal.isLayoutBlank_iff.mpr (hs.2 c hc)
    rw [List.append_assoc, bare_lexFrom_blanks hlayout, ih, Position.advance_append]
  | @comment s gap hs hend _ ih =>
    rw [List.append_assoc, lexFrom_of_takes (takes_comment hs hend), bare_push_of_isLayout rfl, ih,
      Position.advance_append]

/-! ## Places

Where a text starts decides only the places of its lexemes. -/

/-- The token at another place. -/
def Token.place (f : Position → Position) (tok : Token) : Token :=
  { tok with position := f tok.position }

/-- What was read, at other places. -/
def Lexed.place (f : Position → Position) (l : Lexed) : Lexed :=
  ⟨l.lexemes.map (Token.place f), l.stop.map f⟩

theorem visible_place {f : Position → Position} :
    visible (lexemes.map (Token.place f)) = (visible lexemes).map (Token.place f) :=
  List.filter_map

theorem Lexed.place_id (l : Lexed) : l.place id = l := by
  have hid : Token.place id = id := rfl
  simp [place, hid]

/-- **Texts that start at places with the same image are cut into lexemes with the same image.** -/
theorem lexFrom_place {f g : Position → Position} {q : Position}
    (hnext : ∀ p q c, f p = g q → f (p.next c) = g (q.next c)) (h : f p = g q) :
    (lexFrom p t).place f = (lexFrom q t).place g := by
  have hadvance : ∀ (s : Text) (p q : Position), f p = g q → f (p.advance s) = g (q.advance s) := by
    intro s
    induction s with
    | nil => exact fun _ _ h => h
    | cons c s ih => exact fun p q h => ih _ _ (hnext p q c h)
  fun_induction lexFrom p t generalizing q with
  | case1 => rw [lexFrom]; rfl
  | case2 p c r k n hfirst text =>
    rename_i ih
    have htail := ih (hadvance text p q h)
    rw [lexFrom, hfirst]
    simp only [Lexed.place, Lexed.push, Lexed.mk.injEq, List.map_cons, List.cons.injEq] at htail ⊢
    exact ⟨⟨by rw [Token.place, Token.place, h], htail.1⟩, htail.2⟩
  | case3 p c r hfirst =>
    rw [lexFrom]
    split
    · exact absurd ‹_› (hfirst _ _)
    · simp [Lexed.place, h]

end ZigNif.Source
