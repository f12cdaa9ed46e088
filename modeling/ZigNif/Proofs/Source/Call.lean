import ZigNif.Proofs.Source.Break

/-!
# Proofs/Source/Call — the parts of an import call

An import call is one lexeme with white space between its parts.  A text of the same parts that is no
call, because it ends too early or because something stands in its white space, is cut into these
parts: the builtin `@import`, a parenthesis, a string and the rest.  Between them only layout is
allowed, while a call may also hold other white space.
-/

namespace ZigNif.Source

variable {s s' e u v lit w ins g r rest rest' : Text} {c : Char} {k : Terminal} {p : Position}

/-! ## Calls -/

/-- **A call that starts another one is all of it.** -/
theorem IsImportCall.eq_of_append (h : IsImportCall Text.isBlank s)
    (h' : IsImportCall Text.isBlank s') (heq : s ++ rest = s' ++ rest') : s = s' := by
  have hlength : importLength (s ++ rest) = some s.length := importLength_append h
  rw [heq, importLength_append h'] at hlength
  exact (List.append_inj heq (Option.some.inj hlength).symm).1

theorem getLast?_importText : (importText u v lit w).getLast? = some ')' := by
  have hsplit : importText u v lit w =
      "@import" ++ (u ++ ("(" ++ (v ++ (lit ++ w)))) ++ [')'] := by
    simp [importText_eq]
  rw [hsplit, List.getLast?_concat]

theorem notMem_of_isBlank (hc : Text.isBlank c) : c ∉ "@import()\"".toList := by
  have hall : ∀ d ∈ "@import()\"".toList, ¬ Text.isBlank d :=
    List.all_iff_forall_prop.mp (by decide)
  exact fun hmem => hall c hmem hc

/-- Every other character of a literal has a quote in front of it and one behind it. -/
theorem IsQuoted.quote_mem {quote : Char} (h : IsQuoted quote (s ++ c :: e)) (hc : c ≠ quote) :
    quote ∈ s ∧ quote ∈ e := by
  obtain ⟨part, -, h⟩ := h
  constructor
  · cases s with
    | nil => exact absurd (List.cons.inj h).1 hc
    | cons d s =>
      rw [(List.cons.inj h).1]
      exact List.mem_cons_self
  · have hends := congrArg List.getLast? h
    rcases List.eq_nil_or_concat e with rfl | ⟨e, d, rfl⟩
    · exact absurd (by simpa [List.getLast?_cons] using hends) hc
    · have hd : d = quote := by simpa [List.getLast?_cons] using hends
      simp [hd]

/-- White space of a call stands behind its first word, behind its parenthesis, or behind its
literal, unless it is part of the literal. -/
theorem importText_eq_cons (hlit : IsQuoted '"' lit) (hc : Text.isBlank c)
    (hout : c ∉ lit ∨ '"' ∉ s ∨ '"' ∉ e) (h : importText u v lit w = s ++ c :: e) :
    (∃ a b, u = a ++ c :: b ∧ s = "@import" ++ a ∧
      e = b ++ ("(" ++ (v ++ (lit ++ (w ++ ")"))))) ∨
    (∃ a b, v = a ++ c :: b ∧ s = "@import" ++ (u ++ ("(" ++ a)) ∧
      e = b ++ (lit ++ (w ++ ")"))) ∨
    ∃ a b, w = a ++ c :: b ∧ s = "@import" ++ (u ++ ("(" ++ (v ++ (lit ++ a)))) ∧
      e = b ++ ")" := by
  have hno := notMem_of_isBlank hc
  have hmark : ∀ {mark d e : Text}, mark = d ++ c :: e → mark ⊆ "@import()\"".toList → False := by
    rintro mark d e rfl hsub
    exact hno (hsub (by simp))
  rw [importText_eq] at h
  rcases ends_or_reaches h with ⟨d₁, rfl, h₁⟩ | ⟨e', hreach, -⟩
  case inr => exact (hmark hreach (by decide)).elim
  rcases ends_or_reaches h₁ with ⟨d₂, rfl, h₂⟩ | ⟨e', rfl, rfl⟩
  case inr => exact .inl ⟨d₁, e', rfl, rfl, rfl⟩
  rcases ends_or_reaches h₂ with ⟨d₃, rfl, h₃⟩ | ⟨e', hreach, -⟩
  case inr => exact (hmark hreach (by decide)).elim
  rcases ends_or_reaches h₃ with ⟨d₄, rfl, h₄⟩ | ⟨e', rfl, rfl⟩
  case inr => exact .inr (.inl ⟨d₃, e', rfl, rfl, rfl⟩)
  rcases ends_or_reaches h₄ with ⟨d₅, rfl, h₅⟩ | ⟨e', rfl, rfl⟩
  case inr =>
    -- the literal has a quote on either side of the character
    obtain ⟨hfirst, hlast⟩ := hlit.quote_mem fun he => hno (by rw [he]; decide)
    rcases hout with hout | hout | hout
    · exact absurd (by simp) hout
    · exact absurd (by simp [hfirst]) hout
    · exact absurd (by simp [hlast]) hout
  rcases ends_or_reaches h₅ with ⟨d₆, rfl, h₆⟩ | ⟨e', rfl, rfl⟩
  case inr => exact .inr (.inr ⟨d₅, e', rfl, rfl, rfl⟩)
  exact (hmark h₆ (by decide)).elim

/-- What is behind a newline in a call is no comment. -/
theorem IsImportCall.exists_head (h : IsImportCall Text.isBlank (s ++ '\n' :: e)) :
    ∃ d ∈ e.head?, d ≠ '/' := by
  obtain ⟨u, v, lit, w, hu, hv, hlit, hw, heq⟩ := h
  -- the newline is followed by white space or by the next part
  have hhead : ∀ {a b r : Text} {d : Char}, (∀ d ∈ a ++ '\n' :: b, Text.isBlank d) → d ≠ '/' →
      ∃ d' ∈ (b ++ d :: r).head?, d' ≠ '/' := by
    intro a b r d hblank hd
    cases b with
    | nil => exact ⟨d, rfl, hd⟩
    | cons d' b =>
      refine ⟨d', rfl, ?_⟩
      rintro rfl
      exact absurd (hblank '/' (by simp)) (by decide)
  rcases importText_eq_cons hlit (by decide) (.inl (hlit.newline_notMem (by decide))) heq.symm with
    ⟨a, b, rfl, -, rfl⟩ | ⟨a, b, rfl, -, rfl⟩ | ⟨a, b, rfl, -, rfl⟩
  · exact hhead hu (by decide)
  · obtain ⟨part, -, rfl⟩ := hlit
    exact hhead hv (by decide)
  · exact hhead hw (by decide)

/-! ## Texts put into white space -/

/-- The white space, or the same with a text put into it. -/
def IsOpened (ins u g : Text) : Prop := g = u ∨ ∃ u₁ u₂, u = u₁ ++ u₂ ∧ g = u₁ ++ (ins ++ u₂)

/-- A text put into the white space of a call, or next to it, leaves the parts of the call. -/
theorem exists_opened (hlit : IsQuoted '"' lit) (h : importText u v lit w = s ++ s')
    (hwhite : (∃ c ∈ s.getLast?, Text.isBlank c) ∨ ∃ c ∈ s'.head?, Text.isBlank c)
    (hout : '"' ∉ s ∨ '"' ∉ s') (ins : Text) :
    ∃ g₁ g₂ g₃, s ++ (ins ++ s') = importText g₁ g₂ lit g₃ ∧
      IsOpened ins u g₁ ∧ IsOpened ins v g₂ ∧ IsOpened ins w g₃ := by
  have hsplit : (∃ a b, u = a ++ b ∧ s = "@import" ++ a ∧
        s' = b ++ ("(" ++ (v ++ (lit ++ (w ++ ")"))))) ∨
      (∃ a b, v = a ++ b ∧ s = "@import" ++ (u ++ ("(" ++ a)) ∧ s' = b ++ (lit ++ (w ++ ")"))) ∨
      ∃ a b, w = a ++ b ∧ s = "@import" ++ (u ++ ("(" ++ (v ++ (lit ++ a)))) ∧ s' = b ++ ")" := by
    rcases hwhite with ⟨c, hc, hblank⟩ | ⟨c, hc, hblank⟩
    · obtain ⟨s, rfl⟩ := List.getLast?_eq_some_iff.mp hc
      rw [List.append_assoc, List.singleton_append] at h
      rcases importText_eq_cons hlit hblank (.inr (hout.imp_left (mt (List.mem_append_left _)))) h
        with ⟨a, b, rfl, rfl, rfl⟩ | ⟨a, b, rfl, rfl, rfl⟩ | ⟨a, b, rfl, rfl, rfl⟩
      · exact .inl ⟨a ++ [c], b, by simp, by simp, rfl⟩
      · exact .inr (.inl ⟨a ++ [c], b, by simp, by simp, rfl⟩)
      · exact .inr (.inr ⟨a ++ [c], b, by simp, by simp, rfl⟩)
    · obtain ⟨s', rfl⟩ := List.head?_eq_some_iff.mp hc
      rcases importText_eq_cons hlit hblank (.inr (hout.imp_right (mt (List.mem_cons_of_mem _)))) h
        with ⟨a, b, rfl, rfl, rfl⟩ | ⟨a, b, rfl, rfl, rfl⟩ | ⟨a, b, rfl, rfl, rfl⟩
      · exact .inl ⟨a, c :: b, rfl, rfl, rfl⟩
      · exact .inr (.inl ⟨a, c :: b, rfl, rfl, rfl⟩)
      · exact .inr (.inr ⟨a, c :: b, rfl, rfl, rfl⟩)
  have hself : ∀ t, IsOpened ins t t := fun t => .inl rfl
  have hopened : ∀ a b, IsOpened ins (a ++ b) (a ++ (ins ++ b)) := fun a b => .inr ⟨a, b, rfl, rfl⟩
  rcases hsplit with ⟨a, b, rfl, rfl, rfl⟩ | ⟨a, b, rfl, rfl, rfl⟩ | ⟨a, b, rfl, rfl, rfl⟩
  · exact ⟨a ++ (ins ++ b), v, w, by simp [importText_eq], hopened a b, hself v, hself w⟩
  · exact ⟨u, a ++ (ins ++ b), w, by simp [importText_eq], hself u, hopened a b, hself w⟩
  · exact ⟨u, v, a ++ (ins ++ b), by simp [importText_eq], hself u, hself v, hopened a b⟩

/-- Layout that can stand in white space: it starts with white space, and is layout whatever is
behind it. -/
structure IsFiller (ins : Text) : Prop where
  isLayout : ∀ rest, IsLayout rest ins
  head : ∀ c ∈ ins.head?, Text.isBlank c

theorem isFiller_nil : IsFiller [] := ⟨fun _ => .nil, nofun⟩

/-- The comment on a line of its own. -/
def commentLine (c : Text) : Text := '\n' :: (c ++ ['\n'])

theorem IsLayout.append (hs : IsLayout (g ++ rest) s) (hg : IsLayout rest g) :
    IsLayout rest (s ++ g) := by
  induction hs with
  | nil => exact hg
  | blanks hs _ ih =>
    rw [List.append_assoc]
    exact .blanks hs ih
  | comment hs hend _ ih =>
    rw [List.append_assoc]
    rw [← List.append_assoc] at hend
    exact .comment hs hend ih

theorem isLayout_of_blanks (hs : ∀ d ∈ s, isLayoutBlank d) : IsLayout rest s := by
  by_cases hne : s = []
  · subst hne
    exact .nil
  · rw [← List.append_nil s]
    exact .blanks ⟨hne, fun d hd => Terminal.isLayoutBlank_iff.mp (hs d hd)⟩ .nil

theorem isFiller_commentLine {c : Text} (hc : IsPlainComment c) : IsFiller (commentLine c) where
  isLayout rest := by
    have hnewline : ∀ {rest : Text}, IsLayout rest ['\n'] :=
      isLayout_of_blanks (List.forall_mem_singleton.mpr rfl)
    have hcomment : IsLayout rest (c ++ ['\n']) := .comment hc (by rintro _ ⟨⟩; rfl) hnewline
    exact hnewline.append hcomment
  head := by
    rintro _ ⟨⟩
    decide

/-- White space in front of which the lexer goes on is layout. -/
theorem isLayoutBlank_of_stop (hs : ∀ d ∈ s, Text.isBlank d)
    (hstop : (lexFrom p (s ++ r)).stop = none) : ∀ d ∈ s, isLayoutBlank d := by
  induction s generalizing p with
  | nil => exact nofun
  | cons c s ih =>
    obtain ⟨hc, hs⟩ := List.forall_mem_cons.mp hs
    obtain ⟨k, s', rest, heq, htakes⟩ := exists_takes (List.cons_ne_nil c (s ++ r)) hstop
    obtain ⟨d, r', rfl, hd⟩ := htakes.spells.exists_initial
    obtain ⟨rfl, -⟩ := List.cons.inj heq
    obtain rfl := htakes.spells.eq_blank rfl hc
    have hnext := congrArg Lexed.stop (bare_lexFrom_cons (p := p) (t := s ++ r) hd)
    exact List.forall_mem_cons.mpr ⟨hd, ih hs (hnext.symm.trans hstop)⟩

namespace IsOpened

/-- Layout is opened to layout. -/
theorem isLayout (h : IsOpened ins u g) (hins : IsFiller ins) (hu : ∀ d ∈ u, isLayoutBlank d)
    (rest : Text) : IsLayout rest g := by
  rcases h with rfl | ⟨u₁, u₂, rfl, rfl⟩
  · exact isLayout_of_blanks hu
  · obtain ⟨hu₁, hu₂⟩ := List.forall_mem_append.mp hu
    exact (isLayout_of_blanks hu₁).append ((hins.isLayout _).append (isLayout_of_blanks hu₂))

/-- It starts with white space, if it is not empty. -/
theorem head (h : IsOpened ins u g) (hins : IsFiller ins) (hu : ∀ d ∈ u, Text.isBlank d)
    (hc : c ∈ (g ++ r).head?) : Text.isBlank c ∨ c ∈ r.head? := by
  rcases h with rfl | ⟨u₁, u₂, rfl, rfl⟩
  · cases g with
    | nil => exact .inr hc
    | cons d g =>
      obtain rfl := Option.some.inj hc
      exact .inl (hu d List.mem_cons_self)
  · obtain ⟨hu₁, hu₂⟩ := List.forall_mem_append.mp hu
    cases u₁ with
    | cons d u₁ =>
      obtain rfl := Option.some.inj hc
      exact .inl (hu₁ d List.mem_cons_self)
    | nil =>
      cases ins with
      | cons d ins => exact .inl (hins.head c hc)
      | nil =>
        cases u₂ with
        | cons d u₂ =>
          obtain rfl := Option.some.inj hc
          exact .inl (hu₂ d List.mem_cons_self)
        | nil => exact .inr hc

/-- If the lexer goes on behind it, the white space is layout. -/
theorem isLayoutBlank_of_stop (h : IsOpened ins u g) (hins : IsFiller ins)
    (hu : ∀ d ∈ u, Text.isBlank d) (hstop : (lexFrom p (g ++ r)).stop = none) :
    ∀ d ∈ u, isLayoutBlank d := by
  rcases h with rfl | ⟨u₁, u₂, rfl, rfl⟩
  · exact Source.isLayoutBlank_of_stop hu hstop
  · obtain ⟨hu₁, hu₂⟩ := List.forall_mem_append.mp hu
    rw [List.append_assoc, List.append_assoc] at hstop
    have hlayout := Source.isLayoutBlank_of_stop hu₁ hstop
    have hfront : IsLayout (u₂ ++ r) (u₁ ++ ins) :=
      (isLayout_of_blanks hlayout).append (hins.isLayout _)
    have hskip := congrArg Lexed.stop (bare_lexFrom_layout (p := p) hfront)
    rw [List.append_assoc] at hskip
    exact List.forall_mem_append.mpr
      ⟨hlayout, Source.isLayoutBlank_of_stop hu₂ (hskip.symm.trans hstop)⟩

end IsOpened

/-! ## The parts -/

theorem takes_builtin (hcall : ∀ s rest', s ++ rest' = "@import" ++ rest →
      ¬ IsImportCall Text.isBlank s) (hrest : ∀ c ∈ rest.head?, ¬ isNameChar c) :
    Terminal.builtin.Takes "@import" rest where
  spells := ⟨"import", rfl, 'i', "mport", rfl, by decide, List.all_eq_true.mp (by decide)⟩
  longest s' rest' heq hs' := by
    obtain ⟨r, rfl, hr⟩ := hs'
    have htail : r ++ rest' = "import" ++ rest := (List.cons.inj heq).2
    refine Nat.succ_le_succ (length_le_of_notMem htail fun c hc hmem => hrest c hc ?_)
    exact (hr.of_mem hmem).elim (fun hletter => by simp [isNameChar, hletter]) id
  first k s' rest' heq hs' hk := by
    obtain ⟨c, r, hs, hc⟩ := hs'.exists_initial
    have hhead : (s' ++ rest').head? = some '@' := by rw [heq]; rfl
    rw [hs] at hhead
    obtain rfl : c = '@' := Option.some.inj hhead
    cases k with
    | importCall => exact absurd hs' (hcall s' rest' heq)
    | builtin => exact absurd rfl hk
    | quotedName =>
      obtain ⟨_, rfl, _, -, rfl⟩ := hs'
      have hchar : '"' = 'i' := (List.cons.inj (List.cons.inj heq).2).1
      exact absurd hchar (by decide)
    | _ => exact absurd hc (by decide)

/-- Only punctuation starts with an operator character. -/
theorem eq_other_of_isInitial (h : k.isInitial c) (hc : isOperator c) : k = .other := by
  cases k with
  | other => rfl
  | name => exact absurd h (Terminal.isOperator_iff.mp hc).2.1
  | blank =>
    exact absurd (Terminal.isBlank_of_isLayoutBlank h) (Terminal.isOperator_iff.mp hc).1
  | _ =>
    obtain rfl := beq_iff_eq.mp h
    exact absurd hc (by decide)

theorem takes_operators (hs : IsWord isOperator isOperator s)
    (hrest : ∀ c ∈ rest.head?, ¬ isOperator c) : Terminal.other.Takes s rest := by
  obtain ⟨c, r, rfl, hc, hr⟩ := hs
  refine .of_initial (.inr (.inl ⟨c, r, rfl, hc, hr⟩)) (fun s' rest' heq hs' => ?_)
    fun k hk => eq_other_of_isInitial hk hc
  refine length_le_of_notMem heq fun d hd hmem => hrest d hd ?_
  rcases hs' with ⟨c', r', rfl, hc', -⟩ | hs' | rfl
  · obtain ⟨rfl, -⟩ := List.cons.inj heq
    exact absurd hc' (not_isNumeric_of_isOperator hc)
  · exact or_self_iff.mp (hs'.of_mem hmem)
  · obtain ⟨rfl, -⟩ := List.cons.inj heq
    exact absurd hc (by decide)

theorem takes_string (hs : IsQuoted '"' s) : Terminal.string.Takes s rest := by
  have hquoted := hs
  obtain ⟨part, -, rfl⟩ := hs
  refine .of_initial hquoted (fun s' rest' heq hs' => ?_) fun k hk => ?_
  · have hlength : literal '"' (s' ++ rest') = some s'.length := literal_append hs' (by decide)
    rw [heq, literal_append hquoted (by decide)] at hlength
    exact (Option.some.inj hlength).ge
  · cases k with
    | string => rfl
    | _ => exact absurd hk (by decide)

/-- At `p` the lexer reads the terminal and the white space behind it, and goes on at `q`, if the
white space was layout before it was opened; if not, it stops there. -/
structure Reads (p : Position) (t : Text) (k : Terminal) (s u : Text) (q : Position) (r : Text) :
    Prop where
  stop : (lexFrom p t).stop = none ↔ (∀ d ∈ u, isLayoutBlank d) ∧ (lexFrom q r).stop = none
  bare : (∀ d ∈ u, isLayoutBlank d) → (lexFrom p t).bare = (lexFrom q r).bare.after [⟨k, s, p⟩]

section Reads

variable (hg : IsOpened ins u g) (hins : IsFiller ins) (hu : ∀ d ∈ u, Text.isBlank d)
include hg hins hu

theorem Terminal.Takes.reads (h : k.Takes s (g ++ r)) (hk : k.isLayout = false) :
    Reads p (s ++ (g ++ r)) k s u (p.advance (s ++ g)) r := by
  have hlex := lexFrom_of_takes (p := p) h
  have hbare : (∀ d ∈ u, isLayoutBlank d) → (lexFrom p (s ++ (g ++ r))).bare =
      (lexFrom (p.advance (s ++ g)) r).bare.after [⟨k, s, p⟩] := by
    intro hlayout
    have hvisible : visible [⟨k, s, p⟩] = [⟨k, s, p⟩] := by simp [visible, hk]
    rw [hlex, bare_push, bare_lexFrom_layout (hg.isLayout hins hlayout r),
      Position.advance_append, hvisible]
  have hstop : (∀ d ∈ u, isLayoutBlank d) → (lexFrom p (s ++ (g ++ r))).stop =
      (lexFrom (p.advance (s ++ g)) r).stop := fun hlayout =>
    congrArg (fun l => l.stop) (hbare hlayout)
  refine ⟨⟨fun h => ?_, fun h => (hstop h.1).trans h.2⟩, hbare⟩
  have hlayout : ∀ d ∈ u, isLayoutBlank d := by
    rw [hlex] at h
    exact hg.isLayoutBlank_of_stop hins hu h
  exact ⟨hlayout, (hstop hlayout).symm.trans h⟩

theorem reads_builtin (hcall : ∀ s rest', s ++ rest' = "@import" ++ (g ++ r) →
      ¬ IsImportCall Text.isBlank s) (hr : ∀ c ∈ r.head?, ¬ isNameChar c) :
    Reads p ("@import" ++ (g ++ r)) .builtin "@import" u (p.advance ("@import" ++ g)) r := by
  refine (takes_builtin hcall fun c hc => ?_).reads hg hins hu rfl
  rcases hg.head hins hu hc with hblank | hc
  · exact Terminal.not_isNameChar_of_isBlank hblank
  · exact hr c hc

theorem reads_parenthesis (hr : ∀ c ∈ r.head?, ¬ isOperator c) :
    Reads p ("(" ++ (g ++ r)) .other "(" u (p.advance ("(" ++ g)) r := by
  refine (takes_operators ⟨'(', [], rfl, by decide, nofun⟩ fun c hc => ?_).reads hg hins hu rfl
  rcases hg.head hins hu hc with hblank | hc
  · exact fun h => (Terminal.isOperator_iff.mp h).1 hblank
  · exact hr c hc

theorem reads_string (hlit : IsQuoted '"' lit) :
    Reads p (lit ++ (g ++ r)) .string lit u (p.advance (lit ++ g)) r :=
  (takes_string hlit).reads hg hins hu rfl

end Reads

/-- If the lexer does not stop, the tokens are the terminal and those behind it. -/
theorem Reads.visible_eq {q : Position} {t : Text} (h : Reads p t k s u q r)
    (hstop : (lexFrom p t).stop = none) : (lexFrom q r).stop = none ∧
      visible (lexFrom p t).lexemes = ⟨k, s, p⟩ :: visible (lexFrom q r).lexemes := by
  obtain ⟨hlayout, hrest⟩ := h.stop.mp hstop
  exact ⟨hrest, congrArg Lexed.lexemes (h.bare hlayout)⟩

end ZigNif.Source
