import ZigNif.Proofs.Source.Cut

/-!
# Proofs/Source/Break — a newline put into a source

Only white space and import calls reach over a newline.  So a terminal that is taken in front of a
place is still taken if a newline comes to stand there (`Takes.newline`), unless an import call
then reaches over it, or the terminal is white space that ends at the place.
-/

namespace ZigNif.Source

variable {k : Terminal} {s s' t q y z rest rest' : Text}

/-! ## What a newline changes -/

/-- A text in front of `rest'` ends before a character, or reaches over it. -/
theorem ends_or_reaches {c : Char} (h : s' ++ rest' = t ++ c :: z) :
    (∃ d, t = s' ++ d ∧ rest' = d ++ c :: z) ∨ ∃ e, s' = t ++ c :: e ∧ z = e ++ rest' := by
  rcases List.append_eq_append_iff.mp h with ⟨d, hd, hrest⟩ | ⟨d, hd, hz⟩
  · exact .inl ⟨d, hd, hrest⟩
  · cases d with
    | nil => exact .inl ⟨[], by rw [hd, List.append_nil, List.append_nil], hz.symm⟩
    | cons c' d =>
      obtain ⟨rfl, htail⟩ := List.cons.inj hz
      exact .inr ⟨d, hd, htail⟩

theorem IsQuotedPart.newline_notMem {quote : Char} (h : IsQuotedPart quote s) : '\n' ∉ s := by
  induction h with
  | nil => exact List.not_mem_nil
  | escape hc _ ih => simp [hc.symm, ih]
  | plain _ _ hc _ ih => simp [hc.symm, ih]

theorem IsQuoted.newline_notMem {quote : Char} (h : IsQuoted quote s) (hquote : quote ≠ '\n') :
    '\n' ∉ s := by
  obtain ⟨part, hpart, rfl⟩ := h
  simp [hpart.newline_notMem, hquote.symm]

namespace Terminal

/-- **Only white space and import calls hold newlines.** -/
theorem Spells.newline_notMem (h : k.Spells s rest) (himport : k ≠ importCall) (hblank : k ≠ blank) :
    '\n' ∉ s := by
  cases k with
  | importCall => exact absurd rfl himport
  | blank => exact absurd rfl hblank
  | docComment =>
    obtain ⟨r, rfl, hr, -⟩ := h
    simp [hr]
  | comment | multilineString =>
    obtain ⟨r, rfl, hr⟩ := h
    simp [hr]
  | quotedName =>
    obtain ⟨lit, rfl, hlit⟩ := h
    simp [hlit.newline_notMem (by decide)]
  | builtin =>
    obtain ⟨r, rfl, hr⟩ := h
    have hr' : '\n' ∉ r := fun hmem => (hr.of_mem hmem).elim (by decide) (by decide)
    simp [hr']
  | string | char => exact IsQuoted.newline_notMem h (by decide)
  | name => exact fun hmem => (IsWord.of_mem h hmem).elim (by decide) (by decide)
  | leftBrace | rightBrace | semicolon => obtain rfl := h; decide
  | other =>
    rcases h with h | h | rfl
    · exact fun hmem => (h.of_mem hmem).elim (by decide) (by decide)
    · exact fun hmem => (h.of_mem hmem).elim (by decide) (by decide)
    · decide

/-- What is behind a text counts only if it is a slash behind a slash. -/
theorem Spells.of_rest (h : k.Spells s rest)
    (hslash : rest'.head? = some '/' → s.getLast? = some '/' → rest.head? = some '/') :
    k.Spells s rest' := by
  cases k with
  | docComment =>
    obtain ⟨r, rfl, hr, hhead⟩ := h
    refine ⟨r, rfl, hr, fun hhead' => ?_⟩
    cases r with
    | nil => exact hhead (hslash hhead' rfl)
    | cons c r => exact hhead hhead'
  | _ => exact h

/-- Only white space is taken where there is nothing but layout, and then it takes all of it. -/
theorem Takes.eq_blank_of_layout (h : k.Takes s (q ++ y)) (hlayout : ∀ c ∈ s ++ q, isLayoutBlank c) :
    k = blank ∧ q = [] := by
  obtain ⟨c, r, rfl, hc⟩ := h.spells.exists_initial
  obtain rfl : k = blank :=
    h.spells.eq_blank rfl (isBlank_of_isLayoutBlank (hlayout c (by simp)))
  have hspells : blank.Spells (c :: r ++ q) y := isWord_self_iff.mpr ⟨by simp, hlayout⟩
  have hle := h.longest (c :: r ++ q) y (List.append_assoc _ _ _) hspells
  rw [List.length_append] at hle
  exact ⟨rfl, List.length_eq_zero_iff.mp (by omega)⟩

/-- What can be spelled with a newline put in can be spelled without it, unless it is white space or
an import call that reaches over the newline. -/
theorem Takes.exists_spells_of_newline {k' : Terminal} (h : k.Takes s (q ++ y))
    (hslash : y.head? = some '/' → (s ++ q).getLast? ≠ some '/') (hblank : k = blank → q ≠ [])
    (hcall : ∀ e, e <+: z → ¬ IsImportCall Text.isBlank (s ++ (q ++ '\n' :: e)))
    (heq : s' ++ rest' = s ++ (q ++ '\n' :: z)) (hs' : k'.Spells s' rest') :
    ∃ rest'', s' ++ rest'' = s ++ (q ++ y) ∧ k'.Spells s' rest'' := by
  rw [← List.append_assoc] at heq
  rcases ends_or_reaches heq with ⟨d, hd, rfl⟩ | ⟨e, rfl, he⟩
  · refine ⟨d ++ y, by rw [← List.append_assoc, ← hd, List.append_assoc], hs'.of_rest ?_⟩
    intro hhead hlast
    cases d with
    | nil => exact absurd (by rw [hd, List.append_nil]; exact hlast) (hslash hhead)
    | cons c d => exact hhead
  · exfalso
    by_cases himport : k' = importCall
    · subst himport
      refine hcall e ⟨rest', he.symm⟩ ?_
      rw [← List.append_assoc]
      exact hs'
    · by_cases hk' : k' = blank
      · subst hk'
        obtain ⟨-, hlayout⟩ := isWord_self_iff.mp hs'
        obtain ⟨rfl, rfl⟩ := h.eq_blank_of_layout fun c hc =>
          hlayout c (List.mem_append_left _ hc)
        exact hblank rfl rfl
      · exact hs'.newline_notMem himport hk' (by simp)

/-- **A newline behind a terminal, or further back, does not change that it is taken.** -/
theorem Takes.newline (h : k.Takes s (q ++ y))
    (hslash : y.head? = some '/' → (s ++ q).getLast? ≠ some '/') (hblank : k = blank → q ≠ [])
    (hcall : ∀ e, e <+: z → ¬ IsImportCall Text.isBlank (s ++ (q ++ '\n' :: e))) :
    k.Takes s (q ++ '\n' :: z) := by
  refine ⟨h.spells.of_rest fun hhead _ => ?_, fun s' rest' heq hs' => ?_,
    fun k' s' rest' heq hs' => ?_⟩
  · cases q with
    | nil => cases hhead
    | cons c q => exact hhead
  · obtain ⟨rest'', heq', hs''⟩ := h.exists_spells_of_newline hslash hblank hcall heq hs'
    exact h.longest s' rest'' heq' hs''
  · obtain ⟨rest'', heq', hs''⟩ := h.exists_spells_of_newline hslash hblank hcall heq hs'
    exact h.first k' s' rest'' heq' hs''

end Terminal

variable {front x : Text} {before after : List Token}

/-- **A newline leaves the lexemes in front of it as they are**, if no import call then reaches over
it.  Here `q` is what is behind the last of them and in front of the newline.  Only white space is
taken otherwise than before, and it is layout. -/
theorem bare_lexFrom_newline (h : Cut front (x ++ (q ++ y)) (before ++ after))
    (hx : before.flatMap Token.text = x) (hslash : y.head? = some '/' → (x ++ q).getLast? ≠ some '/')
    (hcall : ∀ ls, ls <:+ before → ∀ e, e <+: z →
      ¬ IsImportCall Text.isBlank (ls.flatMap Token.text ++ (q ++ '\n' :: e))) :
    (lexFrom (.behind front) (x ++ (q ++ '\n' :: z))).bare =
      (lexFrom (.behind (front ++ x)) (q ++ '\n' :: z)).bare.after (visible before) := by
  induction before generalizing front x with
  | nil =>
    obtain rfl := hx
    rw [List.flatMap_nil, List.append_nil]
    rfl
  | cons l before ih =>
    obtain rfl := hx
    rw [List.flatMap_cons] at hslash ⊢
    rw [List.flatMap_cons, List.append_assoc] at h
    obtain ⟨hposition, htakes, hcut⟩ := h.of_cons
    have hslash' : y.head? = some '/' → (before.flatMap Token.text ++ q).getLast? ≠ some '/' := by
      intro hhead hlast
      refine hslash hhead ?_
      rw [List.append_assoc, List.getLast?_append, hlast]
      rfl
    have hrest := ih hcut rfl hslash' fun ls hls => hcall ls (hls.trans (List.suffix_cons l before))
    have hvisible : visible (l :: before) = visible [l] ++ visible before := visible_append [l] before
    rw [List.append_assoc front] at hrest
    rw [List.append_assoc l.text, hvisible, ← Lexed.after_after, ← hrest]
    by_cases hblank : l.terminal = .blank
    · have hlayout : ∀ c ∈ l.text, isLayoutBlank c := by
        have hspells := htakes.spells
        rw [hblank] at hspells
        exact (isWord_self_iff.mp hspells).2
      rw [bare_lexFrom_blanks hlayout, Position.advance_behind]
      simp [visible, hblank, Terminal.isLayout, Lexed.after]
    · rw [← List.append_assoc (before.flatMap Token.text)] at htakes
      rw [List.append_assoc] at hslash
      have hnewline := htakes.newline hslash (fun h => absurd h hblank) fun e he => by
        have hno := hcall (l :: before) (List.suffix_refl _) e he
        rwa [List.flatMap_cons, List.append_assoc, ← List.append_assoc (before.flatMap _)] at hno
      rw [List.append_assoc] at hnewline
      have hl : (⟨l.terminal, l.text, .behind front⟩ : Token) = l := by rw [← hposition]
      rw [lexFrom_of_takes hnewline, Position.advance_behind, hl, bare_push]

end ZigNif.Source
