import ZigNif.Proofs.Source.Documented

/-!
# Proofs/Source/Quiet — text that a group passes over

In a group only braces and imports are read.  Quiet text has neither: outside of string literals it
is made of names, numbers, operators, semicolons and layout, and its literals need no escapes.
-/

namespace ZigNif.Source

variable {p : Position} {k : Terminal} {s t rest : Text} {c : Char} {a b d : Bool}

/-! ## Quiet text -/

/-- Characters that stand for themselves in a string literal. -/
def isInner (c : Char) : Bool := !(c == '"' || c == '\\' || c == '\n')

/-- Characters of names, numbers, operators and layout, and semicolons. -/
def isQuiet (c : Char) : Bool := isNameChar c || isOperator c || isLayoutBlank c || c == ';'

/-- The characters that are quiet inside or outside of a string literal. -/
def isQuietAt (inside : Bool) (c : Char) : Bool := bif inside then isInner c else isQuiet c

/-- Reads a character: whether the text goes on in a string literal. -/
def quietStep (inside : Bool) (c : Char) : Option Bool :=
  if c = '"' then some !inside
  else if isQuietAt inside c then some inside
  else none

/-- The text is quiet from inside or outside of a literal to inside or outside of one. -/
def Quiet (a : Bool) (t : Text) (b : Bool) : Prop := t.foldlM quietStep a = some b

instance : Decidable (Quiet a t b) := inferInstanceAs (Decidable (_ = _))

theorem isQuiet_iff : isQuiet c ↔ isNameChar c ∨ isOperator c ∨ isLayoutBlank c ∨ c = ';' := by
  simp [isQuiet, or_assoc]

theorem isInner_iff : isInner c ↔ c ≠ '"' ∧ c ≠ '\\' ∧ c ≠ '\n' := by
  simp [isInner, and_assoc]

/-- The characters that are not quiet: white space that is no layout, and some punctuation. -/
theorem not_isQuiet_iff : ¬ isQuiet c ↔ (Text.isBlank c ∧ ¬ isLayoutBlank c) ∨
    c ∈ ['\x7b', '\x7d', '"', '\'', '@', '\\', '/'] := by
  have hmarks : ∀ d ∈ ['\x7b', '\x7d', '"', '\'', '@', '\\', '/'], ¬ isQuiet d :=
    List.all_iff_forall_prop.mp (by decide)
  constructor
  · intro h
    simp only [isQuiet_iff, isOperator, not_or] at h
    obtain ⟨hname, hoperator, hlayout, hsemi⟩ := h
    simp only [Bool.not_eq_true', Bool.not_eq_false, Bool.or_eq_true, beq_iff_eq, hname, hsemi,
      or_false, or_assoc] at hoperator
    simpa [hlayout] using hoperator
  · rintro (⟨hblank, hlayout⟩ | hmark)
    · rw [isQuiet_iff]
      rintro (h | h | h | rfl)
      · exact Terminal.not_isNameChar_of_isBlank hblank h
      · exact (Terminal.isOperator_iff.mp h).1 hblank
      · exact hlayout h
      · exact absurd hblank (by decide)
    · exact hmarks c hmark

/-- Of the quiet characters, only newlines do not stand for themselves in a literal. -/
theorem isInner_of_isQuiet (h : isQuiet c) (hc : c ≠ '\n') : isInner c := by
  rw [isInner_iff]
  refine ⟨?_, ?_, hc⟩ <;> rintro rfl <;> exact absurd h (by decide)

theorem Quiet.nil : Quiet a [] a := rfl

theorem quiet_quote : Quiet a ['"'] !a := rfl

theorem Quiet.append (hs : Quiet a s b) (ht : Quiet b t d) : Quiet a (s ++ t) d := by
  rw [Quiet, List.foldlM_append, hs]
  exact ht

theorem Quiet.of_append (hs : Quiet a s b) (h : Quiet a (s ++ t) d) : Quiet b t d := by
  rw [Quiet, List.foldlM_append, hs] at h
  exact h

/-- Quiet text starts with a quote, or with a character that is quiet where it starts. -/
theorem Quiet.cases_cons (h : Quiet a (c :: t) d) :
    c = '"' ∧ Quiet (!a) t d ∨ isQuietAt a c ∧ Quiet a t d := by
  by_cases hquote : c = '"'
  · subst hquote
    exact .inl ⟨rfl, h⟩
  · rw [Quiet, List.foldlM_cons, quietStep, if_neg hquote] at h
    by_cases hc : isQuietAt a c
    · rw [if_pos hc] at h
      exact .inr ⟨hc, h⟩
    · rw [if_neg hc] at h
      cases h

/-- Text that is quiet character by character. -/
theorem quiet_of_forall (h : ∀ c ∈ t, isQuietAt a c) : Quiet a t a := by
  have hquote : isQuietAt a '"' = false := by cases a <;> decide
  induction t with
  | nil => exact .nil
  | cons c t ih =>
    obtain ⟨hc, ht⟩ := List.forall_mem_cons.mp h
    have hne : c ≠ '"' := by
      rintro rfl
      rw [hquote] at hc
      cases hc
    rw [Quiet, List.foldlM_cons, quietStep, if_neg hne, if_pos hc]
    exact ih ht

theorem quiet_inside (h : ∀ c ∈ t, isInner c) : Quiet true t true := quiet_of_forall h

theorem quiet_outside (h : ∀ c ∈ t, isQuiet c) : Quiet false t false := quiet_of_forall h

/-- Text without quotes that is quiet wherever it stands. -/
theorem quiet_of_all (h : t.all fun c => isQuiet c && isInner c) : Quiet a t a := by
  have hboth : ∀ c ∈ t, isQuiet c ∧ isInner c := fun c hc =>
    Bool.and_eq_true_iff.mp (List.all_eq_true.mp h c hc)
  cases a with
  | false => exact quiet_outside fun c hc => (hboth c hc).1
  | true => exact quiet_inside fun c hc => (hboth c hc).2

/-- With quotes, such a text leaves every literal as it is, or turns inside and outside around. -/
theorem quiet_or_flips (h : ∀ c ∈ t, c = '"' ∨ isQuiet c ∧ isInner c) :
    (∀ a, Quiet a t a) ∨ ∀ a, Quiet a t !a := by
  induction t with
  | nil => exact .inl fun _ => .nil
  | cons c t ih =>
    obtain ⟨hc, ht⟩ := List.forall_mem_cons.mp h
    rw [← List.singleton_append]
    rcases hc with rfl | ⟨hquiet, hinner⟩
    · rcases ih ht with ih | ih
      · exact .inr fun a => quiet_quote.append (ih _)
      · exact .inl fun a => quiet_quote.append (by simpa using ih !a)
    · have hone : ∀ a, Quiet a [c] a := fun a => quiet_of_all (by simp [hquiet, hinner])
      exact ih ht |>.imp (fun ih a => (hone a).append (ih a)) fun ih a => (hone a).append (ih a)

/-! ## Tokens of quiet text -/

/-- Only numbers start with a digit. -/
theorem eq_other_of_isNumeric (h : k.isInitial c) (hc : isNumeric c) : k = .other := by
  have hcode := Terminal.isNumeric_iff.mp hc
  cases k with
  | other => rfl
  | name =>
    have hletter := Terminal.isLetter_iff.mp h
    omega
  | blank =>
    have hblank := Terminal.toNat_of_isBlank (Terminal.isBlank_of_isLayoutBlank h)
    omega
  | _ =>
    obtain rfl := beq_iff_eq.mp h
    exact absurd hc (by decide)

theorem takes_number (hs : IsWord isNumeric (fun c => isNameChar c || c == '.') s)
    (hrest : ∀ c ∈ rest.head?, ¬ (isNameChar c || c == '.')) : Terminal.other.Takes s rest := by
  obtain ⟨c, r, rfl, hc, hr⟩ := hs
  refine .of_initial (.inl ⟨c, r, rfl, hc, hr⟩) (fun s' rest' heq hs' => ?_)
    fun k hk => eq_other_of_isNumeric hk hc
  refine length_le_of_notMem heq fun d hd hmem => hrest d hd ?_
  rcases hs' with hs' | ⟨c', r', rfl, hc', -⟩ | rfl
  · exact (hs'.of_mem hmem).elim (fun hnumeric => by simp [isNameChar, hnumeric]) id
  · obtain ⟨rfl, -⟩ := List.cons.inj heq
    exact absurd hc (not_isNumeric_of_isOperator hc')
  · obtain ⟨rfl, -⟩ := List.cons.inj heq
    exact absurd hc (by decide)

/-- The terminals of quiet text. -/
def Terminal.quiet : List Terminal := [string, name, semicolon, other, blank]

theorem isQuotedPart_of_isInner (h : ∀ c ∈ t, isInner c) : IsQuotedPart '"' t := by
  induction t with
  | nil => exact .nil
  | cons c t ih =>
    obtain ⟨hc, ht⟩ := List.forall_mem_cons.mp h
    obtain ⟨hquote, hslash, hline⟩ := isInner_iff.mp hc
    exact .plain hquote hslash hline (ih ht)

/-- A literal that is open ends in the text. -/
theorem Quiet.exists_literal (h : Quiet true t false) : ∃ part r, t = part ++ '"' :: r ∧
    (∀ c ∈ part, isInner c) ∧ Quiet false r false := by
  induction t with
  | nil => cases h
  | cons c t ih =>
    rcases h.cases_cons with ⟨rfl, ht⟩ | ⟨hc, ht⟩
    · exact ⟨[], t, rfl, nofun, ht⟩
    · obtain ⟨part, r, rfl, hpart, hr⟩ := ih ht
      exact ⟨c :: part, r, rfl, List.forall_mem_cons.mpr ⟨hc, hpart⟩, hr⟩

theorem not_isQuiet_leftBrace : ∀ c ∈ ("\x7b" ++ rest).head?, ¬ isQuiet c := by
  rintro _ ⟨⟩
  decide

theorem not_isQuiet_rightBrace : ∀ c ∈ ("\x7d" ++ rest).head?, ¬ isQuiet c := by
  rintro _ ⟨⟩
  decide

section Lexer

variable (hrest : ∀ c ∈ rest.head?, ¬ isQuiet c)
include hrest

/-- A run of a class of quiet characters ends in front of quiet text. -/
theorem Quiet.exists_run {f : Char → Bool} (hf : ∀ d, f d → isQuiet d) (h : Quiet false t false) :
    ∃ run r, t = run ++ r ∧ (∀ d ∈ run, f d) ∧ (∀ d ∈ (r ++ rest).head?, ¬ f d) ∧
      Quiet false r false := by
  have hrun : ∀ d ∈ t.takeWhile f, f d := fun d hd => List.mem_takeWhile_imp hd
  have hsplit : t.takeWhile f ++ t.dropWhile f = t := List.takeWhile_append_dropWhile
  refine ⟨t.takeWhile f, t.dropWhile f, hsplit.symm, hrun, fun d hd => ?_, ?_⟩
  · cases hdrop : t.dropWhile f with
    | nil =>
      rw [hdrop] at hd
      exact fun hfd => hrest d hd (hf d hfd)
    | cons e r =>
      have hhead := List.head?_dropWhile_not f t
      rw [hdrop] at hd hhead
      obtain rfl := Option.some.inj hd
      simpa using hhead
  · rw [← hsplit] at h
    exact (quiet_outside fun d hd => hf d (hrun d hd)).of_append h

/-- Quiet text starts with a terminal that is passed over, and is quiet behind it. -/
theorem Quiet.exists_takes (hne : t ≠ []) (h : Quiet false t false) : ∃ k s r, t = s ++ r ∧
    k ∈ Terminal.quiet ∧ k.Takes s (r ++ rest) ∧ Quiet false r false := by
  obtain ⟨c, t, rfl⟩ := List.exists_cons_of_ne_nil hne
  rcases h.cases_cons with ⟨rfl, ht⟩ | ⟨hquiet, ht⟩
  · obtain ⟨part, r, rfl, hpart, hr⟩ := Quiet.exists_literal ht
    refine ⟨.string, '"' :: (part ++ ['"']), r, by simp, by decide, ?_, hr⟩
    exact takes_string ⟨part, isQuotedPart_of_isInner hpart, rfl⟩
  -- which terminal it is, its first character says
  rcases isQuiet_iff.mp hquiet with hname | hoperator | hlayout | rfl
  · rcases Bool.or_eq_true_iff.mp hname with hletter | hnumeric
    · obtain ⟨run, r, rfl, hrun, hhead, hr⟩ :=
        ht.exists_run hrest (f := isNameChar) fun d hd => isQuiet_iff.mpr (.inl hd)
      exact ⟨.name, c :: run, r, rfl, by decide, takes_name ⟨c, run, rfl, hletter, hrun⟩ hhead, hr⟩
    · have hdot : ∀ d, (isNameChar d || d == '.') → isQuiet d := by
        intro d hd
        rcases Bool.or_eq_true_iff.mp hd with hd | hd
        · exact isQuiet_iff.mpr (.inl hd)
        · rw [beq_iff_eq.mp hd]
          decide
      obtain ⟨run, r, rfl, hrun, hhead, hr⟩ := ht.exists_run hrest hdot
      exact ⟨.other, c :: run, r, rfl, by decide,
        takes_number ⟨c, run, rfl, hnumeric, hrun⟩ hhead, hr⟩
  · obtain ⟨run, r, rfl, hrun, hhead, hr⟩ :=
      ht.exists_run hrest (f := isOperator) fun d hd => isQuiet_iff.mpr (.inr (.inl hd))
    exact ⟨.other, c :: run, r, rfl, by decide,
      takes_operators ⟨c, run, rfl, hoperator, hrun⟩ hhead, hr⟩
  · obtain ⟨run, r, rfl, hrun, hhead, hr⟩ :=
      ht.exists_run hrest (f := isLayoutBlank) fun d hd => isQuiet_iff.mpr (.inr (.inr (.inl hd)))
    exact ⟨.blank, c :: run, r, rfl, by decide, takes_blank (List.cons_ne_nil c run)
      (List.forall_mem_cons.mpr ⟨hlayout, hrun⟩) hhead, hr⟩
  · exact ⟨.semicolon, [';'], t, rfl, by decide,
      takes_mark (by decide) rfl fun _ _ => .rfl, ht⟩

/-- **Quiet text leaves quiet tokens.**  The induction is on the text that is left. -/
theorem Quiet.exists_tokens (h : Quiet false t false) (p : Position) : ∃ toks : List Token,
    (∀ tok ∈ toks, tok.terminal ∈ Terminal.quiet) ∧
      (lexFrom p (t ++ rest)).bare = (lexFrom (p.advance t) rest).bare.after toks := by
  induction hlength : t.length using Nat.strong_induction_on generalizing p t with
  | _ n ih =>
    by_cases ht : t = []
    · subst ht
      exact ⟨[], nofun, rfl⟩
    · obtain ⟨k, s, r, rfl, hk, htakes, hr⟩ := h.exists_takes hrest ht
      have hless : r.length < n := by
        have := List.length_pos_iff.mpr htakes.spells.ne_nil
        rw [List.length_append] at hlength
        omega
      obtain ⟨toks, htoks, hlex⟩ := ih r.length hless hr (p.advance s) rfl
      have hone : ∀ tok ∈ visible [⟨k, s, p⟩], tok.terminal ∈ Terminal.quiet := by
        intro tok htok
        obtain rfl := List.mem_singleton.mp (List.mem_of_mem_filter htok)
        exact hk
      refine ⟨visible [⟨k, s, p⟩] ++ toks, List.forall_mem_append.mpr ⟨hone, htoks⟩, ?_⟩
      rw [List.append_assoc, lexFrom_of_takes htakes, bare_push, hlex, Lexed.after_after,
        Position.advance_append]

end Lexer

end ZigNif.Source
