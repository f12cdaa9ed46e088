import Mathlib.Data.List.Induction
import Mathlib.Data.List.TakeWhile
import ZigNif.Proofs.Except
import ZigNif.Proofs.Json.Reader
import ZigNif.Proofs.Text.Items

/-!
# Proofs/Json/Lexemes — the lexemes of a text that is read

A text that is read consists of blanks and lexemes, and every lexeme has a form: a mark, a word or
number without quotes, or a string, in which quotes stand only behind backslashes (`Spells`).
`Accepts` says that reading a text from a state on comes to an end, lexeme by lexeme.
-/

namespace ZigNif

namespace Text

variable {c : Char} {t : Text}

theorem exists_hexValue?_of_mem {n : Nat} (h : hexNumeral? t = some n) (hc : c ∈ t) :
    ∃ d, hexValue? c = some d := by
  induction t using List.reverseRecOn generalizing n with
  | nil => cases hc
  | append_singleton t e ih =>
    rw [hexNumeral?_append_singleton, Option.bind_eq_some_iff] at h
    obtain ⟨m, hm, h⟩ := h
    rcases List.mem_append.mp hc with hc | hc
    · exact ih hm hc
    · obtain rfl := List.mem_singleton.mp hc
      obtain ⟨d, hd, -⟩ := Option.map_eq_some_iff.mp h
      exact ⟨d, hd⟩

end Text

namespace Json

variable {p q : Progress} {c : Char} {r s t u body source rest : Text} {lexeme : Lexeme}
  {us : List Nat} {k : Nat} {v : Json}

/-! ## Strings -/

/-- What can stand between the quotes of a string. -/
inductive IsBody : Text → Prop
  | nil : IsBody []
  | plain {c : Char} {t : Text} (quote : c ≠ '"') (backslash : c ≠ '\\') (shown : 0x20 ≤ c.toNat)
    (rest : IsBody t) : IsBody (c :: t)
  | escape {c : Char} {t : Text} (shown : 0x20 ≤ c.toNat) (rest : IsBody t) :
    IsBody ('\\' :: c :: t)

theorem IsBody.newline_notMem (h : IsBody body) : '\n' ∉ body := by
  have hne : ∀ {c : Char}, 0x20 ≤ c.toNat → '\n' ≠ c := by
    rintro _ hshown rfl
    exact absurd hshown (by decide)
  induction h with
  | nil => exact List.not_mem_nil
  | plain _ _ hshown _ ih => exact List.not_mem_cons_of_ne_of_not_mem (hne hshown) ih
  | escape hshown _ ih =>
    exact List.not_mem_cons_of_ne_of_not_mem (by decide)
      (List.not_mem_cons_of_ne_of_not_mem (hne hshown) ih)

/-- A quote in a string stands behind a backslash. -/
theorem IsBody.getLast?_of_quote (h : IsBody (s ++ '"' :: t)) : s.getLast? = some '\\' := by
  generalize hbody : s ++ '"' :: t = body at h
  induction h generalizing s with
  | nil => exact absurd hbody (List.append_ne_nil_of_right_ne_nil _ (List.cons_ne_nil _ _))
  | plain hquote _ _ _ ih =>
    cases s with
    | nil => exact absurd (List.cons.inj hbody).1.symm hquote
    | cons c s => rw [List.getLast?_cons, ih (List.cons.inj hbody).2, Option.getD_some]
  | escape _ _ ih =>
    rcases s with _ | ⟨c, _ | ⟨d, s⟩⟩
    · exact absurd (List.cons.inj hbody).1 (by decide)
    · rw [(List.cons.inj hbody).1]
      rfl
    · have hrest := (List.cons.inj (List.cons.inj hbody).2).2
      rw [List.getLast?_cons, List.getLast?_cons, ih hrest, Option.getD_some, Option.getD_some]

/-- A hexadecimal digit is no quote and no backslash. -/
theorem IsBody.digit (hc : ∃ d, Text.hexValue? c = some d) (ht : IsBody t) : IsBody (c :: t) := by
  obtain ⟨d, hc⟩ := hc
  have hcode : 0x30 ≤ c.toNat ∧ c.toNat ≠ 0x5c := by
    simp only [Text.hexValue?, Char.le_def, UInt32.le_iff_toNat_le] at hc
    change (if 0x30 ≤ c.toNat ∧ c.toNat ≤ 0x39 then _ else
      if 0x61 ≤ c.toNat ∧ c.toNat ≤ 0x66 then _ else
      if 0x41 ≤ c.toNat ∧ c.toNat ≤ 0x46 then _ else _) = _ at hc
    split at hc
    · omega
    · split at hc
      · omega
      · split at hc
        · omega
        · cases hc
  refine .plain ?_ ?_ (by omega) ht
  · rintro rfl
    exact absurd hcode (by decide)
  · rintro rfl
    exact absurd hcode (by decide)

/-- A string that is read ends at a quote, and has what can stand in a string in front of it. -/
theorem exists_body_of_readString (h : readString k t = .done us r) :
    ∃ body, t = body ++ '"' :: r ∧ IsBody body := by
  fun_induction readString k t generalizing us r with
  | case2 k t =>
    obtain ⟨-, rfl⟩ := StringRead.done.inj h
    exact ⟨[], rfl, .nil⟩
  | case4 k a b c d e t n hdigits ih =>
    obtain ⟨us', hrest⟩ := StringRead.push_eq_done h
    obtain ⟨body, hbody, hinner⟩ := ih hrest
    have hdigit : ∀ x ∈ [a, b, c, d], ∃ v, Text.hexValue? x = some v := fun x hx =>
      Text.exists_hexValue?_of_mem hdigits hx
    simp only [List.forall_mem_cons] at hdigit
    obtain ⟨ha, hb, hc, hd, -⟩ := hdigit
    refine ⟨'\\' :: 'u' :: a :: b :: c :: d :: body, by rw [hbody]; rfl, ?_⟩
    exact .escape (by decide) ((((hinner.digit hd).digit hc).digit hb).digit ha)
  | case7 k c t _ _ e hescape ih =>
    obtain ⟨us', hrest⟩ := StringRead.push_eq_done h
    obtain ⟨body, rfl, hinner⟩ := ih hrest
    refine ⟨'\\' :: c :: body, rfl, .escape ?_ hinner⟩
    unfold simpleEscape? at hescape
    split at hescape <;> first | decide | cases hescape
  | case10 k c t hquote _ _ _ hescape hshown ih =>
    obtain ⟨us', hrest⟩ := StringRead.push_eq_done h
    obtain ⟨body, rfl, hinner⟩ := ih hrest
    refine ⟨c :: body, rfl, .plain hquote (fun hc => ?_) (Nat.le_of_not_lt hshown) hinner⟩
    obtain ⟨d, u, hu⟩ := List.exists_cons_of_ne_nil (l := body ++ '"' :: r) (by simp)
    exact hescape d u hc hu
  | _ => cases h

/-! ## Numbers and words -/

/-- The characters that a number literal is made of. -/
def IsNumeralChar (c : Char) : Prop := isAsciiDigit c ∨ c ∈ ['.', '+', '-', 'e', 'E']

/-- The second text is what is left of the first behind characters of a number. -/
def Leaves (t r : Text) : Prop := ∃ s, t = s ++ r ∧ ∀ c ∈ s, IsNumeralChar c

namespace Leaves

theorem refl (t : Text) : Leaves t t := ⟨[], rfl, nofun⟩

theorem cons (hc : IsNumeralChar c) (h : Leaves t r) : Leaves (c :: t) r := by
  obtain ⟨s, rfl, hs⟩ := h
  exact ⟨c :: s, rfl, List.forall_mem_cons.mpr ⟨hc, hs⟩⟩

theorem trans (h : Leaves t r) (h' : Leaves r u) : Leaves t u := by
  obtain ⟨s, rfl, hs⟩ := h
  obtain ⟨s', rfl, hs'⟩ := h'
  exact ⟨s ++ s', (List.append_assoc _ _ _).symm, List.forall_mem_append.mpr ⟨hs, hs'⟩⟩

theorem digits (t : Text) : Leaves t (t.dropWhile isAsciiDigit) :=
  ⟨t.takeWhile isAsciiDigit, List.takeWhile_append_dropWhile.symm,
    fun _ hc => .inl (List.mem_takeWhile_imp hc)⟩

theorem wholePart (t : Text) : Leaves t (wholePart t).2 := by
  unfold Json.wholePart
  split
  case isTrue h =>
    obtain ⟨u, rfl⟩ := List.head?_eq_some_iff.mp h
    exact (refl u).cons (.inl rfl)
  case isFalse => exact digits t

theorem fractionPart (t : Text) : Leaves t (fractionPart t).2 := by
  unfold Json.fractionPart
  split
  · split
    · exact refl _
    · exact (digits _).cons (.inr (by decide))
  · exact refl _

theorem signPart (t : Text) : Leaves t (signPart t).2 := by
  unfold Json.signPart
  split
  · exact (refl _).cons (.inr (by decide))
  · exact (refl _).cons (.inr (by decide))
  · exact refl _

theorem powerPart (t : Text) : Leaves t (powerPart t).2 := by
  unfold Json.powerPart
  split
  · exact refl _
  · rename_i c t
    dsimp only
    split
    case isTrue h =>
      have hmark : IsNumeralChar c := by
        rcases h.1 with rfl | rfl
        · exact .inr (by decide)
        · exact .inr (by decide)
      exact ((signPart t).trans (digits _)).cons hmark
    case isFalse => exact refl _

theorem readNumeral? {n : Numeral} (h : readNumeral? t = some (n, r)) : Leaves t r := by
  have hunsigned : ∀ {b t}, readUnsigned? b t = some (n, r) → Leaves t r := by
    intro b t h
    simp only [readUnsigned?] at h
    split at h
    case isTrue => cases h
    case isFalse =>
      obtain ⟨-, rfl⟩ := Prod.mk.inj (Option.some.inj h)
      exact ((wholePart t).trans (fractionPart _)).trans (powerPart _)
  unfold Json.readNumeral? at h
  split at h
  · exact (hunsigned h).cons (.inr (by decide))
  · exact hunsigned h

end Leaves

theorem exists_word_of_readWord? (h : readWord? t = some (v, r)) :
    ∃ w ∈ words, t = w.1 ++ r ∧ v = w.2 := by
  obtain ⟨w, hw, heq⟩ := Option.map_eq_some_iff.mp h
  obtain ⟨rfl, rfl⟩ := Prod.mk.inj heq
  have hprefix : w.1.isPrefixOf t = true :=
    List.find?_some (p := fun w : Text × Json => w.1.isPrefixOf t) hw
  obtain ⟨u, rfl⟩ := List.isPrefixOf_iff_prefix.mp hprefix
  exact ⟨w, List.mem_of_find?_eq_some hw, by rw [List.drop_left], rfl⟩

/-! ## Forms of lexemes -/

/-- The mark of a lexeme that is one character. -/
inductive Mark : Char → Lexeme → Prop
  | openArray : Mark '[' .openArray
  | closeArray : Mark ']' .closeArray
  | openObject : Mark '\x7b' .openObject
  | closeObject : Mark '\x7d' .closeObject
  | comma : Mark ',' .comma
  | colon : Mark ':' .colon

/-- The text has no quote and no line boundary. -/
def IsBare (t : Text) : Prop := ∀ c ∈ t, c ≠ '"' ∧ c ≠ '\n'

/-- The text is that of the lexeme alone. -/
inductive Spells : Text → Lexeme → Prop
  | mark {c : Char} {lexeme : Lexeme} (mark : Mark c lexeme) : Spells [c] lexeme
  | bare {t : Text} {v : Json} (bare : IsBare t) (plain : ∀ fields, v ≠ .obj fields) :
    Spells t (.value v)
  | string {body : Text} (inner : IsBody body) (s : Text) :
    Spells ('"' :: (body ++ ['"'])) (.string s)

/-- Where no lexeme can be read, or a number that is too long. -/
inductive IsBroken : Lexeme → Prop
  | string (fault : StringFault) (offset : Nat) : IsBroken (.brokenString fault offset)
  | number (fault : Text.LongNumeral) : IsBroken (.longNumber fault)
  | junk : IsBroken .junk

theorem IsNumeralChar.ne (h : IsNumeralChar c) : c ≠ '"' ∧ c ≠ '\n' := by
  constructor
  · rintro rfl
    rcases h with h | h <;> revert h <;> decide
  · rintro rfl
    rcases h with h | h <;> revert h <;> decide

theorem Leaves.exists_bare (h : Leaves t r) : ∃ s, t = s ++ r ∧ IsBare s := by
  obtain ⟨s, rfl, hs⟩ := h
  exact ⟨s, rfl, fun c hc => (hs c hc).ne⟩

theorem isBare_word {w : Text × Json} (hw : w ∈ words) :
    IsBare w.1 ∧ ∀ fields, w.2 ≠ .obj fields := by
  have hbare : ∀ w ∈ words, ∀ c ∈ w.1, c ≠ '"' ∧ c ≠ '\n' := by decide
  refine ⟨hbare w hw, ?_⟩
  simp only [words, List.mem_cons, List.not_mem_nil, or_false] at hw
  rcases hw with rfl | rfl | rfl | rfl | rfl | rfl <;> exact fun _ h => Json.noConfusion h

/-- A literal is a number, or is too long. -/
theorem lexeme_numeral (n : Numeral) :
    (∃ v, n.lexeme = .value v ∧ ∀ fields, v ≠ .obj fields) ∨ IsBroken n.lexeme := by
  unfold Numeral.lexeme
  split
  · split
    · exact .inl ⟨_, rfl, nofun⟩
    · exact .inr (.number _)
  · exact .inl ⟨_, rfl, nofun⟩

/-- **The first lexeme of a text has a text of its form**, and what is left stands behind it. -/
theorem exists_spells_firstLexeme (h : firstLexeme c t = (lexeme, rest)) :
    IsBroken lexeme ∨ ∃ source, c :: t = source ++ rest ∧ Spells source lexeme := by
  unfold firstLexeme at h
  split at h
  case h_7 =>
    split at h
    · rename_i us r hread
      obtain ⟨rfl, rfl⟩ := Prod.mk.inj h
      obtain ⟨body, rfl, hbody⟩ := exists_body_of_readString hread
      exact .inr ⟨'"' :: (body ++ ['"']), by simp, .string hbody _⟩
    · obtain ⟨rfl, -⟩ := Prod.mk.inj h
      exact .inl (.string _ _)
  case h_8 =>
    split at h
    · rename_i v r hword
      obtain ⟨rfl, rfl⟩ := Prod.mk.inj h
      obtain ⟨w, hw, ht, rfl⟩ := exists_word_of_readWord? hword
      exact .inr ⟨w.1, ht, .bare (isBare_word hw).1 (isBare_word hw).2⟩
    · split at h
      · rename_i n r hnumeral
        obtain ⟨rfl, rfl⟩ := Prod.mk.inj h
        obtain ⟨s, hs, hbare⟩ := (Leaves.readNumeral? hnumeral).exists_bare
        rcases lexeme_numeral n with ⟨v, hv, hplain⟩ | hbroken
        · exact .inr ⟨s, hs, hv ▸ .bare hbare hplain⟩
        · exact .inl hbroken
      · obtain ⟨rfl, -⟩ := Prod.mk.inj h
        exact .inl .junk
  all_goals
    obtain ⟨rfl, rfl⟩ := Prod.mk.inj h
    exact .inr ⟨[_], rfl, .mark (by constructor)⟩

/-! ## Reading to the end -/

/-- Nothing is read where no lexeme can be. -/
theorem step_of_isBroken (h : IsBroken lexeme) (p : Progress) (u : Text) :
    ∃ fault, step p ⟨lexeme, u⟩ = .error fault := by
  obtain ⟨expect, stack⟩ := p
  cases expect with
  | after v => rcases stack with _ | ⟨_ | _, stack⟩ <;> cases h <;> exact ⟨_, rfl⟩
  | _ => cases h <;> exact ⟨_, rfl⟩

/-- Reading the text from the state on comes to the value, lexeme by lexeme. -/
inductive Accepts (v : Json) : Progress → Text → Prop
  | finish {p : Progress} (finish : finish p = .ok v) : Accepts v p []
  | space {p : Progress} {c : Char} {t : Text} (space : isSpace c) (rest : Accepts v p t) :
    Accepts v p (c :: t)
  | lexeme {p q : Progress} {source t : Text} {lexeme : Lexeme} (spells : Spells source lexeme)
    (lex : lex (source ++ t) = ⟨lexeme, source ++ t⟩ :: lex t)
    (step : step p ⟨lexeme, source ++ t⟩ = .ok q) (rest : Accepts v q t) : Accepts v p (source ++ t)

theorem accepts_of_run (h : run p t >>= Json.finish = .ok v) : Accepts v p t := by
  induction t using lex.induct generalizing p with
  | case1 =>
    rw [run_nil] at h
    exact .finish h
  | case2 c t hspace ih =>
    rw [run_space hspace] at h
    exact .space hspace (ih h)
  | case3 c t hspace ih =>
    have hlex : lex (c :: t) = ⟨(firstLexeme c t).1, c :: t⟩ :: lex (firstLexeme c t).2 := by
      rw [lex, if_neg hspace]
    have hfirst : firstLexeme c t = ((firstLexeme c t).1, (firstLexeme c t).2) := rfl
    rw [run_cons (Bool.eq_false_iff.mpr hspace) hfirst, bind_assoc] at h
    obtain ⟨q, hstep, hrest⟩ := bind_eq_ok_iff.mp h
    rcases exists_spells_firstLexeme hfirst with hbroken | ⟨source, hsource, hspells⟩
    · obtain ⟨fault, hfault⟩ := step_of_isBroken hbroken p (c :: t)
      rw [hfault] at hstep
      cases hstep
    · rw [hsource] at hlex hstep ⊢
      exact .lexeme hspells hlex hstep (ih hrest)

theorem head?_ne_of_parse (h : parse t = .ok v) : t.head? ≠ some '\ufeff' := by
  intro hmark
  rw [parse, if_pos hmark] at h
  cases h

/-- **A text that is read is accepted lexeme by lexeme.** -/
theorem accepts_of_parse (h : parse t = .ok v) : Accepts v ⟨.value false, []⟩ t :=
  accepts_of_run ((parse_eq (head?_ne_of_parse h)).symm.trans h)

/-! ## What follows a string -/

theorem Spells.exists_mark (h : Spells source lexeme) (hvalue : ∀ v, lexeme ≠ .value v)
    (hstring : ∀ s, lexeme ≠ .string s) : ∃ c, source = [c] ∧ Mark c lexeme := by
  cases h with
  | mark hmark => exact ⟨_, rfl, hmark⟩
  | bare => exact absurd rfl (hvalue _)
  | string _ s => exact absurd rfl (hstring s)

/-- Behind a key is a colon. -/
theorem Accepts.head?_of_colon {fields : Table Json} {name : Text} {stack : List Frame}
    (h : Accepts v ⟨.colon fields name, stack⟩ t) : (t.dropWhile isSpace).head? = some ':' := by
  generalize hp : (⟨.colon fields name, stack⟩ : Progress) = p at h
  induction h with
  | finish hfinish =>
    subst hp
    cases hfinish
  | space hspace _ ih => rw [List.dropWhile_cons_of_pos hspace, ih hp]
  | @lexeme p q source t lexeme hspells _ hstep =>
    subst hp
    cases lexeme with
    | colon =>
      obtain ⟨c, rfl, hmark⟩ := hspells.exists_mark nofun nofun
      cases hmark
      rfl
    | _ => cases hstep

/-- Behind a value is nothing, a comma or a closing bracket. -/
theorem Accepts.head?_of_after {w : Json} {stack : List Frame} (h : Accepts v ⟨.after w, stack⟩ t) :
    ∀ c ∈ (t.dropWhile isSpace).head?, c ∈ Text.endMarks := by
  generalize hp : (⟨.after w, stack⟩ : Progress) = p at h
  induction h with
  | finish => exact nofun
  | space hspace _ ih =>
    rw [List.dropWhile_cons_of_pos hspace]
    exact ih hp
  | @lexeme p q source t lexeme hspells _ hstep =>
    subst hp
    have hmark : ∃ c, source = [c] ∧ c ∈ Text.endMarks := by
      rcases stack with _ | ⟨_ | _, stack⟩ <;> cases lexeme <;> cases hstep
      all_goals
        obtain ⟨c, rfl, hmark⟩ := hspells.exists_mark nofun nofun
        cases hmark
        exact ⟨_, rfl, by decide⟩
    obtain ⟨c, rfl, hc⟩ := hmark
    have hspace : ∀ c ∈ Text.endMarks, ¬ isSpace c := by decide
    rw [List.singleton_append, List.dropWhile_cons_of_neg (hspace c hc)]
    exact fun d hd => Option.some.inj hd ▸ hc

end Json

end ZigNif
