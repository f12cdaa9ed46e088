import Mathlib.Data.Bool.AllAny
import ZigNif.Proofs.Source.Token

/-!
# Proofs/Source/Grammar — the terminals as patterns, and which of them is taken

`Terminal.Spells` says which texts a terminal describes, and `Terminal.priority` which terminals go
before others.  Where a text goes on, the terminal that is taken (`Terminal.Takes`) spells the
longest text it can there, and every other terminal that spells a text there has a lower priority.
Terminals of equal priority start with different characters, so their order does not count.

The main result is `first?_eq_some_iff`: the lexer takes exactly these.
-/

namespace ZigNif.Source

/-! ## Patterns -/

/-- The inside of a literal: characters of its line that are no quote and no backslash, and
backslashes, each with the character behind it. -/
inductive IsQuotedPart (quote : Char) : Text → Prop
  | nil : IsQuotedPart quote []
  | escape {c : Char} {r : Text} : c ≠ '\n' → IsQuotedPart quote r →
    IsQuotedPart quote ('\\' :: c :: r)
  | plain {c : Char} {r : Text} : c ≠ quote → c ≠ '\\' → c ≠ '\n' → IsQuotedPart quote r →
    IsQuotedPart quote (c :: r)

/-- A literal: its inside between two quotes. -/
def IsQuoted (quote : Char) (s : Text) : Prop :=
  ∃ part, IsQuotedPart quote part ∧ s = quote :: (part ++ [quote])

/-- A character of one class, and any number of characters of another. -/
def IsWord (first p : Char → Bool) (s : Text) : Prop :=
  ∃ c r, s = c :: r ∧ first c ∧ ∀ d ∈ r, p d

theorem IsWord.of_mem {first p : Char → Bool} {s : Text} {c : Char} (h : IsWord first p s)
    (hc : c ∈ s) : first c ∨ p c := by
  obtain ⟨d, r, rfl, hd, hr⟩ := h
  rcases List.mem_cons.mp hc with rfl | hc
  · exact .inl hd
  · exact .inr (hr c hc)

/-- Where both classes are the same, a word is any non-empty text of them. -/
theorem isWord_self_iff {p : Char → Bool} {s : Text} :
    IsWord p p s ↔ s ≠ [] ∧ ∀ c ∈ s, p c := by
  constructor
  · intro h
    refine ⟨?_, fun c hc => or_self_iff.mp (h.of_mem hc)⟩
    obtain ⟨c, r, rfl, -⟩ := h
    exact List.cons_ne_nil c r
  · rintro ⟨hne, hall⟩
    obtain ⟨c, r, rfl⟩ := List.exists_cons_of_ne_nil hne
    obtain ⟨hc, hr⟩ := List.forall_mem_cons.mp hall
    exact ⟨c, r, rfl, hc, hr⟩

/-- The text of an `@import` call with the given white space and path literal. -/
def importText (u v lit w : Text) : Text :=
  "@import" ++ (u ++ ("(" ++ (v ++ (lit ++ (w ++ ")")))))

theorem importText_eq (u v lit w : Text) : importText u v lit w =
    "@import" ++ (u ++ ("(" ++ (v ++ (lit ++ (w ++ ")"))))) := rfl

/-- An `@import` call of one literal, with characters of `p` between its parts. -/
def IsImportCall (p : Char → Bool) (s : Text) : Prop :=
  ∃ u v lit w, (∀ c ∈ u, p c) ∧ (∀ c ∈ v, p c) ∧ IsQuoted '"' lit ∧ (∀ c ∈ w, p c) ∧
    s = importText u v lit w

namespace Terminal

/-- The terminal describes the text `s` in front of `rest`.  Only doc comments look at what is
behind them: a fourth slash makes them plain comments. -/
def Spells : Terminal → (s rest : Text) → Prop
  | importCall, s, _ => IsImportCall Text.isBlank s
  | docComment, s, rest => ∃ r, s = "///" ++ r ∧ '\n' ∉ r ∧ (r ++ rest).head? ≠ some '/'
  | comment, s, _ => ∃ r, s = "//" ++ r ∧ '\n' ∉ r
  | multilineString, s, _ => ∃ r, s = "\\\\" ++ r ∧ '\n' ∉ r
  | quotedName, s, _ => ∃ lit, s = "@" ++ lit ∧ IsQuoted '"' lit
  | builtin, s, _ => ∃ r, s = "@" ++ r ∧ IsWord isLetter isNameChar r
  | string, s, _ => IsQuoted '"' s
  | char, s, _ => IsQuoted '\'' s
  | name, s, _ => IsWord isLetter isNameChar s
  | leftBrace, s, _ => s = "\x7b".toList
  | rightBrace, s, _ => s = "\x7d".toList
  | semicolon, s, _ => s = ";".toList
  | other, s, _ => IsWord isNumeric (fun c => isNameChar c || c == '.') s ∨
      IsWord isOperator isOperator s ∨ s = "/".toList
  | blank, s, _ => IsWord isLayoutBlank isLayoutBlank s

/-- Which terminals go before others. -/
def priority : Terminal → Nat
  | importCall => 5
  | docComment => 4
  | comment | multilineString | quotedName => 3
  | builtin => 2
  | _ => 0

/-- The terminal is taken in front of `rest`: it spells `s`, no longer text there, and what other
terminals spell there has a lower priority. -/
structure Takes (k : Terminal) (s rest : Text) : Prop where
  spells : k.Spells s rest
  longest : ∀ s' rest', s' ++ rest' = s ++ rest → k.Spells s' rest' → s'.length ≤ s.length
  first : ∀ k' s' rest', s' ++ rest' = s ++ rest → Spells k' s' rest' → k' ≠ k →
    k'.priority < k.priority

end Terminal

/-! ## What the parts of a match find -/

/-- What `next` finds at the start of a text is in the language, and no shorter than any other text
of the language that stands there. -/
structure Finds (next : Text → Option Nat) (lang : (s rest : Text) → Prop) : Prop where
  sound : ∀ s rest, next (s ++ rest) = some s.length → lang s rest
  complete : ∀ s rest, lang s rest → ∃ n, next (s ++ rest) = some n ∧ s.length ≤ n

variable {next : Text → Option Nat} {lang : (s rest : Text) → Prop} {s t rest : Text} {n : Nat}

/-- A match behind a mark is found if what is behind the mark is. -/
theorem finds_afterMark (mark : Text) (h : Finds next lang) :
    Finds (afterMark mark next) fun s rest => ∃ r, s = mark ++ r ∧ lang r rest where
  sound s rest hs := by
    obtain ⟨r, k, heq, hk, hlength⟩ := afterMark_eq_some_iff.mp hs
    obtain ⟨r', rfl⟩ : mark <+: s :=
      List.prefix_of_prefix_length_le ⟨r, heq.symm⟩ (List.prefix_append s rest) (by omega)
    obtain rfl : r' ++ rest = r := by simpa using heq
    obtain rfl : r'.length = k := by simpa using hlength
    exact ⟨r', rfl, h.sound r' rest hk⟩
  complete := by
    rintro _ rest ⟨r, rfl, hr⟩
    obtain ⟨n, hn, hle⟩ := h.complete r rest hr
    refine ⟨mark.length + n, afterMark_eq_some_iff.mpr ⟨r ++ rest, n, ?_, hn, rfl⟩, ?_⟩
    · rw [List.append_assoc]
    · rw [List.length_append]
      exact Nat.add_le_add_left hle _

theorem finds_zero : Finds (fun _ => some 0) fun s _ => s = [] where
  sound s _ h := List.length_eq_zero_iff.mp (Option.some.inj h).symm
  complete := by
    rintro _ _ rfl
    exact ⟨0, rfl, le_rfl⟩

/-- A mark alone. -/
theorem finds_mark (mark : Text) : Finds (afterMark mark fun _ => some 0) fun s _ => s = mark where
  sound s rest h := by
    obtain ⟨r, rfl, rfl⟩ := (finds_afterMark mark finds_zero).sound s rest h
    exact List.append_nil mark
  complete s rest h :=
    (finds_afterMark mark finds_zero).complete s rest ⟨[], by rw [h, List.append_nil], rfl⟩

/-- A run is as long as the characters of a text that are in the class, and no longer. -/
theorem le_runLength {p : Char → Bool} (h : ∀ c ∈ s, p c) : s.length ≤ runLength p (s ++ rest) := by
  rw [runLength, List.takeWhile_append_of_pos h, List.length_append]
  exact Nat.le_add_right _ _

theorem of_runLength_eq {p : Char → Bool} (h : runLength p (s ++ rest) = s.length) :
    ∀ c ∈ s, p c := by
  have htake : (s ++ rest).takeWhile p = s := by
    rw [← take_runLength, h, List.take_left]
  intro c hc
  rw [← htake] at hc
  exact List.mem_takeWhile_imp hc

/-- The rest of a line is all up to the next newline. -/
theorem finds_restOfLine : Finds restOfLine fun s _ => '\n' ∉ s where
  sound s rest h hmem := by simpa using of_runLength_eq (Option.some.inj h) _ hmem
  complete s rest h :=
    ⟨_, rfl, le_runLength fun c hc => bne_iff_ne.mpr fun e => h (e ▸ hc)⟩

/-- A fourth slash makes a doc line a plain comment. -/
theorem finds_docLine :
    Finds (fun t => if t.head? = some '/' then none else restOfLine t)
      fun s rest => '\n' ∉ s ∧ (s ++ rest).head? ≠ some '/' where
  sound s rest h := by
    split at h
    case isTrue => cases h
    case isFalse hhead => exact ⟨finds_restOfLine.sound s rest h, hhead⟩
  complete := by
    rintro s rest ⟨hs, hhead⟩
    obtain ⟨n, hn, hle⟩ := finds_restOfLine.complete s rest hs
    exact ⟨n, by rw [if_neg hhead, hn], hle⟩

theorem finds_word (first p : Char → Bool) : Finds (word first p) fun s _ => IsWord first p s where
  sound s rest h := by
    cases s with
    | nil =>
      cases rest with
      | nil => cases h
      | cons c r =>
        change (if first c then some (runLength p r + 1) else none) = some 0 at h
        split at h <;> cases h
    | cons c r =>
      change (if first c then some (runLength p (r ++ rest) + 1) else none) = _ at h
      split at h
      case isFalse => cases h
      case isTrue hc =>
        exact ⟨c, r, rfl, hc, of_runLength_eq (Nat.succ_injective (Option.some.inj h))⟩
  complete := by
    rintro _ rest ⟨c, r, rfl, hc, hr⟩
    exact ⟨runLength p (r ++ rest) + 1, if_pos hc, Nat.succ_le_succ (le_runLength hr)⟩

/-! ## Literals -/

section Literal

variable {quote : Char}

/-- The inside of a literal is passed over as a whole, up to the quote that closes it. -/
theorem quotedLength_append {part : Text} (h : IsQuotedPart quote part) (hquote : quote ≠ '\\') :
    quotedLength quote (part ++ quote :: rest) = some (part.length + 1) := by
  induction h with
  | nil =>
    rw [List.nil_append, quotedLength, if_pos rfl]
    · rfl
    · exact fun _ _ h _ => absurd h hquote
  | @escape c r hc _ ih =>
    rw [List.cons_append, List.cons_append, quotedLength, if_neg hc, ih]
    rfl
  | @plain c r hc hslash hline _ ih =>
    rw [List.cons_append, quotedLength, if_neg hc, if_neg (not_or.mpr ⟨hline, hslash⟩), ih]
    · rfl
    · exact fun _ _ h _ => absurd h hslash

/-- What is passed over is the inside of a literal. -/
theorem exists_part_of_quotedLength (h : quotedLength quote t = some n) :
    ∃ part r, IsQuotedPart quote part ∧ t = part ++ quote :: r ∧ n = part.length + 1 := by
  fun_induction quotedLength quote t generalizing n with
  | case1 | case2 | case5 => cases h
  | case3 c r hc ih =>
    obtain ⟨k, hk, rfl⟩ := Option.map_eq_some_iff.mp h
    obtain ⟨part, r', hpart, rfl, rfl⟩ := ih hk
    exact ⟨'\\' :: c :: part, r', .escape hc hpart, rfl, rfl⟩
  | case4 r =>
    cases h
    exact ⟨[], r, .nil, rfl, rfl⟩
  | case6 c r _ hquote hno ih =>
    obtain ⟨k, hk, rfl⟩ := Option.map_eq_some_iff.mp h
    obtain ⟨part, r', hpart, rfl, rfl⟩ := ih hk
    obtain ⟨hline, hslash⟩ := not_or.mp hno
    exact ⟨c :: part, r', .plain hquote hslash hline hpart, rfl, rfl⟩

theorem literal_append (h : IsQuoted quote s) (hquote : quote ≠ '\\') :
    literal quote (s ++ rest) = some s.length := by
  obtain ⟨part, hpart, rfl⟩ := h
  refine afterMark_eq_some_iff.mpr ⟨part ++ quote :: rest, part.length + 1, ?_, ?_, ?_⟩
  · simp
  · exact quotedLength_append hpart hquote
  · simp [Nat.add_comm]

theorem exists_quoted_of_literal (h : literal quote t = some n) :
    ∃ s rest, IsQuoted quote s ∧ t = s ++ rest ∧ n = s.length := by
  obtain ⟨r, k, rfl, hk, rfl⟩ := afterMark_eq_some_iff.mp h
  obtain ⟨part, r', hpart, rfl, rfl⟩ := exists_part_of_quotedLength hk
  exact ⟨quote :: (part ++ [quote]), r', ⟨part, hpart, rfl⟩, by simp, by simp [Nat.add_comm]⟩

theorem finds_literal (hquote : quote ≠ '\\') :
    Finds (literal quote) fun s _ => IsQuoted quote s where
  sound s rest h := by
    obtain ⟨s', rest', hs', heq, hlength⟩ := exists_quoted_of_literal h
    obtain ⟨rfl, -⟩ := List.append_inj heq hlength
    exact hs'
  complete s rest h := ⟨s.length, literal_append h hquote, le_rfl⟩

end Literal

/-! ## Imports -/

theorem afterMark_append (mark t : Text) (next : Text → Option Nat) :
    afterMark mark next (mark ++ t) = (next t).map (mark.length + ·) := by
  rw [afterMark, if_pos (List.isPrefixOf_iff_prefix.mpr ⟨t, rfl⟩), List.drop_left]

/-- White space is passed over as a whole: what follows it is none. -/
theorem afterBlanks_append (hs : ∀ c ∈ s, Text.isBlank c) (ht : ∀ c ∈ t.head?, ¬ Text.isBlank c) :
    afterBlanks next (s ++ t) = (next t).map (s.length + ·) := by
  have hstop : t.dropWhile Text.isBlank = t ∧ t.takeWhile Text.isBlank = [] := by
    cases t with
    | nil => exact ⟨rfl, rfl⟩
    | cons c r => simpa using ht c rfl
  rw [afterBlanks, runLength, List.dropWhile_append_of_pos hs, List.takeWhile_append_of_pos hs,
    hstop.1, hstop.2, List.append_nil]

theorem afterBlanks_eq_some (h : afterBlanks next t = some n) :
    ∃ s r k, (∀ c ∈ s, Text.isBlank c) ∧ t = s ++ r ∧ next r = some k ∧ n = s.length + k := by
  obtain ⟨k, hk, rfl⟩ := Option.map_eq_some_iff.mp h
  exact ⟨t.takeWhile Text.isBlank, t.dropWhile Text.isBlank, k,
    fun c hc => List.mem_takeWhile_imp hc, List.takeWhile_append_dropWhile.symm, hk, rfl⟩

/-- **An import call is found, and all of it.** -/
theorem importLength_append (h : IsImportCall Text.isBlank s) :
    importLength (s ++ rest) = some s.length := by
  obtain ⟨u, v, lit, w, hu, hv, hlit, hw, rfl⟩ := h
  have hquote : ∀ r, ∀ c ∈ (lit ++ r).head?, ¬ Text.isBlank c := by
    obtain ⟨part, -, rfl⟩ := hlit
    rintro r _ ⟨⟩
    decide
  have hclose : afterBlanks (afterMark ")" fun _ => some 0) (w ++ (")" ++ rest))
      = some (w.length + 1) := by
    rw [afterBlanks_append hw (by rintro _ ⟨⟩; decide), afterMark_append]
    rfl
  simp only [importText_eq, List.append_assoc]
  rw [importLength, afterMark_append, afterBlanks_append hu (by rintro _ ⟨⟩; decide),
    afterMark_append, afterBlanks_append hv (hquote _), literal_append hlit (by decide)]
  simp only [List.drop_left, hclose, Option.map_some, List.length_append]
  rfl

/-- What is measured as a call is one. -/
theorem isImportCall_of_importLength (h : importLength (s ++ rest) = some s.length) :
    IsImportCall Text.isBlank s := by
  obtain ⟨_, _, hsplit, h₁, hlength⟩ := afterMark_eq_some_iff.mp h
  obtain ⟨u, _, _, hu, rfl, h₂, rfl⟩ := afterBlanks_eq_some h₁
  obtain ⟨_, _, rfl, h₃, rfl⟩ := afterMark_eq_some_iff.mp h₂
  obtain ⟨v, _, _, hv, rfl, h₄, rfl⟩ := afterBlanks_eq_some h₃
  split at h₄
  case h_1 => cases h₄
  case h_2 n hn =>
    obtain ⟨lit, _, hlit, rfl, rfl⟩ := exists_quoted_of_literal hn
    obtain ⟨_, h₅, rfl⟩ := Option.map_eq_some_iff.mp h₄
    rw [List.drop_left] at h₅
    obtain ⟨w, _, _, hw, rfl, h₆, rfl⟩ := afterBlanks_eq_some h₅
    obtain ⟨r, _, rfl, h₇, rfl⟩ := afterMark_eq_some_iff.mp h₆
    obtain rfl := Option.some.inj h₇
    have hcall : s ++ rest = importText u v lit w ++ r := by
      rw [hsplit]
      simp only [importText_eq, List.append_assoc]
    obtain ⟨rfl, -⟩ := List.append_inj hcall
      (by rw [hlength]; simp only [importText_eq, List.length_append]; rfl)
    exact ⟨u, v, lit, w, hu, hv, hlit, hw, rfl⟩

theorem finds_importLength : Finds importLength fun s _ => IsImportCall Text.isBlank s where
  sound _ _ := isImportCall_of_importLength
  complete s _ h := ⟨s.length, importLength_append h, le_rfl⟩

/-! ## Terminals -/

theorem word_eq_none {first p : Char → Bool} {c : Char} {r : Text} (h : ¬ first c) :
    word first p (c :: r) = none := if_neg h

theorem not_isNumeric_of_isOperator {c : Char} (h : isOperator c) : ¬ isNumeric c := by
  simp only [isOperator, isNameChar, Bool.not_eq_true', Bool.or_eq_false_iff] at h
  simp [h]

theorem finds_otherLength : Finds otherLength fun s _ =>
    IsWord isNumeric (fun c => isNameChar c || c == '.') s ∨ IsWord isOperator isOperator s ∨
      s = "/".toList where
  sound s rest h := by
    simp only [otherLength, Option.orElse_eq_orElse, Option.orElse_eq_or,
      Option.or_eq_some_iff] at h
    rcases h with hnumber | ⟨-, hoperator | ⟨-, hslash⟩⟩
    · exact .inl ((finds_word _ _).sound s rest hnumber)
    · exact .inr (.inl ((finds_word _ _).sound s rest hoperator))
    · exact .inr (.inr ((finds_mark _).sound s rest hslash))
  complete s rest h := by
    simp only [otherLength, Option.orElse_eq_orElse, Option.orElse_eq_or]
    rcases h with hnumber | hoperator | rfl
    · obtain ⟨n, hn, hle⟩ := (finds_word _ _).complete s rest hnumber
      exact ⟨n, by rw [hn, Option.some_or], hle⟩
    · obtain ⟨n, hn, hle⟩ := (finds_word _ _).complete s rest hoperator
      obtain ⟨c, r, rfl, hc, -⟩ := hoperator
      refine ⟨n, ?_, hle⟩
      rw [List.cons_append] at hn ⊢
      rw [word_eq_none (not_isNumeric_of_isOperator hc), hn, Option.none_or, Option.some_or]
    · exact ⟨1, rfl, le_rfl⟩

namespace Terminal

/-- **The match of a terminal is the longest text that it spells there.** -/
theorem finds_match? (k : Terminal) : Finds k.match? k.Spells := by
  cases k with
  | importCall => exact finds_importLength
  | docComment => exact finds_afterMark _ finds_docLine
  | comment | multilineString => exact finds_afterMark _ finds_restOfLine
  | quotedName => exact finds_afterMark _ (finds_literal (by decide))
  | builtin => exact finds_afterMark _ (finds_word _ _)
  | string | char => exact finds_literal (by decide)
  | name | blank => exact finds_word _ _
  | leftBrace | rightBrace | semicolon => exact finds_mark _
  | other => exact finds_otherLength

variable {k k' : Terminal} {s s' t rest rest' : Text} {n : Nat}

/-- **A terminal matches the longest text that it spells.** -/
theorem match?_eq_some_iff : k.match? (s ++ rest) = some s.length ↔
    k.Spells s rest ∧
      ∀ s' rest', s' ++ rest' = s ++ rest → k.Spells s' rest' → s'.length ≤ s.length := by
  constructor
  · intro h
    refine ⟨k.finds_match?.sound s rest h, fun s' rest' heq hs' => ?_⟩
    obtain ⟨n, hn, hle⟩ := k.finds_match?.complete s' rest' hs'
    rw [heq, h] at hn
    exact hle.trans (Option.some.inj hn).ge
  · rintro ⟨hs, hlongest⟩
    obtain ⟨n, hn, hle⟩ := k.finds_match?.complete s rest hs
    have hlength : ((s ++ rest).take n).length = n :=
      List.length_take_of_le (k.isWithin_match? _ _ hn)
    have hspells : k.Spells ((s ++ rest).take n) ((s ++ rest).drop n) :=
      k.finds_match?.sound _ _ (by rw [List.take_append_drop, hn, hlength])
    have hge := hlongest _ _ (List.take_append_drop n _) hspells
    rw [hlength] at hge
    rw [hn, le_antisymm hge hle]

/-- There is no match if and only if no text that the terminal spells stands there. -/
theorem match?_eq_none_iff :
    k.match? t = none ↔ ∀ s rest, s ++ rest = t → ¬ k.Spells s rest := by
  constructor
  · rintro h s rest rfl hs
    obtain ⟨n, hn, -⟩ := k.finds_match?.complete s rest hs
    rw [h] at hn
    cases hn
  · intro h
    cases hn : k.match? t with
    | none => rfl
    | some n =>
      have hlength : (t.take n).length = n := List.length_take_of_le (k.isWithin_match? _ _ hn)
      refine absurd (k.finds_match?.sound (t.take n) (t.drop n) ?_)
        (h _ _ (List.take_append_drop n t))
      rw [List.take_append_drop, hn, hlength]

/-! ## First characters -/

theorem isNumeric_iff {c : Char} : isNumeric c ↔ 48 ≤ c.toNat ∧ c.toNat ≤ 57 := by
  simp [isNumeric, Char.le_def, UInt32.le_iff_toNat_le]

theorem isLetter_iff {c : Char} : isLetter c ↔
    (65 ≤ c.toNat ∧ c.toNat ≤ 90) ∨ (97 ≤ c.toNat ∧ c.toNat ≤ 122) ∨ c.toNat = 95 := by
  have hunderscore : c = '_' ↔ c.toNat = 95 := Char.toNat_inj.symm
  simp [isLetter, Char.le_def, UInt32.le_iff_toNat_le, hunderscore, or_assoc]

/-- White space has no code point of a visible ASCII character. -/
theorem toNat_of_isBlank {c : Char} (h : Text.isBlank c) : c.toNat ≤ 32 ∨ 133 ≤ c.toNat := by
  simp only [Text.isBlank, Bool.or_eq_true, Bool.and_eq_true, decide_eq_true_eq, beq_iff_eq] at h
  omega

/-- White space ends a name. -/
theorem not_isNameChar_of_isBlank {c : Char} (h : Text.isBlank c) : ¬ isNameChar c := by
  have hcode := toNat_of_isBlank h
  rw [isNameChar, Bool.or_eq_true, isLetter_iff, isNumeric_iff]
  omega

theorem isLayoutBlank_iff {c : Char} :
    isLayoutBlank c ↔ c ∈ [' ', '\t', '\x0c', '\r', '\n'] := by
  simp [isLayoutBlank, or_assoc]

/-- Layout characters are white space. -/
theorem isBlank_of_isLayoutBlank {c : Char} (h : isLayoutBlank c) : Text.isBlank c := by
  have hall : ∀ d ∈ [' ', '\t', '\x0c', '\r', '\n'], Text.isBlank d :=
    List.all_iff_forall_prop.mp (by decide)
  exact hall c (isLayoutBlank_iff.mp h)

theorem isOperator_iff {c : Char} : isOperator c ↔
    ¬ Text.isBlank c ∧ ¬ isLetter c ∧ ¬ isNumeric c ∧
      c ∉ ['\x7b', '\x7d', ';', '"', '\'', '@', '\\', '/'] := by
  simp [isOperator, isNameChar, and_assoc]

/-- The characters that a text of the terminal can start with. -/
def isInitial : Terminal → Char → Bool
  | importCall, c | quotedName, c | builtin, c => c == '@'
  | docComment, c | comment, c => c == '/'
  | multilineString, c => c == '\\'
  | string, c => c == '"'
  | char, c => c == '\''
  | name, c => isLetter c
  | leftBrace, c => c == '\x7b'
  | rightBrace, c => c == '\x7d'
  | semicolon, c => c == ';'
  | other, c => isNumeric c || isOperator c || c == '/'
  | blank, c => isLayoutBlank c

/-- The first character of a text tells which terminals can spell it. -/
theorem Spells.exists_initial (h : k.Spells s rest) : ∃ c r, s = c :: r ∧ k.isInitial c := by
  cases k with
  | importCall => obtain ⟨_, _, _, _, _, _, _, _, rfl⟩ := h; exact ⟨_, _, rfl, rfl⟩
  | docComment | comment | multilineString | quotedName | builtin =>
    obtain ⟨_, rfl, _⟩ := h
    exact ⟨_, _, rfl, rfl⟩
  | string | char => obtain ⟨_, _, rfl⟩ := h; exact ⟨_, _, rfl, rfl⟩
  | name | blank => obtain ⟨c, r, rfl, hc, _⟩ := h; exact ⟨c, r, rfl, hc⟩
  | leftBrace | rightBrace | semicolon => obtain rfl := h; exact ⟨_, _, rfl, rfl⟩
  | other =>
    obtain ⟨c, r, rfl, hc, -⟩ | ⟨c, r, rfl, hc, -⟩ | rfl := h
    · exact ⟨c, r, rfl, by simp [isInitial, hc]⟩
    · exact ⟨c, r, rfl, by simp [isInitial, hc]⟩
    · exact ⟨_, _, rfl, rfl⟩

theorem Spells.ne_nil (h : k.Spells s rest) : s ≠ [] := by
  obtain ⟨c, r, rfl, -⟩ := h.exists_initial
  exact List.cons_ne_nil c r

theorem isInitial_other_iff {c : Char} :
    other.isInitial c ↔ isNumeric c ∨ isOperator c ∨ c = '/' := by
  simp [isInitial, or_assoc]

/-- The terminal of a given priority that a character can start. -/
def ofInitial : Nat → Char → Terminal
  | 5, _ => importCall
  | 4, _ => docComment
  | 3, c => if c = '/' then comment else if c = '@' then quotedName else multilineString
  | 2, _ => builtin
  | _, c =>
    if c = '"' then string else if c = '\'' then char else if c = '\x7b' then leftBrace
    else if c = '\x7d' then rightBrace else if c = ';' then semicolon
    else if isLetter c then name else if isLayoutBlank c then blank else other

/-- The characters that are terminals, or start them, alone. -/
def marks : Text := ['"', '\'', '\x7b', '\x7d', ';']

theorem of_mem_marks {c : Char} (h : c ∈ marks) : ¬ isLetter c ∧ ¬ isNumeric c ∧ ¬ isOperator c :=
  List.all_iff_forall_prop.mp
    (by decide : marks.all fun c => ¬ isLetter c ∧ ¬ isNumeric c ∧ ¬ isOperator c) c h

theorem ofInitial_zero {c : Char} (h : c ∉ marks) : ofInitial 0 c =
    if isLetter c then name else if isLayoutBlank c then blank else other := by
  simp only [marks, List.mem_cons, List.not_mem_nil, or_false, not_or] at h
  simp [ofInitial, h]

/-- Among terminals of one priority, the first character tells which one it is. -/
theorem ofInitial_priority {c : Char} (h : k.isInitial c) : ofInitial k.priority c = k := by
  cases k with
  | importCall | docComment | builtin => rfl
  | comment | multilineString | quotedName | string | char | leftBrace | rightBrace | semicolon =>
    obtain rfl := beq_iff_eq.mp h
    rfl
  | name =>
    have hletter : isLetter c := h
    have hmarks : c ∉ marks := fun hc => (of_mem_marks hc).1 hletter
    change ofInitial 0 c = name
    rw [ofInitial_zero hmarks, if_pos hletter]
  | blank =>
    have hall : ∀ d ∈ [' ', '\t', '\x0c', '\r', '\n'], ofInitial 0 d = blank :=
      List.all_iff_forall_prop.mp (by decide)
    exact hall c (isLayoutBlank_iff.mp h)
  | other =>
    have hother : c ∉ marks ∧ ¬ isLetter c ∧ ¬ isLayoutBlank c := by
      rcases isInitial_other_iff.mp h with h | h | rfl
      · refine ⟨fun hc => ?_, ?_, fun hc => ?_⟩
        · exact (of_mem_marks hc).2.1 h
        · rw [isNumeric_iff] at h
          rw [isLetter_iff]
          omega
        · have hall : ∀ d ∈ [' ', '\t', '\x0c', '\r', '\n'], ¬ isNumeric d :=
            List.all_iff_forall_prop.mp (by decide)
          exact hall c (isLayoutBlank_iff.mp hc) h
      · refine ⟨fun hc => ?_, (isOperator_iff.mp h).2.1, fun hc => ?_⟩
        · exact (of_mem_marks hc).2.2 h
        · exact (isOperator_iff.mp h).1 (isBlank_of_isLayoutBlank hc)
      · decide
    change ofInitial 0 c = other
    rw [ofInitial_zero hother.1, if_neg hother.2.1, if_neg hother.2.2]

/-- Of all terminals, only white space starts with white space. -/
theorem not_isBlank_of_isInitial {c : Char} (h : k.isInitial c) (hk : k ≠ blank) :
    ¬ Text.isBlank c := by
  cases k with
  | blank => exact absurd rfl hk
  | importCall | docComment | comment | multilineString | quotedName | builtin | string | char
  | leftBrace | rightBrace | semicolon =>
    obtain rfl := beq_iff_eq.mp h
    decide
  | name =>
    have hletter : isLetter c := h
    exact fun hblank => not_isNameChar_of_isBlank hblank (by simp [isNameChar, hletter])
  | other =>
    rcases isInitial_other_iff.mp h with h | h | rfl
    · exact fun hblank => not_isNameChar_of_isBlank hblank (by simp [isNameChar, h])
    · exact (isOperator_iff.mp h).1
    · decide

/-- **Terminals of equal priority do not compete.** -/
theorem eq_of_priority_eq (h : k.Spells s rest) (h' : k'.Spells s' rest')
    (heq : s ++ rest = s' ++ rest') (hpriority : k.priority = k'.priority) : k = k' := by
  obtain ⟨c, r, rfl, hc⟩ := h.exists_initial
  obtain ⟨c', r', rfl, hc'⟩ := h'.exists_initial
  obtain ⟨rfl, -⟩ := List.cons.inj heq
  rw [← ofInitial_priority hc, hpriority, ofInitial_priority hc']

/-- A terminal that spells something from white space on is white space. -/
theorem Spells.eq_blank {c : Char} (h : k.Spells s rest) (hc : c ∈ s.head?)
    (hblank : Text.isBlank c) : k = blank := by
  obtain ⟨d, r, rfl, hd⟩ := h.exists_initial
  obtain rfl := Option.some.inj hc
  by_contra hk
  exact not_isBlank_of_isInitial hd hk hblank

/-! ## The terminal that is taken -/

/-- Of the terminals of which only one can start with the first character, it is taken. -/
theorem Takes.of_initial {c : Char} {r : Text} (hspells : k.Spells (c :: r) rest)
    (hlongest : ∀ s' rest', s' ++ rest' = c :: r ++ rest → k.Spells s' rest' →
      s'.length ≤ (c :: r).length)
    (honly : ∀ k' : Terminal, k'.isInitial c → k' = k) : k.Takes (c :: r) rest where
  spells := hspells
  longest := hlongest
  first k' s' rest' heq hs' hk' := by
    obtain ⟨d, r', rfl, hd⟩ := hs'.exists_initial
    obtain ⟨rfl, -⟩ := List.cons.inj heq
    exact absurd (honly k' hd) hk'

/-- The terminals are tried by their priority. -/
theorem pairwise_byPriority :
    byPriority.Pairwise fun k k' => k ≠ k' ∧ k'.priority ≤ k.priority := by
  decide

theorem mem_byPriority (k : Terminal) : k ∈ byPriority := by
  cases k <;> decide

/-- **The lexer takes the terminal of the highest priority that matches.** -/
theorem first?_eq_some_iff : first? (s ++ rest) = some (k, s.length) ↔ k.Takes s rest := by
  constructor
  · intro h
    obtain ⟨before, k', after, hsplit, hk, hbefore⟩ := List.findSome?_eq_some_iff.mp h
    obtain ⟨n, hn, heq⟩ := Option.map_eq_some_iff.mp hk
    obtain ⟨rfl, rfl⟩ := Prod.mk.inj heq
    obtain ⟨hspells, hlongest⟩ := match?_eq_some_iff.mp hn
    refine ⟨hspells, hlongest, fun k₂ s' rest' heq hs' hne => ?_⟩
    have hle : k₂.priority ≤ k'.priority := by
      have hpairwise := pairwise_byPriority
      have hmem := k₂.mem_byPriority
      rw [hsplit] at hpairwise hmem
      rcases List.mem_append.mp hmem with hmem | hmem
      · have hnone := hbefore k₂ hmem
        rw [Option.map_eq_none_iff, match?_eq_none_iff] at hnone
        exact absurd hs' (hnone s' rest' heq)
      · have hafter := (List.pairwise_cons.mp (List.pairwise_append.mp hpairwise).2.1).1
        exact (hafter k₂ ((List.mem_cons.mp hmem).resolve_left hne)).2
    exact lt_of_le_of_ne hle fun he => hne (eq_of_priority_eq hs' hspells heq he)
  · intro h
    obtain ⟨before, after, hsplit⟩ := List.append_of_mem k.mem_byPriority
    refine List.findSome?_eq_some_iff.mpr ⟨before, k, after, hsplit, ?_, fun k₂ hk₂ => ?_⟩
    · rw [match?_eq_some_iff.mpr ⟨h.spells, h.longest⟩]
      rfl
    · rw [Option.map_eq_none_iff, match?_eq_none_iff]
      intro s' rest' heq hs'
      have hpairwise := pairwise_byPriority
      rw [hsplit] at hpairwise
      obtain ⟨hne, hle⟩ := (List.pairwise_append.mp hpairwise).2.2 k₂ hk₂ k List.mem_cons_self
      exact absurd hle (not_le.mpr (h.first k₂ s' rest' heq hs' hne))

end Terminal

end ZigNif.Source
