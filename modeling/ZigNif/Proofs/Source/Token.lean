import Mathlib.Data.List.TakeWhile
import ZigNif.Source.Token

/-!
# Proofs/Source/Token — what a terminal matches

A match lies in the text (`Terminal.isWithin_match?`), whatever the parts are that it is put
together from.  Of the two kinds of comments, a doc comment is tried first.
-/

namespace ZigNif.Source

/-! ## Runs and marks -/

/-- A run is what the text starts with while its characters qualify, and no more. -/
theorem take_runLength (p : Char → Bool) (t : Text) : t.take (runLength p t) = t.takeWhile p :=
  (List.prefix_iff_eq_take.mp (List.takeWhile_prefix p)).symm

/-- Behind a run comes the first character that does not qualify. -/
theorem drop_runLength (p : Char → Bool) (t : Text) :
    t.drop (runLength p t) = t.dropWhile p := by
  refine (List.append_right_inj (t.takeWhile p)).mp ?_
  rw [List.takeWhile_append_dropWhile, ← take_runLength, List.take_append_drop]

/-- What is found behind a mark is a text that starts with the mark, and with what `next` finds
behind it. -/
theorem afterMark_eq_some_iff {mark t : Text} {next : Text → Option Nat} {n : Nat} :
    afterMark mark next t = some n ↔
      ∃ r k, t = mark ++ r ∧ next r = some k ∧ n = mark.length + k := by
  rw [afterMark]
  constructor
  · intro h
    split at h
    case isFalse => cases h
    case isTrue hmark =>
      obtain ⟨r, rfl⟩ := List.isPrefixOf_iff_prefix.mp hmark
      rw [List.drop_left] at h
      obtain ⟨k, hk, rfl⟩ := Option.map_eq_some_iff.mp h
      exact ⟨r, k, rfl, hk, rfl⟩
  · rintro ⟨r, k, rfl, hk, rfl⟩
    rw [if_pos (List.isPrefixOf_iff_prefix.mpr ⟨r, rfl⟩), List.drop_left, hk]
    rfl

/-! ## Matches stay in the text -/

/-- What `next` finds at the start of a text is part of it. -/
def IsWithin (next : Text → Option Nat) : Prop := ∀ t n, next t = some n → n ≤ t.length

/-- A run is part of the text. -/
theorem runLength_le (p : Char → Bool) (t : Text) : runLength p t ≤ t.length :=
  (List.takeWhile_prefix p).length_le

/-- A match behind a mark stays in the text if the part behind the mark does. -/
theorem isWithin_afterMark {mark : Text} {next : Text → Option Nat} (h : IsWithin next) :
    IsWithin (afterMark mark next) := by
  intro t n hn
  obtain ⟨r, k, rfl, hk, rfl⟩ := afterMark_eq_some_iff.mp hn
  rw [List.length_append]
  exact Nat.add_le_add_left (h r k hk) _

/-- White space in front of a match does not lead out of the text. -/
theorem isWithin_afterBlanks {next : Text → Option Nat} (h : IsWithin next) :
    IsWithin (afterBlanks next) := by
  intro t n hn
  obtain ⟨k, hk, rfl⟩ := Option.map_eq_some_iff.mp hn
  have hrest := h _ k hk
  have hlength := congrArg List.length (List.takeWhile_append_dropWhile (p := Text.isBlank) (l := t))
  rw [List.length_append] at hlength
  rw [runLength]
  omega

theorem isWithin_zero : IsWithin fun _ => some 0 := by
  rintro t n ⟨⟩
  exact Nat.zero_le _

theorem isWithin_restOfLine : IsWithin restOfLine := by
  rintro t n ⟨⟩
  exact runLength_le _ t

theorem isWithin_word (first p : Char → Bool) : IsWithin (word first p) := by
  intro t n hn
  cases t with
  | nil => cases hn
  | cons c r =>
    rw [word] at hn
    split at hn
    · obtain rfl := Option.some.inj hn
      exact Nat.succ_le_succ (runLength_le p r)
    · cases hn

/-- An escape takes two characters, so both of them have to be there: a backslash at the end of the
text is no part of a literal. -/
theorem isWithin_quotedLength (quote : Char) : IsWithin (quotedLength quote) := by
  intro t
  fun_induction quotedLength quote t with
  | case1 | case2 | case5 => exact nofun
  | case3 c r hc ih =>
    intro n hn
    obtain ⟨k, hk, rfl⟩ := Option.map_eq_some_iff.mp hn
    exact Nat.add_le_add_right (ih k hk) 2
  | case4 r =>
    rintro n ⟨⟩
    exact Nat.le_add_left 1 _
  | case6 c r _ _ _ ih =>
    intro n hn
    obtain ⟨k, hk, rfl⟩ := Option.map_eq_some_iff.mp hn
    exact Nat.add_le_add_right (ih k hk) 1

theorem isWithin_literal (quote : Char) : IsWithin (literal quote) :=
  isWithin_afterMark (isWithin_quotedLength quote)

/-- The path of a call is measured first, and the closing parenthesis in what is left behind it. -/
theorem isWithin_importLength : IsWithin importLength := by
  refine isWithin_afterMark (isWithin_afterBlanks (isWithin_afterMark (isWithin_afterBlanks ?_)))
  intro t n hn
  dsimp only at hn
  split at hn
  · cases hn
  · rename_i m hm
    obtain ⟨k, hk, rfl⟩ := Option.map_eq_some_iff.mp hn
    have hliteral := isWithin_literal '"' t m hm
    have hclose := isWithin_afterBlanks (isWithin_afterMark isWithin_zero) _ k hk
    rw [List.length_drop] at hclose
    omega

/-- Numbers, runs of operators and single slashes are tried one after the other. -/
theorem isWithin_otherLength : IsWithin otherLength := by
  intro t n hn
  simp only [otherLength, Option.orElse_eq_orElse, Option.orElse_eq_or,
    Option.or_eq_some_iff] at hn
  rcases hn with hnumber | ⟨-, hoperator | ⟨-, hslash⟩⟩
  · exact isWithin_word _ _ t n hnumber
  · exact isWithin_word _ _ t n hoperator
  · exact isWithin_afterMark isWithin_zero t n hslash

/-- A doc line is a line like others, but one that does not go on with a slash. -/
theorem isWithin_docLine : IsWithin fun t => if t.head? = some '/' then none else restOfLine t := by
  intro t n hn
  dsimp only at hn
  split at hn
  · cases hn
  · exact isWithin_restOfLine t n hn

/-- **The match of a terminal is part of the text that it is looked for in.** -/
theorem Terminal.isWithin_match? (k : Terminal) : IsWithin k.match? := by
  cases k with
  | importCall => exact isWithin_importLength
  | docComment => exact isWithin_afterMark isWithin_docLine
  | comment | multilineString => exact isWithin_afterMark isWithin_restOfLine
  | quotedName => exact isWithin_afterMark (isWithin_literal '"')
  | builtin => exact isWithin_afterMark (isWithin_word _ _)
  | string | char => exact isWithin_literal _
  | name | blank => exact isWithin_word _ _
  | leftBrace | rightBrace | semicolon => exact isWithin_afterMark isWithin_zero
  | other => exact isWithin_otherLength

/-! ## The first terminal that matches -/

namespace Terminal

variable {k : Terminal} {t : Text} {n : Nat}

/-- The first terminal that matches does match, and with the length that it is given with. -/
theorem match?_of_first? (h : first? t = some (k, n)) : k.match? t = some n := by
  obtain ⟨k', -, hk'⟩ := List.exists_of_findSome?_eq_some h
  obtain ⟨n', hn', heq⟩ := Option.map_eq_some_iff.mp hk'
  cases heq
  exact hn'

/-- Doc comments go before other comments. -/
theorem docComment_eq_none_of_first? (h : first? t = some (comment, n)) :
    docComment.match? t = none := by
  cases hdoc : docComment.match? t with
  | none => rfl
  | some m =>
    rw [first?, byPriority, List.findSome?_cons, List.findSome?_cons, hdoc] at h
    cases himport : importCall.match? t with
    | none => rw [himport] at h; cases h
    | some m' => rw [himport] at h; cases h

/-- Three slashes that no fourth one follows are a doc comment, whatever comes behind them. -/
theorem docComment_ne_none {r : Text} (h : r.head? ≠ some '/') :
    docComment.match? ("///" ++ r) ≠ none := by
  have hmatch : docComment.match? ("///" ++ r) = some (3 + runLength (· != '\n') r) := by
    rw [match?, afterMark_eq_some_iff]
    exact ⟨r, _, rfl, if_neg h, rfl⟩
  rw [hmatch]
  exact Option.some_ne_none _

end Terminal

end ZigNif.Source
