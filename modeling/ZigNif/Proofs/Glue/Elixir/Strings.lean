import Mathlib.Data.List.Infix
import ZigNif.Glue.Elixir
import ZigNif.Proofs.Glue.Strings
import ZigNif.Proofs.Json.Strings

/-!
# Proofs/Glue/Elixir/Strings — what the strings of a term denote in Elixir

Strings are written as in JSON.  In Elixir a number sign in front of an opening brace starts code,
and an escape of four digits is a code point of its own, half a pair none at all.  So a string
denotes itself in Elixir exactly if it holds no such mark and no character beyond the first 0x10000
code points (`readString_flatMap_escapedChar`); any other string denotes nothing fixed.
-/

namespace ZigNif.Glue.Elixir

variable {c : Char} {s t u : Text}

/-- The character for one escape letter. -/
def escape? (c : Char) : Option Char := if c = '#' then some '#' else Json.simpleEscape? c

/-- A literal with one more character in front. -/
def push (c : Char) (literal : Text × Text) : Text × Text := (c :: literal.1, literal.2)

/-- What a string literal denotes and what follows it, from behind its opening quote on.  A literal
with code inside denotes nothing fixed. -/
def readString : Text → Option (Text × Text)
  | [] => none
  | '"' :: r => some ([], r)
  | '\\' :: 'u' :: a :: b :: c :: d :: r =>
    (Json.hex4? a b c d).bind fun n =>
      if Json.isHighHalf n || Json.isLowHalf n then none
      else (readString r).map (push (Char.ofNat n))
  | '\\' :: c :: r => (escape? c).bind fun d => (readString r).map (push d)
  | c :: r => if c = '#' ∧ r.head? = some '\x7b' then none else (readString r).map (push c)

/-- Whether a text denotes itself when it is written as a JSON string. -/
def IsFixed (s : Text) : Prop := ¬("#\x7b" : Text) <:+: s ∧ ∀ c ∈ s, c.toNat < 0x10000

instance : DecidablePred IsFixed := fun s =>
  have : Decidable (∀ c ∈ s, c.toNat < 0x10000) := List.decidableBAll _ s
  inferInstanceAs (Decidable (_ ∧ _))

/-! ## One character -/

theorem readString_cons (hquote : c ≠ '"') (hescape : c ≠ '\\') (u : Text) : readString (c :: u) =
    if c = '#' ∧ u.head? = some '\x7b' then none else (readString u).map (push c) :=
  readString.eq_5 c u hquote (fun _ _ _ _ _ h => absurd h hescape) (fun _ _ h => absurd h hescape)

theorem readString_unitEscape {n : Nat} (h : n < 0x10000) (u : Text) :
    readString (Json.unitEscape n ++ u) = if Json.isHighHalf n || Json.isLowHalf n then none
      else (readString u).map (push (Char.ofNat n)) := by
  obtain ⟨a, b, c, d, hescape, hdigits⟩ := Json.exists_unitEscape_eq h
  rw [hescape]
  change (Json.hex4? a b c d).bind _ = _
  rw [hdigits]
  rfl

/-- A character with an escape of its own is no number sign and not beyond the limit. -/
theorem readString_simple {e : Char} (hc : c ≠ '#' ∧ c.toNat < 0x10000)
    (hread : readString ('\\' :: e :: u) = (readString u).map (push c)) :
    readString ('\\' :: e :: u) =
      if c = '#' ∧ u.head? = some '\x7b' ∨ 0x10000 ≤ c.toNat then none
      else (readString u).map (push c) := by
  rw [hread, if_neg]
  rintro (⟨h, -⟩ | h)
  · exact hc.1 h
  · exact Nat.not_lt_of_le h hc.2

/-- **A character is read as itself**, unless it opens code or is written as a pair. -/
theorem readString_escapedChar (c : Char) (u : Text) : readString (Json.escapedChar c ++ u) =
    if c = '#' ∧ u.head? = some '\x7b' ∨ 0x10000 ≤ c.toNat then none
    else (readString u).map (push c) := by
  unfold Json.escapedChar
  split
  case h_8 hquote hescape _ _ _ _ _ =>
    dsimp only
    split
    case isTrue h =>
      rw [List.singleton_append, readString_cons hquote hescape]
      have hlow : ¬0x10000 ≤ c.toNat := by omega
      simp only [hlow, or_false]
    case isFalse h =>
      have hmark : c ≠ '#' := by
        rintro rfl
        exact h (by decide)
      split
      case isTrue hlow =>
        rw [readString_unitEscape hlow, Json.isHalf_toNat, Char.ofNat_toNat]
        simp [hmark, Nat.not_le_of_lt hlow]
      case isFalse hhigh =>
        have hvalid : c.toNat.isValidChar := c.valid
        rw [Nat.isValidChar] at hvalid
        have hhalf : Json.isHighHalf (0xd800 + (c.toNat - 0x10000) / 0x400) = true := by
          simp only [Json.isHighHalf, Bool.and_eq_true, decide_eq_true_eq]
          omega
        rw [List.append_assoc, readString_unitEscape (by omega), hhalf]
        exact (if_pos (.inr (Nat.le_of_not_lt hhigh))).symm
  all_goals exact readString_simple (by decide) rfl

theorem head?_escapedChar (c : Char) (u : Text) :
    (Json.escapedChar c ++ u).head? = some '\x7b' ↔ c = '\x7b' := by
  unfold Json.escapedChar
  split
  case h_8 =>
    dsimp only
    split
    case isTrue => exact Option.some_inj
    case isFalse h =>
      have hbrace : c ≠ '\x7b' := by
        rintro rfl
        exact h (by decide)
      have hescape : some '\\' ≠ some '\x7b' := by decide
      split
      all_goals exact iff_of_false hescape hbrace
  all_goals exact iff_of_false (by decide : some '\\' ≠ some '\x7b') (by decide)

/-- Writing a text brings no opening brace to its front. -/
theorem head?_flatMap_escapedChar (s rest : Text) :
    (s.flatMap Json.escapedChar ++ '"' :: rest).head? = some '\x7b' ↔ s.head? = some '\x7b' := by
  cases s with
  | nil => exact iff_of_false (by decide : some '"' ≠ some '\x7b') nofun
  | cons c s => rw [List.flatMap_cons, List.append_assoc, head?_escapedChar, List.head?_cons,
      Option.some_inj]

/-! ## Strings -/

theorem isFixed_cons_iff : IsFixed (c :: s) ↔
    ¬(c = '#' ∧ s.head? = some '\x7b' ∨ 0x10000 ≤ c.toNat) ∧ IsFixed s := by
  have hopen : ("#\x7b" : Text) <+: c :: s ↔ c = '#' ∧ s.head? = some '\x7b' := by
    have hmark : ("#\x7b" : Text) = '#' :: ['\x7b'] := rfl
    rw [hmark, List.cons_prefix_cons, eq_comm]
    refine and_congr_right fun _ => ?_
    cases s with
    | nil => simp
    | cons d s => simp [eq_comm]
  rw [IsFixed, IsFixed, List.infix_cons_iff, hopen, List.forall_mem_cons]
  simp only [not_or, Nat.not_le]
  tauto

/-- **A string denotes itself if it is fixed**, and nothing fixed otherwise. -/
theorem readString_flatMap_escapedChar (s rest : Text) :
    readString (s.flatMap Json.escapedChar ++ '"' :: rest) =
      if IsFixed s then some (s, rest) else none := by
  induction s with
  | nil => rfl
  | cons c s ih =>
    rw [List.flatMap_cons, List.append_assoc, readString_escapedChar, ih]
    simp only [head?_flatMap_escapedChar, isFixed_cons_iff]
    split
    case isTrue h => exact (if_neg fun hfixed => hfixed.1 h).symm
    case isFalse h =>
      simp only [h, not_false_eq_true, true_and]
      split
      case isTrue => rfl
      case isFalse => rfl

/-! ## Terms -/

/-- The string that a fixed text denotes. -/
def fixed? (s : Text) : Option Text := if IsFixed s then some s else none

theorem readsStrings_readString : ReadsStrings readString fixed? := by
  intro s rest
  rw [readString_flatMap_escapedChar, fixed?]
  by_cases h : IsFixed s
  · rw [if_pos h, if_pos h]
    rfl
  · rw [if_neg h, if_neg h]
    rfl

theorem map_fixed?_eq_iff {xs ss : List Text} :
    xs.map fixed? = ss.map some ↔ ss = xs ∧ ∀ s ∈ xs, IsFixed s := by
  constructor
  · intro h
    have hfixed : ∀ s ∈ xs, IsFixed s := by
      intro s hs
      have hmem : fixed? s ∈ ss.map some := h ▸ List.mem_map_of_mem hs
      obtain ⟨x, -, hx⟩ := List.mem_map.mp hmem
      exact (Option.ite_none_right_eq_some.mp hx.symm).1
    have hself : xs.map fixed? = xs.map some :=
      List.map_congr_left fun s hs => if_pos (hfixed s hs)
    have heq : ss.map some = xs.map some := h.symm.trans hself
    exact ⟨List.map_injective_iff.mpr (fun _ _ => Option.some.inj) heq, hfixed⟩
  · rintro ⟨rfl, hfixed⟩
    exact List.map_congr_left fun s hs => if_pos (hfixed s hs)

theorem literals_term_style_iff (v : Json) (ss : List Text) :
    Literals readString (term style v) ss ↔ ss = v.strings ∧ ∀ s ∈ v.strings, IsFixed s :=
  (literals_term_iff readsStrings_readString (by decide) (by decide) v).trans map_fixed?_eq_iff

/-- **The strings of a value survive in its term** exactly if they are fixed: one that is not
denotes nothing fixed, and the literals of a term have a meaning only if each is fixed. -/
theorem literals_term (v : Json) :
    (∀ s ∈ v.strings, ∀ rest, readString (s.flatMap Json.escapedChar ++ '"' :: rest) =
      if IsFixed s then some (s, rest) else none) ∧
    ∀ ss, Literals readString (term style v) ss ↔ ss = v.strings ∧ ∀ s ∈ v.strings, IsFixed s :=
  ⟨fun s _ rest => readString_flatMap_escapedChar s rest, literals_term_style_iff v⟩

/-- A string that holds code keeps it, and a character that is written as a pair has no meaning. -/
theorem not_literals_term_of_mark :
    term style (.obj [("a", .str "#\x7bx\x7d")]) = "%\x7b\"a\" => \"#\x7bx\x7d\"\x7d" ∧
    ¬Literals readString (term style (.obj [("a", .str "#\x7bx\x7d")])) ["a", "#\x7bx\x7d"] ∧
    ¬Literals readString (term style (.str "😀")) ["😀"] := by
  refine ⟨by decide +kernel, fun h => ?_, fun h => ?_⟩
  · exact absurd ((literals_term_style_iff _ _).mp h).2 (by decide)
  · exact absurd ((literals_term_style_iff _ _).mp h).2 (by decide)

end ZigNif.Glue.Elixir
