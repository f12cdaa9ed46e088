import Mathlib.Data.Bool.AllAny
import ZigNif.Glue.Term
import ZigNif.Proofs.Text.Blank
import ZigNif.Proofs.Text.Hex
import ZigNif.Proofs.Text.Lines

/-!
# Proofs/Glue/Term — terms are written on one line

Strings are escaped and numbers are digits and signs, so a term of the host language never brings a
line boundary into glue code, whatever the attribute holds.
-/

namespace ZigNif

namespace Text

variable {s t sep : Text} {ts : List Text}

theorem isOneLine_of_subset (h : IsOneLine t) (hs : s ⊆ t) : IsOneLine s := fun c hc => h c (hs hc)

/-- Texts on one line are joined to one line if the separator is on one. -/
theorem isOneLine_joined (hsep : IsOneLine sep) (h : ∀ t ∈ ts, IsOneLine t) :
    IsOneLine (joined sep ts) := by
  induction ts with
  | nil => exact nofun
  | cons t ts ih =>
    obtain ⟨ht, hts⟩ := List.forall_mem_cons.mp h
    cases ts with
    | nil => exact ht
    | cons u us => exact isOneLine_append.mpr ⟨isOneLine_append.mpr ⟨ht, hsep⟩, ih hts⟩

theorem isOneLine_flatMap {f : Char → Text} (h : ∀ c, IsOneLine (f c)) :
    IsOneLine (t.flatMap f) := by
  intro c hc
  obtain ⟨d, -, hc⟩ := List.mem_flatMap.mp hc
  exact h d c hc

/-- Numbers have no line boundaries. -/
theorem isOneLine_hex (width n : Nat) : IsOneLine (hex width n) := by
  have hdigit : ∀ d < 16, isLineEnd d.digitChar = false := by decide
  intro c hc
  obtain ⟨d, hd, rfl⟩ := exists_of_mem_hex hc
  exact hdigit d hd

end Text

/-! ## Numbers -/

namespace Binary64

open Text

/-- The characters that a finite number is written with. -/
def IsNumberChar (c : Char) : Prop := c.isDigit ∨ c ∈ ['.', 'e', '+', '-']

instance : DecidablePred IsNumberChar := fun _ => inferInstanceAs (Decidable (_ ∨ _))

theorem isNumberChar_of_mem_placed {digits : Text} (h : ∀ c ∈ digits, IsNumberChar c)
    (point : Int) : ∀ c ∈ placed digits point, IsNumberChar c := by
  have htake : ∀ n, ∀ c ∈ digits.take n, IsNumberChar c := fun n c hc =>
    h c (List.take_subset n digits hc)
  have hdrop : ∀ n, ∀ c ∈ digits.drop n, IsNumberChar c := fun n c hc =>
    h c (List.drop_subset n digits hc)
  have hzeros : ∀ n, ∀ c ∈ List.replicate n '0', IsNumberChar c := fun n c hc =>
    .inl (List.eq_of_mem_replicate hc ▸ rfl)
  have hsize : ∀ n, ∀ c ∈ ofNat n, IsNumberChar c := fun n c hc =>
    .inl (charIsDigit_of_mem_ofNat hc)
  unfold placed
  split
  case isTrue =>
    exact List.forall_mem_append.mpr ⟨List.forall_mem_append.mpr
      ⟨List.all_iff_forall_prop.mp rfl, hzeros _⟩, h⟩
  case isFalse =>
    split
    case isTrue =>
      have hfraction : ∀ c ∈ (if digits.drop point.toNat = [] then ['0']
          else digits.drop point.toNat), IsNumberChar c := by
        split
        case isTrue => exact List.forall_mem_singleton.mpr (.inl rfl)
        case isFalse => exact hdrop _
      have hpoint : ∀ c ∈ (".".toList), IsNumberChar c := List.all_iff_forall_prop.mp rfl
      exact List.forall_mem_append.mpr ⟨List.forall_mem_append.mpr ⟨List.forall_mem_append.mpr
        ⟨htake _, hzeros _⟩, hpoint⟩, hfraction⟩
    case isFalse =>
      have htail : ∀ c ∈ (if digits.length = 1 then [] else '.' :: digits.drop 1),
          IsNumberChar c := by
        split
        case isTrue => exact nofun
        case isFalse => exact List.forall_mem_cons.mpr ⟨by decide, hdrop 1⟩
      have hmark : ∀ c ∈ ("e".toList), IsNumberChar c := List.all_iff_forall_prop.mp rfl
      have hsign : ∀ c ∈ (if point - 1 < 0 then "-" else "+").toList, IsNumberChar c := by
        split <;> exact List.all_iff_forall_prop.mp rfl
      exact List.forall_mem_append.mpr ⟨List.forall_mem_append.mpr ⟨List.forall_mem_append.mpr
        ⟨List.forall_mem_append.mpr ⟨List.forall_mem_append.mpr ⟨htake 1, htail⟩, hmark⟩, hsign⟩,
        hzeros _⟩, hsize _⟩

/-- A float is written with digits, a point and an exponent. -/
theorem isNumberChar_of_mem_magnitudeText (mantissa : Nat) (exponent : Int) :
    ∀ c ∈ magnitudeText mantissa exponent, IsNumberChar c := by
  rw [magnitudeText]
  split
  case isTrue => exact List.all_iff_forall_prop.mp rfl
  case isFalse =>
    exact isNumberChar_of_mem_placed (fun c hc => .inl (charIsDigit_of_mem_ofNat
      ((isPrefix_dropEndWhile _ _).subset hc))) _

theorem isLineEnd_of_isNumberChar {c : Char} (h : IsNumberChar c) : isLineEnd c = false := by
  rcases h with h | h
  · exact isLineEnd_of_isDigit h
  · have hmarks : ∀ c ∈ ['.', 'e', '+', '-'], isLineEnd c = false :=
      List.all_iff_forall_prop.mp rfl
    exact hmarks c h

theorem isOneLine_text {infinity nan : Text} (hinfinity : IsOneLine infinity) (hnan : IsOneLine nan)
    (x : Binary64) : IsOneLine (x.text infinity nan) := by
  have hsign : ∀ negative, IsOneLine (signText negative) := by
    rintro (_ | _) <;> decide
  cases x with
  | nan => exact hnan
  | infinity negative => exact isOneLine_append.mpr ⟨hsign negative, hinfinity⟩
  | finite negative mantissa exponent =>
    exact isOneLine_append.mpr ⟨hsign negative, fun c hc =>
      isLineEnd_of_isNumberChar (isNumberChar_of_mem_magnitudeText mantissa exponent c hc)⟩

end Binary64

/-! ## Strings -/

namespace Json

open Text

variable {c : Char} {t : Text}

/-- A character that ends a line is escaped. -/
theorem isOneLine_escapedChar (c : Char) : IsOneLine (escapedChar c) := by
  unfold escapedChar
  split
  case h_8 =>
    dsimp only
    split
    case isTrue h =>
      refine isOneLine_cons.mpr ⟨Bool.eq_false_iff.mpr fun hend => ?_, nofun⟩
      simp only [isLineEnd, Bool.or_eq_true, Bool.and_eq_true, decide_eq_true_eq,
        beq_iff_eq] at hend
      omega
    case isFalse =>
      have hunit : ∀ n, IsOneLine (unitEscape n) := fun n =>
        isOneLine_append.mpr ⟨by decide, isOneLine_hex 4 n⟩
      split
      case isTrue => exact hunit _
      case isFalse => exact isOneLine_append.mpr ⟨hunit _, hunit _⟩
  all_goals decide

theorem isOneLine_writeString (t : Text) : IsOneLine (writeString t) :=
  isOneLine_append.mpr
    ⟨isOneLine_cons.mpr ⟨rfl, isOneLine_flatMap isOneLine_escapedChar⟩, by decide⟩

/-- A quote inside a string is escaped. -/
theorem backslash_mem_of_quote_mem (h : '"' ∈ escapedChar c) : '\\' ∈ escapedChar c := by
  revert h
  unfold escapedChar
  split
  case h_8 hquote _ _ _ _ _ _ =>
    dsimp only
    split
    case isTrue => exact fun h => absurd (List.mem_singleton.mp h).symm hquote
    case isFalse =>
      have hunit : ∀ n, '\\' ∈ unitEscape n := fun n => List.mem_append_left _ List.mem_cons_self
      split
      case isTrue => exact fun _ => hunit _
      case isFalse => exact fun _ => List.mem_append_left _ (hunit _)
  all_goals decide

/-- No string consists of quotes only, unless it is empty. -/
theorem writeString_ne (t : Text) : writeString t ≠ "\"\"\"" := by
  intro h
  have hbody : t.flatMap escapedChar = ['"'] := List.append_cancel_right (List.cons.inj h).2
  have hquote : '"' ∈ t.flatMap escapedChar := hbody ▸ List.mem_cons_self
  obtain ⟨c, hc, hmem⟩ := List.mem_flatMap.mp hquote
  have hescape : '\\' ∈ t.flatMap escapedChar :=
    List.mem_flatMap.mpr ⟨c, hc, backslash_mem_of_quote_mem hmem⟩
  rw [hbody] at hescape
  exact absurd hescape (by decide)

end Json

/-! ## Terms -/

namespace Glue

open Text

variable {s : TermStyle}

mutual

/-- **A term is one line.** -/
theorem isOneLine_term (hnull : IsOneLine s.null) (hopen : IsOneLine s.openMap) :
    ∀ v, IsOneLine (term s v)
  | .null => hnull
  | .bool true => by rw [term]; decide
  | .bool false => by rw [term]; decide
  | .int n => isOneLine_ofInt n
  | .float x => Binary64.isOneLine_text (by decide) (by decide) x
  | .str t => Json.isOneLine_writeString t
  | .arr items => by
    rw [term]
    refine isOneLine_append.mpr ⟨isOneLine_append.mpr ⟨by decide, ?_⟩, by decide⟩
    exact isOneLine_joined (by decide) (isOneLine_terms hnull hopen items)
  | .obj fields => by
    rw [term]
    refine isOneLine_append.mpr ⟨isOneLine_append.mpr ⟨hopen, ?_⟩, by decide⟩
    exact isOneLine_joined (by decide) (isOneLine_fieldTerms hnull hopen fields)

/-- All elements of a list are on one line. -/
theorem isOneLine_terms (hnull : IsOneLine s.null) (hopen : IsOneLine s.openMap) :
    ∀ vs, ∀ t ∈ terms s vs, IsOneLine t
  | [] => nofun
  | v :: vs => List.forall_mem_cons.mpr
    ⟨isOneLine_term hnull hopen v, isOneLine_terms hnull hopen vs⟩

theorem isOneLine_fieldTerms (hnull : IsOneLine s.null) (hopen : IsOneLine s.openMap) :
    ∀ fields, ∀ t ∈ fieldTerms s fields, IsOneLine t
  | [] => nofun
  | (k, v) :: fields => List.forall_mem_cons.mpr
    ⟨isOneLine_append.mpr ⟨isOneLine_append.mpr ⟨Json.isOneLine_writeString k, by decide⟩,
      isOneLine_term hnull hopen v⟩, isOneLine_fieldTerms hnull hopen fields⟩

end

/-- No term consists of three quotes. -/
theorem term_ne (hnull : '"' ∉ s.null) (hopen : ∃ c ∈ s.openMap.head?, c ≠ '"') (v : Json) :
    term s v ≠ "\"\"\"" := by
  have hquote : ∀ {t : Text}, '"' ∉ t → t ≠ "\"\"\"" := by
    rintro t ht rfl
    exact ht List.mem_cons_self
  have hnumber : ∀ n, '"' ∉ ofNat n := fun n h =>
    absurd (charIsDigit_of_mem_ofNat h) (by decide)
  cases v with
  | null => exact hquote hnull
  | bool b => cases b <;> rw [term] <;> decide
  | int n =>
    rw [term]
    refine hquote ?_
    cases n with
    | ofNat n => exact hnumber n
    | negSucc n => exact fun h => (List.mem_cons.mp h).elim (by decide) (hnumber (n + 1))
  | float x =>
    rw [term]
    cases x with
    | nan => decide
    | infinity negative => cases negative <;> decide
    | finite negative mantissa exponent =>
      refine hquote fun h => ?_
      rcases List.mem_append.mp h with h | h
      · cases negative <;> exact absurd h (by decide)
      · exact absurd (Binary64.isNumberChar_of_mem_magnitudeText _ _ _ h) (by decide)
  | str t => exact Json.writeString_ne t
  | arr items =>
    rw [term]
    exact fun h => absurd (List.cons.inj h).1 (by decide)
  | obj fields =>
    obtain ⟨c, hc, hne⟩ := hopen
    obtain ⟨r, hr⟩ := List.head?_eq_some_iff.mp hc
    rw [term, hr]
    exact fun h => hne (List.cons.inj h).1

end Glue

end ZigNif
