import ZigNif.Proofs.Text.Digit
import ZigNif.Text.Lines

/-!
# Proofs/Text/Lines — lines that are put together and cut

Lines that hold no line boundary are cut where they were joined.  An empty last line is lost.
-/

namespace ZigNif.Text

/-- The text holds no line boundary. -/
def IsOneLine (t : Text) : Prop := ∀ c ∈ t, isLineEnd c = false

instance (t : Text) : Decidable t.IsOneLine := List.decidableBAll _ t

theorem isOneLine_cons {c : Char} {t : Text} :
    IsOneLine (c :: t) ↔ isLineEnd c = false ∧ IsOneLine t := List.forall_mem_cons

theorem isOneLine_append {s t : Text} : IsOneLine (s ++ t) ↔ IsOneLine s ∧ IsOneLine t :=
  List.forall_mem_append

theorem isLineEnd_of_isDigit {c : Char} (h : c.isDigit) : isLineEnd c = false := by
  have hdigit := toNat_of_isDigit h
  rw [isLineEnd, Bool.eq_false_iff]
  intro h
  simp only [Bool.or_eq_true, Bool.and_eq_true, decide_eq_true_eq, beq_iff_eq] at h
  omega

/-- A numeral is one line. -/
theorem isOneLine_ofNat (n : Nat) : IsOneLine (ofNat n) := fun _ hc =>
  isLineEnd_of_isDigit (charIsDigit_of_mem_ofNat hc)

theorem isOneLine_ofInt (n : Int) : IsOneLine (ofInt n) := by
  cases n with
  | ofNat n => exact isOneLine_ofNat n
  | negSucc n => exact isOneLine_cons.mpr ⟨by decide, isOneLine_ofNat (n + 1)⟩

theorem lines_cons {c : Char} {t : Text} (h : isLineEnd c = false) :
    lines (c :: t) = pushFront c (lines t) := by
  have hne : c ≠ '\r' := by
    rintro rfl
    cases h
  rw [lines, if_neg (by rw [h]; exact Bool.false_ne_true)]
  exact fun _ h => absurd h hne

theorem lines_of_isOneLine {t : Text} (h : IsOneLine t) (hne : t ≠ []) : lines t = [t] := by
  induction t with
  | nil => exact absurd rfl hne
  | cons c t ih =>
    obtain ⟨hc, ht⟩ := isOneLine_cons.mp h
    rw [lines_cons hc]
    cases t with
    | nil => rfl
    | cons d t => rw [ih ht (List.cons_ne_nil d t)]; rfl

theorem lines_append_newline {s t : Text} (h : IsOneLine s) :
    lines (s ++ '\n' :: t) = s :: lines t := by
  induction s with
  | nil => rfl
  | cons c s ih =>
    obtain ⟨hc, hs⟩ := isOneLine_cons.mp h
    rw [List.cons_append, lines_cons hc, ih hs]
    rfl

theorem joined_cons {sep t : Text} {ts : List Text} (h : ts ≠ []) :
    joined sep (t :: ts) = t ++ sep ++ joined sep ts := by
  cases ts with
  | nil => exact absurd rfl h
  | cons u us => rfl

theorem unlines_cons {t : Text} {ts : List Text} (h : ts ≠ []) :
    unlines (t :: ts) = t ++ '\n' :: unlines ts := by
  rw [unlines, joined_cons h, List.append_assoc]
  rfl

/-- Every line has its newline behind it, but the last. -/
theorem unlines_append {ts us : List Text} (h : us ≠ []) :
    unlines (ts ++ us) = ts.flatMap (· ++ ['\n']) ++ unlines us := by
  induction ts with
  | nil => rfl
  | cons t ts ih =>
    rw [List.cons_append, unlines_cons (List.append_ne_nil_of_right_ne_nil ts h), ih,
      List.flatMap_cons, List.append_assoc, List.append_assoc]
    rfl

/-- In front of more lines, a line without boundaries is cut where it was joined. -/
theorem lines_unlines_cons {t t' : Text} {ts : List Text} (h : IsOneLine t) :
    lines (unlines (t :: t' :: ts)) = t :: lines (unlines (t' :: ts)) := by
  rw [unlines_cons (List.cons_ne_nil t' ts), lines_append_newline h]

/-- **Lines without boundaries are cut where they were joined**, except that an empty last line is
lost. -/
theorem lines_unlines {ts : List Text} (h : ∀ t ∈ ts, IsOneLine t) :
    lines (unlines ts) = ts ∨ lines (unlines ts) ++ [[]] = ts := by
  induction ts with
  | nil => exact Or.inl rfl
  | cons t ts ih =>
    obtain ⟨ht, hts⟩ := List.forall_mem_cons.mp h
    cases ts with
    | nil =>
      by_cases hne : t = []
      · subst hne; exact Or.inr rfl
      · exact Or.inl (lines_of_isOneLine ht hne)
    | cons t' ts =>
      rw [lines_unlines_cons ht]
      exact (ih hts).imp (congrArg (t :: ·)) (congrArg (t :: ·))

/-- **Lines hold no line boundary.** -/
theorem isOneLine_of_mem_lines {t l : Text} (h : l ∈ lines t) : IsOneLine l := by
  fun_induction lines t generalizing l with
  | case1 => cases h
  | case2 r ih | case3 c r _ _ ih =>
    rcases List.mem_cons.mp h with rfl | h
    · exact nofun
    · exact ih h
  | case4 c r _ hc ih =>
    have hc : isLineEnd c = false := by simpa using hc
    cases hr : lines r with
    | nil =>
      rw [hr] at h
      obtain rfl := List.mem_singleton.mp h
      exact isOneLine_cons.mpr ⟨hc, nofun⟩
    | cons l' ls =>
      rw [hr] at h ih
      rcases List.mem_cons.mp h with rfl | h
      · exact isOneLine_cons.mpr ⟨hc, ih List.mem_cons_self⟩
      · exact ih (List.mem_cons_of_mem _ h)

/-- An empty last line is lost. -/
theorem lines_unlines_concat_nil {ts : List Text} (h : ∀ t ∈ ts, IsOneLine t) :
    lines (unlines (ts ++ [[]])) = ts := by
  induction ts with
  | nil => rfl
  | cons t ts ih =>
    obtain ⟨ht, hts⟩ := List.forall_mem_cons.mp h
    obtain ⟨t', rest, hrest⟩ : ∃ t' rest, ts ++ [[]] = t' :: rest :=
      List.exists_cons_of_ne_nil (List.append_ne_nil_of_right_ne_nil ts (List.cons_ne_nil _ _))
    rw [List.cons_append, hrest, lines_unlines_cons ht, ← hrest, ih hts]

/-- **Texts are the lines of what they are joined to if none of them holds a boundary and the last
one is not empty**, and only then. -/
theorem lines_unlines_eq_iff {ts : List Text} :
    lines (unlines ts) = ts ↔ (∀ t ∈ ts, IsOneLine t) ∧ ts.getLast? ≠ some [] := by
  constructor
  · intro h
    have hlines : ∀ t ∈ ts, IsOneLine t := fun t ht => isOneLine_of_mem_lines (h.symm ▸ ht)
    refine ⟨hlines, fun hlast => ?_⟩
    obtain ⟨ts, rfl⟩ := List.getLast?_eq_some_iff.mp hlast
    rw [lines_unlines_concat_nil (List.forall_mem_append.mp hlines).1] at h
    exact absurd (congrArg List.length h) (by simp)
  · rintro ⟨h, hlast⟩
    refine (lines_unlines h).resolve_right fun hlost => hlast ?_
    rw [← hlost, List.getLast?_concat]

end ZigNif.Text
