import ZigNif.Proofs.Path
import ZigNif.Proofs.Text.Lines

/-!
# Proofs/Text/Rows — lines that only a newline ends

The lexer counts the newlines before a place, so for it a text consists of **rows**.  The other line
boundaries cut a row into several lines, and then all lines behind it have other numbers than their
rows.  A carriage return at the end of a row does not cut it.
-/

namespace ZigNif.Text

variable {c : Char} {row t : Text} {ls rs : List Text}

/-- What the newlines of a text separate. -/
def rows (t : Text) : List Text := splitOn '\n' t

/-- The lines that a row falls into when a newline ends it. -/
def cut (row : Text) : List Text := lines (row ++ ['\n'])

/-- A row without the carriage return that may end it. -/
def withoutReturn (row : Text) : Text :=
  if row.getLast? = some '\r' then row.dropLast else row

/-- The row is one line: no boundary but a carriage return at its end is in it. -/
def IsWhole (row : Text) : Prop := IsOneLine (withoutReturn row)

instance (row : Text) : Decidable row.IsWhole :=
  inferInstanceAs (Decidable (IsOneLine (withoutReturn row)))

/-! ## Rows -/

theorem newline_notMem_of_mem_rows (h : row ∈ rows t) : '\n' ∉ row := notMem_of_mem_splitOn h

theorem unlines_rows (t : Text) : unlines (rows t) = t := by
  induction t with
  | nil => rfl
  | cons c t ih =>
    obtain ⟨row, rest, hrows⟩ := List.exists_cons_of_ne_nil (splitOn_ne_nil '\n' t)
    rw [rows, hrows] at ih
    by_cases hc : c = '\n'
    · subst hc
      rw [rows, splitOn_cons_self, hrows, unlines_cons (List.cons_ne_nil row rest), ih]
      rfl
    · rw [rows, splitOn, if_neg hc, hrows]
      dsimp only
      rw [← ih]
      cases rest with
      | nil => rfl
      | cons r rest => rfl

/-- A row ends at its newline, whatever is behind it. -/
theorem rows_append_newline_cons (s t : Text) : rows (s ++ '\n' :: t) = rows s ++ rows t :=
  splitOn_append_cons '\n' s t

theorem rows_of_notMem (h : '\n' ∉ row) : rows row = [row] := splitOn_of_notMem h

/-- A text without line boundaries is one row. -/
theorem rows_of_isOneLine (h : IsOneLine row) : rows row = [row] :=
  rows_of_notMem fun hmem => absurd (h '\n' hmem) (by decide)

/-- Behind the last newline, the last row is empty. -/
theorem rows_unlines_append_newline (h : rs ≠ []) :
    rows (unlines rs ++ ['\n']) = rs.flatMap rows ++ [[]] := by
  induction rs with
  | nil => exact absurd rfl h
  | cons row rs ih =>
    cases rs with
    | nil => exact (rows_append_newline_cons row []).trans (by rw [List.flatMap_singleton]; rfl)
    | cons row' rs =>
      rw [unlines_cons (List.cons_ne_nil row' rs), List.append_assoc, List.cons_append,
        rows_append_newline_cons, ih (List.cons_ne_nil _ _), ← List.append_assoc]
      rfl

theorem withoutReturn_cons (h : t ≠ []) : withoutReturn (c :: t) = c :: withoutReturn t := by
  rw [withoutReturn, withoutReturn, List.getLast?_cons_of_ne_nil h, List.dropLast_cons_of_ne_nil h]
  split <;> rfl

theorem eq_withoutReturn_or (row : Text) :
    row = withoutReturn row ∨ row = withoutReturn row ++ ['\r'] := by
  rw [withoutReturn]
  split
  case isTrue h =>
    obtain ⟨r, rfl⟩ := List.getLast?_eq_some_iff.mp h
    rw [List.dropLast_concat]
    exact Or.inr rfl
  case isFalse => exact Or.inl rfl

/-! ## Cutting rows -/

/-- Only the newline behind a carriage return is looked at together with it. -/
theorem lines_cons_eq (h : c = '\r' → t.head? ≠ some '\n') :
    lines (c :: t) = if isLineEnd c then [] :: lines t else pushFront c (lines t) := by
  rw [lines]
  rintro r rfl rfl
  exact absurd rfl (h rfl)

theorem pushFront_append (h : ls ≠ []) : pushFront c (ls ++ rs) = pushFront c ls ++ rs := by
  obtain ⟨l, ls, rfl⟩ := List.exists_cons_of_ne_nil h
  rfl

theorem length_pushFront (h : ls ≠ []) : (pushFront c ls).length = ls.length := by
  obtain ⟨l, ls, rfl⟩ := List.exists_cons_of_ne_nil h
  rfl

@[simp] theorem cut_nil : cut [] = [[]] := rfl

@[simp] theorem cut_return : cut ['\r'] = [[]] := rfl

/-- The character is no carriage return that a newline behind the text would belong to, or the one
that the text starts with. -/
def StandsAlone (c : Char) (t : Text) : Prop := c = '\r' → t ≠ [] ∧ t.head? ≠ some '\n'

theorem standsAlone_of_ne (hne : ∀ r, c = '\r' → t = '\n' :: r → False) (hret : c :: t ≠ ['\r']) :
    StandsAlone c t := by
  rintro rfl
  refine ⟨fun ht => hret (by rw [ht]), fun hhead => ?_⟩
  obtain ⟨r, hr⟩ := List.head?_eq_some_iff.mp hhead
  exact hne r rfl hr

theorem lines_cons_append_newline (h : StandsAlone c t) (u : Text) :
    lines (c :: (t ++ '\n' :: u)) = if isLineEnd c then [] :: lines (t ++ '\n' :: u)
      else pushFront c (lines (t ++ '\n' :: u)) := by
  refine lines_cons_eq fun hc => ?_
  obtain ⟨hne, hhead⟩ := h hc
  obtain ⟨d, t, rfl⟩ := List.exists_cons_of_ne_nil hne
  exact hhead

/-- A row is cut at its first character, or behind the first of its lines. -/
theorem cut_cons (h : StandsAlone c t) :
    cut (c :: t) = if isLineEnd c then [] :: cut t else pushFront c (cut t) :=
  lines_cons_append_newline h []

theorem pushFront_ne_nil (c : Char) (ls : List Text) : pushFront c ls ≠ [] := by
  cases ls <;> exact List.cons_ne_nil _ _

theorem lines_ne_nil (h : t ≠ []) : lines t ≠ [] := by
  fun_cases lines t with
  | case1 => exact absurd rfl h
  | case2 => exact List.cons_ne_nil _ _
  | case3 => exact List.cons_ne_nil _ _
  | case4 c r => exact pushFront_ne_nil c _

theorem cut_ne_nil : cut row ≠ [] := lines_ne_nil (List.append_ne_nil_of_right_ne_nil row nofun)

/-- **A row is cut by itself**, whatever follows the newline behind it. -/
theorem lines_append_newline_cons (row t : Text) :
    lines (row ++ '\n' :: t) = cut row ++ lines t := by
  fun_induction lines row with
  | case1 => rfl
  | case2 r ih =>
    change [] :: lines (r ++ '\n' :: t) = [] :: cut r ++ lines t
    rw [ih, List.cons_append]
  | case3 c r hne hc ih =>
    by_cases hret : c :: r = ['\r']
    · rw [hret]
      rfl
    · have halone := standsAlone_of_ne hne hret
      rw [List.cons_append, lines_cons_append_newline halone, cut_cons halone, if_pos hc,
        if_pos hc, ih, List.cons_append]
  | case4 c r hne hc ih =>
    have halone := standsAlone_of_ne hne fun hret => hc (by rw [(List.cons.inj hret).1]; rfl)
    rw [List.cons_append, lines_cons_append_newline halone, cut_cons halone, if_neg hc, if_neg hc,
      ih, pushFront_append cut_ne_nil]

/-- The last row is no line if it is empty. -/
theorem lines_or_of_last (row : Text) : lines row = cut row ∨ lines row ++ [[]] = cut row := by
  fun_induction lines row with
  | case1 => exact Or.inr rfl
  | case2 r ih => exact ih.imp (congrArg ([] :: ·)) (congrArg ([] :: ·))
  | case3 c r hne hc ih =>
    by_cases hret : c :: r = ['\r']
    · obtain ⟨rfl, rfl⟩ := List.cons.inj hret
      exact Or.inl rfl
    · rw [cut_cons (standsAlone_of_ne hne hret), if_pos hc]
      exact ih.imp (congrArg ([] :: ·)) (congrArg ([] :: ·))
  | case4 c r hne hc ih =>
    have halone := standsAlone_of_ne hne fun hret => hc (by rw [(List.cons.inj hret).1]; rfl)
    rw [cut_cons halone, if_neg hc]
    rcases ih with h | h
    · exact Or.inl (congrArg (pushFront c) h)
    · -- the lines of an empty text are none, but its first character makes one
      cases hls : lines r with
      | nil => exact Or.inl (by rw [← h, hls]; rfl)
      | cons l ls => exact Or.inr (by rw [← h, hls]; rfl)

/-- **The lines of a text are what its rows are cut into**, but for an empty last row. -/
theorem lines_unlines_eq_cut (rs : List Text) :
    lines (unlines rs) = rs.flatMap cut ∨ lines (unlines rs) ++ [[]] = rs.flatMap cut := by
  induction rs with
  | nil => exact Or.inl rfl
  | cons row rs ih =>
    cases rs with
    | nil =>
      rw [List.flatMap_singleton]
      exact lines_or_of_last row
    | cons row' rs =>
      rw [unlines_cons (List.cons_ne_nil row' rs), lines_append_newline_cons, List.flatMap_cons,
        List.append_assoc]
      exact ih.imp (congrArg (cut row ++ ·)) (congrArg (cut row ++ ·))

/-- Rows that all end with a newline are cut one by one. -/
theorem lines_unlines_append_newline (h : rs ≠ []) :
    lines (unlines rs ++ ['\n']) = rs.flatMap cut := by
  induction rs with
  | nil => exact absurd rfl h
  | cons row rs ih =>
    cases rs with
    | nil => exact (List.append_nil _).symm
    | cons row' rs =>
      rw [unlines_cons (List.cons_ne_nil row' rs), List.append_assoc, List.cons_append,
        lines_append_newline_cons, ih (List.cons_ne_nil _ _)]
      rfl

/-! ## Whole rows -/

theorem cut_of_isOneLine (h : IsOneLine row) : cut row = [row] := lines_append_newline h

theorem flatMap_cut_of_isOneLine (h : ∀ row ∈ rs, IsOneLine row) : rs.flatMap cut = rs := by
  induction rs with
  | nil => rfl
  | cons row rs ih =>
    obtain ⟨hrow, hrs⟩ := List.forall_mem_cons.mp h
    rw [List.flatMap_cons, cut_of_isOneLine hrow, ih hrs, List.singleton_append]

theorem lines_append_return_newline {s : Text} (h : IsOneLine s) (t : Text) :
    lines (s ++ '\r' :: '\n' :: t) = s :: lines t := by
  induction s with
  | nil => rfl
  | cons c s ih =>
    obtain ⟨hc, hs⟩ := isOneLine_cons.mp h
    rw [List.cons_append, lines_cons hc, ih hs]
    rfl

/-- **A whole row is its only line.** -/
theorem cut_of_isWhole (h : IsWhole row) : cut row = [withoutReturn row] := by
  rcases eq_withoutReturn_or row with hrow | hrow
  · calc cut row = cut (withoutReturn row) := congrArg cut hrow
      _ = [withoutReturn row] := lines_append_newline h
  · calc cut row = cut (withoutReturn row ++ ['\r']) := congrArg cut hrow
      _ = lines (withoutReturn row ++ '\r' :: ['\n']) := by rw [cut, List.append_assoc]; rfl
      _ = [withoutReturn row] := lines_append_return_newline h []

theorem flatMap_cut_of_isWhole {rs : List Text} (h : ∀ row ∈ rs, IsWhole row) :
    rs.flatMap cut = rs.map withoutReturn := by
  induction rs with
  | nil => rfl
  | cons row rs ih =>
    obtain ⟨hrow, hrs⟩ := List.forall_mem_cons.mp h
    rw [List.flatMap_cons, cut_of_isWhole hrow, ih hrs, List.map_cons, List.singleton_append]

/-- A row that is not whole falls into several lines. -/
theorem one_lt_length_cut (hnew : '\n' ∉ row) (h : ¬ IsWhole row) : 1 < (cut row).length := by
  induction row with
  | nil => exact absurd (by decide) h
  | cons c r ih =>
    have hr : '\n' ∉ r := fun h => hnew (List.mem_cons_of_mem c h)
    have hpos : 0 < (cut r).length := List.length_pos_iff.mpr cut_ne_nil
    by_cases hret : c :: r = ['\r']
    · rw [hret] at h
      exact absurd (by decide) h
    · rw [cut_cons
        (standsAlone_of_ne (fun _ _ ht => hr (by rw [ht]; exact List.mem_cons_self)) hret)]
      by_cases hc : isLineEnd c
      · rw [if_pos hc, List.length_cons]
        omega
      · rw [if_neg hc, length_pushFront cut_ne_nil]
        refine ih hr fun hwhole => h ?_
        have hcons : withoutReturn (c :: r) = c :: withoutReturn r := by
          cases r with
          | nil =>
            have hne : c ≠ '\r' := fun hc => hret (by rw [hc])
            rw [withoutReturn, if_neg (by simpa using hne)]
            rfl
          | cons d r => exact withoutReturn_cons (List.cons_ne_nil d r)
        rw [IsWhole, hcons]
        exact isOneLine_cons.mpr ⟨Bool.eq_false_iff.mpr hc, hwhole⟩

theorem length_le_length_flatMap_cut (rs : List Text) :
    rs.length ≤ (rs.flatMap cut).length := by
  induction rs with
  | nil => exact Nat.le_refl 0
  | cons row rs ih =>
    have hpos : 0 < (cut row).length := List.length_pos_iff.mpr cut_ne_nil
    rw [List.flatMap_cons, List.length_append, List.length_cons]
    omega

end ZigNif.Text
