import Mathlib.Data.List.Infix
import ZigNif.Text.Basic

/-!
# Proofs/Text/Search — a mark that is looked for in a text

`Text.after?` finds the first place where a text holds a mark.
-/

namespace ZigNif.Text

variable {mark s t : Text}

theorem dropPrefix?_eq_some_iff : dropPrefix? mark t = some s ↔ t = mark ++ s := by
  constructor
  · intro h
    rw [dropPrefix?] at h
    split at h
    case isTrue hstarts =>
      obtain ⟨r, rfl⟩ := List.isPrefixOf_iff_prefix.mp hstarts
      rw [List.drop_left] at h
      rw [Option.some.inj h]
    case isFalse => cases h
  · rintro rfl
    exact dropPrefix?_append mark s

/-- **A mark is found if and only if the text holds it.** -/
theorem after?_eq_none_iff : after? mark t = none ↔ ¬ mark <:+: t := by
  induction t with
  | nil => simp [after?]
  | cons c t ih =>
    rw [after?, List.infix_cons_iff]
    split
    case isTrue h => simp [List.isPrefixOf_iff_prefix.mp h]
    case isFalse h => simp [ih, mt List.isPrefixOf_iff_prefix.mpr h]

theorem after?_of_starts (h : mark <+: t) : after? mark t = some (t.drop mark.length) := by
  cases t with
  | nil => simp [after?, List.prefix_nil.mp h]
  | cons c t => rw [after?, if_pos (List.isPrefixOf_iff_prefix.mpr h)]

theorem after?_cons_of_not_starts {c : Char} (h : ¬ mark <+: c :: t) :
    after? mark (c :: t) = after? mark t := by
  rw [after?, if_neg (mt List.isPrefixOf_iff_prefix.mp h)]

/-- What is behind the first mark is still behind it if the text goes on. -/
theorem after?_append_of_eq_some {r : Text} (h : after? mark s = some r) (t : Text) :
    after? mark (s ++ t) = some (r ++ t) := by
  induction s with
  | nil =>
    have hmark : mark = [] ∧ r = [] := by simpa [after?, eq_comm] using h
    obtain ⟨rfl, rfl⟩ := hmark
    exact after?_of_starts List.nil_prefix
  | cons c s ih =>
    by_cases hstarts : mark <+: c :: s
    · rw [after?_of_starts hstarts] at h
      rw [after?_of_starts (hstarts.trans (List.prefix_append _ t)), ← Option.some.inj h,
        List.drop_append_of_le_length hstarts.length_le]
    · rw [after?_cons_of_not_starts hstarts] at h
      have hholds : mark <:+: s := by
        by_contra hnone
        rw [after?_eq_none_iff.mpr hnone] at h
        cases h
      have hstarts' : ¬ mark <+: c :: (s ++ t) := fun hp => hstarts <|
        List.prefix_of_prefix_length_le hp (List.prefix_append (c :: s) t)
          (hholds.length_le.trans (Nat.le_succ _))
      rw [List.cons_append, after?_cons_of_not_starts hstarts', ih h]

/-- **A mark behind a text that does not hold it is the first one**, if the text ends with a
character that is not in the mark. -/
theorem after?_append (h : ¬ mark <:+: s) (hlast : ∀ c ∈ s.getLast?, c ∉ mark) (t : Text) :
    after? mark (s ++ (mark ++ t)) = some t := by
  induction s with
  | nil =>
    rw [List.nil_append, after?_of_starts (List.prefix_append mark t), List.drop_left]
  | cons c s ih =>
    have hstarts : ¬ mark <+: c :: (s ++ (mark ++ t)) := by
      intro hp
      rcases List.prefix_or_prefix_of_prefix hp (List.prefix_append (c :: s) (mark ++ t))
        with hm | hm
      · exact h hm.isInfix
      · exact hlast _ (List.getLast?_eq_some_getLast (List.cons_ne_nil c s))
          (hm.subset (List.getLast_mem (List.cons_ne_nil c s)))
    rw [List.cons_append, after?_cons_of_not_starts hstarts]
    refine ih (fun hs => h (List.infix_cons hs)) fun d hd => hlast d ?_
    cases s with
    | nil => cases hd
    | cons e s => exact hd

end ZigNif.Text
