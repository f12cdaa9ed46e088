import Mathlib.Data.List.Induction
import ZigNif.Text.Basic

/-!
# Proofs/Text/Distinct — first occurrences

The first occurrences of a list are its texts, each once, in the order in which they first occur.
Those in two lists one after the other are those in the first list, and behind them those in the
second list that are new.
-/

namespace ZigNif.Text

variable {ts us : List Text} {t u : Text}

theorem distinct_concat : distinct (ts ++ [t]) =
    if t ∈ distinct ts then distinct ts else distinct ts ++ [t] := by
  rw [distinct, List.foldl_append]
  rfl

theorem mem_distinct : t ∈ distinct ts ↔ t ∈ ts := by
  induction ts using List.reverseRecOn with
  | nil => rfl
  | append_singleton ts u ih =>
    rw [distinct_concat, List.mem_append, List.mem_singleton]
    split
    case isTrue hu =>
      rw [ih]
      exact ⟨.inl, fun h => h.elim id fun htu => ih.mp (htu ▸ hu)⟩
    case isFalse => rw [List.mem_append, List.mem_singleton, ih]

/-- **First occurrences stand in the order of their places**, and so each stands there once. -/
theorem pairwise_idxOf_distinct :
    (distinct ts).Pairwise fun t u => ts.idxOf t < ts.idxOf u := by
  induction ts using List.reverseRecOn with
  | nil => exact .nil
  | append_singleton ts u ih =>
    have hkept : (distinct ts).Pairwise fun t t' =>
        (ts ++ [u]).idxOf t < (ts ++ [u]).idxOf t' :=
      ih.imp_of_mem fun ht ht' hlt => by
        rwa [List.idxOf_append, if_pos (mem_distinct.mp ht), List.idxOf_append,
          if_pos (mem_distinct.mp ht')]
    rw [distinct_concat]
    split
    case isTrue => exact hkept
    case isFalse hu =>
      refine List.pairwise_append.mpr ⟨hkept, List.pairwise_singleton _ _, fun t ht u' hu' => ?_⟩
      obtain rfl := List.mem_singleton.mp hu'
      have hlt : ts.idxOf t < ts.length := List.idxOf_lt_length_of_mem (mem_distinct.mp ht)
      rw [List.idxOf_append, if_pos (mem_distinct.mp ht), List.idxOf_append,
        if_neg (mt mem_distinct.mpr hu)]
      omega

theorem nodup_distinct (ts : List Text) : (distinct ts).Nodup :=
  pairwise_idxOf_distinct.imp fun hlt heq => absurd (congrArg ts.idxOf heq) (Nat.ne_of_lt hlt)

/-- What a filter keeps, it keeps in order. -/
theorem idxOf_lt_of_filter {p : Text → Bool} (ht : p t) (hu : p u)
    (h : (ts.filter p).idxOf t < (ts.filter p).idxOf u) : ts.idxOf t < ts.idxOf u := by
  induction ts with
  | nil => exact h
  | cons a ts ih =>
    by_cases ha : p a
    · rw [List.filter_cons_of_pos ha, List.idxOf_cons, List.idxOf_cons] at h
      rw [List.idxOf_cons, List.idxOf_cons]
      by_cases hau : (a == u) = true
      · simp [hau] at h
      · by_cases hat : (a == t) = true
        · simp [hat, hau]
        · simp only [hat, hau, cond_false, Nat.add_lt_add_iff_right] at h ⊢
          exact ih h
    · rw [List.filter_cons_of_neg ha] at h
      have hne : ∀ {x}, p x → (a == x) = false := fun hx =>
        beq_eq_false_iff_ne.mpr fun hax => ha (hax ▸ hx)
      rw [List.idxOf_cons, List.idxOf_cons, hne ht, hne hu]
      exact Nat.succ_lt_succ (ih h)

/-- **What is new in the second list comes behind the first.** -/
theorem distinct_append :
    distinct (ts ++ us) = distinct ts ++ (distinct us).filter (· ∉ distinct ts) := by
  induction us using List.reverseRecOn with
  | nil => simp [distinct]
  | append_singleton us u ih =>
    rw [← List.append_assoc, distinct_concat, ih, distinct_concat]
    by_cases hts : u ∈ distinct ts
    · rw [if_pos (List.mem_append_left _ hts)]
      split
      case isTrue => rfl
      case isFalse => simp [hts]
    · by_cases hus : u ∈ distinct us
      · rw [if_pos hus, if_pos]
        simp [hts, hus]
      · rw [if_neg hus, if_neg]
        · simp [hts]
        · simp [hts, hus]

end ZigNif.Text
