import Mathlib.Data.List.TakeWhile
import ZigNif.Text.Blank

/-!
# Proofs/Text/Blank — runs at the ends of a text

What is cut off an end of a text is the longest run there, of white space if the text is trimmed.
-/

namespace ZigNif.Text

variable {p : Char → Bool} {s t : Text}

/-- A run at the end of a text, and what is left without it. -/
theorem exists_eq_dropEndWhile_append (p : Char → Bool) (t : Text) : ∃ run,
    t = dropEndWhile p t ++ run ∧ (∀ c ∈ run, p c) ∧ ∀ c ∈ (dropEndWhile p t).getLast?, ¬ p c := by
  refine ⟨(t.reverse.takeWhile p).reverse, ?_, fun c hc => ?_, fun c hc => ?_⟩
  · rw [dropEndWhile, ← List.reverse_append, List.takeWhile_append_dropWhile, List.reverse_reverse]
  · exact List.mem_takeWhile_imp (List.mem_reverse.mp hc)
  · rw [dropEndWhile, List.getLast?_reverse] at hc
    have hhead := List.head?_dropWhile_not p t.reverse
    rw [Option.mem_def.mp hc] at hhead
    simpa using hhead

theorem isPrefix_dropEndWhile (p : Char → Bool) (t : Text) : dropEndWhile p t <+: t := by
  obtain ⟨run, heq, -⟩ := exists_eq_dropEndWhile_append p t
  exact ⟨run, heq.symm⟩

theorem dropEndWhile_eq_nil_iff : dropEndWhile p t = [] ↔ ∀ c ∈ t, p c := by
  simp only [dropEndWhile, List.reverse_eq_nil_iff, List.dropWhile_eq_nil_iff, List.mem_reverse]

/-- A run at the end reaches into the first of two texts only if it is all of the second. -/
theorem dropEndWhile_append : dropEndWhile p (s ++ t) =
    if dropEndWhile p t = [] then dropEndWhile p s else s ++ dropEndWhile p t := by
  simp only [dropEndWhile, List.reverse_append, List.dropWhile_append, List.isEmpty_iff,
    List.reverse_eq_nil_iff, apply_ite List.reverse, List.reverse_reverse]

/-- **Nothing is left of a text if and only if it is white space.** -/
theorem trim_eq_nil_iff : trim t = [] ↔ ∀ c ∈ t, isBlank c := by
  rw [trim, trimEnd, dropEndWhile_eq_nil_iff]
  refine ⟨fun h c hc => ?_, fun h c hc => h c ((List.dropWhile_sublist _).subset hc)⟩
  rw [← List.takeWhile_append_dropWhile (p := isBlank) (l := t)] at hc
  exact (List.mem_append.mp hc).elim List.mem_takeWhile_imp (h c)

end ZigNif.Text
