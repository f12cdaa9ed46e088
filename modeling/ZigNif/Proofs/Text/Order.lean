import ZigNif.Text.Basic

/-!
# Proofs/Text/Order — the order of names

`Text.upTo` is a linear order, so that a sorted list has its least element first.
-/

namespace ZigNif.Text

/-- Texts are compared by their first difference, by the code points there. -/
theorem upTo_cons_iff {c d : Char} {s t : Text} :
    upTo (c :: s) (d :: t) ↔ c.toNat < d.toNat ∨ c = d ∧ upTo s t := by
  simp [upTo]

theorem upTo_total (s t : Text) : upTo s t || upTo t s := by
  rw [Bool.or_eq_true]
  induction s generalizing t with
  | nil => exact Or.inl rfl
  | cons c s ih =>
    cases t with
    | nil => exact Or.inr rfl
    | cons d t =>
      rw [upTo_cons_iff, upTo_cons_iff]
      rcases Nat.lt_trichotomy c.toNat d.toNat with h | h | h
      · exact Or.inl (Or.inl h)
      · obtain rfl : c = d := Char.toNat_inj.mp h
        exact (ih t).imp (fun h => Or.inr ⟨rfl, h⟩) (fun h => Or.inr ⟨rfl, h⟩)
      · exact Or.inr (Or.inl h)

theorem upTo_trans (r s t : Text) (hrs : upTo r s) (hst : upTo s t) : upTo r t := by
  induction r generalizing s t with
  | nil => rfl
  | cons b r ih =>
    cases s with
    | nil => cases hrs
    | cons c s =>
      cases t with
      | nil => cases hst
      | cons d t =>
        rw [upTo_cons_iff] at hrs hst ⊢
        rcases hrs with hbc | ⟨rfl, hrs⟩
        · rcases hst with hcd | ⟨rfl, -⟩
          · exact Or.inl (Nat.lt_trans hbc hcd)
          · exact Or.inl hbc
        · exact hst.imp_right fun ⟨hbd, hst⟩ => ⟨hbd, ih s t hrs hst⟩

/-- Of two different texts, only one comes before the other. -/
theorem upTo_antisymm {s t : Text} (hst : upTo s t) (hts : upTo t s) : s = t := by
  induction s generalizing t with
  | nil =>
    cases t with
    | nil => rfl
    | cons d t => cases hts
  | cons c s ih =>
    cases t with
    | nil => cases hst
    | cons d t =>
      rw [upTo_cons_iff] at hst hts
      rcases hst with h | ⟨rfl, hst⟩
      · rcases hts with h' | ⟨rfl, -⟩
        · exact absurd h' (Nat.lt_asymm h)
        · exact absurd h (Nat.lt_irrefl _)
      · rcases hts with h' | ⟨-, hts⟩
        · exact absurd h' (Nat.lt_irrefl _)
        · rw [ih hst hts]

/-- Sorting neither adds nor drops a text. -/
theorem mem_sorted {t : Text} {ts : List Text} : t ∈ sorted ts ↔ t ∈ ts :=
  (List.mergeSort_perm ts upTo).mem_iff

theorem sorted_eq_nil_iff {ts : List Text} : sorted ts = [] ↔ ts = [] := by
  simp [List.eq_nil_iff_forall_not_mem, mem_sorted]

/-- **The first of the sorted texts is the least one.** -/
theorem head?_sorted_eq_some_iff {t : Text} {ts : List Text} :
    (sorted ts).head? = some t ↔ t ∈ ts ∧ ∀ s ∈ ts, upTo t s := by
  have hsorted : (sorted ts).Pairwise fun s t => upTo s t :=
    List.pairwise_mergeSort upTo_trans upTo_total ts
  simp only [← @mem_sorted _ ts]
  cases hts : sorted ts with
  | nil => simp
  | cons least rest =>
    rw [hts] at hsorted
    obtain ⟨hleast, -⟩ := List.pairwise_cons.mp hsorted
    have hrefl : upTo least least := by simpa using upTo_total least least
    have hmin : ∀ s ∈ least :: rest, upTo least s := List.forall_mem_cons.mpr ⟨hrefl, hleast⟩
    rw [List.head?_cons, Option.some_inj]
    constructor
    · rintro rfl
      exact ⟨List.mem_cons_self, hmin⟩
    · rintro ⟨ht, hall⟩
      exact upTo_antisymm (hmin t ht) (hall least List.mem_cons_self)

end ZigNif.Text
