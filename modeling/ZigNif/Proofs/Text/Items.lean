import ZigNif.Text.Basic

/-!
# Proofs/Text/Items — items in a list

Items stand between brackets with commas between them.  An item that has no bracket of its own ends
at the next comma or bracket, so items can be told apart in a list if they can be told apart by
themselves (`joined_append_inj`).
-/

namespace ZigNif.Text

variable {r r' s t u : Text} {e : Char}

/-- The characters that can stand behind an item. -/
def endMarks : List Char := [',', ']', '\x7d']

/-- The text is empty, or starts with what can stand behind an item. -/
def Ends (r : Text) : Prop := ∀ c ∈ r.head?, c ∈ endMarks

/-- Texts without separators are told apart by what is in front of the separator. -/
theorem append_inj_of_ends (ht : ∀ c ∈ t, c ∉ endMarks) (hu : ∀ c ∈ u, c ∉ endMarks)
    (hr : Ends r) (hr' : Ends r') (h : t ++ r = u ++ r') : t = u ∧ r = r' := by
  rcases List.append_eq_append_iff.mp h with ⟨x, rfl, rfl⟩ | ⟨x, rfl, rfl⟩
  · cases x with
    | nil => exact ⟨(List.append_nil t).symm, rfl⟩
    | cons c x => exact absurd (hr c rfl) (hu c (List.mem_append_right _ List.mem_cons_self))
  · cases x with
    | nil => exact ⟨List.append_nil u, rfl⟩
    | cons c x => exact absurd (hr' c rfl) (ht c (List.mem_append_right _ List.mem_cons_self))

/-- The first item of a list, and what is behind it. -/
theorem joined_cons_append (s t : Text) (ts : List Text) (r : Text) :
    joined s (t :: ts) ++ r = t ++ (if ts = [] then r else s ++ (joined s ts ++ r)) := by
  cases ts with
  | nil => rfl
  | cons u us => simp [joined]

/-- An item ends where the next one or the closing bracket is. -/
theorem ends_rest {us : List Text} (hs : s.head? = some ',') (he : e ∈ endMarks) :
    Ends (if us = [] then e :: r else s ++ (joined s us ++ e :: r)) := by
  obtain ⟨b, rfl⟩ := List.head?_eq_some_iff.mp hs
  split
  · exact fun c hc => Option.some.inj hc ▸ he
  · exact fun c hc => Option.some.inj hc ▸ List.mem_cons_self

/-- **Items in a list are told apart** if they are told apart by themselves, and none starts with
what closes the list. -/
theorem joined_append_inj {α : Type} {f : α → Text} {as bs : List α} (he : e ∈ [']', '\x7d'])
    (hitem : ∀ a ∈ as, ∀ b ∈ bs, ∀ r r', Ends r → Ends r' → f a ++ r = f b ++ r' →
      a = b ∧ r = r')
    (hfirst : ∀ a, ∃ c ∈ (f a).head?, c ≠ e)
    (h : joined ", " (as.map f) ++ e :: r = joined ", " (bs.map f) ++ e :: r') :
    as = bs ∧ r = r' := by
  have hne : ∀ a u, f a ++ u ≠ e :: r ∧ f a ++ u ≠ e :: r' := by
    intro a u
    obtain ⟨c, hc, hce⟩ := hfirst a
    obtain ⟨v, hv⟩ := List.head?_eq_some_iff.mp hc
    rw [hv]
    exact ⟨fun h => hce (List.cons.inj h).1, fun h => hce (List.cons.inj h).1⟩
  have hend : e ∈ endMarks := List.mem_cons_of_mem _ he
  have hcomma : ',' ≠ e := by
    rintro rfl
    exact absurd he (by decide)
  induction as generalizing bs with
  | nil =>
    cases bs with
    | nil => exact ⟨rfl, (List.cons.inj h).2⟩
    | cons b bs =>
      rw [List.map_cons, joined_cons_append] at h
      exact absurd h.symm (hne b _).1
  | cons a as ih =>
    cases bs with
    | nil =>
      rw [List.map_cons, joined_cons_append] at h
      exact absurd h (hne a _).2
    | cons b bs =>
      rw [List.map_cons, List.map_cons, joined_cons_append, joined_cons_append] at h
      obtain ⟨rfl, hrest⟩ := hitem a List.mem_cons_self b List.mem_cons_self _ _
        (ends_rest rfl hend) (ends_rest rfl hend) h
      cases as with
      | nil =>
        cases bs with
        | nil => exact ⟨rfl, (List.cons.inj hrest).2⟩
        | cons b' bs => exact absurd (List.cons.inj hrest).1.symm hcomma
      | cons a' as =>
        cases bs with
        | nil => exact absurd (List.cons.inj hrest).1 hcomma
        | cons b' bs =>
          obtain ⟨hlists, hr⟩ := ih
            (fun a ha b hb => hitem a (List.mem_cons_of_mem _ ha) b (List.mem_cons_of_mem _ hb))
            (List.append_cancel_left hrest)
          exact ⟨congrArg _ hlists, hr⟩

end ZigNif.Text
