import Mathlib.Data.List.Forall2

/-!
# Proofs/Except — computations that may fail, one after another

A sequence of computations succeeds if each of them does, and fails with the failure of the first
that does not.
-/

namespace ZigNif

variable {ε α β σ : Type}

/-- A sequence succeeds if both of its parts do. -/
theorem bind_eq_ok_iff {x : Except ε α} {f : α → Except ε β} {b : β} :
    x >>= f = .ok b ↔ ∃ a, x = .ok a ∧ f a = .ok b := by
  cases x with
  | error e => simp [bind, Except.bind]
  | ok a => simp [bind, Except.bind]

/-- A sequence fails with the failure of its first part, or else of its second. -/
theorem bind_eq_error_iff {x : Except ε α} {f : α → Except ε β} {e : ε} :
    x >>= f = .error e ↔ x = .error e ∨ ∃ a, x = .ok a ∧ f a = .error e := by
  cases x with
  | error e' => simp [bind, Except.bind]
  | ok a => simp [bind, Except.bind]

theorem ok_bind {a : α} {f : α → Except ε β} : Except.ok a >>= f = f a := rfl

theorem map_eq_ok_iff {x : Except ε α} {f : α → β} {b : β} :
    f <$> x = .ok b ↔ ∃ a, x = .ok a ∧ f a = b := by
  cases x with
  | error e => simp [Functor.map, Except.map]
  | ok a => simp [Functor.map, Except.map]

theorem map_eq_error_iff {x : Except ε α} {f : α → β} {e : ε} :
    f <$> x = .error e ↔ x = .error e := by
  cases x with
  | error e' => simp [Functor.map, Except.map]
  | ok a => simp [Functor.map, Except.map]

theorem toOption_eq_some_iff {x : Except ε α} {a : α} : x.toOption = some a ↔ x = .ok a := by
  cases x with
  | error e => simp [Except.toOption]
  | ok a' => simp [Except.toOption]

/-- What does not succeed fails. -/
theorem exists_eq_error_iff {x : Except ε α} : (∃ e, x = .error e) ↔ ¬∃ a, x = .ok a := by
  cases x with
  | error e => simp
  | ok a => simp

/-- Two computations that succeed or fail alike fail with the same failure. -/
theorem eq_error_of_map_eq {x : Except ε α} {y : Except ε β} {e : ε}
    (h : x.map (fun _ => ()) = y.map fun _ => ()) (hx : x = .error e) : y = .error e := by
  subst hx
  cases y with
  | error e' => exact congrArg Except.error (Except.error.inj h).symm
  | ok b => cases h

section mapError

variable {ε' : Type} {f : ε → ε'}

theorem mapError_ok {a : α} : (Except.ok a).mapError f = .ok a := rfl

theorem mapError_error {e : ε} : (Except.error e : Except ε α).mapError f = .error (f e) := rfl

end mapError

theorem foldlM_cons_eq_ok_iff {f : σ → α → Except ε σ} {a : α} {l : List α} {s t : σ} :
    (a :: l).foldlM f s = .ok t ↔ ∃ m, f s a = .ok m ∧ l.foldlM f m = .ok t := by
  rw [List.foldlM_cons, bind_eq_ok_iff]

/-- A fold over two lists goes through a state between them. -/
theorem foldlM_append_eq_ok_iff {f : σ → α → Except ε σ} {l r : List α} {s t : σ} :
    (l ++ r).foldlM f s = .ok t ↔ ∃ m, l.foldlM f s = .ok m ∧ r.foldlM f m = .ok t := by
  rw [List.foldlM_append, bind_eq_ok_iff]

/-- A fold succeeds if and only if every step does, whatever state it starts in. -/
theorem exists_foldlM_eq_ok_iff {f : σ → α → Except ε σ} {p : α → Prop}
    (hf : ∀ s a, (∃ t, f s a = .ok t) ↔ p a) {l : List α} :
    ∀ s, (∃ t, l.foldlM f s = .ok t) ↔ ∀ a ∈ l, p a := by
  induction l with
  | nil => exact fun s => ⟨fun _ => nofun, fun _ => ⟨s, rfl⟩⟩
  | cons a l ih =>
    intro s
    simp only [foldlM_cons_eq_ok_iff, List.forall_mem_cons]
    constructor
    · rintro ⟨t, m, hm, ht⟩
      exact ⟨(hf s a).mp ⟨m, hm⟩, (ih m).mp ⟨t, ht⟩⟩
    · rintro ⟨ha, hl⟩
      obtain ⟨m, hm⟩ := (hf s a).mpr ha
      obtain ⟨t, ht⟩ := (ih m).mpr hl
      exact ⟨t, m, hm, ht⟩

/-- **A fold fails with the failure of the first step that fails.** -/
theorem foldlM_eq_error_iff {f : σ → α → Except ε σ} {l : List α} {s : σ} {e : ε} :
    l.foldlM f s = .error e ↔ ∃ before a after m, l = before ++ a :: after ∧
      before.foldlM f s = .ok m ∧ f m a = .error e := by
  induction l generalizing s with
  | nil => simp [pure, Except.pure]
  | cons a l ih =>
    rw [List.foldlM_cons, bind_eq_error_iff]
    constructor
    · rintro (ha | ⟨m, hm, hl⟩)
      · exact ⟨[], a, l, s, rfl, rfl, ha⟩
      · obtain ⟨before, b, after, m', rfl, hbefore, hb⟩ := ih.mp hl
        exact ⟨a :: before, b, after, m', rfl, foldlM_cons_eq_ok_iff.mpr ⟨m, hm, hbefore⟩, hb⟩
    · rintro ⟨before, b, after, m', hl, hbefore, hb⟩
      cases before with
      | nil =>
        obtain ⟨rfl, rfl⟩ := List.cons.inj hl
        obtain rfl := Except.ok.inj hbefore
        exact .inl hb
      | cons c before =>
        obtain ⟨rfl, rfl⟩ := List.cons.inj hl
        obtain ⟨m, hm, hbefore⟩ := foldlM_cons_eq_ok_iff.mp hbefore
        exact .inr ⟨m, hm, ih.mpr ⟨before, b, after, m', rfl, hbefore, hb⟩⟩

/-- What every step preserves, a fold that succeeds preserves. -/
theorem foldlM_induction {f : σ → α → Except ε σ} {p : σ → Prop}
    (hf : ∀ s a t, p s → f s a = .ok t → p t) {l : List α} {s t : σ} (hs : p s)
    (h : l.foldlM f s = .ok t) : p t := by
  induction l generalizing s with
  | nil => cases h; exact hs
  | cons a l ih =>
    obtain ⟨m, hm, h⟩ := foldlM_cons_eq_ok_iff.mp h
    exact ih (hf s a m hs hm) h

/-! ## Lists of computations -/

/-- A fold whose computations do not read its state is the fold of their results. -/
theorem foldlM_map {f : α → Except ε β} {op : σ → β → σ} {l : List α} {s : σ} :
    l.foldlM (fun s a => op s <$> f a) s = List.foldl op s <$> l.mapM f := by
  induction l generalizing s with
  | nil => rfl
  | cons a l ih =>
    rw [List.foldlM_cons, List.mapM_cons]
    cases f a with
    | error e => rfl
    | ok b =>
      change l.foldlM _ (op s b) = _
      rw [ih]
      cases l.mapM f <;> rfl

/-- Computations that agree on a list give the same results along it. -/
theorem mapM_congr {f g : α → Except ε β} {l : List α} (h : ∀ a ∈ l, f a = g a) :
    l.mapM f = l.mapM g := by
  induction l with
  | nil => rfl
  | cons a l ih =>
    obtain ⟨ha, hl⟩ := List.forall_mem_cons.mp h
    rw [List.mapM_cons, List.mapM_cons, ha, ih hl]

theorem mapM_cons_eq_ok_iff {f : α → Except ε β} {a : α} {l : List α} {r : List β} :
    (a :: l).mapM f = .ok r ↔ ∃ b bs, f a = .ok b ∧ l.mapM f = .ok bs ∧ r = b :: bs := by
  simp only [List.mapM_cons, bind_eq_ok_iff]
  constructor
  · rintro ⟨b, hb, bs, hbs, h⟩
    exact ⟨b, bs, hb, hbs, (Except.ok.inj h).symm⟩
  · rintro ⟨b, bs, hb, hbs, rfl⟩
    exact ⟨b, hb, bs, hbs, rfl⟩

/-- A list is mapped if each element is, one by one. -/
theorem mapM_eq_ok_iff_forall₂ {f : α → Except ε β} {l : List α} {r : List β} :
    l.mapM f = .ok r ↔ List.Forall₂ (fun a b => f a = .ok b) l r := by
  induction l generalizing r with
  | nil => simp [pure, Except.pure, eq_comm]
  | cons a l ih =>
    rw [mapM_cons_eq_ok_iff]
    constructor
    · rintro ⟨b, bs, hb, hbs, rfl⟩
      exact .cons hb (ih.mp hbs)
    · rintro (_ | ⟨hb, hbs⟩)
      exact ⟨_, _, hb, ih.mpr hbs, rfl⟩

/-- What comes out of a list came from one of its elements. -/
theorem exists_of_mem_mapM {f : α → Except ε β} {l : List α} {r : List β} (h : l.mapM f = .ok r)
    {b : β} (hb : b ∈ r) : ∃ a ∈ l, f a = .ok b := by
  induction l generalizing r with
  | nil => cases h; exact absurd hb List.not_mem_nil
  | cons a l ih =>
    obtain ⟨c, bs, hc, hbs, rfl⟩ := mapM_cons_eq_ok_iff.mp h
    rcases List.mem_cons.mp hb with rfl | hb
    · exact ⟨a, List.mem_cons_self, hc⟩
    · obtain ⟨a', ha', h'⟩ := ih hbs hb
      exact ⟨a', List.mem_cons_of_mem _ ha', h'⟩

/-- What every computation keeps of its argument, the list of them keeps. -/
theorem map_eq_of_mapM {γ : Type} {f : α → Except ε β} {g : β → γ} {k : α → γ} {l : List α}
    {r : List β} (hf : ∀ a ∈ l, ∀ b, f a = .ok b → g b = k a) (h : l.mapM f = .ok r) :
    r.map g = l.map k := by
  induction l generalizing r with
  | nil => cases h; rfl
  | cons a l ih =>
    obtain ⟨b, bs, hb, hbs, rfl⟩ := mapM_cons_eq_ok_iff.mp h
    obtain ⟨ha, hl⟩ := List.forall_mem_cons.mp hf
    rw [List.map_cons, List.map_cons, ha b hb, ih hl hbs]

/-- A list can be mapped if each of its elements can. -/
theorem exists_mapM_eq_ok_iff {f : α → Except ε β} {l : List α} :
    (∃ r, l.mapM f = .ok r) ↔ ∀ a ∈ l, ∃ b, f a = .ok b := by
  induction l with
  | nil => exact ⟨fun _ => nofun, fun _ => ⟨[], rfl⟩⟩
  | cons a l ih =>
    simp only [mapM_cons_eq_ok_iff, List.forall_mem_cons, ← ih]
    constructor
    · rintro ⟨r, b, bs, hb, hbs, -⟩
      exact ⟨⟨b, hb⟩, bs, hbs⟩
    · rintro ⟨⟨b, hb⟩, bs, hbs⟩
      exact ⟨_, b, bs, hb, hbs, rfl⟩

/-- **The failure of a list of computations is that of the first that fails.** -/
theorem mapM_eq_error_iff {f : α → Except ε β} {l : List α} {e : ε} :
    l.mapM f = .error e ↔ ∃ before a after, l = before ++ a :: after ∧
      (∀ x ∈ before, ∃ b, f x = .ok b) ∧ f a = .error e := by
  induction l with
  | nil => simp [pure, Except.pure]
  | cons a l ih =>
    simp only [List.mapM_cons, bind_eq_error_iff]
    constructor
    · rintro (ha | ⟨b, hb, hl | ⟨bs, -, h⟩⟩)
      · exact ⟨[], a, l, rfl, nofun, ha⟩
      · obtain ⟨before, x, after, rfl, hbefore, hx⟩ := ih.mp hl
        exact ⟨a :: before, x, after, rfl, List.forall_mem_cons.mpr ⟨⟨b, hb⟩, hbefore⟩, hx⟩
      · cases h
    · rintro ⟨before, x, after, hl, hbefore, hx⟩
      cases before with
      | nil =>
        obtain ⟨rfl, rfl⟩ := List.cons.inj hl
        exact Or.inl hx
      | cons y before =>
        obtain ⟨rfl, rfl⟩ := List.cons.inj hl
        obtain ⟨⟨b, hb⟩, hbefore⟩ := List.forall_mem_cons.mp hbefore
        exact Or.inr ⟨b, hb, Or.inl (ih.mpr ⟨before, x, after, rfl, hbefore, hx⟩)⟩

end ZigNif
