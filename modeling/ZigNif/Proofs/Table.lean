import Mathlib.Data.List.Induction
import ZigNif.Table

/-!
# Proofs/Table — looking up names

A table whose names are distinct is a function on them.  `put` and `putNew` keep the names distinct,
and a fold of `putNew` finds the first value of every name.
-/

namespace ZigNif.Table

variable {α : Type} {t u : Table α} {k : Text} {v : α}

theorem get?_nil : get? ([] : Table α) k = none := rfl

theorem get?_cons {k' : Text} {v' : α} :
    get? ((k', v') :: t) k = if k' = k then some v' else get? t k := by
  rw [get?, List.lookup_cons]
  by_cases h : k' = k
  · simp [h]
  · rw [if_neg h, beq_false_of_ne (Ne.symm h)]
    rfl

theorem get?_eq_none_iff : get? t k = none ↔ k ∉ keys t := by
  induction t with
  | nil => simp [get?, keys]
  | cons e t ih =>
    obtain ⟨k', v'⟩ := e
    rw [get?_cons]
    by_cases h : k' = k
    · simp [keys, h]
    · rw [if_neg h, ih]
      simp [keys, Ne.symm h]

theorem has_iff : has t k ↔ k ∈ keys t := by
  rw [has, Option.isSome_iff_ne_none, ne_eq, get?_eq_none_iff, not_not]

theorem mem_of_get? (h : get? t k = some v) : (k, v) ∈ t := by
  induction t with
  | nil => cases h
  | cons e t ih =>
    obtain ⟨k', v'⟩ := e
    rw [get?_cons] at h
    split at h
    · rename_i hk
      obtain rfl := Option.some.inj h
      exact hk ▸ List.mem_cons_self
    · exact List.mem_cons_of_mem _ (ih h)

/-- The value of a name is the first one that stands there. -/
theorem get?_eq_some_iff_split : get? t k = some v ↔
    ∃ before after, t = before ++ (k, v) :: after ∧ k ∉ keys before := by
  induction t with
  | nil => simp [get?]
  | cons e t ih =>
    obtain ⟨k', v'⟩ := e
    rw [get?_cons]
    constructor
    · intro h
      split at h
      case isTrue hk =>
        obtain rfl := Option.some.inj h
        exact ⟨[], t, by rw [hk]; rfl, List.not_mem_nil⟩
      case isFalse hk =>
        obtain ⟨before, after, rfl, hbefore⟩ := ih.mp h
        refine ⟨(k', v') :: before, after, rfl, fun hmem => ?_⟩
        exact (List.mem_cons.mp hmem).elim (fun e => hk e.symm) hbefore
    · rintro ⟨before, after, heq, hbefore⟩
      cases before with
      | nil =>
        obtain ⟨hhead, -⟩ := List.cons.inj heq
        obtain ⟨rfl, rfl⟩ := Prod.mk.inj hhead
        rw [if_pos rfl]
      | cons e before =>
        obtain ⟨rfl, rfl⟩ := List.cons.inj heq
        obtain ⟨hne, hbefore⟩ := not_or.mp (mt List.mem_cons.mpr hbefore)
        rw [if_neg (Ne.symm hne)]
        exact ih.mpr ⟨before, after, rfl, hbefore⟩

/-- The last value that stands under a name. -/
theorem get?_reverse_eq_some_iff : get? t.reverse k = some v ↔
    ∃ before after, t = before ++ (k, v) :: after ∧ k ∉ keys after := by
  rw [get?_eq_some_iff_split]
  constructor
  · rintro ⟨before, after, heq, hbefore⟩
    refine ⟨after.reverse, before.reverse, ?_, ?_⟩
    · rw [List.reverse_eq_iff.mp heq, List.reverse_append, List.reverse_cons, List.append_assoc,
        List.singleton_append]
    · rwa [keys, List.map_reverse, List.mem_reverse]
  · rintro ⟨before, after, rfl, hafter⟩
    refine ⟨after.reverse, before.reverse, ?_, ?_⟩
    · rw [List.reverse_append, List.reverse_cons, List.append_assoc, List.singleton_append]
    · rwa [keys, List.map_reverse, List.mem_reverse]

/-- **In a table whose names are distinct, the value of a name is the one that stands there.** -/
theorem get?_eq_some_iff (h : (keys t).Nodup) : get? t k = some v ↔ (k, v) ∈ t := by
  induction t with
  | nil => simp [get?]
  | cons e t ih =>
    obtain ⟨k', v'⟩ := e
    obtain ⟨hk', ht⟩ := List.nodup_cons.mp h
    rw [get?_cons, List.mem_cons, Prod.mk.injEq]
    by_cases hk : k' = k
    · subst hk
      have hno : (k', v) ∉ t := fun hv => hk' (List.mem_map.mpr ⟨_, hv, rfl⟩)
      simp [hno, eq_comm]
    · simp [hk, Ne.symm hk, ih ht]

/-- Tables of distinct names are equal if they list the same names with the same values. -/
theorem ext_of_nodup (h : (keys t).Nodup) (hkeys : keys t = keys u)
    (hget : ∀ k, get? t k = get? u k) : t = u := by
  induction t generalizing u with
  | nil => exact (List.map_eq_nil_iff.mp hkeys.symm).symm
  | cons e t ih =>
    obtain ⟨k, v⟩ := e
    cases u with
    | nil => cases hkeys
    | cons e' u =>
      obtain ⟨k', v'⟩ := e'
      obtain ⟨hname, hrest⟩ := List.cons.inj hkeys
      obtain rfl : k = k' := hname
      obtain ⟨hk, ht⟩ := List.nodup_cons.mp h
      have hv := hget k
      rw [get?_cons, get?_cons, if_pos rfl, if_pos rfl] at hv
      rw [Option.some.inj hv, ih ht hrest fun l => ?_]
      by_cases hl : k = l
      · subst hl
        rw [get?_eq_none_iff.mpr hk]
        exact (get?_eq_none_iff.mpr fun hmem => hk ((congrArg (k ∈ ·) hrest).mpr hmem)).symm
      · simpa only [get?_cons, if_neg hl] using hget l

theorem get?_put {k' : Text} : get? (put k v t) k' = if k = k' then some v else get? t k' := by
  induction t with
  | nil => rw [put, get?_cons]
  | cons e t ih =>
    obtain ⟨l, u⟩ := e
    rw [put]
    by_cases hl : l = k
    · rw [if_pos hl, get?_cons, get?_cons, hl]
      split <;> simp [*]
    · rw [if_neg hl, get?_cons, get?_cons, ih]
      by_cases hl' : l = k'
      · rw [if_pos hl', if_neg fun h => hl (hl'.trans h.symm), if_pos hl']
      · rw [if_neg hl', if_neg hl']

/-- What does not tell the old value of a name from the new one. -/
theorem map_put {β : Type} {f : Text × α → β} {v' : α} (h : get? t k = some v)
    (hf : f (k, v') = f (k, v)) : (put k v' t).map f = t.map f := by
  induction t with
  | nil => cases h
  | cons e t ih =>
    obtain ⟨l, u⟩ := e
    rw [get?_cons] at h
    rw [put]
    by_cases hl : l = k
    · rw [if_pos hl] at h ⊢
      rw [List.map_cons, List.map_cons, hl, hf, Option.some.inj h]
    · rw [if_neg hl] at h ⊢
      rw [List.map_cons, List.map_cons, ih h]

/-- A name that is put in is new, or it is there already. -/
theorem nodup_keys_of_new (h : (keys t).Nodup) :
    (if k ∈ keys t then keys t else keys t ++ [k]).Nodup := by
  split
  case isTrue => exact h
  case isFalse hk =>
    have hperm : (keys t ++ [k]).Perm (k :: keys t) := List.perm_append_singleton k (keys t)
    exact hperm.nodup_iff.mpr (List.nodup_cons.mpr ⟨hk, h⟩)

theorem nodup_keys_put (h : (keys t).Nodup) : (keys (put k v t)).Nodup := by
  rw [keys_put]
  exact nodup_keys_of_new h

/-! ## First values -/

theorem keys_putNew : keys (putNew k v t) = if k ∈ keys t then keys t else keys t ++ [k] := by
  by_cases h : k ∈ keys t
  · rw [putNew, if_pos (has_iff.mpr h), if_pos h]
  · rw [putNew, if_neg (mt has_iff.mp h), if_neg h]
    exact List.map_append

theorem nodup_keys_putNew (h : (keys t).Nodup) : (keys (putNew k v t)).Nodup := by
  rw [keys_putNew]
  exact nodup_keys_of_new h

theorem get?_append_singleton {k' : Text} {v' : α} :
    get? (t ++ [(k', v')]) k = (get? t k).or (if k' = k then some v' else none) := by
  induction t with
  | nil => rw [List.nil_append, get?_cons]; rfl
  | cons e t ih =>
    obtain ⟨k'', v''⟩ := e
    rw [List.cons_append, get?_cons, get?_cons, ih]
    split <;> rfl

theorem get?_putNew {k' : Text} {v' : α} :
    get? (putNew k' v' t) k = (get? t k).or (if k' = k then some v' else none) := by
  by_cases h : k' ∈ keys t
  · rw [putNew, if_pos (has_iff.mpr h)]
    cases hk : get? t k with
    | some v => rfl
    | none =>
      have hne : k' ≠ k := fun e => get?_eq_none_iff.mp hk (e ▸ h)
      rw [if_neg hne]
      rfl
  · rw [putNew, if_neg (mt has_iff.mp h), get?_append_singleton]

/-- Names that are put in one after another, each unless it is there. -/
theorem keys_foldl {β : Type} {name : β → Text} {op : Table α → β → Table α}
    (hop : ∀ t b, keys (op t b) = if name b ∈ keys t then keys t else keys t ++ [name b])
    {l : List β} : keys (l.foldl op []) = (l.map name).eraseDups := by
  -- from the end, where the fold puts its next name
  induction l using List.reverseRecOn with
  | nil => rfl
  | append_singleton l b ih =>
    rw [List.foldl_append, List.foldl_cons, List.foldl_nil, hop, ih, List.map_append,
      List.eraseDups_append]
    by_cases h : name b ∈ l.map name
    · rw [if_pos (List.mem_eraseDups.mpr h)]
      simp [h, List.removeAll, -List.mem_map]
    · rw [if_neg (mt List.mem_eraseDups.mp h)]
      simp [h, List.removeAll, List.eraseDups_cons, -List.mem_map]

section Fold

variable {name : α → Text} {l : List α}

/-- The table of the first values of each name. -/
theorem get?_foldl_putNew :
    get? (l.foldl (fun t a => putNew (name a) a t) t) k =
      (get? t k).or (l.find? fun a => name a = k) := by
  induction l generalizing t with
  | nil => simp
  | cons a l ih =>
    rw [List.foldl_cons, ih, get?_putNew, Option.or_assoc, List.find?_cons]
    by_cases h : name a = k
    · simp [h]
    · simp [h]

/-- Its names are the names there were, without repetition. -/
theorem keys_foldl_putNew :
    keys (l.foldl (fun t a => putNew (name a) a t) []) = (l.map name).eraseDups := by
  apply keys_foldl
  intro t a
  exact keys_putNew

theorem nodup_keys_foldl_putNew (h : (keys t).Nodup) :
    (keys (l.foldl (fun t a => putNew (name a) a t) t)).Nodup := by
  induction l generalizing t with
  | nil => exact h
  | cons a l ih => exact ih (nodup_keys_putNew h)

end Fold

/-! ## Last values -/

/-- The table with all of the values put in, one after another. -/
def putAll (t : Table α) (entries : List (Text × α)) : Table α :=
  entries.foldl (fun t e => put e.1 e.2 t) t

variable {entries : List (Text × α)}

theorem putAll_append {entries' : List (Text × α)} :
    putAll t (entries ++ entries') = putAll (putAll t entries) entries' :=
  List.foldl_append

theorem putAll_concat {e : Text × α} :
    putAll t (entries ++ [e]) = put e.1 e.2 (putAll t entries) :=
  putAll_append

/-- The names are those of the values, without repetition. -/
theorem keys_putAll : keys (putAll [] entries) = (entries.map Prod.fst).eraseDups :=
  keys_foldl fun t e => keys_put e.1 e.2 t

theorem nodup_keys_putAll (h : (keys t).Nodup) : (keys (putAll t entries)).Nodup := by
  induction entries generalizing t with
  | nil => exact h
  | cons e entries ih => exact ih (nodup_keys_put h)

/-- **The value of a name is the last one**, or that which was there. -/
theorem get?_putAll : get? (putAll t entries) k = (get? entries.reverse k).or (get? t k) := by
  induction entries generalizing t with
  | nil => rfl
  | cons e entries ih =>
    change get? (putAll (put e.1 e.2 t) entries) k = _
    rw [ih, get?_put, List.reverse_cons, get?_append_singleton, Option.or_assoc]
    split <;> rfl

theorem put_of_notMem (h : k ∉ keys t) : put k v t = t ++ [(k, v)] := by
  induction t with
  | nil => rfl
  | cons e t ih =>
    obtain ⟨hne, ht⟩ := not_or.mp (mt List.mem_cons.mpr h)
    rw [put, if_neg (Ne.symm hne), ih ht, List.cons_append]

/-- A table whose names are distinct is what putting in its own values yields. -/
theorem putAll_self (h : (keys t).Nodup) : putAll [] t = t := by
  induction t using List.reverseRecOn with
  | nil => rfl
  | append_singleton t e ih =>
    rw [keys, List.map_append, List.nodup_append] at h
    obtain ⟨ht, -, hdisjoint⟩ := h
    rw [putAll_concat, ih ht, put_of_notMem]
    exact fun hmem => hdisjoint _ hmem _ (List.mem_singleton.mpr rfl) rfl

/-- **The table of the last values**, which lists the names in the order of the first ones. -/
theorem eq_putAll_iff : t = putAll [] entries ↔
    keys t = (entries.map Prod.fst).eraseDups ∧
      ∀ k v, (k, v) ∈ t ↔
        ∃ before after, entries = before ++ (k, v) :: after ∧ k ∉ keys after := by
  have hnodup : (keys (putAll [] entries)).Nodup :=
    nodup_keys_putAll (show (keys ([] : Table α)).Nodup from List.nodup_nil)
  have hmem (k : Text) (v : α) : (k, v) ∈ putAll [] entries ↔
      ∃ before after, entries = before ++ (k, v) :: after ∧ k ∉ keys after := by
    rw [← get?_eq_some_iff hnodup, get?_putAll, get?_nil, Option.or_none, get?_reverse_eq_some_iff]
  constructor
  · rintro rfl
    exact ⟨keys_putAll, hmem⟩
  · rintro ⟨hkeys, ht⟩
    rw [← keys_putAll] at hkeys
    have ht' : (keys t).Nodup := hkeys ▸ hnodup
    refine ext_of_nodup ht' hkeys fun k => Option.ext fun v => ?_
    rw [get?_eq_some_iff ht', get?_eq_some_iff hnodup, ht, hmem]

/-! ## One table over another -/

/-- The table with the values of another one in place of its own, and behind them what the other one
has besides. -/
def update (t u : Table α) : Table α :=
  t.map (fun e => (e.1, (get? u e.1).getD e.2)) ++ u.filter fun e => e.1 ∉ keys t

theorem keys_update : keys (update t u) = keys t ++ (keys u).filter (· ∉ keys t) := by
  rw [update, keys, List.map_append, List.map_map, keys, keys, List.filter_map]
  rfl

theorem get?_append : get? (t ++ u) k = (get? t k).or (get? u k) := by
  induction t with
  | nil => rfl
  | cons e t ih =>
    obtain ⟨k', v'⟩ := e
    rw [List.cons_append, get?_cons, get?_cons, ih]
    split <;> rfl

theorem get?_map (f : Text → α → α) :
    get? (t.map fun e => (e.1, f e.1 e.2)) k = (get? t k).map (f k) := by
  induction t with
  | nil => rfl
  | cons e t ih =>
    obtain ⟨k', v'⟩ := e
    rw [List.map_cons, get?_cons, get?_cons, ih]
    split
    case isTrue h => rw [h, Option.map_some]
    case isFalse => rfl

theorem get?_filter (p : Text → Bool) (h : p k) : get? (t.filter fun e => p e.1) k = get? t k := by
  induction t with
  | nil => rfl
  | cons e t ih =>
    obtain ⟨k', v'⟩ := e
    rw [List.filter_cons]
    by_cases hp : p k' = true
    · rw [if_pos hp, get?_cons, get?_cons, ih]
    · have hne : k' ≠ k := fun e => hp (e ▸ h)
      rw [if_neg hp, ih, get?_cons, if_neg hne]

/-- **The values of the other table go before.** -/
theorem get?_update : get? (update t u) k = (get? u k).or (get? t k) := by
  rw [update, get?_append, get?_map fun k => (get? u k).getD]
  cases ht : get? t k with
  | some v => cases get? u k <;> rfl
  | none =>
    rw [Option.map_none, Option.none_or, Option.or_none]
    exact get?_filter (fun k => k ∉ keys t) (decide_eq_true (get?_eq_none_iff.mp ht))

theorem nodup_keys_update (ht : (keys t).Nodup) (hu : (keys u).Nodup) :
    (keys (update t u)).Nodup := by
  rw [keys_update, List.nodup_append]
  refine ⟨ht, hu.filter _, fun k hk l hl => ?_⟩
  have hno : l ∉ keys t := of_decide_eq_true (List.mem_filter.mp hl).2
  exact fun e => hno (e ▸ hk)

theorem update_put (ht : (keys t).Nodup) (hu : (keys u).Nodup) :
    update t (put k v u) = put k v (update t u) := by
  refine ext_of_nodup (nodup_keys_update ht (nodup_keys_put hu)) ?_ fun l => ?_
  · -- a name is new behind both tables if it is new behind each
    have hmem : k ∈ keys (update t u) ↔ k ∈ keys t ∨ k ∈ keys u := by
      by_cases hk : k ∈ keys t <;> simp [keys_update, hk]
    rw [keys_put]
    simp only [hmem]
    rw [keys_update, keys_update, keys_put]
    by_cases hk : k ∈ keys t <;> by_cases hk' : k ∈ keys u <;> simp [hk, hk']
  · rw [get?_update, get?_put, get?_put, get?_update]
    split <;> rfl

/-- **Putting in values is putting in the table that they make up.** -/
theorem putAll_eq_update (ht : (keys t).Nodup) :
    putAll t entries = update t (putAll [] entries) := by
  -- from the end, where both tables put in their last value
  induction entries using List.reverseRecOn with
  | nil => simp [putAll, update, get?]
  | append_singleton entries e ih =>
    have hnil : (keys ([] : Table α)).Nodup := List.nodup_nil
    rw [putAll_concat, putAll_concat, ih, update_put ht (nodup_keys_putAll hnil)]

end ZigNif.Table
