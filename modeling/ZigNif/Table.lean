import ZigNif.Text.Basic

/-!
# Table — named values in order of first appearance

A table lists its names once each, in the order in which they were first put in.  Putting a value
under a name that is there already replaces the value and keeps the place.
-/

namespace ZigNif

/-- Values under names, in order of first appearance. -/
abbrev Table (α : Type) := List (Text × α)

namespace Table

variable {α : Type}

/-- The names in order. -/
def keys (t : Table α) : List Text := t.map Prod.fst

/-- The value under a name. -/
def get? (t : Table α) (key : Text) : Option α := t.lookup key

/-- Whether there is a value under the name. -/
def has (t : Table α) (key : Text) : Bool := (t.get? key).isSome

/-- The table with `value` under `key`: in place if the name is there, else last. -/
def put (key : Text) (value : α) : Table α → Table α
  | [] => [(key, value)]
  | (k, v) :: rest => if k = key then (k, value) :: rest else (k, v) :: put key value rest

/-- The table with `value` under `key`, unless the name is there already. -/
def putNew (key : Text) (value : α) (t : Table α) : Table α :=
  if t.has key then t else t ++ [(key, value)]

theorem mem_keys_of_get? {t : Table α} {k : Text} {v : α} (h : t.get? k = some v) :
    k ∈ t.keys := by
  induction t with
  | nil => simp [get?] at h
  | cons e rest ih =>
    obtain ⟨k', v'⟩ := e
    by_cases hk : k = k'
    · simp [keys, hk]
    · have : (k == k') = false := by simpa using hk
      rw [get?, List.lookup_cons, this] at h
      have := ih h
      simp only [keys, List.map_cons, List.mem_cons] at this ⊢
      exact Or.inr this

theorem keys_put (key : Text) (value : α) :
    ∀ t : Table α, keys (put key value t) = if key ∈ keys t then keys t else keys t ++ [key]
  | [] => by simp [put, keys]
  | (k, v) :: rest => by
    have ih := keys_put key value rest
    by_cases h : k = key
    · simp [put, keys, h]
    · simp only [put, h, if_false, keys, List.map_cons, List.mem_cons] at ih ⊢
      rw [ih]
      have : ¬ key = k := fun e => h e.symm
      by_cases hm : key ∈ rest.map Prod.fst <;> simp [this, hm]

end Table

end ZigNif
