import Mathlib.Data.List.Forall2
import ZigNif.Proofs.Glue.Term
import ZigNif.Proofs.Json.Strings

/-!
# Proofs/Glue/Strings — the string literals of a term

Outside of strings a term holds no quote, so its literals are the strings and keys of the value in
order, each written as a JSON string.  What they denote is up to the language that reads them: where
its reader takes one such literal for what `g` says, it takes the literals of a term for what `g`
says of the value's strings (`literals_term_iff`).
-/

namespace ZigNif

namespace Json

mutual

/-- The strings and keys of a value, in order. -/
def strings : Json → List Text
  | .str t => [t]
  | .arr items => (itemStrings items).flatten
  | .obj fields => (fieldStrings fields).flatten
  | _ => []

/-- The strings and keys of each item of an array. -/
def itemStrings : List Json → List (List Text)
  | [] => []
  | v :: vs => strings v :: itemStrings vs

/-- The key and the strings of each field of an object. -/
def fieldStrings : List (Text × Json) → List (List Text)
  | [] => []
  | (k, v) :: rest => (k :: strings v) :: fieldStrings rest

end

end Json

theorem Text.quote_notMem_ofInt (n : Int) : '"' ∉ Text.ofInt n := by
  have hnat : ∀ n, '"' ∉ Text.ofNat n := fun n h =>
    absurd (Text.charIsDigit_of_mem_ofNat h) (by decide)
  cases n with
  | ofNat n => exact hnat n
  | negSucc n => exact List.not_mem_cons_of_ne_of_not_mem (by decide) (hnat (n + 1))

theorem Binary64.quote_notMem_text (x : Binary64) : '"' ∉ x.text "inf" "nan" := by
  have hsign : ∀ negative, '"' ∉ signText negative := by decide
  cases x with
  | nan => decide
  | infinity negative => exact List.not_mem_append (hsign negative) (by decide)
  | finite negative mantissa exponent =>
    refine List.not_mem_append (hsign negative) fun h => ?_
    exact absurd (isNumberChar_of_mem_magnitudeText _ _ _ h) (by decide)

namespace Glue

variable {read : Text → Option (Text × Text)} {g : Text → Option Text} {s : TermStyle}
  {t u : Text} {xs ys ss : List Text} {c : Char}

/-- What the string literals of a code denote, in order.  A reader gives what the literal denotes
and what follows it, from behind its opening quote on. -/
inductive Literals (read : Text → Option (Text × Text)) : Text → List Text → Prop
  | nil : Literals read [] []
  | code {c : Char} {t : Text} {ss : List Text} (ne : c ≠ '"') (rest : Literals read t ss) :
      Literals read (c :: t) ss
  | literal {t x r : Text} {ss : List Text} (eq : read t = some (x, r))
      (rest : Literals read r ss) : Literals read ('"' :: t) (x :: ss)

theorem literals_nil_iff : Literals read [] ss ↔ ss = [] := by
  constructor
  · rintro ⟨⟩
    rfl
  · rintro rfl
    exact .nil

theorem literals_code_iff (hc : c ≠ '"') : Literals read (c :: t) ss ↔ Literals read t ss := by
  constructor
  · intro h
    cases h with
    | code _ rest => exact rest
    | literal => exact absurd rfl hc
  · exact .code hc

theorem literals_literal_iff : Literals read ('"' :: t) ss ↔
    ∃ x r xs, read t = some (x, r) ∧ Literals read r xs ∧ ss = x :: xs := by
  constructor
  · intro h
    cases h with
    | code ne => exact absurd rfl ne
    | literal eq rest => exact ⟨_, _, _, eq, rest, rfl⟩
  · rintro ⟨x, r, xs, eq, rest, rfl⟩
    exact .literal eq rest

/-! ## Code that writes strings -/

/-- Wherever the code stands, its literals denote what `g` says of these strings. -/
def Writes (read : Text → Option (Text × Text)) (g : Text → Option Text) (t : Text)
    (xs : List Text) : Prop :=
  ∀ rest ss, Literals read (t ++ rest) ss ↔
    ∃ as bs, ss = as ++ bs ∧ xs.map g = as.map some ∧ Literals read rest bs

theorem writes_of_notMem (h : '"' ∉ t) : Writes read g t [] := by
  intro rest ss
  have hskip : Literals read (t ++ rest) ss ↔ Literals read rest ss := by
    induction t with
    | nil => rfl
    | cons c t ih =>
      obtain ⟨hc, ht⟩ := not_or.mp (mt List.mem_cons.mpr h)
      exact (literals_code_iff (Ne.symm hc)).trans (ih ht)
  rw [hskip]
  constructor
  · exact fun h => ⟨[], ss, rfl, rfl, h⟩
  · rintro ⟨as, bs, rfl, has, h⟩
    rw [List.map_eq_nil_iff.mp has.symm]
    exact h

theorem Writes.append (ht : Writes read g t xs) (hu : Writes read g u ys) :
    Writes read g (t ++ u) (xs ++ ys) := by
  intro rest ss
  rw [List.append_assoc, ht]
  constructor
  · rintro ⟨as, bs, rfl, has, h⟩
    obtain ⟨cs, ds, rfl, hcs, h⟩ := (hu rest bs).mp h
    refine ⟨as ++ cs, ds, (List.append_assoc as cs ds).symm, ?_, h⟩
    rw [List.map_append, List.map_append, has, hcs]
  · rintro ⟨as, bs, rfl, has, h⟩
    rw [List.map_append, eq_comm, List.map_eq_append_iff] at has
    obtain ⟨cs, ds, rfl, hcs, hds⟩ := has
    exact ⟨cs, ds ++ bs, List.append_assoc cs ds bs, hcs.symm,
      (hu rest _).mpr ⟨ds, bs, rfl, hds.symm, h⟩⟩

/-- Code in front of strings, and code behind. -/
theorem Writes.enclosed {o e : Text} (ho : '"' ∉ o) (h : Writes read g t xs) (he : '"' ∉ e) :
    Writes read g (o ++ t ++ e) xs := by
  have hall := ((writes_of_notMem ho).append h).append (writes_of_notMem he)
  rwa [List.nil_append, List.append_nil] at hall

theorem writes_joined {sep : Text} {ts : List Text} {xss : List (List Text)} (hsep : '"' ∉ sep)
    (h : List.Forall₂ (Writes read g) ts xss) : Writes read g (Text.joined sep ts) xss.flatten := by
  induction h with
  | nil => exact writes_of_notMem List.not_mem_nil
  | @cons t xs ts xss ht hts ih =>
    cases hts with
    | nil =>
      rw [List.flatten_singleton]
      exact ht
    | cons =>
      have hfront := ht.append (writes_of_notMem hsep)
      rw [List.append_nil] at hfront
      exact hfront.append ih

/-! ## Terms -/

/-- The reader takes every JSON string for what `g` says of its text. -/
def ReadsStrings (read : Text → Option (Text × Text)) (g : Text → Option Text) : Prop :=
  ∀ t rest, read (t.flatMap Json.escapedChar ++ '"' :: rest) = (g t).map fun x => (x, rest)

theorem writes_writeString (hread : ReadsStrings read g) (t : Text) :
    Writes read g (Json.writeString t) [t] := by
  intro rest ss
  rw [Json.writeString_append, literals_literal_iff, hread t rest]
  constructor
  · rintro ⟨x, r, bs, hx, h, rfl⟩
    obtain ⟨y, hy, hpair⟩ := Option.map_eq_some_iff.mp hx
    obtain ⟨rfl, rfl⟩ := Prod.mk.inj hpair
    exact ⟨[y], bs, rfl, congrArg (fun o => [o]) hy, h⟩
  · rintro ⟨as, bs, rfl, has, h⟩
    obtain ⟨x, rfl, hx⟩ := List.map_eq_singleton_iff.mp has.symm
    exact ⟨x, rest, bs, Option.map_eq_some_iff.mpr ⟨x, hx.symm, rfl⟩, h, rfl⟩

mutual

/-- **A term writes the strings of its value.** -/
theorem writes_term (hread : ReadsStrings read g) (hnull : '"' ∉ s.null)
    (hopen : '"' ∉ s.openMap) : ∀ v, Writes read g (term s v) v.strings
  | .null => writes_of_notMem hnull
  | .bool true => writes_of_notMem (by rw [term]; decide)
  | .bool false => writes_of_notMem (by rw [term]; decide)
  | .int n => writes_of_notMem (Text.quote_notMem_ofInt n)
  | .float x => writes_of_notMem (Binary64.quote_notMem_text x)
  | .str t => writes_writeString hread t
  | .arr items => by
    rw [term]
    exact (writes_joined (by decide) (writes_terms hread hnull hopen items)).enclosed (by decide)
      (by decide)
  | .obj fields => by
    rw [term]
    exact (writes_joined (by decide) (writes_fieldTerms hread hnull hopen fields)).enclosed hopen
      (by decide)

theorem writes_terms (hread : ReadsStrings read g) (hnull : '"' ∉ s.null)
    (hopen : '"' ∉ s.openMap) :
    ∀ vs, List.Forall₂ (Writes read g) (terms s vs) (Json.itemStrings vs)
  | [] => .nil
  | v :: vs => .cons (writes_term hread hnull hopen v) (writes_terms hread hnull hopen vs)

theorem writes_fieldTerms (hread : ReadsStrings read g) (hnull : '"' ∉ s.null)
    (hopen : '"' ∉ s.openMap) :
    ∀ fields, List.Forall₂ (Writes read g) (fieldTerms s fields) (Json.fieldStrings fields)
  | [] => .nil
  | (k, v) :: rest => by
    have harrow : Writes read g " => " [] := writes_of_notMem (by decide)
    have hkey := (writes_writeString hread k).append harrow
    exact .cons (hkey.append (writes_term hread hnull hopen v))
      (writes_fieldTerms hread hnull hopen rest)

end

/-- **The literals of a term denote what `g` says of the strings of its value**, and nothing if `g`
says nothing of one of them. -/
theorem literals_term_iff (hread : ReadsStrings read g) (hnull : '"' ∉ s.null)
    (hopen : '"' ∉ s.openMap) (v : Json) :
    Literals read (term s v) ss ↔ v.strings.map g = ss.map some := by
  have h := writes_term hread hnull hopen v [] ss
  rw [List.append_nil] at h
  rw [h]
  constructor
  · rintro ⟨as, bs, rfl, has, hbs⟩
    rw [literals_nil_iff.mp hbs, List.append_nil, has]
  · exact fun h => ⟨ss, [], (List.append_nil ss).symm, h, .nil⟩

end Glue

end ZigNif
