import ZigNif.Proofs.Text.Hex

/-!
# Proofs/Json/Strings — JSON strings that are written and read

A character is written as one code unit, or as the two halves of a pair.  Reading a written string
gives its code units, and these are the units of one text only: the text that was written.
-/

namespace ZigNif.Json

variable {c : Char} {n : Nat} {us : List Nat} {s t u r : Text}

/-! ## Code units -/

/-- The code units of a character. -/
def units (c : Char) : List Nat :=
  if c.toNat < 0x10000 then [c.toNat]
  else [0xd800 + (c.toNat - 0x10000) / 0x400, 0xdc00 + (c.toNat - 0x10000) % 0x400]

/-- A character below the surrogates or above them is no half of a pair. -/
theorem isHalf_toNat (c : Char) : (isHighHalf c.toNat || isLowHalf c.toNat) = false := by
  have hvalid : c.toNat.isValidChar := c.valid
  rw [Nat.isValidChar] at hvalid
  simp only [isHighHalf, isLowHalf, Bool.or_eq_false_iff, Bool.and_eq_false_iff,
    decide_eq_false_iff_not]
  omega

theorem ofUnits_cons (h : isHighHalf n = false) (us : List Nat) :
    ofUnits (n :: us) = unitChar n :: ofUnits us := by
  cases us with
  | nil => rfl
  | cons m us => rw [ofUnits, h, Bool.false_and, if_neg Bool.false_ne_true]

/-- **The units of a character are put together to the character.** -/
theorem ofUnits_units_append (c : Char) (us : List Nat) :
    ofUnits (units c ++ us) = c :: ofUnits us := by
  have hvalid : c.toNat.isValidChar := c.valid
  rw [Nat.isValidChar] at hvalid
  rw [units]
  split
  case isTrue =>
    have hhalf := isHalf_toNat c
    rw [List.singleton_append, ofUnits_cons (Bool.or_eq_false_iff.mp hhalf).1, unitChar, hhalf,
      if_neg Bool.false_ne_true, Char.ofNat_toNat]
  case isFalse =>
    have hhigh : isHighHalf (0xd800 + (c.toNat - 0x10000) / 0x400) = true := by
      simp only [isHighHalf, Bool.and_eq_true, decide_eq_true_eq]
      omega
    have hlow : isLowHalf (0xdc00 + (c.toNat - 0x10000) % 0x400) = true := by
      simp only [isLowHalf, Bool.and_eq_true, decide_eq_true_eq]
      omega
    have hcode : 0x10000 + (0xd800 + (c.toNat - 0x10000) / 0x400 - 0xd800) * 0x400 +
        (0xdc00 + (c.toNat - 0x10000) % 0x400 - 0xdc00) = c.toNat := by omega
    rw [List.cons_append, List.singleton_append, ofUnits, hhigh, hlow, Bool.and_self, if_pos rfl,
      pairChar, hcode, Char.ofNat_toNat]

/-- **Units are those of one text only.** -/
theorem ofUnits_flatMap_units (t : Text) : ofUnits (t.flatMap units) = t := by
  induction t with
  | nil => rfl
  | cons c t ih => rw [List.flatMap_cons, ofUnits_units_append, ih]

/-! ## Literals -/

/-- The text, from behind an opening quote on, is read as these units and what follows them. -/
def ReadsAs (t : Text) (us : List Nat) (r : Text) : Prop := ∀ k, readString k t = .done us r

theorem readString_cons (hquote : c ≠ '"') (hescape : c ≠ '\\') (k : Nat) (r : Text) :
    readString k (c :: r) = if c.toNat < 0x20 then .broken .controlCharacter k
      else (readString (k + 1) r).push c.toNat :=
  readString.eq_8 k c r hquote (fun h => absurd h hescape) (fun _ _ _ _ _ h => absurd h hescape)
    (fun _ h => absurd h hescape) (fun _ _ h => absurd h hescape)

theorem ReadsAs.exists_cons (h : ReadsAs t us r) : ∃ c u, t = c :: u := by
  cases t with
  | nil => cases h 0
  | cons c u => exact ⟨c, u, rfl⟩

theorem ReadsAs.unitEscape (h : ReadsAs u us r) (hn : n < 0x10000) :
    ReadsAs (unitEscape n ++ u) (n :: us) r := by
  obtain ⟨a, b, c, d, hescape, hdigits⟩ := exists_unitEscape_eq hn
  obtain ⟨e, v, rfl⟩ := h.exists_cons
  intro k
  rw [hescape]
  exact (readString.eq_4 k a b c d e v n hdigits).trans (congrArg (StringRead.push n) (h (k + 6)))

/-- A written character is read as its units. -/
theorem ReadsAs.escapedChar (h : ReadsAs u us r) (c : Char) :
    ReadsAs (escapedChar c ++ u) (units c ++ us) r := by
  have hsimple : ∀ {e d : Char}, simpleEscape? e = some d → e ≠ 'u' → d.toNat < 0x10000 →
      ReadsAs ('\\' :: e :: u) (units d ++ us) r := by
    intro e d he hne hd k
    rw [readString.eq_7 k e u (fun _ _ _ _ _ h => absurd h hne) hne, he, units, if_pos hd]
    exact congrArg (StringRead.push d.toNat) (h (k + 2))
  unfold Json.escapedChar
  split
  case h_8 hquote hescape _ _ _ _ _ =>
    dsimp only
    split
    case isTrue hrange =>
      intro k
      rw [units, if_pos (by omega), List.singleton_append, readString_cons hquote hescape,
        if_neg (by omega)]
      exact congrArg (StringRead.push c.toNat) (h (k + 1))
    case isFalse hrange =>
      split
      case isTrue hlow =>
        rw [units, if_pos hlow]
        exact h.unitEscape hlow
      case isFalse hhigh =>
        have hvalid : c.toNat.isValidChar := c.valid
        rw [Nat.isValidChar] at hvalid
        rw [units, if_neg hhigh, List.append_assoc]
        exact (h.unitEscape (by omega)).unitEscape (by omega)
  all_goals exact hsimple rfl (by decide) (by decide)

/-- **A written string is read as its units**, whatever follows it. -/
theorem readsAs_flatMap_escapedChar (t r : Text) :
    ReadsAs (t.flatMap escapedChar ++ '"' :: r) (t.flatMap units) r := by
  induction t with
  | nil => exact fun k => rfl
  | cons c t ih =>
    rw [List.flatMap_cons, List.flatMap_cons, List.append_assoc]
    exact ih.escapedChar c

theorem writeString_append (t r : Text) :
    writeString t ++ r = '"' :: (t.flatMap escapedChar ++ '"' :: r) := by
  simp [writeString]

/-- **A written string ends where it ends**: what follows it does not change what it says. -/
theorem writeString_append_inj (h : writeString t ++ r = writeString u ++ s) : t = u ∧ r = s := by
  rw [writeString_append, writeString_append] at h
  have ht := readsAs_flatMap_escapedChar t r 0
  rw [(List.cons.inj h).2, readsAs_flatMap_escapedChar u s 0] at ht
  obtain ⟨hunits, hrest⟩ := StringRead.done.inj ht
  refine ⟨?_, hrest.symm⟩
  rw [← ofUnits_flatMap_units t, ← hunits, ofUnits_flatMap_units]

end ZigNif.Json
