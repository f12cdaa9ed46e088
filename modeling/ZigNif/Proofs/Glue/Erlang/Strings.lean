import ZigNif.Glue.Erlang
import ZigNif.Proofs.Glue.Strings
import ZigNif.Proofs.Text.Hex

/-!
# Proofs/Glue/Erlang/Strings — what the strings of a module denote in Erlang

Strings are written as in JSON.  Erlang knows no escape of four digits: a backslash in front of the
letter `u` is taken for the letter, and the digits stand for themselves.  So a string denotes itself
in Erlang exactly if its characters are plain, that is printable ASCII or characters with an escape
of one letter; any other character turns into five or ten (`denoted_eq_self_iff`).
-/

namespace ZigNif.Glue.Erlang

variable {c : Char} {s t u x r : Text} {f : Finished}

/-! ## Literals -/

/-- The character for one escape letter; a letter without a meaning of its own stands for itself. -/
def escape (c : Char) : Char :=
  match c with
  | 'n' => '\n'
  | 'r' => '\r'
  | 't' => '\t'
  | 'b' => '\x08'
  | 'f' => '\x0c'
  | _ => c

/-- Text in front of a literal. -/
def prepend (s : Text) (literal : Text × Text) : Text × Text := (s ++ literal.1, literal.2)

/-- What a string literal denotes and what follows it, from behind its opening quote on, or from
inside the braces of a code point of which some digits are read. -/
def readFrom : Option Nat → Text → Option (Text × Text)
  | _, [] => none
  | none, '"' :: r => some ([], r)
  | none, '\\' :: 'x' :: '\x7b' :: d :: r => (Text.hexValue? d).bind fun n => readFrom (some n) r
  | none, '\\' :: c :: r => (readFrom none r).map (prepend [escape c])
  | none, c :: r => (readFrom none r).map (prepend [c])
  | some n, '\x7d' :: r =>
    if n.isValidChar then (readFrom none r).map (prepend [Char.ofNat n]) else none
  | some n, c :: r => (Text.hexValue? c).bind fun d => readFrom (some (16 * n + d)) r

/-- What a string literal denotes and what follows it, from behind its opening quote on. -/
def readString (t : Text) : Option (Text × Text) := readFrom none t

example : readString "a\\x\x7be9\x7d\\u00e9\\n\" b" = some ("aéu00e9\n".toList, " b".toList) := by
  decide

/-! ## What is denoted -/

/-- The character is printable ASCII, or has an escape of one letter. -/
def IsPlain (c : Char) : Prop :=
  0x20 ≤ c.toNat ∧ c.toNat < 0x7f ∨ c ∈ ['\n', '\r', '\t', '\x08', '\x0c']

instance : DecidablePred IsPlain := fun _ => inferInstanceAs (Decidable (_ ∨ _))

/-- The escape of a code unit without its backslash. -/
def unitLetters (n : Nat) : Text := 'u' :: Text.hex 4 n

/-- What a character denotes that is written as in JSON. -/
def denotedChar (c : Char) : Text :=
  if IsPlain c then [c]
  else if c.toNat < 0x10000 then unitLetters c.toNat
  else unitLetters (0xd800 + (c.toNat - 0x10000) / 0x400) ++
    unitLetters (0xdc00 + (c.toNat - 0x10000) % 0x400)

/-- What a text denotes that is written as a JSON string. -/
def denoted (s : Text) : Text := s.flatMap denotedChar

theorem prepend_prepend (s t : Text) (literal : Text × Text) :
    prepend s (prepend t literal) = prepend (s ++ t) literal := by
  rw [prepend, prepend, prepend, List.append_assoc]

theorem readString_cons (hquote : c ≠ '"') (hescape : c ≠ '\\') (u : Text) :
    readString (c :: u) = (readString u).map (prepend [c]) :=
  readFrom.eq_5 c u hquote (fun _ _ h => absurd h hescape) (fun _ _ h => absurd h hescape)

/-- Text without quotes and backslashes stands for itself. -/
theorem readString_append (h : ∀ c ∈ t, c ≠ '"' ∧ c ≠ '\\') (u : Text) :
    readString (t ++ u) = (readString u).map (prepend t) := by
  induction t with
  | nil => exact Option.map_id'.symm
  | cons c t ih =>
    obtain ⟨⟨hquote, hescape⟩, ht⟩ := List.forall_mem_cons.mp h
    rw [List.cons_append, readString_cons hquote hescape, ih ht, Option.map_map]
    refine Option.map_congr fun literal _ => ?_
    exact prepend_prepend [c] t literal

theorem readString_unitEscape (n : Nat) (u : Text) :
    readString (Json.unitEscape n ++ u) = (readString u).map (prepend (unitLetters n)) := by
  have hdigit : ∀ d < 16, d.digitChar ≠ '"' ∧ d.digitChar ≠ '\\' := by decide
  have hhex : ∀ c ∈ Text.hex 4 n, c ≠ '"' ∧ c ≠ '\\' := by
    intro c hc
    obtain ⟨d, hd, rfl⟩ := Text.exists_of_mem_hex hc
    exact hdigit d hd
  have hletter : readString (Json.unitEscape n ++ u) =
      (readString (Text.hex 4 n ++ u)).map (prepend ['u']) := rfl
  rw [hletter, readString_append hhex, Option.map_map]
  exact Option.map_congr fun literal _ => prepend_prepend ['u'] (Text.hex 4 n) literal

/-- **What a written character denotes**: itself if it is plain or has an escape of one letter, else
the letters of its escapes. -/
theorem readString_escapedChar (c : Char) (u : Text) :
    readString (Json.escapedChar c ++ u) = (readString u).map (prepend (denotedChar c)) := by
  unfold Json.escapedChar
  split
  case h_8 hquote hescape hnewline hreturn htab hback hfeed =>
    have hplain : IsPlain c ↔ 0x20 ≤ c.toNat ∧ c.toNat < 0x7f := by
      refine or_iff_left ?_
      simp only [List.mem_cons, List.not_mem_nil, or_false, not_or]
      exact ⟨hnewline, hreturn, htab, hback, hfeed⟩
    dsimp only
    split
    case isTrue h =>
      rw [denotedChar, if_pos (hplain.mpr h), List.singleton_append,
        readString_cons hquote hescape]
    case isFalse h =>
      rw [denotedChar, if_neg (mt hplain.mp h)]
      split
      case isTrue => exact readString_unitEscape c.toNat u
      case isFalse =>
        rw [List.append_assoc, readString_unitEscape, readString_unitEscape, Option.map_map]
        exact Option.map_congr fun literal _ => prepend_prepend _ _ literal
  all_goals rfl

/-- **A text that is written as a JSON string is read as what it denotes.** -/
theorem readString_flatMap_escapedChar (s rest : Text) :
    readString (s.flatMap Json.escapedChar ++ '"' :: rest) = some (denoted s, rest) := by
  induction s with
  | nil => rfl
  | cons c s ih =>
    rw [List.flatMap_cons, List.append_assoc, readString_escapedChar, ih]
    rfl

theorem readsStrings_readString : ReadsStrings readString fun s => some (denoted s) :=
  readString_flatMap_escapedChar

/-! ## Strings that survive -/

theorem length_unitLetters (n : Nat) : 5 ≤ (unitLetters n).length := by
  rw [unitLetters, Text.hex, List.length_cons, List.length_append, List.length_replicate]
  omega

theorem denotedChar_of_isPlain (h : IsPlain c) : denotedChar c = [c] := if_pos h

theorem length_denotedChar (h : ¬ IsPlain c) : 5 ≤ (denotedChar c).length := by
  rw [denotedChar, if_neg h]
  split
  case isTrue => exact length_unitLetters _
  case isFalse =>
    rw [List.length_append]
    exact Nat.le_add_right_of_le (length_unitLetters _)

theorem length_le_denoted (s : Text) : s.length ≤ (denoted s).length := by
  induction s with
  | nil => exact Nat.zero_le _
  | cons c s ih =>
    have hchar : 1 ≤ (denotedChar c).length := by
      by_cases h : IsPlain c
      · rw [denotedChar_of_isPlain h]
        exact Nat.le_refl 1
      · exact Nat.le_trans (by decide) (length_denotedChar h)
    rw [denoted, List.flatMap_cons, List.length_append, List.length_cons, Nat.add_comm]
    exact Nat.add_le_add hchar ih

/-- **A string denotes itself if and only if it is plain**: every other character makes it longer. -/
theorem denoted_eq_self_iff : denoted s = s ↔ ∀ c ∈ s, IsPlain c := by
  induction s with
  | nil => exact iff_of_true rfl (List.forall_mem_nil _)
  | cons c s ih =>
    rw [List.forall_mem_cons, ← ih, denoted, List.flatMap_cons, ← denoted]
    constructor
    · intro h
      have hlength : (denotedChar c).length + (denoted s).length = s.length + 1 := by
        rw [← List.length_append, h, List.length_cons]
      have hplain : IsPlain c := by
        by_contra hc
        have hlong := length_denotedChar hc
        have hrest := length_le_denoted s
        omega
      rw [denotedChar_of_isPlain hplain] at h
      exact ⟨hplain, (List.cons.inj h).2⟩
    · rintro ⟨hplain, hs⟩
      rw [denotedChar_of_isPlain hplain, hs]
      rfl

/-! ## Modules -/

/-- The row that loads the library. -/
def loadRow (f : Finished) : Text :=
  "    erlang:load_nif(" ++ Json.writeString (loadPath f) ++ ", 0)."

/-- The row of an attribute. -/
def attributeRow (a : Text × Json) : Text := "-" ++ a.1 ++ "(" ++ term style a.2 ++ ")."

theorem attributeRow_mem_lines {a : Text × Json} (h : a ∈ f.attributes) :
    attributeRow a ∈ lines f := by
  have hrow : attributeRow a ∈ f.attributes.map attributeRow := List.mem_map_of_mem h
  exact List.mem_append_left _ (List.mem_append_left _ (List.mem_append_right _ hrow))

theorem loadRow_mem_lines (f : Finished) : loadRow f ∈ lines f := by
  refine List.mem_append_left _ (List.mem_append_right _ ?_)
  exact List.mem_cons_of_mem _ (List.mem_cons_of_mem _ List.mem_cons_self)

theorem writes_term_style (v : Json) :
    Writes readString (fun s => some (denoted s)) (term style v) v.strings :=
  writes_term readsStrings_readString (by decide) (by decide) v

theorem writes_loadRow (f : Finished) :
    Writes readString (fun s => some (denoted s)) (loadRow f) [loadPath f] :=
  (writes_writeString readsStrings_readString (loadPath f)).enclosed (by decide) (by decide)

/-- What is read from code that writes strings, and when it is these strings. -/
theorem literals_of_writes {xs : List Text}
    (h : Writes readString (fun s => some (denoted s)) t xs) :
    (∀ ss, Literals readString t ss ↔ ss = xs.map denoted) ∧
      (Literals readString t xs ↔ ∀ s ∈ xs, ∀ c ∈ s, IsPlain c) := by
  have hall : ∀ ss, Literals readString t ss ↔ ss = xs.map denoted := by
    intro ss
    have hrest := h [] ss
    rw [List.append_nil] at hrest
    rw [hrest]
    constructor
    · rintro ⟨as, bs, rfl, has, hbs⟩
      rw [literals_nil_iff.mp hbs, List.append_nil]
      refine List.map_injective_iff.mpr (fun _ _ => Option.some.inj) ?_
      rw [← has, List.map_map]
      rfl
    · rintro rfl
      exact ⟨_, [], (List.append_nil _).symm, by rw [List.map_map]; rfl, .nil⟩
  refine ⟨hall, ?_⟩
  rw [hall, eq_comm]
  simp only [← denoted_eq_self_iff]
  exact (congrArg (xs.map denoted = ·) (List.map_id xs).symm).to_iff.trans List.map_inj_left

/-- **The strings of a module survive exactly if they are plain.**  The literals of an attribute
and of the load path denote what `denoted` says of the strings and keys of the value and of the
path, in order, and these are the strings themselves if and only if all characters are plain. -/
theorem literals_lines (f : Finished) :
    (∀ a ∈ f.attributes, attributeRow a ∈ lines f ∧
      (∀ ss, Literals readString (term style a.2) ss ↔ ss = a.2.strings.map denoted) ∧
      (Literals readString (term style a.2) a.2.strings ↔
        ∀ s ∈ a.2.strings, ∀ c ∈ s, IsPlain c)) ∧
    loadRow f ∈ lines f ∧
      (∀ ss, Literals readString (loadRow f) ss ↔ ss = [denoted (loadPath f)]) ∧
      (Literals readString (loadRow f) [loadPath f] ↔ ∀ c ∈ loadPath f, IsPlain c) := by
  obtain ⟨hdenoted, hplain⟩ := literals_of_writes (writes_loadRow f)
  refine ⟨fun a ha => ?_, loadRow_mem_lines f, hdenoted, hplain.trans List.forall_mem_singleton⟩
  exact ⟨attributeRow_mem_lines ha, literals_of_writes (writes_term_style a.2)⟩

/-- A module with a plain attribute and a load path that is not plain. -/
def accented : Finished where
  name := "M"
  flavor := .erlang
  nifs := []
  resources := []
  attributes := [("vsn", .arr [.str "1\n", .obj [("a\\b", .str "\"")]])]
  libraryPath := some "é/libM.so"
  dependencies := []

/-- The attribute survives, and the accent of the load path does not. -/
theorem literals_lines_accented :
    (∀ a ∈ accented.attributes, Literals readString (term style a.2) a.2.strings) ∧
    Literals readString (loadRow accented) ["u00e9/libM"] ∧
    ¬Literals readString (loadRow accented) [loadPath accented] := by
  obtain ⟨hattributes, -, hdenoted, hplain⟩ := literals_lines accented
  refine ⟨fun a ha => ?_, (hdenoted _).mpr (by decide +kernel), ?_⟩
  · obtain rfl := List.mem_singleton.mp ha
    exact ((hattributes _ ha).2.2).mpr (by decide +kernel)
  · exact mt hplain.mp (by decide +kernel)

/-- A string that is not plain has another meaning. -/
theorem not_literals_term_of_accent : term style (.str "é") = "\"\\u00e9\"" ∧
    Literals readString (term style (.str "é")) ["u00e9"] ∧
    ¬Literals readString (term style (.str "é")) ["é"] := by
  obtain ⟨hdenoted, hplain⟩ := literals_of_writes (writes_term_style (.str "é"))
  exact ⟨by decide, (hdenoted _).mpr (by decide), mt hplain.mp (by decide)⟩

end ZigNif.Glue.Erlang
