import Mathlib.Data.List.Infix
import Mathlib.Data.List.TakeWhile
import Mathlib.Data.Set.List
import ZigNif.Proofs.Text.Utf8
import ZigNif.Source.Literal

/-!
# Proofs/Source/Literal — what escapes denote

The inside of a literal is a sequence of pieces: characters, simple escapes, bytes, and code points.
Each piece has bytes of its own, wherever it stands (`bytesFrom_append`), and whatever the decoder
accepts is such a sequence (`exists_pieces_of_bytesFrom`).  So the literal denotes the text whose
UTF-8 bytes are those of its pieces, and one character may be split over several of them.
-/

namespace ZigNif.Source.Literal

variable {k n v : Nat} {c letter : Char} {raw r digits : Text} {bs : List UInt8}

/-! ## Pieces -/

/-- A hexadecimal digit of either case, and its value. -/
structure HexDigit where
  char : Char
  value : Nat
  lt : value < 16
  eq_or : char = value.digitChar ∨ char = value.digitChar.toUpper

/-- The number that hexadecimal digits denote, most significant first. -/
def number (ds : List HexDigit) : Nat := ds.foldl (fun n d => 16 * n + d.value) 0

/-- The simple escapes: the letter behind the backslash, and the character that is meant. -/
def simpleEscapes : List (Char × Char) :=
  [('n', '\n'), ('r', '\r'), ('t', '\t'), ('\\', '\\'), ('\'', '\''), ('"', '"')]

/-- A piece of the inside of a literal. -/
inductive Piece
  | plain (c : Char) (ne : c ≠ '\\')
  | simple (letter c : Char) (mem : (letter, c) ∈ simpleEscapes)
  | byte (high low : HexDigit)
  | codePoint (ds : List HexDigit) (pos : 1 ≤ ds.length) (le : ds.length ≤ 6)

namespace Piece

/-- How the piece is written. -/
def text : Piece → Text
  | plain c _ => [c]
  | simple letter _ _ => ['\\', letter]
  | byte high low => ['\\', 'x', high.char, low.char]
  | codePoint ds _ _ => '\\' :: 'u' :: '\x7b' :: (ds.map HexDigit.char ++ ['\x7d'])

/-- The bytes that the piece stands for. -/
def bytes : Piece → List UInt8
  | plain c _ => String.utf8EncodeChar c
  | simple _ c _ => String.utf8EncodeChar c
  | byte high low => [UInt8.ofNat (16 * high.value + low.value)]
  | codePoint ds _ _ => String.utf8EncodeChar (Char.ofNat (number ds))

/-- Whether the piece, if it is a code point, is one of a character: a Unicode scalar value. -/
def IsScalar : Piece → Prop
  | codePoint ds _ _ => (number ds).isValidChar
  | _ => True

end Piece

/-- Pieces one after another. -/
def textOf (pieces : List Piece) : Text := pieces.flatMap Piece.text

/-- The bytes of pieces one after another. -/
def bytesOf (pieces : List Piece) : List UInt8 := pieces.flatMap Piece.bytes

/-- The spellings of a character: itself, a simple escape, each of its bytes as an escape, or its
code point with leading zeros as far as they fit. -/
inductive Spells (c : Char) : List Piece → Prop
  | plain (ne : c ≠ '\\') : Spells c [.plain c ne]
  | simple (letter : Char) (mem : (letter, c) ∈ simpleEscapes) : Spells c [.simple letter c mem]
  | bytes (ds : List (HexDigit × HexDigit))
      (eq : (ds.flatMap fun d => (Piece.byte d.1 d.2).bytes) = String.utf8EncodeChar c) :
      Spells c (ds.map fun d => .byte d.1 d.2)
  | codePoint (ds : List HexDigit) (pos : 1 ≤ ds.length) (le : ds.length ≤ 6)
      (eq : number ds = c.toNat) : Spells c [.codePoint ds pos le]

/-! ## Digits -/

theorem HexDigit.hexValue?_char (d : HexDigit) : Text.hexValue? d.char = some d.value := by
  obtain ⟨char, value, lt, eq⟩ := d
  have hvalue : ∀ v < 16, Text.hexValue? v.digitChar = some v ∧
      Text.hexValue? v.digitChar.toUpper = some v := by decide
  obtain rfl | rfl := eq
  · exact (hvalue value lt).1
  · exact (hvalue value lt).2

/-- What has a value is a digit, with that value. -/
theorem exists_hexDigit (h : Text.hexValue? c = some v) :
    ∃ d : HexDigit, d.char = c ∧ d.value = v := by
  have hdecimal : ∀ v < 10, Char.ofNat (v + 48) = v.digitChar := by decide
  have hlower : ∀ v < 6, Char.ofNat (v + 97) = (v + 10).digitChar := by decide
  have hupper : ∀ v < 6, Char.ofNat (v + 65) = (v + 10).digitChar.toUpper := by decide
  simp only [Text.hexValue?, Char.le_def, UInt32.le_iff_toNat_le, Char.toNat_val,
    Char.reduceToNat] at h
  split_ifs at h with hrange hrange hrange
  all_goals obtain rfl := Option.some.inj h
  · refine ⟨⟨c, c.toNat - 48, by omega, .inl ?_⟩, rfl, rfl⟩
    rw [← hdecimal _ (by omega), Nat.sub_add_cancel hrange.1, Char.ofNat_toNat]
  · refine ⟨⟨c, c.toNat - 97 + 10, by omega, .inl ?_⟩, rfl, rfl⟩
    rw [← hlower _ (by omega), Nat.sub_add_cancel hrange.1, Char.ofNat_toNat]
  · refine ⟨⟨c, c.toNat - 65 + 10, by omega, .inr ?_⟩, rfl, rfl⟩
    rw [← hupper _ (by omega), Nat.sub_add_cancel hrange.1, Char.ofNat_toNat]

theorem isHexDigit_iff : isHexDigit c ↔ ∃ d : HexDigit, d.char = c := by
  rw [isHexDigit, Option.isSome_iff_exists]
  constructor
  · rintro ⟨v, hv⟩
    obtain ⟨d, hd, -⟩ := exists_hexDigit hv
    exact ⟨d, hd⟩
  · rintro ⟨d, rfl⟩
    exact ⟨d.value, d.hexValue?_char⟩

/-- Texts of hexadecimal digits. -/
theorem exists_map_char (h : ∀ c ∈ digits, isHexDigit c) :
    ∃ ds : List HexDigit, ds.map HexDigit.char = digits := by
  have hrange : digits ∈ Set.range (List.map HexDigit.char) := by
    rw [Set.range_list_map]
    exact fun c hc => isHexDigit_iff.mp (h c hc)
  exact hrange

theorem hexNumber_map (ds : List HexDigit) : hexNumber (ds.map HexDigit.char) = number ds := by
  have hfold : ∀ n, (ds.map HexDigit.char).foldlM
      (fun n c => (Text.hexValue? c).map (16 * n + ·)) n =
      some (ds.foldl (fun n d => 16 * n + d.value) n) := by
    induction ds with
    | nil => exact fun n => rfl
    | cons d ds ih =>
      intro n
      rw [List.map_cons, List.foldlM_cons, d.hexValue?_char]
      exact ih _
  rw [hexNumber, Text.hexNumeral?, hfold, Option.getD_some, number]

/-- One to six digits stand between the braces of an escape. -/
theorem braced?_eq_some_iff : braced? raw = some digits ↔ ∃ (ds : List HexDigit) (rest : Text),
    raw = '\x7b' :: (ds.map HexDigit.char ++ '\x7d' :: rest) ∧ digits = ds.map HexDigit.char ∧
      1 ≤ ds.length ∧ ds.length ≤ 6 := by
  constructor
  · intro h
    simp only [braced?] at h
    split at h
    · next r =>
      obtain ⟨⟨hpos, hle, hclose⟩, hdigits⟩ := Option.ite_none_right_eq_some.mp h
      obtain rfl := Option.some.inj hdigits
      obtain ⟨ds, hds⟩ := exists_map_char fun c hc => List.mem_takeWhile_imp (l := r) hc
      obtain ⟨rest, hrest⟩ := List.head?_eq_some_iff.mp hclose
      have hlength : ds.length = (r.takeWhile isHexDigit).length := by rw [← hds, List.length_map]
      refine ⟨ds, rest, ?_, hds.symm, hlength ▸ hpos, hlength ▸ hle⟩
      rw [hds, ← hrest, ← List.prefix_append_drop (List.takeWhile_prefix isHexDigit)]
    · cases h
  · rintro ⟨ds, rest, rfl, rfl, hpos, hle⟩
    have hdigits : ∀ c ∈ ds.map HexDigit.char, isHexDigit c := by
      intro c hc
      obtain ⟨d, -, rfl⟩ := List.mem_map.mp hc
      exact isHexDigit_iff.mpr ⟨d, rfl⟩
    have hrun : (ds.map HexDigit.char ++ '\x7d' :: rest).takeWhile isHexDigit =
        ds.map HexDigit.char := by
      rw [List.takeWhile_append_of_pos hdigits, List.takeWhile_cons_of_neg (by decide),
        List.append_nil]
    rw [braced?, hrun]
    refine if_pos ⟨by simpa using hpos, by simpa using hle, ?_⟩
    rw [List.drop_left, List.head?_cons]

/-! ## The bytes of a piece -/

theorem mem_simpleEscapes_iff : (letter, c) ∈ simpleEscapes ↔ simpleEscape? letter = some c := by
  constructor
  · intro h
    simp only [simpleEscapes, List.mem_cons, List.not_mem_nil, or_false, Prod.mk.injEq] at h
    rcases h with ⟨rfl, rfl⟩ | ⟨rfl, rfl⟩ | ⟨rfl, rfl⟩ | ⟨rfl, rfl⟩ | ⟨rfl, rfl⟩ | ⟨rfl, rfl⟩
    all_goals rfl
  · intro h
    simp only [simpleEscape?] at h
    split at h
    all_goals cases h
    all_goals decide

/-- A scalar value stands for its bytes in UTF-8. -/
theorem codePointBytes_of_isValidChar (hn : n.isValidChar) :
    codePointBytes n = .ok (String.utf8EncodeChar (Char.ofNat n)) := by
  rw [Nat.isValidChar] at hn
  rw [codePointBytes, if_neg (by omega), if_neg (by omega)]

/-- A number that is no scalar value stands for nothing. -/
theorem exists_codePointBytes_eq_error (hn : ¬n.isValidChar) :
    ∃ fault, codePointBytes n = .error fault := by
  rw [Nat.isValidChar] at hn
  rw [codePointBytes]
  split_ifs
  · exact ⟨_, rfl⟩
  · exact ⟨_, rfl⟩
  · omega

theorem bytesFrom_plain (hc : c ≠ '\\') :
    bytesFrom k (c :: r) = (String.utf8EncodeChar c ++ ·) <$> bytesFrom (k + 1) r :=
  bytesFrom.eq_7 k c r (fun _ h => absurd h hc) (fun _ h => absurd h hc) (fun h => absurd h hc)
    fun _ _ h => absurd h hc

theorem bytesFrom_simple (mem : (letter, c) ∈ simpleEscapes) :
    bytesFrom k ('\\' :: letter :: r) = (String.utf8EncodeChar c ++ ·) <$> bytesFrom (k + 2) r := by
  have hletter := mem_simpleEscapes_iff.mp mem
  rw [bytesFrom.eq_6 k letter r (by rintro rfl; cases hletter) (by rintro rfl; cases hletter),
    hletter]

/-- A byte escape stands for one byte, whatever comes before or behind it. -/
theorem bytesFrom_byte (high low : HexDigit) :
    bytesFrom k ('\\' :: 'x' :: high.char :: low.char :: r) =
      (UInt8.ofNat (16 * high.value + low.value) :: ·) <$> bytesFrom (k + 4) r := by
  have hnumber : hexNumber [high.char, low.char] = 16 * high.value + low.value := by
    rw [← List.map_singleton, ← List.map_cons, hexNumber_map]
    simp [number]
  rw [bytesFrom.eq_2, isHexDigit_iff.mpr ⟨high, rfl⟩, isHexDigit_iff.mpr ⟨low, rfl⟩,
    hnumber, Bool.and_self, if_pos rfl]

theorem text_codePoint_append (ds : List HexDigit) (pos : 1 ≤ ds.length) (le : ds.length ≤ 6) :
    (Piece.codePoint ds pos le).text ++ r =
      '\\' :: 'u' :: '\x7b' :: (ds.map HexDigit.char ++ '\x7d' :: r) := by
  rw [Piece.text, List.cons_append, List.cons_append, List.cons_append, List.append_assoc,
    List.singleton_append]

theorem drop_digits (ds : List HexDigit) :
    ('\x7b' :: (ds.map HexDigit.char ++ '\x7d' :: r)).drop (ds.length + 2) = r := by
  rw [List.drop_succ_cons, List.append_cons]
  exact List.drop_left' (by simp)

theorem bytesFrom_codePoint (ds : List HexDigit) (pos : 1 ≤ ds.length) (le : ds.length ≤ 6) :
    bytesFrom k ((Piece.codePoint ds pos le).text ++ r) =
      codePointBytes (number ds) >>= fun here =>
        (here ++ ·) <$> bytesFrom (k + (Piece.codePoint ds pos le).text.length) r := by
  have hbraced : braced? ('\x7b' :: (ds.map HexDigit.char ++ '\x7d' :: r)) =
      some (ds.map HexDigit.char) := braced?_eq_some_iff.mpr ⟨ds, r, rfl, rfl, pos, le⟩
  have hlength : (Piece.codePoint ds pos le).text.length = ds.length + 4 := by simp [Piece.text]
  rw [text_codePoint_append, bytesFrom.eq_4, hbraced, hlength]
  simp only [hexNumber_map, List.length_map, drop_digits, bind_pure_comp]

/-- **A piece gives its bytes wherever it stands, if it is no code point beyond the characters.** -/
theorem bytesFrom_append {p : Piece} (hp : p.IsScalar) :
    bytesFrom k (p.text ++ r) = (p.bytes ++ ·) <$> bytesFrom (k + p.text.length) r := by
  cases p with
  | plain c ne => exact bytesFrom_plain ne
  | simple letter c mem => exact bytesFrom_simple mem
  | byte high low => exact bytesFrom_byte high low
  | codePoint ds pos le =>
    rw [bytesFrom_codePoint, codePointBytes_of_isValidChar hp]
    rfl

/-- What is no scalar value spoils the literal, whatever comes behind it. -/
theorem exists_bytesFrom_append_eq_error {p : Piece} (hp : ¬p.IsScalar) :
    ∃ fault, bytesFrom k (p.text ++ r) = .error fault := by
  cases p with
  | codePoint ds pos le =>
    obtain ⟨fault, hfault⟩ := exists_codePointBytes_eq_error hp
    rw [bytesFrom_codePoint, hfault]
    exact ⟨fault, rfl⟩
  | _ => exact absurd trivial hp

/-- **A literal stands for the bytes of its pieces, one after the other.** -/
theorem bytesFrom_textOf_eq_ok_iff {pieces : List Piece} :
    bytesFrom k (textOf pieces) = .ok bs ↔
      (∀ p ∈ pieces, p.IsScalar) ∧ bytesOf pieces = bs := by
  induction pieces generalizing k bs with
  | nil => simp [textOf, bytesOf, bytesFrom, eq_comm]
  | cons p pieces ih =>
    rw [textOf, List.flatMap_cons, ← textOf, bytesOf, List.flatMap_cons, ← bytesOf,
      List.forall_mem_cons]
    by_cases hp : p.IsScalar
    · rw [bytesFrom_append hp, map_eq_ok_iff]
      simp only [ih, hp, true_and, and_assoc, exists_and_left, exists_eq_left']
    · obtain ⟨fault, hfault⟩ := exists_bytesFrom_append_eq_error (k := k) (r := textOf pieces) hp
      simp [hfault, hp]

/-- **Only sequences of pieces are accepted.** -/
theorem exists_pieces_of_bytesFrom (h : bytesFrom k raw = .ok bs) :
    ∃ pieces, textOf pieces = raw := by
  fun_induction bytesFrom k raw generalizing bs with
  | case1 k => exact ⟨[], rfl⟩
  | case2 k a b r hdigits ih =>
    rw [Bool.and_eq_true, isHexDigit_iff, isHexDigit_iff] at hdigits
    obtain ⟨⟨high, rfl⟩, low, rfl⟩ := hdigits
    obtain ⟨rest, hrest, -⟩ := map_eq_ok_iff.mp h
    obtain ⟨pieces, rfl⟩ := ih hrest
    exact ⟨.byte high low :: pieces, rfl⟩
  | case6 k r digits hdigits ih =>
    obtain ⟨here, -, hafter⟩ := bind_eq_ok_iff.mp h
    obtain ⟨rest, hrest, -⟩ := bind_eq_ok_iff.mp hafter
    obtain ⟨ds, after, rfl, rfl, pos, le⟩ := braced?_eq_some_iff.mp hdigits
    obtain ⟨pieces, hpieces⟩ := ih hrest
    refine ⟨.codePoint ds pos le :: pieces, ?_⟩
    rw [List.length_map, drop_digits] at hpieces
    rw [textOf, List.flatMap_cons, ← textOf, hpieces, text_codePoint_append]
  | case8 k letter r _ _ c hletter ih =>
    obtain ⟨rest, hrest, -⟩ := map_eq_ok_iff.mp h
    obtain ⟨pieces, rfl⟩ := ih hrest
    exact ⟨.simple letter c (mem_simpleEscapes_iff.mpr hletter) :: pieces, rfl⟩
  | case10 k c r hbyte hcodePoint hend hsimple ih =>
    have hc : c ≠ '\\' := by
      rintro rfl
      cases r with
      | nil => exact hend rfl rfl
      | cons d r => exact hsimple d r rfl rfl
    obtain ⟨rest, hrest, -⟩ := map_eq_ok_iff.mp h
    obtain ⟨pieces, rfl⟩ := ih hrest
    exact ⟨.plain c hc :: pieces, rfl⟩
  | _ => cases h

/-! ## Texts -/

/-- Without a backslash, a literal stands for itself. -/
theorem bytesFrom_of_notMem (h : '\\' ∉ raw) : bytesFrom k raw = .ok (Utf8.encode raw) := by
  induction raw generalizing k with
  | nil => exact bytesFrom.eq_1 k
  | cons c r ih =>
    rw [List.mem_cons, not_or] at h
    rw [bytesFrom_plain (Ne.symm h.1), ih h.2]
    rfl

/-- Only bytes that are UTF-8 have a text. -/
theorem unescape_eq_ok_iff {t : Text} :
    unescape raw = .ok t ↔ ∃ bs, bytes raw = .ok bs ∧ Utf8.encode t = bs := by
  rw [unescape, bind_eq_ok_iff]
  refine exists_congr fun bs => and_congr_right fun _ => ?_
  rw [← Utf8.decode_eq_ok_iff]
  cases Utf8.decode bs with
  | error fault => simp
  | ok t' => simp

/-- **The short way for texts without a backslash gives what the loop gives.** -/
theorem decode_eq_unescape (raw : Text) : decode raw = unescape raw := by
  rw [decode]
  split_ifs with h
  · rfl
  · exact (unescape_eq_ok_iff.mpr ⟨_, bytesFrom_of_notMem h, rfl⟩).symm

/-- The bytes of all pieces together have to be UTF-8, not those of each. -/
theorem decode_textOf_eq_ok_iff {pieces : List Piece} {t : Text} :
    decode (textOf pieces) = .ok t ↔
      (∀ p ∈ pieces, p.IsScalar) ∧ Utf8.encode t = bytesOf pieces := by
  rw [decode_eq_unescape, unescape_eq_ok_iff]
  simp only [bytes, bytesFrom_textOf_eq_ok_iff, and_assoc, exists_and_left, exists_eq_left']

theorem Spells.bytes_eq {pieces : List Piece} (h : Spells c pieces) :
    (∀ p ∈ pieces, p.IsScalar) ∧ bytesOf pieces = String.utf8EncodeChar c := by
  cases h with
  | plain ne => exact ⟨by simp [Piece.IsScalar], by simp [bytesOf, Piece.bytes]⟩
  | simple letter mem => exact ⟨by simp [Piece.IsScalar], by simp [bytesOf, Piece.bytes]⟩
  | bytes ds eq =>
    refine ⟨fun p hp => ?_, by rw [bytesOf, List.flatMap_map, eq]⟩
    obtain ⟨d, -, rfl⟩ := List.mem_map.mp hp
    trivial
  | codePoint ds pos le eq =>
    refine ⟨?_, ?_⟩
    · rw [List.forall_mem_singleton, Piece.IsScalar, eq]
      exact c.valid
    · rw [bytesOf, List.flatMap_singleton, Piece.bytes, eq, Char.ofNat_toNat]

theorem bytesOf_flatten_of_spells {s : Text} {spellings : List (List Piece)}
    (h : List.Forall₂ Spells s spellings) :
    (∀ p ∈ spellings.flatten, p.IsScalar) ∧ bytesOf spellings.flatten = Utf8.encode s := by
  induction h with
  | nil => exact ⟨by simp, rfl⟩
  | @cons c pieces s spellings hc _ ih =>
    obtain ⟨hscalar, hbytes⟩ := hc.bytes_eq
    rw [List.flatten_cons, List.forall_mem_append, bytesOf, List.flatMap_append, ← bytesOf, hbytes,
      ← bytesOf, ih.2]
    exact ⟨⟨hscalar, ih.1⟩, rfl⟩

/-- **Escapes denote the meant text.**  A sequence of pieces denotes the text whose UTF-8 bytes are
those of the pieces, and fails if and only if a code point is no character or the bytes are those
of no text; whatever is no sequence of pieces fails.  So every text is denoted by all its spellings,
and the short way for texts without a backslash agrees with the loop. -/
theorem decode_pieces :
    (∀ pieces t, decode (textOf pieces) = .ok t ↔
      (∀ p ∈ pieces, p.IsScalar) ∧ Utf8.encode t = bytesOf pieces) ∧
    (∀ pieces, (∃ fault, decode (textOf pieces) = .error fault) ↔
      (∃ p ∈ pieces, ¬p.IsScalar) ∨ ∀ t, Utf8.encode t ≠ bytesOf pieces) ∧
    (∀ raw, (∀ pieces, textOf pieces ≠ raw) → ∃ fault, decode raw = .error fault) ∧
    (∀ s spellings, List.Forall₂ Spells s spellings →
      decode (textOf spellings.flatten) = .ok s) ∧
    ∀ raw, decode raw = unescape raw := by
  refine ⟨fun pieces t => decode_textOf_eq_ok_iff, fun pieces => ?_, fun raw h => ?_,
    fun s spellings h => ?_, decode_eq_unescape⟩
  · rw [exists_eq_error_iff]
    simp only [decode_textOf_eq_ok_iff, exists_and_left, not_and_or, not_forall, not_exists,
      exists_prop]
  · rw [exists_eq_error_iff, decode_eq_unescape]
    rintro ⟨t, ht⟩
    obtain ⟨bs, hbs, -⟩ := unescape_eq_ok_iff.mp ht
    obtain ⟨pieces, hpieces⟩ := exists_pieces_of_bytesFrom hbs
    exact h pieces hpieces
  · obtain ⟨hscalar, hbytes⟩ := bytesOf_flatten_of_spells h
    exact decode_textOf_eq_ok_iff.mpr ⟨hscalar, hbytes.symm⟩

theorem decode_mixed_spelling :
    decode ['\\', 'x', 'C', '3', '\\', 'x', 'a', '9', '\\', 'u', '\x7b', '0', 'e', '9', '\x7d',
      '\\', 'n'] = .ok ['é', 'é', '\n'] :=
  decode_pieces.2.2.2.1 ['é', 'é', '\n'] _
    (.cons (.bytes [(⟨'C', 12, by decide, by decide⟩, ⟨'3', 3, by decide, by decide⟩),
        (⟨'a', 10, by decide, by decide⟩, ⟨'9', 9, by decide, by decide⟩)] (by decide))
      (.cons (.codePoint [⟨'0', 0, by decide, by decide⟩, ⟨'e', 14, by decide, by decide⟩,
          ⟨'9', 9, by decide, by decide⟩] (by decide) (by decide) (by decide))
        (.cons (.simple 'n' (by decide)) .nil)))

end ZigNif.Source.Literal
