import ZigNif.Json.Writer
import ZigNif.Proofs.Json.Basic
import ZigNif.Proofs.Json.Numbers
import ZigNif.Proofs.Json.Reader
import ZigNif.Proofs.Table

/-!
# Proofs/Json/Writer — a written value is read back

A written value takes the reader from where a value is expected to where it has been read, whatever
stands around it (`IsReadBack`).  Arrays and objects are read item by item, on top of the ones that
are still open.
-/

namespace ZigNif.Json

open Text

variable {s : Separators} {v : Json} {vs : List Json} {fields read : Table Json}
  {f : Text × Json} {m : Bool} {stack : List Frame} {p q : Progress} {c : Char} {r t : Text}
  {key : Text} {n : Int}

/-- A comma and a colon are what separates, and behind them are only blanks. -/
structure Separators.IsLegal (s : Separators) : Prop where
  item : ∃ blanks, s.item = ',' :: blanks ∧ ∀ c ∈ blanks, isSpace c
  key : ∃ blanks, s.key = ':' :: blanks ∧ ∀ c ∈ blanks, isSpace c

theorem isLegal_spaced : spaced.IsLegal := ⟨⟨" ", rfl, by decide⟩, ⟨" ", rfl, by decide⟩⟩

theorem isLegal_compact : compact.IsLegal := ⟨⟨[], rfl, nofun⟩, ⟨[], rfl, nofun⟩⟩

/-- The text of a field. -/
def writeField (s : Separators) (f : Text × Json) : Text :=
  writeString f.1 ++ s.key ++ writeWith s f.2

theorem writeItems_eq_map (vs : List Json) : writeItems s vs = vs.map (writeWith s) := by
  induction vs with
  | nil => rfl
  | cons v vs ih => exact congrArg _ ih

theorem writeFields_eq_map (fields : Table Json) :
    writeFields s fields = fields.map (writeField s) := by
  induction fields with
  | nil => rfl
  | cons f fields ih => exact congrArg _ ih

/-- The written value is read wherever a value is expected. -/
def IsReadBack (s : Separators) (v : Json) : Prop := ∀ m stack r, Ends r →
  run ⟨.value m, stack⟩ (writeWith s v ++ r) = run ⟨.after v, stack⟩ r

/-! ## Plain values -/

/-- A lexeme that is a value is read as it. -/
theorem run_value (hspace : isSpace c = false) (h : firstLexeme c t = (.value v, r)) :
    run ⟨.value m, stack⟩ (c :: t) = run ⟨.after v, stack⟩ r := by
  rw [run_cons hspace h]
  rfl

/-- No word has a digit at its start, or behind a minus sign. -/
theorem not_starts_word {w : Text × Json} (hw : w ∈ words) (hc : c.isDigit) (t : Text) :
    ¬ w.1 <+: c :: t ∧ ¬ w.1 <+: '-' :: c :: t := by
  have hletters : ∃ d ∈ w.1.head?, ∃ e ∈ w.1.tail.head?,
      d.isDigit = false ∧ (d = '-' → e.isDigit = false) := by
    simp only [words, List.mem_cons, List.not_mem_nil, or_false] at hw
    rcases hw with rfl | rfl | rfl | rfl | rfl | rfl <;> exact ⟨_, rfl, _, rfl, rfl, by decide⟩
  obtain ⟨d, hd, e, he, hdigit, hminus⟩ := hletters
  obtain ⟨u, hu⟩ := List.head?_eq_some_iff.mp hd
  rw [hu, List.tail_cons] at he
  obtain ⟨x, hx⟩ := List.head?_eq_some_iff.mp he
  rw [hu, hx, List.cons_prefix_cons, List.cons_prefix_cons, List.cons_prefix_cons]
  constructor
  · rintro ⟨rfl, -⟩
    exact absurd hc (hdigit ▸ Bool.false_ne_true)
  · rintro ⟨rfl, rfl, -⟩
    exact absurd hc (hminus rfl ▸ Bool.false_ne_true)

theorem readWord?_eq_none (h : ∀ w ∈ words, ¬ w.1 <+: t) : readWord? t = none := by
  rw [readWord?, Option.map_eq_none_iff, List.find?_eq_none]
  exact fun w hw hprefix => h w hw (List.isPrefixOf_iff_prefix.mp hprefix)

/-- A whole number starts with a digit or a minus sign, and never with a word. -/
theorem exists_ofInt_append (n : Int) (r : Text) : ∃ c t, ofInt n ++ r = c :: t ∧
    (c.isDigit ∨ c = '-') ∧ readWord? (c :: t) = none := by
  have hdigit : ∀ n, ∃ c u, ofNat n = c :: u ∧ c.isDigit := by
    intro n
    obtain ⟨c, u, h⟩ := List.exists_cons_of_ne_nil (ofNat_ne_nil (n := n))
    exact ⟨c, u, h, charIsDigit_of_mem_ofNat (n := n) (h ▸ List.mem_cons_self)⟩
  cases n with
  | ofNat n =>
    obtain ⟨c, u, h, hc⟩ := hdigit n
    refine ⟨c, u ++ r, congrArg (· ++ r) h, .inl hc, ?_⟩
    exact readWord?_eq_none fun w hw => (not_starts_word hw hc _).1
  | negSucc n =>
    obtain ⟨c, u, h, hc⟩ := hdigit (n + 1)
    refine ⟨'-', c :: (u ++ r), congrArg ('-' :: · ++ r) h, .inr rfl, ?_⟩
    exact readWord?_eq_none fun w hw => (not_starts_word hw hc _).2

/-- A literal that starts like a number and like no word is the number's. -/
theorem firstLexeme_numeral {n : Numeral} (hc : c.isDigit ∨ c = '-')
    (hword : readWord? (c :: t) = none) (hnumeral : readNumeral? (c :: t) = some (n, r)) :
    firstLexeme c t = (n.lexeme, r) := by
  unfold firstLexeme
  split
  case h_8 => rw [hword, hnumeral]
  all_goals exact absurd hc (by decide)

theorem isSpace_eq_false (hc : c.isDigit ∨ c = '-') : isSpace c = false := by
  rw [Bool.eq_false_iff]
  intro hspace
  simp only [isSpace, Bool.or_eq_true, decide_eq_true_eq] at hspace
  rcases hspace with ((rfl | rfl) | rfl) | rfl <;> exact absurd hc (by decide)

/-- The numeral of a whole number is read as the number. -/
theorem run_ofInt (hn : isWritable n) (hr : Ends r) (m : Bool) (stack : List Frame) :
    run ⟨.value m, stack⟩ (ofInt n ++ r) = run ⟨.after (.int n), stack⟩ r := by
  have hnumeral := readNumeral?_ofInt n hr
  obtain ⟨c, t, ht, hc, hword⟩ := exists_ofInt_append n r
  rw [ht] at hnumeral ⊢
  refine run_value (isSpace_eq_false hc) ?_
  rw [firstLexeme_numeral hc hword hnumeral, lexeme_intNumeral hn]

/-! ## Marks -/

/-- A lexeme of one character is read. -/
theorem run_mark {lexeme : Lexeme} (hspace : isSpace c = false)
    (hlexeme : ∀ u, firstLexeme c u = (lexeme, u)) (hstep : ∀ u, step p ⟨lexeme, u⟩ = .ok q)
    (t : Text) : run p (c :: t) = run q t := by
  rw [run_cons hspace (hlexeme _), hstep]
  rfl

theorem run_item (hs : s.IsLegal) (hstep : ∀ u, step p ⟨.comma, u⟩ = .ok q) (t : Text) :
    run p (s.item ++ t) = run q t := by
  obtain ⟨blanks, hitem, hblanks⟩ := hs.item
  rw [hitem, List.cons_append, run_mark rfl (fun _ => rfl) hstep, run_spaces hblanks]

theorem run_key (hs : s.IsLegal) (hstep : ∀ u, step p ⟨.colon, u⟩ = .ok q) (t : Text) :
    run p (s.key ++ t) = run q t := by
  obtain ⟨blanks, hkey, hblanks⟩ := hs.key
  rw [hkey, List.cons_append, run_mark rfl (fun _ => rfl) hstep, run_spaces hblanks]

theorem head?_item (hs : s.IsLegal) : s.item.head? = some ',' := by
  obtain ⟨blanks, hitem, -⟩ := hs.item
  rw [hitem]
  rfl

/-! ## Items and fields -/

/-- Items are read one after another, behind the ones that have been read. -/
theorem run_items (hs : s.IsLegal) (hvs : ∀ v ∈ vs, IsReadBack s v) (hne : vs ≠ []) (m : Bool)
    (done : List Json) (stack : List Frame) (r : Text) :
    run ⟨.value m, .array done :: stack⟩ (joined s.item (vs.map (writeWith s)) ++ ']' :: r) =
      run ⟨.after (.arr (done ++ vs)), stack⟩ r := by
  induction vs generalizing m done with
  | nil => exact absurd rfl hne
  | cons v vs ih =>
    obtain ⟨hv, hvs⟩ := List.forall_mem_cons.mp hvs
    rw [List.map_cons, joined_cons_append, hv _ _ _ (ends_rest (head?_item hs) (by decide))]
    cases vs with
    | nil => exact run_mark rfl (fun _ => rfl) (fun _ => rfl) r
    | cons w vs =>
      rw [List.map_cons, if_neg (List.cons_ne_nil _ _), ← List.map_cons,
        run_item hs fun _ => rfl, ih hvs (List.cons_ne_nil _ _), List.append_assoc]
      rfl

/-- A field is read from its key to its value. -/
theorem run_field (hs : s.IsLegal) (hf : IsReadBack s f.2) (hr : Ends r) (m : Bool)
    (read : Table Json) (stack : List Frame) :
    run ⟨.key read m, stack⟩ (writeField s f ++ r) =
      run ⟨.after f.2, .object read f.1 :: stack⟩ r := by
  rw [writeField, List.append_assoc, List.append_assoc, run_writeString]
  change run ⟨.colon read f.1, stack⟩ _ = _
  rw [run_key hs fun _ => rfl, hf _ _ _ hr]

/-- Fields are read one after another, and put in behind the ones that have been read. -/
theorem run_fields (hs : s.IsLegal) (hfields : ∀ f ∈ fields, IsReadBack s f.2) (hne : fields ≠ [])
    (m : Bool) (read : Table Json) (stack : List Frame) (r : Text) :
    run ⟨.key read m, stack⟩ (joined s.item (fields.map (writeField s)) ++ '\x7d' :: r) =
      run ⟨.after (.obj (Table.putAll read fields)), stack⟩ r := by
  induction fields generalizing m read with
  | nil => exact absurd rfl hne
  | cons f fields ih =>
    obtain ⟨hf, hfields⟩ := List.forall_mem_cons.mp hfields
    rw [List.map_cons, joined_cons_append,
      run_field hs hf (ends_rest (head?_item hs) (by decide))]
    cases fields with
    | nil => exact run_mark rfl (fun _ => rfl) (fun _ => rfl) r
    | cons g fields =>
      rw [List.map_cons, if_neg (List.cons_ne_nil _ _), ← List.map_cons,
        run_item hs fun _ => rfl, ih hfields (List.cons_ne_nil _ _)]
      rfl

/-! ## Whole values -/

/-- **A written value is read**, wherever it stands. -/
theorem IsReadable.isReadBack (hv : v.IsReadable) (hs : s.IsLegal) : IsReadBack s v := by
  induction hv with
  | null => exact fun m stack r _ => run_value (c := 'n') rfl rfl
  | bool b =>
    cases b with
    | true => exact fun m stack r _ => run_value (c := 't') rfl rfl
    | false => exact fun m stack r _ => run_value (c := 'f') rfl rfl
  | int hshort => exact fun m stack r hr => run_ofInt hshort hr m stack
  | str t =>
    intro m stack r _
    rw [writeWith, run_writeString]
    rfl
  | @arr items _ ih =>
    intro m stack r _
    rw [writeWith, writeItems_eq_map, List.append_assoc, List.append_assoc]
    refine (run_mark rfl (fun _ => rfl) (fun _ => rfl) _).trans ?_
    cases items with
    | nil => exact run_mark rfl (fun _ => rfl) (fun _ => rfl) r
    | cons v vs => exact run_items hs ih (List.cons_ne_nil v vs) true [] stack r
  | @obj fields hnodup _ ih =>
    intro m stack r _
    rw [writeWith, writeFields_eq_map, List.append_assoc, List.append_assoc]
    refine (run_mark rfl (fun _ => rfl) (fun _ => rfl) _).trans ?_
    cases fields with
    | nil => exact run_mark rfl (fun _ => rfl) (fun _ => rfl) r
    | cons f fs =>
      have hread := run_fields hs ih (List.cons_ne_nil f fs) true [] stack r
      rwa [Table.putAll_self hnodup] at hread

/-- No lexeme starts with a byte order mark. -/
theorem run_byteOrderMark (m : Bool) (stack : List Frame) (t : Text) : ∃ fault,
    run ⟨.value m, stack⟩ ('\ufeff' :: t) = .error fault := by
  have hjunk : firstLexeme '\ufeff' t = (.junk, []) := rfl
  exact ⟨_, run_cons rfl hjunk _⟩

/-- **Reading inverts writing.** -/
theorem parse_writeWith (hs : s.IsLegal) (hv : v.IsReadable) : parse (writeWith s v) = .ok v := by
  have hrun : run ⟨.value false, []⟩ (writeWith s v) = .ok ⟨.after v, []⟩ := by
    have hnil : Ends [] := nofun
    have hread := hv.isReadBack hs false [] [] hnil
    rwa [List.append_nil, run_nil] at hread
  have hmark : (writeWith s v).head? ≠ some '\ufeff' := by
    intro h
    obtain ⟨t, ht⟩ := List.head?_eq_some_iff.mp h
    rw [ht] at hrun
    obtain ⟨fault, hfault⟩ := run_byteOrderMark false [] t
    rw [hfault] at hrun
    cases hrun
  rw [parse_eq hmark, hrun]
  rfl

end ZigNif.Json
