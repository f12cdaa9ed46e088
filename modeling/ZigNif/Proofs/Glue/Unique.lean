import ZigNif.Glue.Elixir
import ZigNif.Glue.Erlang
import ZigNif.Proofs.Glue.Term
import ZigNif.Proofs.Json.Basic
import ZigNif.Proofs.Json.Strings
import ZigNif.Proofs.Text.Items

/-!
# Proofs/Glue/Unique — a term shows its value

Null, truth values and numbers are bare: they have no bracket or quote of their own, and each of
these kinds has a text of its own form.  All other terms are enclosed and end where they end.  So a
term is that of one value only (`term_append_inj`), if the numbers in it are told apart by their
texts.
-/

namespace ZigNif

namespace Text

theorem ofInt_injective : Function.Injective ofInt := by
  have hnat : Function.Injective ofNat := fun m n h => by
    rw [← readNat_ofNat m, h, readNat_ofNat]
  have hsign : ∀ n u, ofNat n ≠ '-' :: u := fun n u h =>
    ofNat_append_ne_minus n [] u ((List.append_nil _).trans h)
  intro m n h
  cases m with
  | ofNat m =>
    cases n with
    | ofNat n => exact congrArg Int.ofNat (hnat h)
    | negSucc n => exact absurd h (hsign m _)
  | negSucc m =>
    cases n with
    | ofNat n => exact absurd h.symm (hsign n _)
    | negSucc n => exact congrArg Int.negSucc (Nat.succ.inj (hnat (List.cons.inj h).2))

/-- A whole number is written with digits and perhaps a minus sign. -/
theorem of_mem_ofInt {n : Int} {c : Char} (h : c ∈ ofInt n) : c.isDigit ∨ c = '-' := by
  cases n with
  | ofNat n => exact .inl (charIsDigit_of_mem_ofNat h)
  | negSucc n => exact (List.mem_cons.mp h).symm.imp_left charIsDigit_of_mem_ofNat

theorem exists_digit_mem_ofInt (n : Int) : ∃ c ∈ ofInt n, c.isDigit := by
  have hnat : ∀ n, ∃ c ∈ ofNat n, c.isDigit := fun n =>
    ⟨_, List.head_mem ofNat_ne_nil, charIsDigit_of_mem_ofNat (List.head_mem ofNat_ne_nil)⟩
  cases n with
  | ofNat n => exact hnat n
  | negSucc n =>
    obtain ⟨c, hc, hdigit⟩ := hnat (n + 1)
    exact ⟨c, List.mem_cons_of_mem _ hc, hdigit⟩

end Text

namespace Binary64

/-- A finite number is written with a point, or with a power of ten. -/
theorem mark_mem_placed (digits : Text) (point : Int) : '.' ∈ placed digits point ∨
    'e' ∈ placed digits point ∧ ('+' ∈ placed digits point ∨ '-' ∈ placed digits point) := by
  unfold placed
  split
  case isTrue => exact .inl (by simp)
  case isFalse =>
    split
    case isTrue => exact .inl (by simp)
    case isFalse =>
      by_cases hsign : point - 1 < 0
      · exact .inr ⟨by simp, .inr (by simp [hsign])⟩
      · exact .inr ⟨by simp, .inl (by simp [hsign])⟩

theorem mark_mem_magnitudeText (mantissa : Nat) (exponent : Int) :
    '.' ∈ magnitudeText mantissa exponent ∨ 'e' ∈ magnitudeText mantissa exponent ∧
      ('+' ∈ magnitudeText mantissa exponent ∨ '-' ∈ magnitudeText mantissa exponent) := by
  unfold magnitudeText
  split
  case isTrue => exact .inl (by decide)
  case isFalse => exact mark_mem_placed _ _

end Binary64

namespace Glue

open Text

variable {s : TermStyle} {v w : Json} {r r' : Text}

/-! ## Bare terms -/

/-- What a term without brackets and quotes can be. -/
inductive BareKind
  | null | bool | int | float
  deriving DecidableEq

/-- The kind of a value whose term has no brackets and quotes. -/
def bareKind? : Json → Option BareKind
  | .null => some .null
  | .bool _ => some .bool
  | .int _ => some .int
  | .float _ => some .float
  | _ => none

/-- The kind that a text looks like: letters are words, and digits whole numbers. -/
def bareKindOf (s : TermStyle) (t : Text) : BareKind :=
  if t.all Char.isAlpha then
    if t = s.null then .null else if t = "true".toList ∨ t = "false".toList then .bool else .float
  else if t.all fun c => c.isDigit ∨ c = '-' then .int else .float

/-- The word for no value is a word of its own, and a map opens in its own way. -/
structure IsClear (s : TermStyle) : Prop where
  letters : ∀ c ∈ s.null, c.isAlpha
  ne_nil : s.null ≠ []
  notMem : s.null ∉ (["true", "false", "inf", "nan"] : List Text)
  opening : ∃ c ∈ s.openMap.head?, c ∈ ['%', '#']

theorem not_isAlpha_of_isDigit {c : Char} (h : c.isDigit) : ¬ c.isAlpha := by
  have hcode := toNat_of_isDigit h
  intro halpha
  rcases (Bool.or_eq_true c.isUpper c.isLower).mp halpha with hletter | hletter
  · have hfrom : 65 ≤ c.toNat := (of_decide_eq_true hletter).1
    omega
  · have hfrom : 97 ≤ c.toNat := of_decide_eq_true (Bool.and_eq_true_iff.mp hletter).1
    omega

theorem bareKindOf_word (hs : IsClear s) {t : Text}
    (ht : t ∈ (["true", "false", "inf", "nan"] : List Text)) : bareKindOf s t =
      if t = "true".toList ∨ t = "false".toList then .bool else .float := by
  have hall : ∀ t ∈ (["true", "false", "inf", "nan"] : List Text), t.all Char.isAlpha := by decide
  have hne : t ≠ s.null := by
    rintro rfl
    exact hs.notMem ht
  rw [bareKindOf, if_pos (hall t ht), if_neg hne]

theorem bareKindOf_of_not_isAlpha {t : Text} {c : Char} (hc : c ∈ t) (halpha : ¬ c.isAlpha) :
    bareKindOf s t = if t.all fun c => c.isDigit ∨ c = '-' then .int else .float := by
  have hall : t.all Char.isAlpha = false := List.all_eq_false.mpr ⟨c, hc, halpha⟩
  rw [bareKindOf, hall, if_neg Bool.false_ne_true]

theorem bareKindOf_int (n : Int) : bareKindOf s (ofInt n) = .int := by
  obtain ⟨c, hc, hdigit⟩ := exists_digit_mem_ofInt n
  rw [bareKindOf_of_not_isAlpha hc (not_isAlpha_of_isDigit hdigit), if_pos]
  exact List.all_eq_true.mpr fun c hc => decide_eq_true (of_mem_ofInt hc)

theorem bareKindOf_mark {t : Text} (h : '.' ∈ t ∨ 'e' ∈ t ∧ ('+' ∈ t ∨ '-' ∈ t)) :
    bareKindOf s t = .float := by
  have hnot : ∀ c ∈ t, ¬ (c.isDigit ∨ c = '-') →
      (t.all fun c => decide (c.isDigit ∨ c = '-')) = false := fun c hc hne =>
    List.all_eq_false.mpr ⟨c, hc, by simpa using hne⟩
  rcases h with h | ⟨he, h | h⟩
  · rw [bareKindOf_of_not_isAlpha h (by decide), hnot _ h (by decide), if_neg Bool.false_ne_true]
  · rw [bareKindOf_of_not_isAlpha h (by decide), hnot _ he (by decide), if_neg Bool.false_ne_true]
  · rw [bareKindOf_of_not_isAlpha h (by decide), hnot _ he (by decide), if_neg Bool.false_ne_true]

theorem bareKindOf_float (hs : IsClear s) (x : Binary64) :
    bareKindOf s (x.text "inf" "nan") = .float := by
  cases x with
  | nan => exact bareKindOf_word hs (by decide)
  | infinity negative =>
    cases negative with
    | false => exact bareKindOf_word hs (t := "inf") (by decide)
    | true => exact bareKindOf_of_not_isAlpha (c := '-') (by decide) (by decide)
  | finite negative mantissa exponent =>
    have hmem : ∀ c ∈ Binary64.magnitudeText mantissa exponent,
        c ∈ (Binary64.finite negative mantissa exponent).text "inf" "nan" := fun c hc =>
      List.mem_append_right _ hc
    exact bareKindOf_mark ((Binary64.mark_mem_magnitudeText mantissa exponent).imp (hmem _)
      fun ⟨he, hsign⟩ => ⟨hmem _ he, hsign.imp (hmem _) (hmem _)⟩)

/-- **The text of a bare term shows of which kind the value is.** -/
theorem bareKindOf_term (hs : IsClear s) {k : BareKind} (h : bareKind? v = some k) :
    bareKindOf s (term s v) = k := by
  cases v with
  | null =>
    cases h
    have hall : s.null.all Char.isAlpha = true := List.all_eq_true.mpr hs.letters
    rw [term, bareKindOf, if_pos hall, if_pos rfl]
  | bool b =>
    cases h
    cases b with
    | true => exact bareKindOf_word hs (t := "true") (by decide)
    | false => exact bareKindOf_word hs (t := "false") (by decide)
  | int n =>
    cases h
    exact bareKindOf_int n
  | float x =>
    cases h
    exact bareKindOf_float hs x
  | _ => cases h

/-- The numbers in two values are told apart by their texts. -/
def FloatsApart (v w : Json) : Prop := ∀ x y, Json.IsIn (.float x) v → Json.IsIn (.float y) w →
  x.text "inf" "nan" = y.text "inf" "nan" → x = y

theorem term_inj_of_bare (hs : IsClear s) (hfloats : FloatsApart v w) {k k' : BareKind}
    (hv : bareKind? v = some k) (hw : bareKind? w = some k') (h : term s v = term s w) :
    v = w := by
  obtain rfl : k = k' := by rw [← bareKindOf_term hs hv, h, bareKindOf_term hs hw]
  cases v with
  | null =>
    cases hv
    cases w with
    | null => rfl
    | _ => cases hw
  | bool b =>
    cases hv
    cases w with
    | bool b' => cases b <;> cases b' <;> first | rfl | exact absurd h (by rw [term, term]; decide)
    | _ => cases hw
  | int n =>
    cases hv
    cases w with
    | int n' => exact congrArg Json.int (ofInt_injective h)
    | _ => cases hw
  | float x =>
    cases hv
    cases w with
    | float y => exact congrArg Json.float (hfloats x y .self .self h)
    | _ => cases hw
  | _ => cases hv

/-! ## How terms start -/

/-- The character is a letter, a digit, or a mark of a number. -/
def IsBareChar (c : Char) : Prop := c.isAlphanum ∨ c ∈ ['.', '+', '-']

instance : DecidablePred IsBareChar := fun _ => inferInstanceAs (Decidable (_ ∨ _))

/-- The characters that a term in quotes or brackets starts with. -/
def openMarks : List Char := ['[', '%', '#', '"']

theorem IsBareChar.notMem {c : Char} (h : IsBareChar c) : c ∉ endMarks ∧ c ∉ openMarks := by
  have hendMarks : ∀ c ∈ endMarks, ¬ IsBareChar c := by decide
  have hopenMarks : ∀ c ∈ openMarks, ¬ IsBareChar c := by decide
  exact ⟨fun hc => hendMarks c hc h, fun hc => hopenMarks c hc h⟩

theorem isBareChar_of_mem_text (x : Binary64) : ∀ c ∈ x.text "inf" "nan", IsBareChar c := by
  have hnumber : ∀ {c : Char}, Binary64.IsNumberChar c → IsBareChar c := by
    rintro c (h | h)
    · exact .inl (by rw [Char.isAlphanum, h, Bool.or_true])
    · have hmarks : ∀ c ∈ ['.', 'e', '+', '-'], IsBareChar c := by decide
      exact hmarks c h
  cases x with
  | nan => decide
  | infinity negative => cases negative <;> decide
  | finite negative mantissa exponent =>
    refine List.forall_mem_append.mpr ⟨?_, fun c hc => hnumber
      (Binary64.isNumberChar_of_mem_magnitudeText mantissa exponent c hc)⟩
    cases negative <;> decide

theorem isBareChar_of_mem_term (hs : IsClear s) {k : BareKind} (h : bareKind? v = some k) :
    ∀ c ∈ term s v, IsBareChar c := by
  cases v with
  | null => exact fun c hc => .inl (by rw [Char.isAlphanum, hs.letters c hc, Bool.true_or])
  | bool b => cases b <;> rw [term] <;> decide
  | int n =>
    intro c hc
    rcases of_mem_ofInt hc with h | rfl
    · exact .inl (by rw [Char.isAlphanum, h, Bool.or_true])
    · decide
  | float x => exact isBareChar_of_mem_text x
  | _ => cases h

theorem term_ne_nil_of_bare (hs : IsClear s) {k : BareKind} (h : bareKind? v = some k) :
    term s v ≠ [] := by
  cases v with
  | null => exact hs.ne_nil
  | bool b => cases b <;> rw [term] <;> decide
  | int n =>
    obtain ⟨c, hc, -⟩ := exists_digit_mem_ofInt n
    exact List.ne_nil_of_mem hc
  | float x =>
    rw [term]
    cases x with
    | nan => decide
    | infinity negative => cases negative <;> decide
    | finite negative mantissa exponent =>
      have hmagnitude : Binary64.magnitudeText mantissa exponent ≠ [] := by
        rcases Binary64.mark_mem_magnitudeText mantissa exponent with h | ⟨h, -⟩
        · exact List.ne_nil_of_mem h
        · exact List.ne_nil_of_mem h
      exact List.append_ne_nil_of_right_ne_nil _ hmagnitude
  | _ => cases h

/-- How the term of a value can start. -/
inductive Opens : Json → Char → Prop
  | bare {v : Json} {k : BareKind} {c : Char} (kind : bareKind? v = some k) (char : IsBareChar c) :
    Opens v c
  | str (t : Text) : Opens (.str t) '"'
  | arr (items : List Json) : Opens (.arr items) '['
  | obj (fields : Table Json) {c : Char} (mem : c ∈ ['%', '#']) : Opens (.obj fields) c

theorem exists_opens (hs : IsClear s) (v : Json) : ∃ c ∈ (term s v).head?, Opens v c := by
  cases hkind : bareKind? v with
  | some k =>
    have hne := term_ne_nil_of_bare hs hkind
    refine ⟨(term s v).head hne, List.head?_eq_some_head hne, .bare hkind ?_⟩
    exact isBareChar_of_mem_term hs hkind _ (List.head_mem hne)
  | none =>
    cases v with
    | str t => exact ⟨_, rfl, .str t⟩
    | arr items => exact ⟨_, rfl, .arr items⟩
    | obj fields =>
      obtain ⟨c, hc, hmem⟩ := hs.opening
      obtain ⟨u, hu⟩ := List.head?_eq_some_iff.mp hc
      refine ⟨c, ?_, .obj fields hmem⟩
      rw [term, hu]
      rfl
    | _ => cases hkind

theorem mem_openMarks_of_mem {c : Char} (h : c ∈ ['%', '#']) : c ∈ openMarks := by
  have hall : ∀ c ∈ ['%', '#'], c ∈ openMarks := by decide
  exact hall c h

/-- The values are both bare, both strings, both arrays or both objects. -/
inductive Alike : Json → Json → Prop
  | bare {v w : Json} {k k' : BareKind} (left : bareKind? v = some k)
    (right : bareKind? w = some k') : Alike v w
  | str (t u : Text) : Alike (.str t) (.str u)
  | arr (items items' : List Json) : Alike (.arr items) (.arr items')
  | obj (fields fields' : Table Json) : Alike (.obj fields) (.obj fields')

theorem Opens.alike {c : Char} (hv : Opens v c) (hw : Opens w c) : Alike v w := by
  cases hv with
  | bare hkind hchar =>
    cases hw with
    | bare hkind' => exact .bare hkind hkind'
    | str => exact absurd (by decide) hchar.notMem.2
    | arr => exact absurd (by decide) hchar.notMem.2
    | obj _ hmem => exact absurd (mem_openMarks_of_mem hmem) hchar.notMem.2
  | str t =>
    cases hw with
    | bare _ hchar => exact absurd (by decide) hchar.notMem.2
    | str u => exact .str t u
    | obj _ hmem => exact absurd hmem (by decide)
  | arr items =>
    cases hw with
    | bare _ hchar => exact absurd (by decide) hchar.notMem.2
    | arr items' => exact .arr items items'
    | obj _ hmem => exact absurd hmem (by decide)
  | obj fields hmem =>
    cases hw with
    | bare _ hchar => exact absurd (mem_openMarks_of_mem hmem) hchar.notMem.2
    | str => exact absurd hmem (by decide)
    | arr => exact absurd hmem (by decide)
    | obj fields' => exact .obj fields fields'

/-- The first character of a term shows whether it is bare, a string, a list or a map. -/
theorem alike_of_append_eq (hs : IsClear s) (h : term s v ++ r = term s w ++ r') :
    Alike v w := by
  obtain ⟨c, hc, hv⟩ := exists_opens hs v
  obtain ⟨d, hd, hw⟩ := exists_opens hs w
  obtain ⟨u, hu⟩ := List.head?_eq_some_iff.mp hc
  obtain ⟨u', hu'⟩ := List.head?_eq_some_iff.mp hd
  rw [hu, hu'] at h
  exact hv.alike ((List.cons.inj h).1 ▸ hw)

/-! ## Unique values -/

/-- A field of an object as an entry of a map. -/
def fieldTerm (s : TermStyle) (f : Text × Json) : Text :=
  Json.writeString f.1 ++ " => " ++ term s f.2

theorem fieldTerms_eq_map (fields : Table Json) :
    fieldTerms s fields = fields.map (fieldTerm s) := by
  induction fields with
  | nil => rfl
  | cons f fields ih => exact congrArg _ ih

theorem terms_eq_map (items : List Json) : terms s items = items.map (term s) := by
  induction items with
  | nil => rfl
  | cons v items ih => exact congrArg _ ih

/-- No term starts with what closes a list or a map. -/
theorem exists_head?_term_ne (hs : IsClear s) (v : Json) :
    ∃ c ∈ (term s v).head?, c ≠ ']' := by
  obtain ⟨c, hc, hopens⟩ := exists_opens hs v
  refine ⟨c, hc, ?_⟩
  rintro rfl
  cases hopens with
  | bare _ hchar => exact absurd (by decide) hchar.notMem.1
  | obj _ hmem => exact absurd hmem (by decide)

/-- A field of a map is told apart if its value is. -/
theorem fieldTerm_append_inj {f g : Text × Json}
    (hvalue : ∀ {r r'}, Ends r → Ends r' → term s f.2 ++ r = term s g.2 ++ r' →
      f.2 = g.2 ∧ r = r')
    (hr : Ends r) (hr' : Ends r')
    (h : fieldTerm s f ++ r = fieldTerm s g ++ r') : f = g ∧ r = r' := by
  simp only [fieldTerm, List.append_assoc] at h
  obtain ⟨hkey, hrest⟩ := Json.writeString_append_inj h
  obtain ⟨hvalue, hr⟩ := hvalue hr hr' (List.append_cancel_left hrest)
  exact ⟨Prod.ext hkey hvalue, hr⟩

/-- **A term is that of one value.**  A bare term shows its value where it ends, and any other term
wherever it stands. -/
theorem term_append_inj (hs : IsClear s) (hfloats : FloatsApart v w)
    (hends : ∀ k, bareKind? v = some k → Ends r ∧ Ends r')
    (h : term s v ++ r = term s w ++ r') : v = w ∧ r = r' := by
  induction v using Json.induction generalizing w r r' with
  | str t =>
    cases alike_of_append_eq hs h with
    | bare hk => cases hk
    | str _ u =>
      obtain ⟨rfl, hr⟩ := Json.writeString_append_inj h
      exact ⟨rfl, hr⟩
  | arr items ih =>
    cases alike_of_append_eq hs h with
    | bare hk => cases hk
    | arr _ items' =>
      simp only [term, terms_eq_map, List.append_assoc] at h
      obtain ⟨rfl, hr⟩ := joined_append_inj (e := ']') (by decide)
        (fun v hv w hw r r' hr hr' => ih v hv
          (fun x y hx hy => hfloats x y (.item hv hx) (.item hw hy)) fun _ _ => ⟨hr, hr'⟩)
        (exists_head?_term_ne hs) (List.append_cancel_left h)
      exact ⟨rfl, hr⟩
  | obj fields ih =>
    cases alike_of_append_eq hs h with
    | bare hk => cases hk
    | obj _ fields' =>
      simp only [term, fieldTerms_eq_map, List.append_assoc] at h
      obtain ⟨rfl, hr⟩ := joined_append_inj (e := '\x7d') (by decide)
        (fun f hf g hg r r' hr hr' => fieldTerm_append_inj (fun hr hr' => ih f hf
          (fun x y hx hy => hfloats x y (.field hf hx) (.field hg hy)) fun _ _ => ⟨hr, hr'⟩) hr hr')
        (fun _ => ⟨'"', rfl, by decide⟩) (List.append_cancel_left h)
      exact ⟨rfl, hr⟩
  | _ =>
    cases alike_of_append_eq hs h with
    | bare hk hk' =>
      obtain ⟨hr, hr'⟩ := hends _ hk
      obtain ⟨hterm, hrest⟩ := append_inj_of_ends
        (fun c hc => (isBareChar_of_mem_term hs hk c hc).notMem.1)
        (fun c hc => (isBareChar_of_mem_term hs hk' c hc).notMem.1) hr hr' h
      exact ⟨term_inj_of_bare hs hfloats hk hk' hterm, hrest⟩

theorem isClear_style (hs : s = Elixir.style ∨ s = Erlang.style) : IsClear s := by
  rcases hs with rfl | rfl
  · exact ⟨by decide, by decide, by decide, '%', rfl, by decide⟩
  · exact ⟨by decide, by decide, by decide, '#', rfl, by decide⟩

/-- **Attribute terms are unambiguous**: in either flavor, different values have different terms,
and no term in brackets or quotes is where another one starts. -/
theorem term_unambiguous (hs : s = Elixir.style ∨ s = Erlang.style) (hfloats : FloatsApart v w) :
    (term s v = term s w → v = w) ∧
    ((∃ c ∈ (term s v).head?, c ∈ openMarks) → term s v <+: term s w → v = w) := by
  have hclear := isClear_style hs
  constructor
  · intro h
    have hnil : Ends [] := nofun
    rw [← List.append_nil (term s v), ← List.append_nil (term s w)] at h
    exact (term_append_inj hclear hfloats (fun _ _ => ⟨hnil, hnil⟩) h).1
  · rintro ⟨c, hc, hmem⟩ ⟨r, hr⟩
    rw [← List.append_nil (term s w)] at hr
    refine (term_append_inj hclear hfloats (fun k hk => ?_) hr).1
    have hbare := isBareChar_of_mem_term hclear hk c (List.mem_of_head? hc)
    exact absurd hmem hbare.notMem.2

/-- A map with a number, and with a string that looks like the rest of it. -/
def rated (x : Binary64) : Json := .obj [("rate", .arr [.float x, .str "2.0]\x7d"])]

theorem eq_of_isIn_rated {x y : Binary64} (h : Json.IsIn (.float x) (rated y)) : x = y := by
  cases h with
  | field hmem h =>
    obtain rfl := List.mem_singleton.mp hmem
    cases h with
    | item hmem h =>
      rcases List.mem_cons.mp hmem with rfl | hmem
      · cases h
        rfl
      · obtain rfl := List.mem_singleton.mp hmem
        cases h

theorem floatsApart_rated {x y : Binary64} (h : x.text "inf" "nan" ≠ y.text "inf" "nan") :
    FloatsApart (rated x) (rated y) := by
  intro x' y' hx hy heq
  rw [eq_of_isIn_rated hx, eq_of_isIn_rated hy] at heq
  exact absurd heq h

/-- The numbers `1.0` and `1.5`. -/
def oneRate : Binary64 := .finite false 4503599627370496 (-52)

def higherRate : Binary64 := .finite false 6755399441055744 (-52)

/-- No term with the one rate is where a term with the other starts. -/
theorem term_unambiguous_rated :
    term Elixir.style (rated oneRate) = ("%\x7b\"rate\" => [1.0, \"2.0]\x7d\"]\x7d" : Text) ∧
    ¬ term Elixir.style (rated oneRate) <+: term Elixir.style (rated higherRate) ∧
    ¬ term Erlang.style (rated higherRate) <+: term Erlang.style (rated oneRate) := by
  have hone : oneRate.text "inf" "nan" = "1.0" := by decide +kernel
  have hhigher : higherRate.text "inf" "nan" = "1.5" := by decide +kernel
  have hne : rated oneRate ≠ rated higherRate := by
    intro h
    have hrate : oneRate ≠ higherRate := by decide
    simp only [rated, Json.obj.injEq, List.cons.injEq, Prod.mk.injEq, Json.arr.injEq,
      Json.float.injEq] at h
    exact hrate h.1.2.1
  refine ⟨?_, fun h => hne ?_, fun h => hne ?_⟩
  · simp only [rated, term, terms, fieldTerms, hone]
    decide
  · exact (term_unambiguous (.inl rfl) (floatsApart_rated (by rw [hone, hhigher]; decide))).2
      ⟨'%', rfl, by decide⟩ h
  · exact ((term_unambiguous (.inr rfl) (floatsApart_rated (by rw [hone, hhigher]; decide))).2
      ⟨'#', rfl, by decide⟩ h).symm

end Glue

end ZigNif
