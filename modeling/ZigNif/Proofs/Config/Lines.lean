import ZigNif.Proofs.Config
import ZigNif.Proofs.Json.Keys
import ZigNif.Proofs.Text.Search

/-!
# Proofs/Config/Lines — the lines that options point at

The line of a field is looked for in the text of a config: it is the first one where the name of the
field stands in quotes before a colon.  In a text that is read, some object has a key there
(`fieldLine_eq`), but it need not be the key that the value is from.
-/

namespace ZigNif

namespace Json

/-- The rest of a string behind its opening quote, up to the quote that no backslash is before. -/
def literalEnd : Text → Text
  | [] => []
  | '"' :: _ => ['"']
  | '\\' :: c :: r => '\\' :: c :: literalEnd r
  | c :: r => c :: literalEnd r

/-- The key as the text spells it, in its quotes. -/
def Key.literal (k : Key) : Text := '"' :: literalEnd (k.text.drop 1)

/-- The number of the line of a text that the key is on. -/
def Key.line (text : Text) (k : Key) : Nat :=
  (Config.lineAndColumn text (text.length - k.text.length)).1

end Json

namespace Config

open Build Json Text

variable {name s t u body rest : Text} {v : Json} {p : Progress} {n : Nat} {k : Key}

/-- A name in quotes. -/
def quotedName (name : Text) : Text := '"' :: (name ++ ['"'])

/-- The key ends with the name in quotes: it is the name, or has an escaped quote before it. -/
def Shows (name : Text) (k : Key) : Prop := quotedName name <:+ k.literal

instance : DecidablePred (Shows name) := fun _ => inferInstanceAs (Decidable (_ <:+ _))

/-- A name of letters and underscores. -/
structure IsPlainName (name : Text) : Prop where
  ne_nil : name ≠ []
  chars : ∀ c ∈ name, c.isAlpha ∨ c = '_'

theorem isPlainName_of_mem (h : name ∈ fieldNames) : IsPlainName name := by
  have hnames : ∀ name ∈ fieldNames, name ≠ [] ∧ ∀ c ∈ name, c.isAlpha ∨ c = '_' := by decide
  exact ⟨(hnames name h).1, (hnames name h).2⟩

theorem isFieldAt_iff : isFieldAt name t = true ↔
    ∃ r, t = quotedName name ++ r ∧ (trimStart r).head? = some ':' := by
  have hquoted : ("\"" ++ name ++ "\"" : Text) = quotedName name := by simp [quotedName]
  rw [isFieldAt, hquoted]
  cases hdrop : dropPrefix? (quotedName name) t with
  | none =>
    refine iff_of_false Bool.false_ne_true ?_
    rintro ⟨r, rfl, -⟩
    rw [dropPrefix?_append] at hdrop
    cases hdrop
  | some r =>
    obtain rfl := dropPrefix?_eq_some_iff.mp hdrop
    rw [decide_eq_true_iff]
    constructor
    · exact fun hcolon => ⟨r, rfl, hcolon⟩
    · rintro ⟨r', heq, hcolon⟩
      rwa [List.append_cancel_left heq]

/-! ## The search -/

/-- The search passes over a text in which no field starts. -/
theorem fieldLineFrom_append (h : ∀ u, u <:+ s → u ≠ [] → isFieldAt name (u ++ t) = false)
    (n : Nat) : fieldLineFrom name n (s ++ t) = fieldLineFrom name (n + s.count '\n') t := by
  induction s generalizing n with
  | nil => rfl
  | cons c s ih =>
    have hfield : isFieldAt name (c :: (s ++ t)) = false :=
      h (c :: s) List.suffix_rfl (List.cons_ne_nil c s)
    rw [List.cons_append, fieldLineFrom, hfield, if_neg Bool.false_ne_true,
      ih fun u hu => h u (hu.trans (List.suffix_cons c s)), List.count_cons]
    split
    case isTrue hc =>
      subst hc
      rw [Nat.add_right_comm, Nat.add_assoc]
      rfl
    case isFalse hc =>
      rw [if_neg (by simpa using hc)]
      rfl

/-- The search finds a field on the line that it is on. -/
theorem fieldLineFrom_of_suffix (hline : '\n' ∉ s) (hu : u <:+ s) (hne : u ≠ [])
    (hfield : isFieldAt name (u ++ t) = true) (n : Nat) :
    fieldLineFrom name n (s ++ t) = some n := by
  induction s with
  | nil => exact absurd (List.suffix_nil.mp hu) hne
  | cons c s ih =>
    obtain ⟨hc, hs⟩ := not_or.mp (mt List.mem_cons.mpr hline)
    rw [List.cons_append, fieldLineFrom]
    split
    case isTrue => rfl
    case isFalse hnot =>
      rcases List.suffix_cons_iff.mp hu with rfl | hu
      · exact absurd hfield hnot
      · rw [if_neg (Ne.symm hc)]
        exact ih hs hu

/-! ## Fields in strings -/

theorem IsPlainName.notMem (h : IsPlainName name) {c : Char} (hc : ¬ (c.isAlpha ∨ c = '_')) :
    c ∉ name := fun hmem => hc (h.chars c hmem)

/-- The text does not go on like a name, but with a mark or not at all. -/
def GoesOn (t : Text) : Prop := ∀ c ∈ (t.dropWhile isSpace).head?, c ∈ ':' :: endMarks

theorem GoesOn.ne (h : GoesOn t) (hname : IsPlainName name) (u : Text) : t ≠ name ++ u := by
  rintro rfl
  obtain ⟨c, w, rfl⟩ := List.exists_cons_of_ne_nil hname.ne_nil
  have hc := hname.chars c List.mem_cons_self
  have hspace : ¬ isSpace c := by
    intro hspace
    simp only [isSpace, Bool.or_eq_true, decide_eq_true_eq] at hspace
    rcases hspace with ((rfl | rfl) | rfl) | rfl <;> exact absurd hc (by decide)
  have hmark : ∀ c ∈ ':' :: endMarks, ¬ (c.isAlpha ∨ c = '_') := by decide
  rw [List.cons_append, GoesOn, List.dropWhile_cons_of_neg hspace] at h
  exact hmark c (h c rfl) hc

/-- **In a string, a name in quotes can only be at the end.** -/
theorem eq_of_quotedName (hname : IsPlainName name) (hbody : IsBody body) (hrest : GoesOn rest)
    (hu : u <:+ '"' :: (body ++ ['"'])) (hne : u ≠ []) (h : u ++ rest = quotedName name ++ t) :
    u = quotedName name ∧ t = rest := by
  have hquote : '"' ∉ name := hname.notMem (by decide)
  rw [← List.cons_append] at hu
  obtain rfl | ⟨x, rfl, hx⟩ := List.suffix_concat_iff.mp hu
  · exact absurd rfl hne
  cases x with
  | nil =>
    simp only [quotedName, List.cons_append, List.nil_append, List.append_assoc, List.cons.injEq,
      true_and] at h
    exact absurd h (hrest.ne hname _)
  | cons c x =>
    simp only [quotedName, List.cons_append, List.append_assoc, List.nil_append,
      List.cons.injEq] at h
    obtain ⟨rfl, h⟩ := h
    have hx : x <:+ body := by
      rcases List.suffix_cons_iff.mp hx with heq | hx
      · exact (List.cons.inj heq).2 ▸ List.suffix_rfl
      · exact (List.suffix_cons _ _).trans hx
    rcases List.append_eq_append_iff.mp h with ⟨y, rfl, hrest⟩ | ⟨y, rfl, hrest⟩
    · cases y with
      | nil => exact ⟨by simp [quotedName], (List.cons.inj hrest).2.symm⟩
      | cons d y =>
        obtain rfl := (List.cons.inj hrest).1
        exact absurd (List.mem_append_right x List.mem_cons_self) hquote
    · cases y with
      | nil => exact ⟨by simp [quotedName], (List.cons.inj hrest).2⟩
      | cons d y =>
        obtain rfl := (List.cons.inj hrest).1
        obtain ⟨z, rfl⟩ := hx
        rw [← List.append_assoc] at hbody
        have hlast := hbody.getLast?_of_quote
        rw [List.getLast?_append_of_ne_nil _ hname.ne_nil] at hlast
        exact absurd (List.mem_of_getLast? hlast) (hname.notMem (by decide))

/-- Blanks of the reader are blanks of the search. -/
theorem head?_trimStart (h : GoesOn t) : (trimStart t).head? = (t.dropWhile isSpace).head? := by
  induction t with
  | nil => rfl
  | cons c t ih =>
    by_cases hspace : isSpace c
    · have hblank : isBlank c = true := by
        simp only [isSpace, Bool.or_eq_true, decide_eq_true_eq] at hspace
        rcases hspace with ((rfl | rfl) | rfl) | rfl <;> decide
      rw [GoesOn, List.dropWhile_cons_of_pos hspace] at h
      rw [trimStart, List.dropWhile_cons_of_pos hblank, List.dropWhile_cons_of_pos hspace]
      exact ih h
    · rw [GoesOn, List.dropWhile_cons_of_neg hspace] at h
      have hblank : ∀ c ∈ ':' :: endMarks, ¬ isBlank c := by decide
      rw [trimStart, List.dropWhile_cons_of_neg (hblank c (h c rfl)),
        List.dropWhile_cons_of_neg hspace]

theorem literalEnd_append (h : IsBody body) (r : Text) :
    literalEnd (body ++ '"' :: r) = body ++ ['"'] := by
  induction h with
  | nil => rfl
  | @plain c t hquote hbackslash _ _ ih =>
    have hcons : literalEnd (c :: (t ++ '"' :: r)) = c :: literalEnd (t ++ '"' :: r) :=
      literalEnd.eq_4 c _ hquote fun _ _ h => absurd h hbackslash
    exact hcons.trans (congrArg (c :: ·) ih)
  | @escape c t _ _ ih => exact congrArg ('\\' :: c :: ·) ih

theorem literal_eq (h : IsBody body) {k : Key} (hk : k.text = '"' :: (body ++ ['"']) ++ t) :
    k.literal = '"' :: (body ++ ['"']) := by
  have hdrop : k.text.drop 1 = body ++ '"' :: t := by
    rw [hk]
    simp
  rw [Key.literal, hdrop, literalEnd_append h]

/-! ## Whole texts -/

/-- How many lines of the text end before the key. -/
def linesBefore (t : Text) (k : Key) : Nat := (t.take (t.length - k.text.length)).count '\n'

theorem linesBefore_append (s : Text) (h : k.text <:+ t) :
    linesBefore (s ++ t) k = s.count '\n' + linesBefore t k := by
  have hle := h.length_le
  rw [linesBefore, linesBefore, List.length_append, Nat.add_sub_assoc hle,
    List.take_length_add_append, List.count_append]

theorem suffix_of_mem_keysFrom (h : Accepts v p t) (hk : k ∈ keysFrom p (lex t)) :
    k.text <:+ t := by
  induction h with
  | finish =>
    rw [lex] at hk
    cases hk
  | @space p c t hspace _ ih =>
    rw [lex, if_pos hspace] at hk
    exact (ih hk).trans (List.suffix_cons c t)
  | @lexeme p q source t lexeme _ hlex hstep _ ih =>
    rw [hlex, keysFrom_cons hstep, List.mem_append] at hk
    rcases hk with hk | hk
    · rw [text_of_key? (Option.mem_toList.mp hk)]
    · exact (ih hk).trans (List.suffix_append source t)

/-- A text in which no field starts moves the lines of what is behind it. -/
theorem fieldLineFrom_append_eq {ks : List Key} (hks : ∀ k ∈ ks, k.text <:+ t)
    (hs : ∀ u, u <:+ s → u ≠ [] → isFieldAt name (u ++ t) = false)
    (ht : ∀ n, fieldLineFrom name n t = (ks.find? (Shows name)).map fun k => n + linesBefore t k)
    (n : Nat) : fieldLineFrom name n (s ++ t) =
      (ks.find? (Shows name)).map fun k => n + linesBefore (s ++ t) k := by
  rw [fieldLineFrom_append hs, ht]
  refine Option.map_congr fun k hk => ?_
  rw [linesBefore_append s (hks k (List.mem_of_find?_eq_some hk)), Nat.add_assoc]

theorem isFieldAt_of_notMem (hs : '"' ∉ s) (u : Text) (hu : u <:+ s) (hne : u ≠ []) :
    isFieldAt name (u ++ t) = false := by
  obtain ⟨c, u, rfl⟩ := List.exists_cons_of_ne_nil hne
  rw [Bool.eq_false_iff, ne_eq, isFieldAt_iff]
  rintro ⟨r, heq, -⟩
  obtain rfl := (List.cons.inj heq).1
  exact hs (hu.subset List.mem_cons_self)

theorem isFieldAt_of_string (hname : IsPlainName name) (hbody : IsBody body) (ht : GoesOn t)
    (hnot : quotedName name <:+ '"' :: (body ++ ['"']) → (trimStart t).head? ≠ some ':') (u : Text)
    (hu : u <:+ '"' :: (body ++ ['"'])) (hne : u ≠ []) : isFieldAt name (u ++ t) = false := by
  rw [Bool.eq_false_iff, ne_eq, isFieldAt_iff]
  rintro ⟨r, heq, hcolon⟩
  obtain ⟨rfl, rfl⟩ := eq_of_quotedName hname hbody ht hu hne heq
  exact hnot hu hcolon

/-- A field does not start in a string that is a value. -/
theorem isFieldAt_of_value {w : Json} {stack : List Frame} (hname : IsPlainName name)
    (hbody : IsBody body) (h : Accepts v ⟨.after w, stack⟩ t) (u : Text)
    (hu : u <:+ '"' :: (body ++ ['"'])) (hne : u ≠ []) : isFieldAt name (u ++ t) = false := by
  have hmark : GoesOn t := fun c hc => List.mem_cons_of_mem _ (h.head?_of_after c hc)
  refine isFieldAt_of_string hname hbody hmark (fun _ hcolon => ?_) u hu hne
  rw [head?_trimStart hmark] at hcolon
  exact absurd (h.head?_of_after _ hcolon) (by decide)

/-- A field starts in a key if and only if the key shows the name. -/
theorem fieldLineFrom_key {fields : Table Json} {key : Text} {depth : Nat} {stack : List Frame}
    {ks : List Key} (hname : IsPlainName name) (hbody : IsBody body)
    (h : Accepts v ⟨.colon fields key, stack⟩ t) (hks : ∀ k ∈ ks, k.text <:+ t)
    (ht : ∀ n, fieldLineFrom name n t = (ks.find? (Shows name)).map fun k => n + linesBefore t k)
    (n : Nat) : fieldLineFrom name n ('"' :: (body ++ ['"']) ++ t) =
      ((⟨key, depth, '"' :: (body ++ ['"']) ++ t⟩ :: ks).find? (Shows name)).map fun k =>
        n + linesBefore ('"' :: (body ++ ['"']) ++ t) k := by
  have hmark : GoesOn t := by
    intro c hc
    rw [h.head?_of_colon] at hc
    exact Option.some.inj hc ▸ List.mem_cons_self
  have hcolon : (trimStart t).head? = some ':' := (head?_trimStart hmark).trans h.head?_of_colon
  have hliteral := literal_eq hbody (k := ⟨key, depth, '"' :: (body ++ ['"']) ++ t⟩) rfl
  by_cases hshows : quotedName name <:+ '"' :: (body ++ ['"'])
  · have hline : '\n' ∉ '"' :: (body ++ ['"']) := by
      simp [hbody.newline_notMem]
    have hfound : Shows name ⟨key, depth, '"' :: (body ++ ['"']) ++ t⟩ := by
      rwa [Shows, hliteral]
    rw [fieldLineFrom_of_suffix hline hshows (List.cons_ne_nil _ _)
      (isFieldAt_iff.mpr ⟨t, rfl, hcolon⟩), List.find?_cons_of_pos (by simpa using hfound)]
    simp [linesBefore]
  · have hnot : ¬ Shows name ⟨key, depth, '"' :: (body ++ ['"']) ++ t⟩ := fun h =>
      hshows (hliteral ▸ h)
    rw [List.find?_cons_of_neg (by simpa using hnot)]
    exact fieldLineFrom_append_eq hks
      (isFieldAt_of_string hname hbody hmark fun h => absurd h hshows) ht n

/-- **The search finds the first key that shows the name**, in a text that is read. -/
theorem fieldLineFrom_eq (hname : IsPlainName name) (h : Accepts v p t) (n : Nat) :
    fieldLineFrom name n t =
      ((keysFrom p (lex t)).find? (Shows name)).map fun k => n + linesBefore t k := by
  induction h generalizing n with
  | finish =>
    rw [lex]
    rfl
  | @space p c t hspace haccepts ih =>
    have hquote : '"' ∉ [c] := by
      intro hmem
      obtain rfl := List.mem_singleton.mp hmem
      exact absurd hspace (by decide)
    rw [lex, if_pos hspace]
    exact fieldLineFrom_append_eq (fun k hk => suffix_of_mem_keysFrom haccepts hk)
      (isFieldAt_of_notMem hquote) ih n
  | @lexeme p q source t lexeme hspells hlex hstep haccepts ih =>
    have hks : ∀ k ∈ keysFrom q (lex t), k.text <:+ t := fun k hk =>
      suffix_of_mem_keysFrom haccepts hk
    rw [hlex, keysFrom_cons hstep]
    cases hspells with
    | @mark c _ hmark =>
      have hquote : '"' ∉ [c] := by cases hmark <;> decide
      rw [key?_eq_none (by cases hmark <;> rintro s ⟨⟩)]
      exact fieldLineFrom_append_eq hks (isFieldAt_of_notMem hquote) ih n
    | bare hbare _ =>
      have hquote : '"' ∉ source := fun hmem => (hbare _ hmem).1 rfl
      rw [key?_eq_none (by rintro s ⟨⟩)]
      exact fieldLineFrom_append_eq hks (isFieldAt_of_notMem hquote) ih n
    | @string body hbody s =>
      obtain ⟨expect, stack⟩ := p
      cases expect with
      | value m =>
        cases hstep
        exact fieldLineFrom_append_eq hks (isFieldAt_of_value hname hbody haccepts) ih n
      | key fields m =>
        cases hstep
        exact fieldLineFrom_key hname hbody haccepts hks ih n
      | colon => cases hstep
      | after w => rcases stack with _ | ⟨_ | _, stack⟩ <;> cases hstep

/-- **The line of a field is that of the first key that shows its name**, of any object. -/
theorem fieldLine_eq (hname : IsPlainName name) (h : Json.parse t = .ok v) :
    fieldLine t name = ((keys t).find? (Shows name)).map (Key.line t) := by
  rw [fieldLine, fieldLineFrom_eq hname (accepts_of_parse h)]
  exact Option.map_congr fun k _ => Nat.add_comm _ _

/-! ## Options -/

section Load

variable {h : Host} {w : Workspace} {path : Path} {o : Options} {d : Document} {α : Type}
  {q : Prop} {r : α → Prop} {x : Except BuildError α} {a : α}

theorem Checks.of_eq_ok (h : Checks path q r x) (hx : x = .ok a) : q ∧ r a := by
  subst hx
  cases h with
  | ok hq ha => exact ⟨hq, ha⟩

/-- The field that the line of the options is about: the code if it is given in two ways. -/
def lineField (o : Options) : Text :=
  if o.code.isSome && o.codePath.isSome then "code" else "module"

theorem lineField_mem (o : Options) : lineField o ∈ fieldNames := by
  unfold lineField
  split <;> decide

/-- The options' line is looked for in the config, which has the field. -/
theorem line_of_options (ho : d.options h = .ok o) :
    o.line = (fieldLine d.text (lineField o)).map Int.ofNat ∧ lineField o ∈ d.fields.keys := by
  simp only [Document.options, bind_eq_ok_iff] at ho
  obtain ⟨_, -, _, -, module, hmodule, flavor, -, file, -, dir, -, code, hcode, codePath, -, nifs,
    -, _, -, attributes, -, resources, -, env, -, ho⟩ := ho
  cases ho
  refine ⟨rfl, ?_⟩
  unfold lineField
  split
  case isTrue hboth =>
    obtain ⟨-, ⟨-, rfl⟩ | ⟨v, hv, -⟩⟩ := checks_field.of_eq_ok hcode
    · cases hboth
    · exact Table.mem_keys_of_get? hv
  case isFalse =>
    obtain ⟨⟨v, hv, -⟩, -⟩ := checks_moduleName.of_eq_ok hmodule
    exact Table.mem_keys_of_get? hv

theorem exists_of_document {text : Text} (hd : document path text = .ok d) :
    ∃ fields, Json.parse text = .ok (.obj fields) ∧ d = ⟨path, text, fields⟩ := by
  unfold document at hd
  split at hd
  · cases hd
  · cases hd
  · rename_i fields hparse
    exact ⟨fields, hparse, (Except.ok.inj hd).symm⟩
  · cases hd

/-- Options that are loaded are those of a document. -/
theorem exists_of_load (ho : ((load path).runIn h w).1 = .ok o) : ∃ text fields,
    fileText h w.files path = .ok text ∧ Json.parse text = .ok (.obj fields) ∧
      Document.options h ⟨path, text, fields⟩ = .ok o := by
  simp only [load, runIn_bind, runIn_readTextOr, runIn_read, runIn_ofExcept, runIn_ofBuild] at ho
  cases hfile : fileText h w.files path with
  | error failure =>
    rw [hfile] at ho
    cases ho
  | ok text =>
    simp only [hfile, mapError_ok] at ho
    cases hd : document path text with
    | error failure =>
      rw [hd] at ho
      cases ho
    | ok d =>
      obtain ⟨fields, hparse, rfl⟩ := exists_of_document hd
      rw [hd] at ho
      refine ⟨text, fields, rfl, hparse, ?_⟩
      cases hoptions : Document.options h ⟨path, text, fields⟩ with
      | error b =>
        simp only [hoptions] at ho
        cases ho
      | ok o' =>
        simp only [hoptions] at ho
        cases ho
        rfl

/-- **The options' line is the line of the first key that shows the field's name.** -/
theorem line_of_load (ho : ((load path).runIn h w).1 = .ok o) : ∃ text k,
    fileText h w.files path = .ok text ∧ lastKey? text (lineField o) = some k ∧
    o.line = ((keys text).find? (Shows (lineField o))).map (fun k => (k.line text : Int)) ∧
    (o.line = some (k.line text : Int) ↔
      ∃ k', (keys text).find? (Shows (lineField o)) = some k' ∧ k'.line text = k.line text) := by
  obtain ⟨text, fields, hfile, hparse, hoptions⟩ := exists_of_load ho
  obtain ⟨hline, hmem⟩ := line_of_options hoptions
  obtain ⟨k, hk⟩ := exists_lastKey hparse hmem
  rw [fieldLine_eq (isPlainName_of_mem (lineField_mem o)) hparse, Option.map_map] at hline
  refine ⟨text, k, hfile, hk, hline, ?_⟩
  rw [hline, Option.map_eq_some_iff]
  exact exists_congr fun k' => and_congr_right fun _ => Int.ofNat_inj

theorem runIn_load {text : Text} {r : Except BuildError Options}
    (hfile : fileText h w.files path = .ok text) (hdocument : document path text = .ok d)
    (hoptions : d.options h = r) : ((load path).runIn h w).1 = r.mapError .build := by
  simp only [load, runIn_bind, runIn_readTextOr, runIn_read, runIn_ofExcept, runIn_ofBuild, hfile,
    mapError_ok, hdocument, hoptions]

/-- A config with these attributes on its second line, and with the module on its third. -/
def configWith (attributes : Text) : Text :=
  "\x7b\"format\":\"nifbind-module\",\"version\":0,\n\"attributes\":\x7b" ++ attributes ++
    "\x7d,\n\"module\":\"M\"\x7d"

def documentWith (text : Text) (attributes : Table Json) : Document :=
  { path := .ofText "m.json"
    text
    fields := [("format", .str "nifbind-module"), ("version", .int 0),
      ("attributes", .obj attributes), ("module", .str "M")] }

def optionsWith (attributes : Table Json) (line : Int) : Options :=
  { module := "M", file := "m.json", attributes, env := "dev", line := some line }

/-- The key of the module in such a config. -/
def moduleKey : Key := { name := "module", depth := 0, text := "\"module\":\"M\"\x7d" }

/-- The workspace with the config. -/
def workspaceWith (text : Text) : Workspace :=
  { files := .directory [("w", .directory [("m.json", .file (Utf8.encode text))])] }

/-- A config whose attribute looks like the module's key, but for the escapes. -/
def notedConfig : Text := configWith "\"note\":\"\\\"module\\\":\""

def notedAttributes : Table Json := [("note", .str "\"module\":")]

theorem fileText_noted : fileText smallHost (workspaceWith notedConfig).files (.ofText "m.json") =
    .ok notedConfig :=
  toOption_eq_some_iff.mp (by decide +kernel)

set_option maxRecDepth 4000 in
theorem load_noted : ((load (.ofText "m.json")).runIn smallHost (workspaceWith notedConfig)).1 =
    .ok (optionsWith notedAttributes 3) := by
  have hdocument : document (.ofText "m.json") notedConfig =
      .ok (documentWith notedConfig notedAttributes) := by with_unfolding_all rfl
  exact runIn_load (r := .ok _) fileText_noted hdocument (by with_unfolding_all rfl)

set_option maxRecDepth 4000 in
/-- The attribute is passed over, and the line is that of the module. -/
theorem line_of_load_noted :
    ((load (.ofText "m.json")).runIn smallHost (workspaceWith notedConfig)).1 =
      .ok (optionsWith notedAttributes 3) ∧
    lastKey? notedConfig "module" = some moduleKey ∧ moduleKey.line notedConfig = 3 ∧
    ∃ k, (keys notedConfig).find? (Shows "module") = some k ∧ k.line notedConfig = 3 := by
  obtain ⟨text, k, hfile, hk, -, hiff⟩ := line_of_load load_noted
  obtain rfl := Except.ok.inj (fileText_noted.symm.trans hfile)
  have hkey : lastKey? notedConfig "module" = some moduleKey := by with_unfolding_all rfl
  have hline : moduleKey.line notedConfig = 3 := by decide
  obtain rfl := Option.some.inj (hkey.symm.trans hk)
  obtain ⟨k', hfound, hline'⟩ := hiff.mp (by rw [hline]; rfl)
  exact ⟨load_noted, hkey, hline, k', hfound, hline'.trans hline⟩

/-- A config with an attribute that is named like the module's field. -/
def nestedConfig : Text := configWith "\"module\":1"

theorem fileText_nested : fileText smallHost (workspaceWith nestedConfig).files (.ofText "m.json") =
    .ok nestedConfig :=
  toOption_eq_some_iff.mp (by decide +kernel)

set_option maxRecDepth 4000 in
/-- The line can be that of a key in another object. -/
theorem not_line_of_nested :
    ¬ ∀ o, ((load (.ofText "m.json")).runIn smallHost (workspaceWith nestedConfig)).1 = .ok o →
      ∃ text k,
        fileText smallHost (workspaceWith nestedConfig).files (.ofText "m.json") = .ok text ∧
        lastKey? text (lineField o) = some k ∧ o.line = some (k.line text : Int) := by
  intro hclaim
  have hdocument : document (.ofText "m.json") nestedConfig =
      .ok (documentWith nestedConfig [("module", .int 1)]) := by with_unfolding_all rfl
  have hload : ((load (.ofText "m.json")).runIn smallHost (workspaceWith nestedConfig)).1 =
      .ok (optionsWith [("module", .int 1)] 2) :=
    runIn_load (r := .ok _) fileText_nested hdocument (by with_unfolding_all rfl)
  obtain ⟨text, k, hfile, hk, hline⟩ := hclaim _ hload
  obtain rfl := Except.ok.inj (fileText_nested.symm.trans hfile)
  have hkey : lastKey? nestedConfig "module" = some moduleKey := by with_unfolding_all rfl
  obtain rfl := Option.some.inj (hkey.symm.trans hk)
  exact absurd hline (by decide)

end Load

end Config

end ZigNif
