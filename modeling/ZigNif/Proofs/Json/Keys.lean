import ZigNif.Proofs.Json.Lexemes
import ZigNif.Proofs.Table

/-!
# Proofs/Json/Keys — the keys that a text has

A string that is read where a key may come next is a key of some object.  The keys of the document's
own object are the names under which its values are put in, one after another, so the last key of a
name is the one whose value counts (`exists_entries_of_parse`).
-/

namespace ZigNif.Json

variable {p q : Progress} {tok : Token} {t : Text} {v : Json} {fields : Table Json}
  {names : List Text} {name : Text}

/-- A key of an object: its name, how many arrays and objects are open around its object, and the
text from its opening quote on. -/
structure Key where
  name : Text
  depth : Nat
  text : Text

/-- The key that a lexeme is to the reader. -/
def key? (p : Progress) (tok : Token) : Option Key :=
  match p.expect, tok.lexeme with
  | .key _ _, .string name => some { name, depth := p.stack.length, text := tok.text }
  | _, _ => none

theorem key?_eq_none (h : ∀ s, tok.lexeme ≠ .string s) : key? p tok = none := by
  unfold key?
  split
  · rename_i s _ hstring
    exact absurd hstring (h s)
  · rfl

theorem text_of_key? {k : Key} (h : key? p tok = some k) : k.text = tok.text := by
  unfold key? at h
  split at h <;> cases h
  rfl

/-- The keys among lexemes that are read from a state on. -/
def keysFrom (p : Progress) : List Token → List Key
  | [] => []
  | tok :: toks => (key? p tok).toList ++ match step p tok with
    | .ok q => keysFrom q toks
    | .error _ => []

/-- The keys of a text, of all its objects. -/
def keys (t : Text) : List Key := keysFrom ⟨.value false, []⟩ (lex t)

/-- The names of those keys that belong to the document's own object. -/
def topNames (ks : List Key) : List Text := (ks.filter fun k => k.depth = 0).map Key.name

theorem topNames_append (ks ks' : List Key) :
    topNames (ks ++ ks') = topNames ks ++ topNames ks' := by
  rw [topNames, List.filter_append, List.map_append]
  rfl

/-- The last key of the document's own object that has the name. -/
def lastKey? (t name : Text) : Option Key :=
  (keys t).reverse.find? fun k => k.depth = 0 ∧ k.name = name

/-! ## The document's own object -/

/-- The fields of an object that is being read, and the key that waits for its value. -/
abbrev Partial := Table Json × Option Text

/-- The object that a frame is about. -/
def Frame.partial? : Frame → Option Partial
  | .array _ => none
  | .object fields name => some (fields, some name)

/-- The object that is being read, or has been. -/
def Expect.partial? : Expect → Option Partial
  | .key fields _ => some (fields, none)
  | .colon fields name => some (fields, some name)
  | .after (.obj fields) => some (fields, none)
  | _ => none

/-- The document's own object, as far as it has been read. -/
def outermost? (p : Progress) : Option Partial :=
  match p.stack.getLast? with
  | some frame => frame.partial?
  | none => p.expect.partial?

/-- What a step can do to the document's own object, and the keys of it that it reads. -/
inductive Moves : Option Partial → List Text → Option Partial → Prop
  | stay (o : Option Partial) : Moves o [] o
  | opened : Moves none [] (some ([], none))
  | key (fields : Table Json) (name : Text) : Moves (some (fields, none)) [name]
    (some (fields, some name))
  | put (fields : Table Json) (name : Text) (v : Json) : Moves (some (fields, some name)) []
    (some (Table.put name v fields, none))

/-- Only an object without fields may be closed before a key. -/
def IsFresh (p : Progress) : Prop := ∀ fields, p.expect = .key fields true → fields = []

theorem isFresh_step (h : step p tok = .ok q) : IsFresh q := by
  intro fields hkey
  obtain ⟨expect, stack⟩ := p
  obtain ⟨lexeme, text⟩ := tok
  cases expect with
  | value m =>
    cases lexeme with
    | closeArray =>
      simp only [step] at h
      split at h <;> cases h
      cases hkey
    | openObject =>
      cases h
      cases hkey
      rfl
    | _ => cases h <;> cases hkey
  | key fields' m =>
    cases lexeme with
    | closeObject =>
      cases m <;> cases h
      cases hkey
    | _ => cases h <;> cases hkey
  | colon fields' key =>
    cases lexeme <;> cases h
    cases hkey
  | after v =>
    rcases stack with _ | ⟨_ | _, stack⟩
    · cases h
    · cases lexeme <;> cases h <;> cases hkey
    · cases lexeme <;> cases h <;> cases hkey

theorem moves_step (hfresh : IsFresh p) (h : step p tok = .ok q)
    (hplain : ∀ fields, tok.lexeme ≠ .value (.obj fields)) :
    Moves (outermost? p) (topNames (key? p tok).toList) (outermost? q) := by
  obtain ⟨expect, stack⟩ := p
  obtain ⟨lexeme, text⟩ := tok
  cases expect with
  | value m =>
    cases lexeme with
    | value v =>
      cases h
      cases stack with
      | nil =>
        cases v with
        | obj fields => exact absurd rfl (hplain fields)
        | _ => exact .stay none
      | cons => exact .stay _
    | string s =>
      cases h
      cases stack <;> exact .stay _
    | openArray =>
      cases h
      cases stack <;> exact .stay _
    | openObject =>
      cases h
      cases stack with
      | nil => exact .opened
      | cons => exact .stay _
    | closeArray =>
      cases m with
      | false => cases h
      | true =>
        rcases stack with _ | ⟨(_ | _) | _, stack⟩
        · cases h
        · cases h
          cases stack <;> exact .stay _
        · cases h
        · cases h
    | _ => cases h
  | key fields m =>
    cases lexeme with
    | string s =>
      cases h
      cases stack with
      | nil => exact .key fields s
      | cons => exact .stay _
    | closeObject =>
      cases m <;> cases h
      obtain rfl : fields = [] := hfresh fields rfl
      cases stack <;> exact .stay _
    | _ => cases h
  | colon fields key =>
    cases lexeme with
    | colon =>
      cases h
      cases stack <;> exact .stay _
    | _ => cases h
  | after v =>
    rcases stack with _ | ⟨items | ⟨fields, key⟩, stack⟩
    · cases h
    · cases lexeme <;> cases h <;> cases stack <;> exact .stay _
    · cases stack with
      | nil => cases lexeme <;> cases h <;> exact .put fields key v
      | cons => cases lexeme <;> cases h <;> exact .stay _

/-- The names are those of the values that were put into the object, and of the key that waits. -/
def HasRead (names : List Text) : Option Partial → Prop
  | none => names = []
  | some (fields, waiting) => ∃ entries : List (Text × Json), fields = Table.putAll [] entries ∧
    names = entries.map Prod.fst ++ waiting.toList

theorem HasRead.moves {o o' : Option Partial} (h : HasRead names o) {read : List Text}
    (hmoves : Moves o read o') : HasRead (names ++ read) o' := by
  cases hmoves with
  | stay => rwa [List.append_nil]
  | opened =>
    obtain rfl : names = [] := h
    exact ⟨[], rfl, rfl⟩
  | key fields name =>
    obtain ⟨entries, hfields, rfl⟩ := h
    exact ⟨entries, hfields, by simp⟩
  | put fields name v =>
    obtain ⟨entries, rfl, rfl⟩ := h
    exact ⟨entries ++ [(name, v)], (Table.putAll_concat (e := (name, v))).symm, by simp⟩

theorem keysFrom_cons {toks : List Token} (h : step p tok = .ok q) :
    keysFrom p (tok :: toks) = (key? p tok).toList ++ keysFrom q toks := by
  rw [keysFrom, h]

theorem HasRead.accepts (hnames : HasRead names (outermost? p)) (hfresh : IsFresh p)
    (h : Accepts (.obj fields) p t) : ∃ entries : List (Text × Json),
      fields = Table.putAll [] entries ∧
        entries.map Prod.fst = names ++ topNames (keysFrom p (lex t)) := by
  induction h generalizing names with
  | @finish p hfinish =>
    obtain ⟨expect, stack⟩ := p
    cases expect with
    | after v =>
      cases stack with
      | nil =>
        cases hfinish
        obtain ⟨entries, hfields, rfl⟩ := hnames
        exact ⟨entries, hfields, by simp [lex, keysFrom, topNames]⟩
      | cons => cases hfinish
    | _ => cases hfinish
  | @space p c t hspace _ ih =>
    rw [lex, if_pos hspace]
    exact ih hnames hfresh
  | @lexeme p q source t lexeme hspells hlex hstep _ ih =>
    have hplain : ∀ fields, lexeme ≠ .value (.obj fields) := by
      rintro fields rfl
      cases hspells with
      | mark hmark => cases hmark
      | bare _ hplain => exact hplain fields rfl
    have hread := hnames.moves (moves_step hfresh hstep hplain)
    obtain ⟨entries, hfields, hentries⟩ := ih hread (isFresh_step hstep)
    refine ⟨entries, hfields, ?_⟩
    rw [hentries, hlex, keysFrom_cons hstep, topNames_append, List.append_assoc]

/-- **The fields of a document are the values of its own keys**, put in one after another. -/
theorem exists_entries_of_parse (h : parse t = .ok (.obj fields)) :
    ∃ entries : List (Text × Json), fields = Table.putAll [] entries ∧
      entries.map Prod.fst = topNames (keys t) := by
  have hfresh : IsFresh ⟨.value false, []⟩ := by rintro _ ⟨⟩
  have hnames : HasRead [] (outermost? ⟨.value false, []⟩) := rfl
  exact hnames.accepts hfresh (accepts_of_parse h)

/-- A field of a document has a last key. -/
theorem exists_lastKey (h : parse t = .ok (.obj fields)) (hname : name ∈ fields.keys) :
    ∃ k, lastKey? t name = some k := by
  obtain ⟨entries, rfl, hentries⟩ := exists_entries_of_parse h
  rw [Table.keys_putAll, List.mem_eraseDups, hentries] at hname
  obtain ⟨k, hk, rfl⟩ := List.mem_map.mp hname
  obtain ⟨hmem, hdepth⟩ := List.mem_filter.mp hk
  refine Option.isSome_iff_exists.mp (List.find?_isSome.mpr ⟨k, List.mem_reverse.mpr hmem, ?_⟩)
  exact decide_eq_true ⟨of_decide_eq_true hdepth, rfl⟩

end ZigNif.Json
