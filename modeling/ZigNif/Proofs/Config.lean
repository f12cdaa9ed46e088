import ZigNif.Config
import ZigNif.Proofs.Nif.Declared
import ZigNif.Proofs.Workspace.Imports

/-!
# Proofs/Config — which config files are accepted

Every field of a config is read by itself: what one field may hold depends on no other.  So reading
a config is a sequence of checks, each with its own condition, and the config is accepted if all
these conditions hold.  `Checks` says so of one check, and is kept along the sequence.
-/

namespace ZigNif.Config

open Build BuildError Document

variable {α β : Type} {path : Path} {p q : Prop} {x : Except BuildError α} {b : BuildError}
  {fields : Table Json} {key : Text} {d : Document} {v : Json}

/-! ## Accepted configs -/

/-- The field is left out, or `p` holds of its value. -/
def Allows (fields : Table Json) (key : Text) (p : Json → Prop) : Prop :=
  ∀ v, fields.get? key = some v → p v

/-- The value is a string that is not empty. -/
def IsText (v : Json) : Prop := ∃ t : Text, t ≠ [] ∧ v = .str t

/-- The value equals the number zero. -/
inductive IsZero : Json → Prop
  | int : IsZero (.int 0)
  | false : IsZero (.bool false)
  | float {x : Binary64} (hx : x.isZero = true) : IsZero (.float x)

/-- The fields of a config that can be read. -/
structure IsConfig (fields : Table Json) : Prop where
  format : fields.get? "format" = some (.str "nifbind-module")
  version : ∃ v, fields.get? "version" = some v ∧ IsZero v
  known : ∀ key ∈ fields.keys, key ∈ fieldNames
  module : ∃ v, fields.get? "module" = some v ∧ IsText v
  flavor : Allows fields "flavor" fun v => ∃ f : Flavor, v = .str f.name
  file : Allows fields "file" fun v => v = .null ∨ IsText v
  dir : Allows fields "dir" fun v => v = .null ∨ IsText v
  code : Allows fields "code" fun v => v = .null ∨ ∃ t : Text, v = .str t
  codePath : Allows fields "code_path" fun v => v = .null ∨ IsText v
  nifs : Allows fields "nifs" fun v => ∃ items, v = .arr items ∧ ∀ i ∈ items, i.IsDeclaration
  attributes : Allows fields "attributes" fun v => ∃ attributes, v = .obj attributes
  resources : Allows fields "resources" fun v => ∃ items, v = .arr items ∧ ∀ i ∈ items, IsText i
  env : Allows fields "env" fun v => v = .null ∨ IsText v

/-! ## Checks -/

/-- The error is one in the configuration, in the config file. -/
structure IsComplaint (path : Path) (b : BuildError) : Prop where
  reason : b.reason = configReason
  file : b.span.file = some path.text

/-- A check succeeds if `p` holds, with a value that `r` holds of, and complains if it does not. -/
inductive Checks (path : Path) (p : Prop) (r : α → Prop) : Except BuildError α → Prop
  | ok {a : α} (hp : p) (ha : r a) : Checks path p r (.ok a)
  | error {b : BuildError} (hp : ¬ p) (hb : IsComplaint path b) : Checks path p r (.error b)

namespace Checks

variable {r : α → Prop} {s : β → Prop}

theorem congr (hpq : p ↔ q) (h : Checks path p r x) : Checks path q r x := by
  cases h with
  | ok hp ha => exact .ok (hpq.mp hp) ha
  | error hp hb => exact .error (fun hq => hp (hpq.mpr hq)) hb

theorem imp {r' : α → Prop} (h : Checks path p r x) (hr : ∀ a, p → r a → r' a) :
    Checks path p r' x := by
  cases h with
  | ok hp ha => exact .ok hp (hr _ hp ha)
  | error hp hb => exact .error hp hb

/-- Checks one after another check that all conditions hold. -/
theorem bind {f : α → Except BuildError β} (hx : Checks path p r x)
    (hf : ∀ a, r a → Checks path q s (f a)) : Checks path (p ∧ q) s (x >>= f) := by
  cases hx with
  | @ok a hp ha =>
    refine (hf a ha).congr (?_ : q ↔ p ∧ q)
    exact (and_iff_right hp).symm
  | error hp hb => exact .error (fun hpq => hp hpq.1) hb

end Checks

/-! ## Shapes -/

theorem isText_iff : IsText v ↔ ∃ t, nonEmptyText? v = some t := by
  constructor
  · rintro ⟨_ | ⟨c, t⟩, ht, rfl⟩
    · exact absurd rfl ht
    · exact ⟨_, rfl⟩
  · rintro ⟨t, ht⟩
    unfold nonEmptyText? at ht
    split at ht
    · exact ⟨_, List.cons_ne_nil _ _, rfl⟩
    · cases ht

theorem isZero_iff : IsZero v ↔ isZero v = true := by
  constructor
  · intro h
    cases h with
    | int => rfl
    | false => rfl
    | float hx => exact hx
  · intro h
    unfold isZero at h
    split at h
    · exact .int
    · exact .false
    · exact .float h
    · cases h

theorem exists_flavor_iff : (∃ f, Flavor.ofJson? v = some f) ↔ ∃ f : Flavor, v = .str f.name := by
  constructor
  · rintro ⟨f, hf⟩
    unfold Flavor.ofJson? at hf
    split at hf
    · have hname := List.find?_some hf
      exact ⟨f, congrArg Json.str (of_decide_eq_true hname).symm⟩
    · cases hf
  · rintro ⟨f, rfl⟩
    cases f with
    | elixir => exact ⟨.elixir, by decide⟩
    | erlang => exact ⟨.erlang, by decide⟩

theorem exists_code_iff : (∃ c, code? v = some c) ↔ v = .null ∨ ∃ t : Text, v = .str t := by
  cases v <;> simp [code?]

theorem array?_eq_some_iff {items : List Json} : array? v = some items ↔ v = .arr items := by
  cases v <;> simp [array?]

theorem exists_object_iff : (∃ o, object? v = some o) ↔ ∃ o, v = .obj o := by
  cases v <;> simp [object?]

/-- All elements are checked, one by one. -/
theorem exists_mapM_nonEmptyText_iff {items : List Json} :
    (∃ names, items.mapM nonEmptyText? = some names) ↔ ∀ i ∈ items, IsText i := by
  induction items with
  | nil => exact iff_of_true ⟨[], rfl⟩ (List.forall_mem_nil _)
  | cons i items ih =>
    rw [List.forall_mem_cons, ← ih, isText_iff]
    simp only [List.mapM_cons, Option.bind_eq_bind, Option.bind_eq_some_iff, Option.pure_def]
    constructor
    · rintro ⟨_, t, ht, names, hnames, -⟩
      exact ⟨⟨t, ht⟩, names, hnames⟩
    · rintro ⟨⟨t, ht⟩, names, hnames⟩
      exact ⟨_, t, ht, names, hnames, rfl⟩

theorem exists_names_iff :
    (∃ names, names? v = some names) ↔ ∃ items, v = .arr items ∧ ∀ i ∈ items, IsText i := by
  cases v with
  | arr items =>
    simp only [names?, exists_mapM_nonEmptyText_iff, Json.arr.injEq, exists_eq_left']
  | _ => simp [names?]

/-! ## Single fields -/

/-- A field that may be missing has its default then, and is checked otherwise. -/
theorem checks_field {module : Text} {complaint : Json → Text} {default : α}
    {shape? : Json → Option α} :
    Checks d.path (Allows d.fields key fun v => ∃ a, shape? v = some a)
      (fun a => d.fields.get? key = none ∧ a = default ∨
        ∃ v, d.fields.get? key = some v ∧ shape? v = some a)
      (d.field module key complaint default shape?) := by
  unfold field
  cases hget : d.fields.get? key with
  | none => exact .ok (fun v hv => by rw [hget] at hv; cases hv) (.inl ⟨rfl, rfl⟩)
  | some v =>
    cases hshape : shape? v with
    | some a =>
      simp only [hshape]
      refine .ok (fun v' hv' => ?_) (.inr ⟨v, rfl, hshape⟩)
      obtain rfl := Option.some.inj (hget.symm.trans hv')
      exact ⟨a, hshape⟩
    | none =>
      simp only [hshape]
      refine .error (fun hallows => ?_) ⟨rfl, rfl⟩
      obtain ⟨a, ha⟩ := hallows v hget
      rw [hshape] at ha
      cases ha

/-- A field may have a text or not. -/
theorem checks_text? : Checks d.path (Allows d.fields key fun v => v = .null ∨ IsText v)
    (fun _ => True) (d.text? key) := by
  unfold text?
  split
  · rename_i hget
    exact .ok (fun v hv => by rw [hget] at hv; cases hv) trivial
  · rename_i hget
    refine .ok (fun v hv => ?_) trivial
    exact .inl (Option.some.inj (hv.symm.trans hget))
  · rename_i c t hget
    refine .ok (fun v hv => ?_) trivial
    obtain rfl := Option.some.inj (hget.symm.trans hv)
    exact .inr ⟨_, List.cons_ne_nil c t, rfl⟩
  · rename_i v hnull htext hget
    refine .error (fun hallows => ?_) ⟨rfl, rfl⟩
    rcases hallows v hget with rfl | ⟨_ | ⟨c, t⟩, ht, rfl⟩
    · exact hnull rfl
    · exact ht rfl
    · exact htext c t rfl

theorem checks_moduleName : Checks d.path (∃ v, d.fields.get? "module" = some v ∧ IsText v)
    (fun _ => True) d.moduleName := by
  unfold moduleName text?
  cases hget : d.fields.get? "module" with
  | none => exact .error (by rintro ⟨v, hv, -⟩; cases hv) ⟨rfl, rfl⟩
  | some v =>
    cases v with
    | str t =>
      cases t with
      | nil => exact .error (by rintro ⟨_, ⟨⟩, t, ht, ⟨⟩⟩; exact ht rfl) ⟨rfl, rfl⟩
      | cons c t => exact .ok ⟨_, rfl, _, List.cons_ne_nil c t, rfl⟩ trivial
    | _ => exact .error (by rintro ⟨_, ⟨⟩, t, -, ⟨⟩⟩) ⟨rfl, rfl⟩

/-- Format and version are looked at together. -/
theorem isSupported_iff : d.isSupported = true ↔
    d.fields.get? "format" = some (.str "nifbind-module") ∧
      ∃ v, d.fields.get? "version" = some v ∧ IsZero v := by
  rw [isSupported, Bool.and_eq_true, Option.any_eq_true]
  refine and_congr ?_ (by simp only [isZero_iff])
  split
  · rename_i t hget
    rw [hget, decide_eq_true_iff, Option.some.injEq, Json.str.injEq]
  · rename_i hnot
    exact iff_of_false Bool.false_ne_true (hnot _)

theorem checks_checkFormat : Checks d.path (d.fields.get? "format" = some (.str "nifbind-module") ∧
    ∃ v, d.fields.get? "version" = some v ∧ IsZero v) (fun _ => True) d.checkFormat := by
  rw [← isSupported_iff, checkFormat]
  split
  case isTrue h => exact .ok h trivial
  case isFalse h => exact .error h ⟨rfl, rfl⟩

/-- Each field has a name that is known. -/
theorem checks_checkFields : Checks d.path (∀ key ∈ d.fields.keys, key ∈ fieldNames)
    (fun _ => True) d.checkFields := by
  have hknown : d.fields.keys.filter (fun k => k ∉ fieldNames) = [] ↔
      ∀ key ∈ d.fields.keys, key ∈ fieldNames := by
    simp only [List.filter_eq_nil_iff, decide_eq_true_eq, not_not]
  rw [checkFields, ← hknown]
  split
  case isTrue h => exact .ok h trivial
  case isFalse h => exact .error h ⟨rfl, rfl⟩

theorem checks_checkNifs {nifs : List Json} : Checks d.path (∀ v ∈ nifs, v.IsDeclaration)
    (fun _ => True) (d.checkNifs nifs) := by
  rw [checkNifs, List.forM_eq_forM]
  induction nifs with
  | nil => exact .ok (List.forall_mem_nil _) trivial
  | cons v nifs ih =>
    rw [List.forM_cons, List.forall_mem_cons]
    refine Checks.bind (r := fun _ => True) ?_ fun _ _ => ih
    cases hv : Declaration.ofJson v with
    | ok a => exact .ok (Declaration.exists_ofJson_eq_ok_iff.mp ⟨a, hv⟩) trivial
    | error fault => exact .error (Declaration.not_isDeclaration_of_ofJson hv) ⟨rfl, rfl⟩

/-- What is checked of the nifs that were read is checked of the field. -/
theorem forall_isDeclaration_iff {nifs : List Json}
    (hnifs : fields.get? "nifs" = none ∧ nifs = [] ∨
      ∃ v, fields.get? "nifs" = some v ∧ array? v = some nifs) :
    (∀ v ∈ nifs, v.IsDeclaration) ↔
      Allows fields "nifs" fun v => ∀ items, v = .arr items → ∀ i ∈ items, i.IsDeclaration := by
  rcases hnifs with ⟨hget, rfl⟩ | ⟨v, hget, hv⟩
  · exact iff_of_true (List.forall_mem_nil _) fun v hv => by rw [hget] at hv; cases hv
  · obtain rfl := array?_eq_some_iff.mp hv
    constructor
    · rintro h _ hv _ rfl
      rw [hget] at hv
      cases hv
      exact h
    · exact fun h => h _ hget _ rfl

/-! ## Whole configs -/

/-- **A document is checked as a whole field by field, in the order of the checks.** -/
theorem checks_options (h : Host) (d : Document) : Checks d.path (IsConfig d.fields)
    (fun o => ∀ v ∈ o.nifs, v.IsDeclaration) (d.options h) := by
  refine Checks.congr ?_ <|
    checks_checkFormat.bind fun _ _ =>
    checks_checkFields.bind fun _ _ =>
    checks_moduleName.bind fun module _ =>
    checks_field.bind fun flavor _ =>
    checks_text?.bind fun file _ =>
    checks_text?.bind fun dir _ =>
    checks_field.bind fun code _ =>
    checks_text?.bind fun codePath _ =>
    checks_field.bind fun nifs hnifs =>
    ((checks_checkNifs.imp fun _ hp _ => hp).congr (forall_isDeclaration_iff hnifs)).bind
      fun _ (hdeclared : ∀ v ∈ nifs, v.IsDeclaration) =>
    checks_field.bind fun attributes _ =>
    checks_field.bind fun resources _ =>
    checks_text?.bind fun env _ =>
    .ok trivial hdeclared
  simp only [exists_flavor_iff, exists_code_iff, array?_eq_some_iff, exists_object_iff,
    exists_names_iff]
  constructor
  · rintro ⟨⟨hformat, hversion⟩, hknown, hmodule, hflavor, hfile, hdir, hcode, hcodePath, hnifs,
      hdeclared, hattributes, hresources, henv, -⟩
    refine ⟨hformat, hversion, hknown, hmodule, hflavor, hfile, hdir, hcode, hcodePath, ?_,
      hattributes, hresources, henv⟩
    intro v hv
    obtain ⟨items, rfl⟩ := hnifs v hv
    exact ⟨items, rfl, hdeclared _ hv items rfl⟩
  · rintro ⟨hformat, hversion, hknown, hmodule, hflavor, hfile, hdir, hcode, hcodePath, hnifs,
      hattributes, hresources, henv⟩
    refine ⟨⟨hformat, hversion⟩, hknown, hmodule, hflavor, hfile, hdir, hcode, hcodePath, ?_, ?_,
      hattributes, hresources, henv, trivial⟩
    · intro v hv
      obtain ⟨items, rfl, -⟩ := hnifs v hv
      exact ⟨items, rfl⟩
    · rintro _ hv _ rfl
      obtain ⟨_, ⟨⟩, hitems⟩ := hnifs _ hv
      exact hitems

/-! ## Config files -/

section Load

variable {h : Host} {w : Workspace} {text : Text}

/-- No number in the text is too long to be read. -/
def IsShort (text : Text) : Prop :=
  ∀ fault long, Json.parse text = .error fault → fault.complaint ≠ .longNumber long

/-- The file can be read, and holds a config. -/
def HoldsConfig (h : Host) (files : FileTree) (path : Path) : Prop :=
  ∃ bytes text fields, files.read h.here path = .ok bytes ∧ Utf8.decode bytes = .ok text ∧
    Json.parse (Text.unifyNewlines text) = .ok (.obj fields) ∧ IsConfig fields

/-- By a path without null bytes, a file is read as it is. -/
theorem holdsConfig_iff {files : FileTree} (hnull : hasNull path = false) :
    HoldsConfig h files path ↔ ∃ text fields, fileText h files path = .ok text ∧
      Json.parse text = .ok (.obj fields) ∧ IsConfig fields := by
  constructor
  · rintro ⟨bytes, text, fields, hread, hdecode, hparse, hfields⟩
    refine ⟨_, fields, ?_, hparse, hfields⟩
    rw [fileText, hnull, if_neg Bool.false_ne_true, hread]
    simp only [hdecode]
  · rintro ⟨_, fields, hfile, hparse, hfields⟩
    obtain ⟨bytes, hread, hdecode⟩ := exists_read_of_fileText hfile
    obtain ⟨text, htext, rfl⟩ := map_eq_ok_iff.mp hdecode
    exact ⟨bytes, text, fields, hread, htext, hparse, hfields⟩

/-- A text whose numbers are short enough is an object, or an error that names its file. -/
theorem exists_checks_document (hshort : IsShort text) : ∃ r,
    document path text = r.mapError .build ∧
      Checks path (∃ fields, Json.parse text = .ok (.obj fields))
        (fun d => d.path = path ∧ Json.parse text = .ok (.obj d.fields)) r := by
  unfold document
  split
  · rename_i hparse
    exact absurd rfl (hshort _ _ hparse)
  · rename_i hparse
    refine ⟨.error _, rfl, .error ?_ ⟨rfl, rfl⟩⟩
    rintro ⟨fields, hfields⟩
    rw [hparse] at hfields
    cases hfields
  · rename_i fields hparse
    exact ⟨.ok _, rfl, .ok ⟨fields, hparse⟩ ⟨rfl, hparse⟩⟩
  · rename_i hnot hparse
    refine ⟨.error _, rfl, .error ?_ ⟨rfl, rfl⟩⟩
    rintro ⟨fields, hfields⟩
    exact hnot fields (Except.ok.inj (hparse.symm.trans hfields))

/-- Loading a config checks that the file holds one. -/
theorem exists_checks_load (hnull : hasNull path = false)
    (hshort : ∀ text, fileText h w.files path = .ok text → IsShort text) : ∃ r,
    (load path).runIn h w = (r.mapError .build, w) ∧
      Checks path (HoldsConfig h w.files path) (fun o => ∀ v ∈ o.nifs, v.IsDeclaration) r := by
  rw [holdsConfig_iff hnull]
  simp only [load, runIn_bind, runIn_readTextOr, runIn_read, runIn_ofExcept, runIn_ofBuild]
  cases hfile : fileText h w.files path with
  | error failure =>
    obtain ⟨why, hwhy⟩ : ∃ why, readFault? failure = some why := by
      refine Option.ne_none_iff_exists'.mp fun hnone => ?_
      rw [readFault?_eq_none_iff hfile, hnull] at hnone
      cases hnone
    simp only [mapError_error, hwhy]
    refine ⟨.error _, rfl, .error ?_ ⟨rfl, rfl⟩⟩
    rintro ⟨text, fields, htext, -⟩
    cases htext
  | ok text =>
    simp only [mapError_ok]
    obtain ⟨r, hr, hchecks⟩ := exists_checks_document (hshort text hfile)
    rw [hr]
    cases hchecks with
    | error hp hb =>
      refine ⟨.error _, rfl, .error ?_ hb⟩
      rintro ⟨_, fields, ⟨⟩, hparse, -⟩
      exact hp ⟨fields, hparse⟩
    | @ok d hp hd =>
      obtain ⟨rfl, hparse⟩ := hd
      refine ⟨d.options h, rfl, (checks_options h d).congr ⟨fun hfields => ?_, ?_⟩⟩
      · exact ⟨text, d.fields, rfl, hparse, hfields⟩
      · rintro ⟨_, fields, ⟨⟩, hparse', hfields⟩
        rw [hparse] at hparse'
        cases hparse'
        exact hfields

/-- **A config file is loaded if and only if it holds a config.**

Loading changes nothing.  If the file does not hold a config, it fails with an error in the
configuration that names the file; numbers that are too long for the JSON reader apart, there is no
other way to fail.  If it does, the nifs of the options have a normal form. -/
theorem load_iff (hnull : hasNull path = false)
    (hshort : ∀ text, fileText h w.files path = .ok text → IsShort text) :
    ((load path).runIn h w).2 = w ∧
    ((∃ o, ((load path).runIn h w).1 = .ok o) ↔ HoldsConfig h w.files path) ∧
    (∀ e, ((load path).runIn h w).1 = .error e → ∃ b, e = .build b ∧ IsComplaint path b) ∧
    ∀ o, ((load path).runIn h w).1 = .ok o → ∃ declared, o.declared = .ok declared := by
  obtain ⟨r, hrun, hchecks⟩ := exists_checks_load hnull hshort
  rw [hrun]
  cases hchecks with
  | @ok o hp hnifs =>
    refine ⟨rfl, iff_of_true ⟨o, rfl⟩ hp, ?_, ?_⟩ <;> rintro _ ⟨⟩
    obtain ⟨declared, hdeclared⟩ := Declared.exists_ofJson_eq_ok_iff.mpr hnifs
    exact ⟨declared, Options.declared_eq_ok_iff.mpr hdeclared⟩
  | @error b hp hb =>
    refine ⟨rfl, iff_of_false (by rintro ⟨o, ⟨⟩⟩) hp, ?_, ?_⟩ <;> rintro _ ⟨⟩
    exact ⟨b, rfl, hb⟩

/-- A config whose version is a zero with a fraction, and whose directory is null. -/
def smallConfig : Text :=
  "\x7b\"format\":\"nifbind-module\",\"version\":0.0,\"module\":\"M\",\"dir\":null,"
    ++ "\"nifs\":[\"f\",\"...\"]\x7d"

def smallFields : Table Json :=
  [("format", .str "nifbind-module"), ("version", .float (.finite false 0 (-1074))),
    ("module", .str "M"), ("dir", .null), ("nifs", .arr [.str "f", .str "..."])]

def smallHost : Host := { here := ["w"], temporary := "/tmp", run := fun _ => {} }

def smallFiles : FileTree :=
  .directory [("w", .directory [("m.json", .file (Utf8.encode smallConfig))])]

set_option maxRecDepth 4000 in
theorem parse_smallConfig : Json.parse smallConfig = .ok (.obj smallFields) := by
  with_unfolding_all rfl

theorem isConfig_smallFields : IsConfig smallFields where
  format := rfl
  version := ⟨_, rfl, .float rfl⟩
  known := by decide
  module := ⟨_, rfl, "M", by decide, rfl⟩
  flavor := by rintro _ ⟨⟩
  file := by rintro _ ⟨⟩
  dir := by rintro _ ⟨⟩; exact .inl rfl
  code := by rintro _ ⟨⟩
  codePath := by rintro _ ⟨⟩
  nifs := by
    rintro _ ⟨⟩
    refine ⟨_, rfl, List.forall_mem_cons.mpr ⟨.inr ⟨_, _, .bare (n := "f") ?_⟩, ?_⟩⟩
    · exact ⟨by decide, by decide⟩
    · exact List.forall_mem_singleton.mpr (.inl rfl)
  attributes := by rintro _ ⟨⟩
  resources := by rintro _ ⟨⟩
  env := by rintro _ ⟨⟩

/-- The config is loaded, and a file that there is not is complained about. -/
theorem load_iff_small :
    (∃ o declared, ((load (.ofText "m.json")).runIn smallHost { files := smallFiles }).1 = .ok o ∧
      o.declared = .ok declared) ∧
    ∃ b, ((load (.ofText "n.json")).runIn smallHost { files := smallFiles }).1 =
      .error (.build b) ∧ IsComplaint (.ofText "n.json") b := by
  constructor
  · have hfile : fileText smallHost smallFiles (.ofText "m.json") = .ok smallConfig :=
      toOption_eq_some_iff.mp (by decide +kernel)
    have hshort : ∀ text, fileText smallHost smallFiles (.ofText "m.json") = .ok text →
        IsShort text := by
      intro text htext fault long hfault
      obtain rfl := Except.ok.inj (hfile.symm.trans htext)
      rw [parse_smallConfig] at hfault
      cases hfault
    obtain ⟨-, hiff, -, hdeclared⟩ :=
      load_iff (h := smallHost) (w := { files := smallFiles }) rfl hshort
    obtain ⟨o, ho⟩ := hiff.mpr <|
      (holdsConfig_iff rfl).mpr ⟨_, _, hfile, parse_smallConfig, isConfig_smallFields⟩
    obtain ⟨declared, hnormal⟩ := hdeclared o ho
    exact ⟨o, declared, ho, hnormal⟩
  · have hfile : fileText smallHost smallFiles (.ofText "n.json") =
        .error (.file .missing "n.json") := by with_unfolding_all rfl
    obtain ⟨-, hiff, herror, -⟩ := load_iff (h := smallHost) (w := { files := smallFiles })
      rfl fun text htext => by rw [hfile] at htext; cases htext
    cases hrun : ((load (.ofText "n.json")).runIn smallHost { files := smallFiles }).1 with
    | error e =>
      obtain ⟨b, rfl, hb⟩ := herror e hrun
      exact ⟨b, rfl, hb⟩
    | ok o =>
      obtain ⟨text, fields, htext, -⟩ := (holdsConfig_iff rfl).mp (hiff.mp ⟨o, hrun⟩)
      rw [hfile] at htext
      cases htext

end Load

end ZigNif.Config
