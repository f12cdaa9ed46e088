import ZigNif.Proofs.Report

/-!
# Proofs/Report/Exports — which reports can be read, and as what

In a well-formed report every function has a name, and if it says more, then the parameter types as
an array of strings, the return type as a string, and a mode.  Such a report is read as it stands.
More can be read than that: any value that can be listed counts as parameters, and any value at all
as a return type.  `IsRead` says exactly what is read as what, and `IsTyped` what a report may not
do for being well formed.
-/

namespace ZigNif

namespace Report

/-! ## Well-formed reports -/

/-- The field has the value, or it is left out and stands for the default. -/
def Says (v : Json) (key : Text) (value : Json) (isDefault : Prop) : Prop :=
  v.get? key = some value ∨ v.get? key = none ∧ isDefault

/-- The object describes the export. -/
structure Describes (v : Json) (e : Export) : Prop where
  name : v.get? "name" = some (.str e.name)
  params : Says v "params" (.arr (e.signature.params.map .str)) (e.signature.params = [])
  returns : Says v "returns" (.str e.signature.returns) (e.signature.returns = ("void" : Text))
  mode : Says v "concurrency" (.str e.mode.name) (e.mode = .synchronous)

/-- The text is a JSON object with these functions. -/
def HasFunctions (text : Text) (entries : List Json) : Prop :=
  ∃ v, Json.parse text = .ok v ∧ v.get? "functions" = some (.arr entries)

/-- The text is a report of the exports, in their order. -/
def IsReportOf (text : Text) (es : List Export) : Prop :=
  ∃ entries, HasFunctions text entries ∧ List.Forall₂ Describes entries es

/-- The number of parameters that an element of a report lists. -/
def paramCount (v : Json) : Nat :=
  match v.get? "params" with
  | some (.arr items) => items.length
  | _ => 0

/-! ## Everything that is read -/

/-- The value stands for no parameters at all. -/
inductive IsVoid : Json → Prop
  | null : IsVoid .null
  | false : IsVoid (.bool false)
  | int : IsVoid (.int 0)
  | float {x : Binary64} (hx : x.isZero = true) : IsVoid (.float x)

/-- What is read as a list of parameter types: the items of an array in their plain form, but also
the characters of a string and the keys of an object. -/
inductive Lists : Option Json → List Text → Prop
  | absent : Lists none []
  | void {v : Json} (hv : IsVoid v) : Lists (some v) []
  | items (items : List Json) : Lists (some (.arr items)) (items.map Json.plain)
  | characters (t : Text) : Lists (some (.str t)) (t.map fun c => [c])
  | keys (fields : Table Json) : Lists (some (.obj fields)) (Table.keys fields)

/-- The object is read as the export. -/
structure IsRead (v : Json) (e : Export) : Prop where
  name : v.get? "name" = some (.str e.name)
  params : Lists (v.get? "params") e.signature.params
  returns : e.signature.returns = (v.get? "returns").elim ("void" : Text) Json.plain
  mode : Says v "concurrency" (.str e.mode.name) (e.mode = .synchronous)

/-- Parameter types are an array of strings, and the return type is a string, if they are there. -/
structure IsTyped (v : Json) : Prop where
  params : ∀ p, v.get? "params" = some p → ∃ types : List Text, p = .arr (types.map .str)
  returns : ∀ r, v.get? "returns" = some r → ∃ t : Text, r = .str t

variable {file : Option Text} {text : Text} {v p : Json} {names : List Text} {e : Export}
  {es : List Export} {entries : List Json} {fields : Table Json} {m : Mode}

theorem get?_obj (key : Text) : Json.get? key (.obj fields) = Table.get? fields key := rfl

theorem exists_obj_of_get? {key : Text} (h : v.get? key = some p) : ∃ fields, v = .obj fields := by
  cases v with
  | obj fields => exact ⟨fields, rfl⟩
  | _ => cases h

theorem map_plain_str (types : List Text) :
    ((types.map Json.str).map Json.plain : List Text) = types := by
  rw [List.map_map]
  exact List.map_id' types

/-! ## One element -/

/-- What counts as empty lists nothing. -/
theorem lists_of_isEmpty (hempty : isEmpty p) : Lists (some p) [] := by
  cases p with
  | null => exact .void .null
  | bool b =>
    cases b with
    | false => exact .void .false
    | true => cases hempty
  | int n =>
    obtain rfl : n = 0 := by
      unfold isEmpty at hempty
      split at hempty <;> simp_all
    exact .void .int
  | float x => exact .void (.float hempty)
  | str t =>
    obtain rfl : t = [] := of_decide_eq_true hempty
    exact .characters []
  | arr items =>
    obtain rfl : items = [] := List.isEmpty_iff.mp hempty
    exact .items []
  | obj fields =>
    obtain rfl : fields = [] := List.isEmpty_iff.mp hempty
    exact .keys []

theorem params_of_lists (hlists : Lists (some p) names) : params p = .ok names := by
  cases hlists with
  | void hv =>
    cases hv with
    | null => rfl
    | false => rfl
    | int => rfl
    | float hx => exact if_pos hx
  | items items =>
    cases items with
    | nil => rfl
    | cons i items => rfl
  | characters t =>
    cases t with
    | nil => rfl
    | cons c t => rfl
  | keys fields =>
    cases fields with
    | nil => rfl
    | cons f fields => rfl

theorem params_eq_ok_iff : params p = .ok names ↔ Lists (some p) names := by
  refine ⟨fun h => ?_, params_of_lists⟩
  unfold params at h
  split at h
  case isTrue hempty => exact Except.ok.inj h ▸ lists_of_isEmpty hempty
  case isFalse =>
    split at h
    · exact Except.ok.inj h ▸ .items _
    · exact Except.ok.inj h ▸ .characters _
    · exact Except.ok.inj h ▸ .keys _
    · cases h
    · cases h
    · cases h

/-- Parameters that are left out count like null. -/
theorem params_getD_eq_ok_iff {o : Option Json} :
    params (o.getD .null) = .ok names ↔ Lists o names := by
  cases o with
  | none =>
    constructor
    · intro h
      cases h
      exact .absent
    · rintro ⟨⟩
      rfl
  | some p => exact params_eq_ok_iff

theorem ofJson?_eq_some_iff : Mode.ofJson? v = some m ↔ v = .str m.name := by
  constructor
  · intro h
    unfold Mode.ofJson? at h
    split at h
    · rename_i t
      have hname := List.find?_some h
      rw [of_decide_eq_true hname]
    · cases h
  · rintro rfl
    cases m <;> decide

theorem mode_eq_ok_iff : mode file fields = .ok m ↔
    Says (.obj fields) "concurrency" (.str m.name) (m = .synchronous) := by
  rw [mode, Says, get?_obj]
  cases hget : fields.get? "concurrency" with
  | none => simp [eq_comm]
  | some v =>
    simp only [Option.some.injEq, reduceCtorEq, false_and, or_false, ← ofJson?_eq_some_iff]
    cases Mode.ofJson? v <;> simp

/-- **An element of a report is read as the export that it is read as.** -/
theorem exportOf_eq_ok_iff : exportOf file v = .ok e ↔ IsRead v e := by
  unfold exportOf
  split
  · rename_i fields name hname
    simp only [bind_eq_ok_iff, mode_eq_ok_iff, params_getD_eq_ok_iff, pure, Except.pure,
      Except.ok.injEq]
    constructor
    · rintro ⟨m, hmode, names, hparams, rfl⟩
      exact ⟨hname, hparams, rfl, hmode⟩
    · rintro ⟨hname', hparams, hreturns, hmode⟩
      rw [hname, Option.some.injEq, Json.str.injEq] at hname'
      obtain ⟨_, ⟨names, returns⟩, m⟩ := e
      obtain rfl := hname'
      obtain rfl := hreturns
      exact ⟨m, hmode, names, hparams, rfl⟩
  · rename_i hnot
    constructor
    · intro h
      cases h
    · intro h
      obtain ⟨fields, rfl⟩ := exists_obj_of_get? h.name
      exact absurd h.name (hnot fields e.name rfl)

theorem lists_none : Lists none names ↔ names = [] := by
  constructor
  · rintro ⟨⟩
    rfl
  · rintro rfl
    exact .absent

theorem lists_strings {types : List Text} :
    Lists (some (.arr (types.map .str))) names ↔ names = types := by
  constructor
  · intro h
    cases h with
    | void hv => cases hv
    | items => exact map_plain_str types
  · rintro rfl
    have h := Lists.items (names.map .str)
    rwa [map_plain_str] at h

theorem says_params_iff : Says v "params" (.arr (names.map .str)) (names = []) ↔
    Lists (v.get? "params") names ∧
      ∀ p, v.get? "params" = some p → ∃ types : List Text, p = .arr (types.map .str) := by
  rw [Says]
  cases v.get? "params" with
  | none => simp [lists_none]
  | some p =>
    constructor
    · rintro (hget | ⟨⟨⟩, -⟩)
      obtain rfl := Option.some.inj hget
      exact ⟨lists_strings.mpr rfl, fun _ hp => ⟨names, (Option.some.inj hp).symm⟩⟩
    · rintro ⟨hlists, htypes⟩
      obtain ⟨types, rfl⟩ := htypes p rfl
      obtain rfl := lists_strings.mp hlists
      exact .inl rfl

theorem says_returns_iff {t : Text} : Says v "returns" (.str t) (t = ("void" : Text)) ↔
    t = (v.get? "returns").elim ("void" : Text) Json.plain ∧
      ∀ r, v.get? "returns" = some r → ∃ u : Text, r = .str u := by
  rw [Says]
  cases v.get? "returns" with
  | none => simp
  | some r =>
    constructor
    · rintro (hget | ⟨⟨⟩, -⟩)
      obtain rfl := Option.some.inj hget
      exact ⟨rfl, fun _ hr => ⟨t, (Option.some.inj hr).symm⟩⟩
    · rintro ⟨hplain, hstring⟩
      obtain ⟨u, rfl⟩ := hstring r rfl
      obtain rfl : t = u := hplain
      exact .inl rfl

/-- What an element describes is what it is read as, if it is well formed. -/
theorem describes_iff : Describes v e ↔ IsRead v e ∧ IsTyped v := by
  constructor
  · rintro ⟨hname, hparams, hreturns, hmode⟩
    obtain ⟨hlists, htypes⟩ := says_params_iff.mp hparams
    obtain ⟨hplain, hstring⟩ := says_returns_iff.mp hreturns
    exact ⟨⟨hname, hlists, hplain, hmode⟩, htypes, hstring⟩
  · rintro ⟨⟨hname, hlists, hplain, hmode⟩, htypes, hstring⟩
    exact ⟨hname, says_params_iff.mpr ⟨hlists, htypes⟩, says_returns_iff.mpr ⟨hplain, hstring⟩,
      hmode⟩

theorem Describes.paramCount_eq (h : Describes v e) : e.signature.arity = paramCount v := by
  rw [Signature.arity, paramCount]
  rcases h.params with hget | ⟨hget, hnone⟩
  · rw [hget]
    exact (List.length_map _).symm
  · rw [hget, hnone]
    rfl

/-! ## Whole reports -/

theorem HasFunctions.eq {entries' : List Json} (h : HasFunctions text entries)
    (h' : HasFunctions text entries') : entries = entries' := by
  obtain ⟨v, hparse, hget⟩ := h
  obtain ⟨v', hparse', hget'⟩ := h'
  obtain rfl := Except.ok.inj (hparse.symm.trans hparse')
  exact Json.arr.inj (Option.some.inj (hget.symm.trans hget'))

theorem ofText_eq_ok_iff : ofText file text = .ok es ↔
    ∃ entries, HasFunctions text entries ∧ List.Forall₂ IsRead entries es := by
  have hread : ∀ entries, entries.mapM (exportOf file) = .ok es ↔ List.Forall₂ IsRead entries es :=
    fun entries => by simp only [mapM_eq_ok_iff_forall₂, exportOf_eq_ok_iff]
  constructor
  · intro h
    unfold ofText at h
    split at h
    · cases h
    · cases h
    · rename_i v hparse
      split at h
      · rename_i entries hget
        exact ⟨entries, ⟨v, hparse, hget⟩, (hread entries).mp h⟩
      · cases h
  · rintro ⟨entries, ⟨v, hparse, hget⟩, hentries⟩
    unfold ofText
    simp only [hparse, hget]
    exact (hread entries).mpr hentries

theorem forall₂_describes_iff : List.Forall₂ Describes entries es ↔
    List.Forall₂ IsRead entries es ∧ ∀ v ∈ entries, IsTyped v := by
  rw [and_comm, ← List.forall₂_and_left]
  have hsplit : ∀ v e, Describes v e ↔ IsTyped v ∧ IsRead v e :=
    fun v e => describes_iff.trans and_comm
  exact ⟨List.Forall₂.imp fun v e => (hsplit v e).mp, List.Forall₂.imp fun v e => (hsplit v e).mpr⟩

theorem arities_of_describes (h : List.Forall₂ Describes entries es) :
    es.map (fun e => e.signature.arity) = entries.map paramCount := by
  induction h with
  | nil => rfl
  | cons hv _ ih => rw [List.map_cons, List.map_cons, ih, hv.paramCount_eq]

/-- **A report is read as the exports that it describes.**

A text can be read if and only if each of its functions can be read as an export, and then there is
one export for each function, in their order.  A well-formed report is read as it stands, with as
many parameters as its arrays have items; but what is read is a well-formed report only if all its
functions are typed.  What cannot be read is complained about in the module's file, unless it is
spoiled by a number that is too long or by parameters that are neither listed nor void. -/
theorem ofText_exports (file : Option Text) (text : Text) :
    (∀ es, ofText file text = .ok es ↔
      ∃ entries, HasFunctions text entries ∧ List.Forall₂ IsRead entries es) ∧
    (∀ es entries, IsReportOf text es → HasFunctions text entries → ofText file text = .ok es ∧
      es.map (fun e => e.signature.arity) = entries.map paramCount) ∧
    (∀ es entries, ofText file text = .ok es → HasFunctions text entries →
      (IsReportOf text es ↔ ∀ v ∈ entries, IsTyped v)) ∧
    ∀ e, ofText file text = .error e →
      Spoils file text e ∨ ∃ b, e = .build b ∧ IsComplaint file b := by
  refine ⟨fun es => ofText_eq_ok_iff, ?_, ?_, fun e he => ?_⟩
  · rintro es entries ⟨entries', hfunctions', hdescribes⟩ hfunctions
    obtain rfl := hfunctions'.eq hfunctions
    have hread := (forall₂_describes_iff.mp hdescribes).1
    exact ⟨ofText_eq_ok_iff.mpr ⟨_, hfunctions, hread⟩, arities_of_describes hdescribes⟩
  · intro es entries hok hfunctions
    obtain ⟨entries', hfunctions', hread⟩ := ofText_eq_ok_iff.mp hok
    obtain rfl := hfunctions'.eq hfunctions
    constructor
    · rintro ⟨entries, hfunctions', hdescribes⟩
      obtain rfl := hfunctions'.eq hfunctions
      exact (forall₂_describes_iff.mp hdescribes).2
    · intro htyped
      exact ⟨_, hfunctions, forall₂_describes_iff.mpr ⟨hread, htyped⟩⟩
  · by_cases hb : ∃ b, e = .build b
    · obtain ⟨b, rfl⟩ := hb
      exact .inr ⟨b, rfl, isComplaint_of_ofText he⟩
    · exact .inl (ofText_eq_error_iff.mp ⟨he, fun b hb' => hb ⟨b, hb'⟩⟩)

/-- A report with and without types. -/
def pairReport : Text :=
  "\x7b\"functions\":[\x7b\"name\":\"add\",\"params\":[\"i64\",\"i64\"],\"returns\":\"i64\"\x7d,"
    ++ "\x7b\"name\":\"spin\",\"concurrency\":\"dirty_cpu\"\x7d]\x7d"

def pairEntries : List Json :=
  [.obj [("name", .str "add"), ("params", .arr [.str "i64", .str "i64"]), ("returns", .str "i64")],
    .obj [("name", .str "spin"), ("concurrency", .str "dirty_cpu")]]

def pairExports : List Export :=
  [{ name := "add", signature := { params := ["i64", "i64"], returns := "i64" },
     mode := .synchronous },
    { name := "spin", signature := { params := [], returns := "void" }, mode := .dirtyCpu }]

set_option maxRecDepth 4000 in
theorem parse_pairReport :
    Json.parse pairReport = .ok (.obj [("functions", .arr pairEntries)]) := by
  with_unfolding_all rfl

theorem isReportOf_pair : IsReportOf pairReport pairExports := by
  refine ⟨pairEntries, ⟨_, parse_pairReport, rfl⟩, .cons ?_ (.cons ?_ .nil)⟩
  · exact ⟨rfl, .inl rfl, .inl rfl, .inr ⟨rfl, rfl⟩⟩
  · exact ⟨rfl, .inr ⟨rfl, rfl⟩, .inr ⟨rfl, rfl⟩, .inl rfl⟩

/-- A report of two functions has two exports, and their parameters are counted. -/
theorem ofText_exports_pair : ofText none pairReport = .ok pairExports ∧
    pairExports.map (fun e => e.signature.arity) = [2, 0] ∧
    ∃ b, ofText (some "nif.ex") "[]" = .error (.build b) ∧ IsComplaint (some "nif.ex") b := by
  obtain ⟨-, hexports, -, -⟩ := ofText_exports none pairReport
  obtain ⟨entries, hfunctions, -⟩ := isReportOf_pair
  obtain ⟨hok, -⟩ := hexports pairExports entries isReportOf_pair hfunctions
  obtain ⟨-, -, -, herror⟩ := ofText_exports (some "nif.ex") "[]"
  have hlist : ofText (some "nif.ex") "[]" =
      .error (malformed (some "nif.ex") "sema output missing 'functions' array") := by
    with_unfolding_all rfl
  refine ⟨hok, rfl, ?_⟩
  rcases herror _ hlist with hspoils | ⟨b, hb, hcomplaint⟩
  · cases hspoils
  · exact ⟨b, hlist.trans (congrArg _ hb), hcomplaint⟩

/-- A report of one function with this for its parameters. -/
def reportWith (params : Text) : Text :=
  "\x7b\"functions\":[\x7b\"name\":\"f\",\"params\":" ++ params ++ "\x7d]\x7d"

example : ofText none (reportWith "\"ab\"") =
    .ok [{ name := "f", signature := { params := ["a", "b"], returns := "void" },
           mode := .synchronous }] := by
  with_unfolding_all rfl

/-- A report can be neither read nor complained about. -/
theorem no_complaint_of_number : ¬ ((∃ es, ofText (some "nif.ex") (reportWith "5") = .ok es) ∨
    ∃ b, ofText (some "nif.ex") (reportWith "5") = .error (.build b)) := by
  have hnumber : ofText (some "nif.ex") (reportWith "5") = .error (.notIterable "int") := by
    with_unfolding_all rfl
  rw [hnumber]
  rintro (⟨es, hes⟩ | ⟨b, hb⟩)
  · cases hes
  · cases hb

end Report

end ZigNif
