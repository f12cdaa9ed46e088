import ZigNif.Nif.Verified
import ZigNif.Proofs.Except
import ZigNif.Proofs.Table
import ZigNif.Proofs.Text.Order

/-!
# Proofs/Nif/Verified — what a module exports

The nifs of a module are the functions that `exported` lists: the declared names of an explicit
list, the reported ones of an automatic list.  They are verified exactly if the author's list fits
the reports and something is exported; otherwise `Complaint` says what is wrong, and the first
complaint depends on the order in which the two kinds of lists are gone through.
-/

namespace ZigNif

/-! ## The author's list -/

namespace Declared

theorem nodup_names_add {d : Declared} {a : Declaration} (h : d.names.Nodup) :
    (d.add a).names.Nodup := by
  cases a with
  | wildcard => exact h
  | bare n => exact Table.nodup_keys_put h
  | withOptions n options => exact Table.nodup_keys_put h

/-- A normal list declares no name twice. -/
theorem nodup_names_of_ofJson {raw : List Json} {d : Declared} (h : ofJson raw = .ok d) :
    d.names.Nodup := by
  refine foldlM_induction (p := fun d => d.names.Nodup) (fun d v d' hd h => ?_) List.nodup_nil h
  obtain ⟨a, -, rfl⟩ := map_eq_ok_iff.mp h
  exact nodup_names_add hd

/-- The options of a name, if it is declared. -/
def optionsOf (d : Declared) (name : Text) : Table Json := (d.get? name).getD []

/-- Where no name is declared twice, a name has the options of its entry. -/
theorem optionsOf_eq {d : Declared} {name : Text} {options : Table Json} (hd : d.names.Nodup)
    (h : (name, options) ∈ d.entries) : d.optionsOf name = options := by
  rw [optionsOf, get?, (Table.get?_eq_some_iff hd).mpr h, Option.getD_some]

end Declared

namespace Nif

/-! ## One function -/

/-- The options set no mode, or name one. -/
def HasMode (options : Table Json) : Prop :=
  ∀ v, Table.get? options modeOption = some v → (Mode.ofJson? v).isSome

/-- The mode that the options set, else the reported one. -/
def IsMode (e : Export) (options : Table Json) (mode : Mode) : Prop :=
  match Table.get? options modeOption with
  | none => mode = e.mode
  | some v => Mode.ofJson? v = some mode

/-- The error about a function whose options set `v` as its mode. -/
def badMode (file : Option Text) (name : Text) (v : Json) : BuildError :=
  { reason := BuildError.configReason
    message := "nif '" ++ name ++ "': " ++ Mode.unknown v
    span := { file }
    nif := some name }

variable {file module : Option Text} {e : Export} {options : Table Json} {n : Nif}
  {err : BuildError}

/-- A nif is recorded with its mode, that of its options or else that of its export. -/
theorem record_eq_ok_iff :
    record file e options = .ok n ↔
      ∃ mode, IsMode e options mode ∧
        n = { name := e.name, mode, signature := e.signature, options } := by
  unfold IsMode record ofExport
  cases Table.get? options modeOption with
  | none => simp [eq_comm]
  | some v => cases h : Mode.ofJson? v <;> simp [h, eq_comm (a := n)]

/-- A nif is recorded unless its options set a mode that there is not. -/
theorem record_eq_error_iff :
    record file e options = .error err ↔
      ∃ v, Table.get? options modeOption = some v ∧ Mode.ofJson? v = none ∧
        err = badMode file e.name v := by
  rw [record, ofExport]
  cases Table.get? options modeOption with
  | none => simp
  | some v => cases h : Mode.ofJson? v <;> simp [badMode, h, eq_comm]

theorem exists_record_eq_ok_iff : (∃ n, record file e options = .ok n) ↔ HasMode options := by
  rw [record, ofExport, HasMode]
  cases Table.get? options modeOption with
  | none => simp
  | some v => cases h : Mode.ofJson? v <;> simp [h]

/-! ## Reports -/

variable {reported : List Export} {name : Text}

/-- The first report of a name. -/
def firstReport (reported : List Export) (name : Text) : Option Export :=
  reported.find? fun e => e.name = name

theorem name_of_firstReport (h : firstReport reported name = some e) : e.name = name := by
  simpa using List.find?_some h

theorem exists_firstReport_iff :
    (∃ e, firstReport reported name = some e) ↔ name ∈ reported.map Export.name := by
  rw [← Option.isSome_iff_exists, firstReport, List.find?_isSome]
  simp

/-- Of exports with one name, the table of a report has the first. -/
theorem get?_reportTable : (reportTable reported).get? name = firstReport reported name := by
  rw [reportTable, Table.get?_foldl_putNew]
  rfl

theorem keys_reportTable :
    (reportTable reported).keys = (reported.map Export.name).eraseDups :=
  Table.keys_foldl_putNew

theorem nodup_keys_reportTable : (reportTable reported).keys.Nodup :=
  Table.nodup_keys_foldl_putNew List.nodup_nil

theorem mem_reportTable_iff :
    (name, e) ∈ reportTable reported ↔ firstReport reported name = some e := by
  rw [← Table.get?_eq_some_iff nodup_keys_reportTable, get?_reportTable]

/-! ## The exported functions -/

/-- The names that a module has to export, in order. -/
def exported (d : Declared) (reported : List Export) : List Text :=
  if d.auto then (reported.map Export.name).eraseDups else d.names

/-- The function is exported as first reported, with the options and the mode that the author
declares for it. -/
def IsExport (d : Declared) (reported : List Export) (n : Nif) : Prop :=
  ∃ e mode, firstReport reported n.name = some e ∧ IsMode e (d.optionsOf n.name) mode ∧
    n = { name := n.name, mode, signature := e.signature, options := d.optionsOf n.name }

/-- Every declared name is reported, and every mode that the author sets is one. -/
def Fits (d : Declared) (reported : List Export) : Prop :=
  ∀ entry ∈ d.entries, entry.1 ∈ reported.map Export.name ∧ HasMode entry.2

/-- The error about a module that exports nothing. -/
def nothing (file module : Option Text) : BuildError :=
  { reason := BuildError.emptyReason
    message := "no nifs found in module."
    span := { file }
    module }

/-- What there is to complain about, first of all. -/
inductive Complaint (d : Declared) (reported : List Export) (file module : Option Text) :
    BuildError → Prop
  /-- An explicit list has an entry that is not reported, and those before it fit. -/
  | missing {before after : Table (Table Json)} {name : Text} {options : Table Json} :
    d.auto = false → d.entries = before ++ (name, options) :: after →
    (∀ entry ∈ before, entry.1 ∈ reported.map Export.name ∧ HasMode entry.2) →
    name ∉ reported.map Export.name →
    Complaint d reported file module (missing file module name [foundNote (reportTable reported)])
  /-- An explicit list has an entry that is reported, but sets a bad mode; those before it fit. -/
  | mode {before after : Table (Table Json)} {name : Text} {options : Table Json} {v : Json} :
    d.auto = false → d.entries = before ++ (name, options) :: after →
    (∀ entry ∈ before, entry.1 ∈ reported.map Export.name ∧ HasMode entry.2) →
    name ∈ reported.map Export.name →
    Table.get? options modeOption = some v → Mode.ofJson? v = none →
    Complaint d reported file module (badMode file name v)
  /-- An automatic list sets a bad mode for a reported name, and none for those reported before. -/
  | reportedMode {before after : List Text} {name : Text} {v : Json} :
    d.auto = true → (reported.map Export.name).eraseDups = before ++ name :: after →
    (∀ other ∈ before, HasMode (d.optionsOf other)) →
    Table.get? (d.optionsOf name) modeOption = some v → Mode.ofJson? v = none →
    Complaint d reported file module (badMode file name v)
  /-- An automatic list sets no bad mode for reported names, and `name` is the least that is not
  reported. -/
  | unreported {name : Text} :
    d.auto = true → (∀ other ∈ reported.map Export.name, HasMode (d.optionsOf other)) →
    name ∈ d.names → name ∉ reported.map Export.name →
    (∀ other ∈ d.names, other ∉ reported.map Export.name → Text.upTo name other) →
    Complaint d reported file module (missing file module name [])
  /-- The list fits, but there is nothing to export. -/
  | nothing : Fits d reported → exported d reported = [] →
    Complaint d reported file module (nothing file module)

/-! ## Explicit lists -/

/-- The nif of one entry of an explicit list. -/
def entryNif (file module : Option Text) (reported : Table Export) (entry : Text × Table Json) :
    Except BuildError Nif :=
  match reported.get? entry.1 with
  | some e => record file e entry.2
  | none => .error (missing file module entry.1 [foundNote reported])

variable {d : Declared} {entry : Text × Table Json} {nifs : List Nif}

theorem verifyExplicit_eq {table : Table Export} :
    verifyExplicit d table file module = d.entries.mapM (entryNif file module table) := rfl

theorem entryNif_of_firstReport (h : firstReport reported entry.1 = some e) :
    entryNif file module (reportTable reported) entry = record file e entry.2 := by
  rw [entryNif, get?_reportTable, h]

theorem entryNif_of_not_reported (h : entry.1 ∉ reported.map Export.name) :
    entryNif file module (reportTable reported) entry =
      .error (missing file module entry.1 [foundNote (reportTable reported)]) := by
  have hnone : firstReport reported entry.1 = none := by
    rwa [← exists_firstReport_iff, ← Option.isSome_iff_exists, Option.not_isSome_iff_eq_none] at h
  rw [entryNif, get?_reportTable, hnone]

/-- An entry gives a nif if its name is reported, and its mode is one. -/
theorem exists_entryNif_eq_ok_iff :
    (∃ n, entryNif file module (reportTable reported) entry = .ok n) ↔
      entry.1 ∈ reported.map Export.name ∧ HasMode entry.2 := by
  by_cases h : entry.1 ∈ reported.map Export.name
  · obtain ⟨e, he⟩ := exists_firstReport_iff.mpr h
    rw [entryNif_of_firstReport he, exists_record_eq_ok_iff, and_iff_right h]
  · simp [entryNif_of_not_reported h, -List.mem_map, h]

/-- The name of an entry is looked for before its mode. -/
theorem entryNif_eq_error_iff :
    entryNif file module (reportTable reported) entry = .error err ↔
      (entry.1 ∉ reported.map Export.name ∧
        err = missing file module entry.1 [foundNote (reportTable reported)]) ∨
      entry.1 ∈ reported.map Export.name ∧ ∃ v, Table.get? entry.2 modeOption = some v ∧
        Mode.ofJson? v = none ∧ err = badMode file entry.1 v := by
  by_cases h : entry.1 ∈ reported.map Export.name
  · obtain ⟨e, he⟩ := exists_firstReport_iff.mpr h
    simp only [entryNif_of_firstReport he, record_eq_error_iff, name_of_firstReport he, h,
      not_true_eq_false, false_and, true_and, false_or]
  · simp [entryNif_of_not_reported h, -List.mem_map, h, eq_comm]

/-- A nif that is recorded as the author declares its function is what has to be exported. -/
theorem isExport_of_record (he : firstReport reported name = some e)
    (h : record file e (d.optionsOf name) = .ok n) : n.name = name ∧ IsExport d reported n := by
  obtain ⟨mode, hmode, rfl⟩ := record_eq_ok_iff.mp h
  obtain rfl := name_of_firstReport he
  exact ⟨rfl, e, mode, he, hmode, rfl⟩

theorem isExport_of_entryNif (hd : d.names.Nodup) (hentry : entry ∈ d.entries)
    (h : entryNif file module (reportTable reported) entry = .ok n) :
    n.name = entry.1 ∧ IsExport d reported n := by
  obtain ⟨hreported, -⟩ := exists_entryNif_eq_ok_iff.mp ⟨n, h⟩
  obtain ⟨e, he⟩ := exists_firstReport_iff.mpr hreported
  rw [entryNif_of_firstReport he, ← d.optionsOf_eq hd hentry] at h
  exact isExport_of_record he h

/-- **A list that is spelled out is verified if and only if it fits the report.** -/
theorem exists_verifyExplicit_eq_ok_iff :
    (∃ nifs, verifyExplicit d (reportTable reported) file module = .ok nifs) ↔ Fits d reported := by
  rw [verifyExplicit_eq, exists_mapM_eq_ok_iff]
  simp only [exists_entryNif_eq_ok_iff, Fits]

theorem verifyExplicit_eq_ok (hd : d.names.Nodup)
    (h : verifyExplicit d (reportTable reported) file module = .ok nifs) :
    nifs.map Nif.name = d.names ∧ ∀ n ∈ nifs, IsExport d reported n := by
  rw [verifyExplicit_eq] at h
  refine ⟨map_eq_of_mapM (fun entry hentry n hn => (isExport_of_entryNif hd hentry hn).1) h,
    fun n hn => ?_⟩
  obtain ⟨entry, hentry, hn⟩ := exists_of_mem_mapM h hn
  exact (isExport_of_entryNif hd hentry hn).2

/-- What is wrong with a list that is spelled out is wrong with its first bad entry. -/
theorem complaint_of_verifyExplicit (hauto : d.auto = false)
    (h : verifyExplicit d (reportTable reported) file module = .error err) :
    Complaint d reported file module err := by
  obtain ⟨before, ⟨name, options⟩, after, hentries, hbefore, hentry⟩ := mapM_eq_error_iff.mp h
  have hbefore := fun entry he => exists_entryNif_eq_ok_iff.mp (hbefore entry he)
  rcases entryNif_eq_error_iff.mp hentry with ⟨hname, rfl⟩ | ⟨hname, v, hv, hmode, rfl⟩
  · exact .missing hauto hentries hbefore hname
  · exact .mode hauto hentries hbefore hname hv hmode

theorem verifyExplicit_eq_error {before after : Table (Table Json)}
    (hentries : d.entries = before ++ entry :: after)
    (hbefore : ∀ entry ∈ before, entry.1 ∈ reported.map Export.name ∧ HasMode entry.2)
    (hentry : entryNif file module (reportTable reported) entry = .error err) :
    verifyExplicit d (reportTable reported) file module = .error err :=
  mapM_eq_error_iff.mpr
    ⟨before, entry, after, hentries,
      fun e he => exists_entryNif_eq_ok_iff.mpr (hbefore e he), hentry⟩

/-! ## Automatic lists -/

/-- The nif of one reported function. -/
def reportedNif (file : Option Text) (d : Declared) (entry : Text × Export) :
    Except BuildError Nif :=
  record file entry.2 (d.optionsOf entry.1)

/-- The declared names that are not reported, in order. -/
def unreported (d : Declared) (reported : Table Export) : List Text :=
  Text.sorted (d.names.filter fun n => !reported.has n)

theorem verifyAuto_eq {table : Table Export} :
    verifyAuto d table file module = table.mapM (reportedNif file d) >>= fun nifs =>
      (unreported d table).head?.elim (.ok nifs) fun name =>
        .error (missing file module name []) := by
  refine congrArg (_ >>= ·) (funext fun nifs => ?_)
  rw [unreported]
  cases Text.sorted (d.names.filter fun n => !table.has n) <;> rfl

/-- All that is reported becomes a nif, and all that is declared must be reported. -/
theorem verifyAuto_eq_ok_iff {table : Table Export} :
    verifyAuto d table file module = .ok nifs ↔
      table.mapM (reportedNif file d) = .ok nifs ∧ unreported d table = [] := by
  rw [verifyAuto_eq, bind_eq_ok_iff]
  cases unreported d table with
  | nil => simp
  | cons name rest => simp

theorem verifyAuto_eq_error_iff {table : Table Export} :
    verifyAuto d table file module = .error err ↔
      table.mapM (reportedNif file d) = .error err ∨
        (∃ nifs, table.mapM (reportedNif file d) = .ok nifs) ∧
          ∃ name, (unreported d table).head? = some name ∧ err = missing file module name [] := by
  rw [verifyAuto_eq, bind_eq_error_iff]
  cases unreported d table with
  | nil => simp
  | cons name rest => simp [eq_comm]

theorem mem_unreported_filter {table : Table Export} :
    name ∈ d.names.filter (fun n => !table.has n) ↔ name ∈ d.names ∧ name ∉ table.keys := by
  rw [List.mem_filter, Bool.not_eq_true', ← Bool.not_eq_true, Table.has_iff]

theorem mem_keys_reportTable :
    name ∈ (reportTable reported).keys ↔ name ∈ reported.map Export.name := by
  rw [keys_reportTable, List.mem_eraseDups]

theorem unreported_eq_nil_iff :
    unreported d (reportTable reported) = [] ↔
      ∀ name ∈ d.names, name ∈ reported.map Export.name := by
  rw [unreported, Text.sorted_eq_nil_iff, List.eq_nil_iff_forall_not_mem]
  simp only [mem_unreported_filter, mem_keys_reportTable, not_and, not_not]

/-- Of the names that are declared and not reported, the first in order is named. -/
theorem head?_unreported_eq_some_iff :
    (unreported d (reportTable reported)).head? = some name ↔
      (name ∈ d.names ∧ name ∉ reported.map Export.name) ∧
        ∀ other ∈ d.names, other ∉ reported.map Export.name → Text.upTo name other := by
  rw [unreported, Text.head?_sorted_eq_some_iff]
  simp only [mem_unreported_filter, mem_keys_reportTable, and_imp]

/-- An automatic list fits if its names are reported and it sets no bad mode for a reported one. -/
theorem fits_iff (hd : d.names.Nodup) :
    Fits d reported ↔ (∀ name ∈ d.names, name ∈ reported.map Export.name) ∧
      ∀ name ∈ reported.map Export.name, HasMode (d.optionsOf name) := by
  constructor
  · intro h
    refine ⟨fun name hname => ?_, fun name _ => ?_⟩
    · obtain ⟨entry, hentry, rfl⟩ := List.mem_map.mp hname
      exact (h entry hentry).1
    · cases hget : d.get? name with
      | none =>
        rw [Declared.optionsOf, hget]
        exact fun v hv => nomatch hv
      | some options =>
        rw [Declared.optionsOf, hget]
        exact (h _ ((Table.get?_eq_some_iff hd).mp hget)).2
  · rintro ⟨hnames, hmodes⟩ ⟨name, options⟩ hentry
    -- a declared name is reported, so its options are among those looked at
    have hname : name ∈ reported.map Export.name :=
      hnames name (List.mem_map_of_mem (f := Prod.fst) hentry)
    exact ⟨hname, d.optionsOf_eq hd hentry ▸ hmodes name hname⟩

theorem exists_mapM_reportedNif_iff :
    (∃ nifs, (reportTable reported).mapM (reportedNif file d) = .ok nifs) ↔
      ∀ name ∈ reported.map Export.name, HasMode (d.optionsOf name) := by
  simp only [exists_mapM_eq_ok_iff, reportedNif, exists_record_eq_ok_iff, ← mem_keys_reportTable,
    Table.keys, List.forall_mem_map]

theorem mapM_reportedNif_eq_ok
    (h : (reportTable reported).mapM (reportedNif file d) = .ok nifs) :
    nifs.map Nif.name = (reported.map Export.name).eraseDups ∧
      ∀ n ∈ nifs, IsExport d reported n := by
  have hentry : ∀ entry ∈ reportTable reported, ∀ n, reportedNif file d entry = .ok n →
      n.name = entry.1 ∧ IsExport d reported n := fun entry hentry n hn =>
    isExport_of_record (mem_reportTable_iff.mp hentry) hn
  rw [← keys_reportTable]
  refine ⟨map_eq_of_mapM (fun entry he n hn => (hentry entry he n hn).1) h, fun n hn => ?_⟩
  obtain ⟨entry, he, hn⟩ := exists_of_mem_mapM h hn
  exact (hentry entry he n hn).2

/-- The first bad mode of a reported name. -/
theorem mapM_reportedNif_eq_error_iff :
    (reportTable reported).mapM (reportedNif file d) = .error err ↔
      ∃ before name after v, (reported.map Export.name).eraseDups = before ++ name :: after ∧
        (∀ other ∈ before, HasMode (d.optionsOf other)) ∧
        Table.get? (d.optionsOf name) modeOption = some v ∧ Mode.ofJson? v = none ∧
        err = badMode file name v := by
  have hname : ∀ entry ∈ reportTable reported, entry.2.name = entry.1 := fun entry hentry =>
    name_of_firstReport (mem_reportTable_iff.mp hentry)
  rw [← keys_reportTable, mapM_eq_error_iff]
  simp only [reportedNif, exists_record_eq_ok_iff, record_eq_error_iff]
  constructor
  · rintro ⟨before, entry, after, htable, hbefore, v, hv, hmode, rfl⟩
    refine ⟨before.map Prod.fst, entry.1, after.map Prod.fst, v, ?_, ?_, hv, hmode, ?_⟩
    · rw [htable, Table.keys, List.map_append, List.map_cons]
    · exact List.forall_mem_map.mpr hbefore
    · rw [hname entry (htable ▸ List.mem_append_right _ List.mem_cons_self)]
  · rintro ⟨before, name, after, v, hkeys, hbefore, hv, hmode, rfl⟩
    obtain ⟨tbefore, rest, htable, rfl, hrest⟩ := List.map_eq_append_iff.mp hkeys
    obtain ⟨entry, tafter, rfl, rfl, rfl⟩ := List.map_eq_cons_iff.mp hrest
    have hbefore := List.forall_mem_map.mp hbefore
    refine ⟨tbefore, entry, tafter, htable, hbefore, v, hv, hmode, ?_⟩
    rw [hname entry (htable ▸ List.mem_append_right _ List.mem_cons_self)]

/-- A bad mode comes before a name that is not reported. -/
theorem complaint_of_verifyAuto (hauto : d.auto = true)
    (h : verifyAuto d (reportTable reported) file module = .error err) :
    Complaint d reported file module err := by
  rcases verifyAuto_eq_error_iff.mp h with h | ⟨hmodes, name, hname, rfl⟩
  · obtain ⟨before, name, after, v, hnames, hbefore, hv, hmode, rfl⟩ :=
      mapM_reportedNif_eq_error_iff.mp h
    exact .reportedMode hauto hnames hbefore hv hmode
  · obtain ⟨⟨hdeclared, hreported⟩, hleast⟩ := head?_unreported_eq_some_iff.mp hname
    exact .unreported hauto (exists_mapM_reportedNif_iff.mp hmodes) hdeclared hreported hleast

/-! ## Verification -/

/-- The functions that a list exports before it is known whether there are any. -/
def found (d : Declared) (reported : Table Export) (file module : Option Text) :
    Except BuildError (List Nif) :=
  if d.auto then verifyAuto d reported file module else verifyExplicit d reported file module

theorem found_of_auto {table : Table Export} (h : d.auto = true) :
    found d table file module = verifyAuto d table file module := if_pos h

theorem found_of_explicit {table : Table Export} (h : d.auto = false) :
    found d table file module = verifyExplicit d table file module := by
  rw [found, h, if_neg Bool.false_ne_true]

theorem exported_of_auto (h : d.auto = true) :
    exported d reported = (reported.map Export.name).eraseDups := if_pos h

theorem exported_of_explicit (h : d.auto = false) : exported d reported = d.names := by
  rw [exported, h, if_neg Bool.false_ne_true]

/-- A list that comes out empty is an error of its own. -/
theorem verify_eq :
    verify d reported file module = found d (reportTable reported) file module >>= fun nifs =>
      if nifs = [] then .error (nothing file module) else .ok nifs := by
  have hend : ∀ nifs : List Nif, (do
      if nifs = [] then throw (nothing file module)
      pure nifs) = if nifs = [] then Except.error (nothing file module) else Except.ok nifs := by
    intro nifs
    split <;> rfl
  rw [← funext hend, found, verify]
  split <;> rfl

theorem exists_found_eq_ok_iff (hd : d.names.Nodup) (file module : Option Text) :
    (∃ nifs, found d (reportTable reported) file module = .ok nifs) ↔ Fits d reported := by
  cases hauto : d.auto with
  | false =>
    rw [found_of_explicit hauto]
    exact exists_verifyExplicit_eq_ok_iff
  | true =>
    simp only [found_of_auto hauto, verifyAuto_eq_ok_iff, exists_and_right,
      exists_mapM_reportedNif_iff, unreported_eq_nil_iff]
    rw [fits_iff hd, and_comm]

theorem found_eq_ok (hd : d.names.Nodup)
    (h : found d (reportTable reported) file module = .ok nifs) :
    nifs.map Nif.name = exported d reported ∧ ∀ n ∈ nifs, IsExport d reported n := by
  cases hauto : d.auto with
  | false =>
    rw [found_of_explicit hauto] at h
    rw [exported_of_explicit hauto]
    exact verifyExplicit_eq_ok hd h
  | true =>
    rw [found_of_auto hauto] at h
    rw [exported_of_auto hauto]
    exact mapM_reportedNif_eq_ok (verifyAuto_eq_ok_iff.mp h).1

/-- **Every error of a verification complains about what is wrong.** -/
theorem complaint_of_found (h : found d (reportTable reported) file module = .error err) :
    Complaint d reported file module err := by
  cases hauto : d.auto with
  | false => exact complaint_of_verifyExplicit hauto (found_of_explicit hauto ▸ h)
  | true => exact complaint_of_verifyAuto hauto (found_of_auto hauto ▸ h)

/-- Every complaint but that nothing is exported is an error before it. -/
theorem Complaint.found_or_nothing (h : Complaint d reported file module err) :
    found d (reportTable reported) file module = .error err ∨
      err = Nif.nothing file module ∧ Fits d reported ∧ exported d reported = [] := by
  cases h with
  | missing hauto hentries hbefore hname =>
    left
    rw [found_of_explicit hauto]
    exact verifyExplicit_eq_error hentries hbefore (entryNif_of_not_reported hname)
  | mode hauto hentries hbefore hname hv hmode =>
    left
    rw [found_of_explicit hauto]
    exact verifyExplicit_eq_error hentries hbefore
      (entryNif_eq_error_iff.mpr (Or.inr ⟨hname, _, hv, hmode, rfl⟩))
  | reportedMode hauto hnames hbefore hv hmode =>
    left
    rw [found_of_auto hauto, verifyAuto_eq_error_iff, mapM_reportedNif_eq_error_iff]
    exact Or.inl ⟨_, _, _, _, hnames, hbefore, hv, hmode, rfl⟩
  | unreported hauto hmodes hname hreported hleast =>
    left
    rw [found_of_auto hauto, verifyAuto_eq_error_iff, exists_mapM_reportedNif_iff]
    exact Or.inr ⟨hmodes, _, head?_unreported_eq_some_iff.mpr ⟨⟨hname, hreported⟩, hleast⟩, rfl⟩
  | nothing hfits hempty => exact Or.inr ⟨rfl, hfits, hempty⟩

theorem verify_eq_ok_iff :
    verify d reported file module = .ok nifs ↔
      found d (reportTable reported) file module = .ok nifs ∧ nifs ≠ [] := by
  rw [verify_eq, bind_eq_ok_iff]
  constructor
  · rintro ⟨ns, hns, h⟩
    split at h
    case isTrue => cases h
    case isFalse hne => cases h; exact ⟨hns, hne⟩
  · rintro ⟨hns, hne⟩
    exact ⟨nifs, hns, if_neg hne⟩

/-- The nifs of a verified module have distinct names. -/
theorem nodup_names_of_verify (hd : d.names.Nodup)
    (h : verify d reported file module = .ok nifs) : (nifs.map Nif.name).Nodup := by
  rw [(found_eq_ok hd (verify_eq_ok_iff.mp h).1).1, exported]
  split
  · exact keys_reportTable ▸ nodup_keys_reportTable
  · exact hd

theorem verify_eq_error_iff :
    verify d reported file module = .error err ↔
      found d (reportTable reported) file module = .error err ∨
        found d (reportTable reported) file module = .ok [] ∧ err = nothing file module := by
  rw [verify_eq, bind_eq_error_iff]
  refine or_congr_right ⟨?_, ?_⟩
  · rintro ⟨ns, hns, h⟩
    split at h
    case isTrue hempty => cases h; exact ⟨hempty ▸ hns, rfl⟩
    case isFalse => cases h
  · rintro ⟨hns, rfl⟩
    exact ⟨[], hns, rfl⟩

/-- **Verification succeeds exactly if the list fits the reports and something is exported.**

It then exports the names that `exported` lists, each once and as first reported; and it fails with
the first complaint, and with no other error. -/
theorem verify_ofJson {raw : List Json} (h : Declared.ofJson raw = .ok d) (reported : List Export)
    (file module : Option Text) :
    ((∃ nifs, verify d reported file module = .ok nifs) ↔
      Fits d reported ∧ exported d reported ≠ []) ∧
    (∀ nifs, verify d reported file module = .ok nifs →
      (nifs.map Nif.name).Nodup ∧ nifs.map Nif.name = exported d reported ∧
        ∀ n ∈ nifs, IsExport d reported n) ∧
    ∀ err, verify d reported file module = .error err ↔ Complaint d reported file module err := by
  have hd : d.names.Nodup := Declared.nodup_names_of_ofJson h
  -- the functions found bear the exported names, so there are none exactly if there is no name
  have hempty : ∀ nifs, found d (reportTable reported) file module = .ok nifs →
      (nifs = [] ↔ exported d reported = []) := fun nifs hnifs => by
    rw [← (found_eq_ok hd hnifs).1, List.map_eq_nil_iff]
  refine ⟨?_, fun nifs hnifs => ?_, fun err => ?_⟩
  · simp only [verify_eq_ok_iff]
    rw [← exists_found_eq_ok_iff hd file module]
    constructor
    · rintro ⟨nifs, hnifs, hne⟩
      exact ⟨⟨nifs, hnifs⟩, mt (hempty nifs hnifs).mpr hne⟩
    · rintro ⟨⟨nifs, hnifs⟩, hne⟩
      exact ⟨nifs, hnifs, mt (hempty nifs hnifs).mp hne⟩
  · obtain ⟨hnames, hexport⟩ := found_eq_ok hd (verify_eq_ok_iff.mp hnifs).1
    refine ⟨?_, hnames, hexport⟩
    rw [hnames, exported]
    split
    · exact keys_reportTable ▸ nodup_keys_reportTable
    · exact hd
  · rw [verify_eq_error_iff]
    constructor
    · rintro (hfound | ⟨hfound, rfl⟩)
      · exact complaint_of_found hfound
      · have hfits : Fits d reported := (exists_found_eq_ok_iff hd file module).mp ⟨[], hfound⟩
        exact .nothing hfits ((hempty [] hfound).mp rfl)
    · intro hcomplaint
      refine hcomplaint.found_or_nothing.imp_right ?_
      rintro ⟨rfl, hfits, hnone⟩
      obtain ⟨nifs, hnifs⟩ := (exists_found_eq_ok_iff hd file module).mpr hfits
      obtain rfl := (hempty nifs hnifs).mpr hnone
      exact ⟨hnifs, rfl⟩

/-- The wildcard, and a function with a mode of its own. -/
def mixedList : List Json := [.str "...", .arr [.str "b", .obj [("concurrency", .str "threaded")]]]

def mixedDeclared : Declared := ⟨true, [("b", [("concurrency", .str "threaded")])]⟩

/-- Reports with a duplicate. -/
def twiceReported : List Export :=
  [{ name := "c" }, { name := "b" }, { name := "c", mode := .yielding }]

theorem verify_ofJson_mixed :
    Declared.ofJson mixedList = .ok mixedDeclared ∧
      (∃ nifs, verify mixedDeclared twiceReported none none = .ok nifs ∧
        nifs.map Nif.name = [("c" : Text), "b"]) ∧
      verify mixedDeclared [{ name := "c" }] none none = .error (missing none none "b" []) := by
  have hraw : Declared.ofJson mixedList = .ok mixedDeclared := by rfl
  have hmode : HasMode [("concurrency", .str "threaded")] := fun v hv => by cases hv; decide
  obtain ⟨hok, hnifs, -⟩ := verify_ofJson hraw twiceReported none none
  obtain ⟨-, -, herror⟩ := verify_ofJson hraw [{ name := "c" }] none none
  have hfits : Fits mixedDeclared twiceReported :=
    List.forall_mem_singleton.mpr ⟨by decide, hmode⟩
  have hnames : exported mixedDeclared twiceReported = [("c" : Text), "b"] := by decide
  obtain ⟨nifs, hverify⟩ := hok.mpr ⟨hfits, by rw [hnames]; exact List.cons_ne_nil _ _⟩
  refine ⟨hraw, ⟨nifs, hverify, (hnifs nifs hverify).2.1.trans hnames⟩, (herror _).mpr ?_⟩
  refine .unreported rfl (List.forall_mem_singleton.mpr fun v hv => nomatch hv)
    List.mem_cons_self (by decide) ?_
  exact List.forall_mem_singleton.mpr fun _ => by decide

end Nif

end ZigNif
