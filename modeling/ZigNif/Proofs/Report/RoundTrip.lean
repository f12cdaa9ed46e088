import ZigNif.Proofs.Json.Writer
import ZigNif.Proofs.Report.Exports

/-!
# Proofs/Report/RoundTrip — a written report is read as its exports

A report is written from a list of exports, and an entry may leave out a field that has its default.
Such an entry describes its export (`describes_entryOf`), and the text of the report can be read
whatever names and types stand in it, so the exports come back.
-/

namespace ZigNif.Report

variable {file : Option Text} {e : Export} {es : List Export} {entries : List Json} {key : Text}
  {value : Json} {omitted : List Text}

/-! ## Writing -/

/-- Everything that a report can say about an export. -/
def fieldsOf (e : Export) : Table Json :=
  [("name", .str e.name), ("params", .arr (e.signature.params.map .str)),
    ("returns", .str e.signature.returns), ("concurrency", .str e.mode.name)]

/-- Whether the field has the value that it stands for when it is left out. -/
def isDefault (e : Export) (key : Text) : Bool :=
  (key = "params".toList && e.signature.params = []) ||
  (key = "returns".toList && e.signature.returns = "void".toList) ||
  (key = "concurrency".toList && e.mode = .synchronous)

/-- Whether an entry has the field: it is not among the omitted ones, or not the default. -/
def isWritten (omitted : List Text) (e : Export) (key : Text) : Bool :=
  key ∉ omitted || !isDefault e key

/-- The entry of an export, without those of the omitted fields that have their defaults. -/
def entryOf (omitted : List Text) (e : Export) : Json :=
  .obj ((fieldsOf e).filter fun f => isWritten omitted e f.1)

/-- The report with these entries. -/
def reportOf (entries : List Json) : Json := .obj [("functions", .arr entries)]

/-! ## Reading -/

theorem isReadable_fieldsOf : ∀ f ∈ fieldsOf e, f.2.IsReadable := by
  have htypes : ∀ v ∈ e.signature.params.map Json.str, v.IsReadable :=
    List.forall_mem_map.mpr fun t _ => .str t
  simp only [fieldsOf, List.forall_mem_cons]
  exact ⟨.str _, .arr htypes, .str _, .str _, List.forall_mem_nil _⟩

theorem isReadable_entryOf (omitted : List Text) (e : Export) : (entryOf omitted e).IsReadable := by
  have hkeys : (Table.keys (fieldsOf e)).Nodup :=
    show (["name", "params", "returns", "concurrency"] : List Text).Nodup by decide
  refine .obj (hkeys.sublist (List.filter_sublist.map Prod.fst)) fun f hf => ?_
  exact isReadable_fieldsOf f (List.mem_of_mem_filter hf)

theorem get?_entryOf (h : isWritten omitted e key) :
    (entryOf omitted e).get? key = Table.get? (fieldsOf e) key :=
  Table.get?_filter (isWritten omitted e) h

/-- A field of an entry is the export's, or is left out and has its default. -/
theorem says_entryOf {default : Prop} (hvalue : Table.get? (fieldsOf e) key = some value)
    (hdefault : isDefault e key → default) : Says (entryOf omitted e) key value default := by
  cases hwritten : isWritten omitted e key with
  | true => exact .inl ((get?_entryOf hwritten).trans hvalue)
  | false =>
    refine .inr ⟨Table.get?_eq_none_iff.mpr fun hkey => ?_, hdefault ?_⟩
    · obtain ⟨f, hf, rfl⟩ := List.mem_map.mp hkey
      exact absurd (List.mem_filter.mp hf).2 (hwritten ▸ Bool.false_ne_true)
    · rw [isWritten, Bool.or_eq_false_iff, Bool.not_eq_false'] at hwritten
      exact hwritten.2

/-- **An entry describes its export**, whatever it leaves out. -/
theorem describes_entryOf (omitted : List Text) (e : Export) : Describes (entryOf omitted e) e where
  name := get?_entryOf (by simp [isWritten, isDefault])
  params := says_entryOf rfl fun h => by simpa [isDefault] using h
  returns := says_entryOf rfl fun h => by simpa [isDefault] using h
  mode := says_entryOf rfl fun h => by simpa [isDefault] using h

theorem ofText_write (hreadable : ∀ v ∈ entries, v.IsReadable)
    (hdescribes : List.Forall₂ Describes entries es) :
    ofText file (Json.write (reportOf entries)) = .ok es := by
  have hreport : (reportOf entries).IsReadable := by
    exact .obj (List.pairwise_singleton _ _) (List.forall_mem_singleton.mpr (.arr hreadable))
  have hfunctions : HasFunctions (Json.write (reportOf entries)) entries :=
    ⟨reportOf entries, Json.parse_writeWith Json.isLegal_spaced hreport, rfl⟩
  exact ofText_eq_ok_iff.mpr ⟨entries, hfunctions, (forall₂_describes_iff.mp hdescribes).1⟩

/-- **A report that is written from exports is read as them**, in their order, whichever of their
fields are left out where they have their defaults. -/
theorem ofText_write_exports (file : Option Text) (rows : List (List Text × Export)) :
    ofText file (Json.write (reportOf (rows.map fun row => entryOf row.1 row.2))) =
      .ok (rows.map Prod.snd) := by
  refine ofText_write (List.forall_mem_map.mpr fun row _ => isReadable_entryOf row.1 row.2) ?_
  rw [List.forall₂_map_left_iff, List.forall₂_map_right_iff, List.forall₂_same]
  exact fun row _ => describes_entryOf row.1 row.2

example : Json.write (entryOf ["params", "returns"] { name := "spin", mode := .dirtyIo }) =
    "\x7b\"name\": \"spin\", \"concurrency\": \"dirty_io\"\x7d" := by
  with_unfolding_all rfl

end ZigNif.Report
