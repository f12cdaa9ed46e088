import ZigNif.CommandLine.Run
import ZigNif.Proofs.Glue.Term
import ZigNif.Proofs.Json.Writer

/-!
# Proofs/CommandLine/Report — reports on a line

A JSON value is written without a line boundary, whatever texts it holds, as long as the separators
hold none.  So a report is one line, and a reader gets back what it says; only numerals that are too
long could keep him from it, and an error with such a numeral is not reported at all.
-/

namespace ZigNif

open Text

namespace Json

variable {s : Separators}

/-- **A value is written on one line.** -/
theorem isOneLine_writeWith (hitem : IsOneLine s.item) (hkey : IsOneLine s.key) (v : Json) :
    IsOneLine (writeWith s v) := by
  induction v using Json.induction with
  | null => rw [writeWith]; decide
  | bool b => cases b <;> rw [writeWith] <;> decide
  | int n => exact isOneLine_ofInt n
  | float x => exact Binary64.isOneLine_text (by decide) (by decide) x
  | str t => exact isOneLine_writeString t
  | arr items ih =>
    rw [writeWith, writeItems_eq_map]
    have hitems : IsOneLine (joined s.item (items.map (writeWith s))) :=
      isOneLine_joined hitem (List.forall_mem_map.mpr ih)
    exact isOneLine_append.mpr ⟨isOneLine_append.mpr ⟨by decide, hitems⟩, by decide⟩
  | obj fields ih =>
    rw [writeWith, writeFields_eq_map]
    have hfields : IsOneLine (joined s.item (fields.map (writeField s))) := by
      refine isOneLine_joined hitem (List.forall_mem_map.mpr fun f hf => ?_)
      exact isOneLine_append.mpr
        ⟨isOneLine_append.mpr ⟨isOneLine_writeString f.1, hkey⟩, ih f hf⟩
    exact isOneLine_append.mpr ⟨isOneLine_append.mpr ⟨by decide, hfields⟩, by decide⟩

end Json

namespace CommandLine

variable {v : Json} {e : BuildError} {n : Option Int}

/-- The text is one line, and a JSON reader gets the value from it. -/
def IsJsonLine (t : Text) (v : Json) : Prop :=
  ∃ line, t = line ++ ['\n'] ∧ IsOneLine line ∧ Json.parse line = .ok v

theorem isJsonLine_jsonLine (hv : v.IsReadable) : IsJsonLine (jsonLine v) v :=
  ⟨_, rfl, Json.isOneLine_writeWith (by decide) (by decide) v,
    Json.parse_writeWith Json.isLegal_compact hv⟩

/-! ## Errors in reports -/

theorem isReadable_optionalText (t : Option Text) : (optionalText t).IsReadable := by
  cases t with
  | none => exact .null
  | some t => exact .str t

theorem isReadable_optionalInt (hn : n.all isWritable) : (optionalInt n).IsReadable := by
  cases n with
  | none => exact .null
  | some n => exact .int hn

theorem isReadable_textArray (ts : List Text) : (textArray ts).IsReadable :=
  .arr (List.forall_mem_map.mpr fun t _ => .str t)

/-- The report of a build that is given up because of the error. -/
def abortReport (e : BuildError) : Json :=
  .obj [("error", errorReport e), ("status", .str "aborted")]

/-- **An error whose place can be written is reported so that it can be read.** -/
theorem isReadable_abortReport (he : e.span.isWritable) : (abortReport e).IsReadable := by
  obtain ⟨hline, hcolumn⟩ : e.span.line.all isWritable ∧ e.span.column.all isWritable := by
    simpa [Span.isWritable] using he
  have hplaces : List.Nodup (["column", "file", "line"] : List Text) := by decide
  have hspan : (spanReport e.span).IsReadable := by
    refine .obj hplaces ?_
    simp only [List.forall_mem_cons]
    exact ⟨isReadable_optionalInt hcolumn, isReadable_optionalText _, isReadable_optionalInt hline,
      nofun⟩
  have hparts : List.Nodup
      (["message", "module", "nif", "notes", "reason_code", "span"] : List Text) := by decide
  have herror : (errorReport e).IsReadable := by
    refine .obj hparts ?_
    simp only [List.forall_mem_cons]
    exact ⟨.str _, isReadable_optionalText _, isReadable_optionalText _, isReadable_textArray _,
      .str _, hspan, nofun⟩
  have htop : List.Nodup (["error", "status"] : List Text) := by decide
  refine .obj htop ?_
  simp only [List.forall_mem_cons]
  exact ⟨herror, .str _, nofun⟩

end CommandLine

end ZigNif
