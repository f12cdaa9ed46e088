import ZigNif.Proofs.Except
import ZigNif.Report

/-!
# Proofs/Report — reports that cannot be read

Whatever text the compiler writes instead of a report is a build error, with three exceptions: a
JSON number with too many digits, values that are nested too deeply, and parameters that are no list
and do not count as absent.
-/

namespace ZigNif.Report

variable {file : Option Text} {fields : Table Json} {v : Json} {kind text : Text} {e : Failure}
  {b : BuildError}

/-- The value is a number or a truth value that does not count as absent; `kind` is what it is
called. -/
inductive IsUnlistable : Json → Text → Prop
  | bool : IsUnlistable (.bool true) "bool"
  | int {n : Int} (hn : n ≠ 0) : IsUnlistable (.int n) "int"
  | float {x : Binary64} (hx : x.isZero = false) : IsUnlistable (.float x) "float"

theorem params_eq_error_iff :
    params v = .error e ↔ ∃ kind, IsUnlistable v kind ∧ e = .notIterable kind := by
  constructor
  · intro h
    unfold params at h
    split at h
    case isTrue => cases h
    case isFalse hempty =>
      cases v with
      | null => exact absurd rfl hempty
      | bool b =>
        cases b with
        | false => exact absurd rfl hempty
        | true => exact ⟨_, .bool, (Except.error.inj h).symm⟩
      | int n =>
        have hn : n ≠ 0 := by rintro rfl; exact hempty rfl
        exact ⟨_, .int hn, (Except.error.inj h).symm⟩
      | float x => exact ⟨_, .float (Bool.not_eq_true _ ▸ hempty), (Except.error.inj h).symm⟩
      | str t => cases h
      | arr items => cases h
      | obj fields => cases h
  · rintro ⟨_, hkind, rfl⟩
    cases hkind with
    | bool => rfl
    | int hn => simp [params, isEmpty, hn]
    | float hx => simp [params, isEmpty, hx]

/-- The fields are those of a function with a mode, but its parameters cannot be listed. -/
structure HasUnlistable (file : Option Text) (fields : Table Json) (kind : Text) : Prop where
  name : ∃ name, fields.get? "name" = some (.str name)
  mode : ∃ m, mode file fields = .ok m
  params : ∃ v, fields.get? "params" = some v ∧ IsUnlistable v kind

/-- An element of a report is no build error only if its parameters cannot be listed. -/
theorem exportOf_eq_error_iff :
    exportOf file v = .error e ∧ (∀ b, e ≠ .build b) ↔
      ∃ fields kind, v = .obj fields ∧ HasUnlistable file fields kind ∧ e = .notIterable kind := by
  constructor
  · rintro ⟨h, hb⟩
    unfold exportOf at h
    split at h
    · rename_i fields name hname
      rcases bind_eq_error_iff.mp h with hmode | ⟨m, hmode, h⟩
      · rw [mode] at hmode
        split at hmode
        · cases hmode
        · split at hmode
          · cases hmode
          · exact absurd (Except.error.inj hmode).symm (hb _)
      · rcases bind_eq_error_iff.mp h with hparams | ⟨ps, hparams, h⟩
        · obtain ⟨kind, hkind, rfl⟩ := params_eq_error_iff.mp hparams
          refine ⟨fields, kind, rfl, ⟨⟨name, hname⟩, ⟨m, hmode⟩, ?_⟩, rfl⟩
          cases hget : Table.get? fields "params" with
          | none => rw [hget] at hkind; cases hkind
          | some v => rw [hget] at hkind; exact ⟨v, rfl, hkind⟩
        · cases h
    · exact absurd (Except.error.inj h).symm (hb _)
  · rintro ⟨fields, kind, rfl, ⟨⟨name, hname⟩, ⟨m, hmode⟩, v, hget, hkind⟩, rfl⟩
    refine ⟨?_, nofun⟩
    have hparams : Report.params v = .error (.notIterable kind) :=
      params_eq_error_iff.mpr ⟨kind, hkind, rfl⟩
    have hname' : Json.get? "name" (.obj fields) = some (.str name) := hname
    unfold exportOf
    simp only [hname', hmode, hget, Option.getD_some, hparams]
    rfl

/-- Why a report leads to no build error although it cannot be read. -/
inductive Spoils (file : Option Text) (text : Text) : Failure → Prop
  | numeral {fault : Json.Fault} {long : Text.LongNumeral} (hparse : Json.parse text = .error fault)
    (hfault : fault.complaint = .longNumber long) : Spoils file text (.longNumeral long)
  | params {v : Json} {before after : List Json} {fields : Table Json} {kind : Text}
    (hparse : Json.parse text = .ok v)
    (hfunctions : v.get? "functions" = some (.arr (before ++ .obj fields :: after)))
    (hbefore : ∀ x ∈ before, ∃ e, exportOf file x = .ok e)
    (hfields : HasUnlistable file fields kind) : Spoils file text (.notIterable kind)

/-- **A report that cannot be read is a build error, or it is spoiled.** -/
theorem ofText_eq_error_iff : ofText file text = .error e ∧ (∀ b, e ≠ .build b) ↔
    Spoils file text e := by
  constructor
  · rintro ⟨h, hb⟩
    unfold ofText at h
    split at h
    · rename_i long hparse
      exact Except.error.inj h ▸ .numeral hparse rfl
    · exact absurd (Except.error.inj h).symm (hb _)
    · rename_i v hparse
      split at h
      · rename_i entries hfunctions
        obtain ⟨before, x, after, rfl, hbefore, hx⟩ := mapM_eq_error_iff.mp h
        obtain ⟨fields, kind, rfl, hfields, rfl⟩ := exportOf_eq_error_iff.mp ⟨hx, hb⟩
        exact .params hparse hfunctions hbefore hfields
      · exact absurd (Except.error.inj h).symm (hb _)
  · rintro (⟨hparse, hfault⟩ | ⟨hparse, hfunctions, hbefore, hfields⟩)
    · rename_i fault long
      obtain ⟨complaint, left⟩ := fault
      obtain rfl : complaint = .longNumber long := hfault
      refine ⟨?_, nofun⟩
      unfold ofText
      simp only [hparse]
      rfl
    · rename_i v before after fields kind
      refine ⟨?_, nofun⟩
      unfold ofText
      simp only [hparse, hfunctions]
      exact mapM_eq_error_iff.mpr ⟨before, _, after, rfl, hbefore,
        (exportOf_eq_error_iff.mpr ⟨fields, kind, rfl, hfields, rfl⟩).1⟩

/-- The error complains about a report, in the module's file. -/
structure IsComplaint (file : Option Text) (b : BuildError) : Prop where
  reason : b.reason = BuildError.compileReason
  span : b.span = { file }

theorem isComplaint_of_malformed {message : Text} (h : malformed file message = .build b) :
    IsComplaint file b := by
  cases h
  exact ⟨rfl, rfl⟩

theorem isComplaint_of_exportOf (h : exportOf file v = .error (.build b)) :
    IsComplaint file b := by
  unfold exportOf at h
  split at h
  · rcases bind_eq_error_iff.mp h with hmode | ⟨mode, -, h⟩
    · unfold Report.mode at hmode
      split at hmode
      · cases hmode
      · split at hmode
        · cases hmode
        · exact isComplaint_of_malformed (Except.error.inj hmode)
    · rcases bind_eq_error_iff.mp h with hparams | ⟨params, -, h⟩
      · obtain ⟨kind, -, hkind⟩ := params_eq_error_iff.mp hparams
        cases hkind
      · cases h
  · exact isComplaint_of_malformed (Except.error.inj h)

theorem isComplaint_of_ofText (h : ofText file text = .error (.build b)) : IsComplaint file b := by
  unfold ofText at h
  split at h
  · cases h
  · exact isComplaint_of_malformed (Except.error.inj h)
  · split at h
    · obtain ⟨_, v, _, -, -, hv⟩ := mapM_eq_error_iff.mp h
      exact isComplaint_of_exportOf hv
    · exact isComplaint_of_malformed (Except.error.inj h)

end ZigNif.Report
