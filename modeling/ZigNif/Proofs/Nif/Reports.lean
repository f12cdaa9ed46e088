import Mathlib.Logic.Relation
import ZigNif.Proofs.Nif.Verified

/-!
# Proofs/Nif/Reports — what of the reports counts

An automatic list exports what is reported, so for given reports it can be spelled out as an
explicit list.  An explicit list looks its names up in the reports and finds the first report of
each, so the reports of other names count for nothing, and neither does the order of reports of
distinct names.  `Edits` are changes of that kind; they lead to all reports that have the same
exports of each of the names, and to no others.
-/

namespace ZigNif

/-- The list spelled out for the reports: every reported name once, in the order of the first
reports, with the options that the list has for it. -/
def Declared.spelledOut (d : Declared) (reported : List Export) : Declared where
  entries := (reported.map Export.name).eraseDups.map fun n => (n, d.optionsOf n)

namespace Nif

variable {file module : Option Text} {d : Declared} {reported reported' : List Export}
  {names : List Text} {name : Text}

/-! ## Automatic lists spelled out -/

theorem entries_spelledOut : (d.spelledOut reported).entries =
    (reportTable reported).map fun entry => (entry.1, d.optionsOf entry.1) := by
  rw [Declared.spelledOut, ← keys_reportTable, Table.keys, List.map_map]
  rfl

/-- An entry that is spelled out gives the nif of its reported function. -/
theorem entryNif_spelledOut {entry : Text × Export} (h : entry ∈ reportTable reported) :
    entryNif file module (reportTable reported) (entry.1, d.optionsOf entry.1) =
      reportedNif file d entry :=
  entryNif_of_firstReport (mem_reportTable_iff.mp h)

theorem verifyAuto_of_reported (h : ∀ n ∈ d.names, n ∈ reported.map Export.name) :
    verifyAuto d (reportTable reported) file module =
      (reportTable reported).mapM (reportedNif file d) := by
  rw [verifyAuto_eq, unreported_eq_nil_iff.mpr h]
  exact bind_pure _

theorem found_spelledOut (hauto : d.auto = true)
    (h : ∀ n ∈ d.names, n ∈ reported.map Export.name) :
    found (d.spelledOut reported) (reportTable reported) file module =
      found d (reportTable reported) file module := by
  rw [found_of_auto hauto, verifyAuto_of_reported h, found_of_explicit rfl, verifyExplicit_eq,
    entries_spelledOut, List.mapM_map]
  exact mapM_congr fun entry hentry => entryNif_spelledOut hentry

/-! ## Reports that differ in other names -/

/-- One change of the reports: an export of another name comes in or goes away, or two neighbours of
distinct names change places. -/
inductive Edit (names : List Text) : List Export → List Export → Prop
  | insert (before : List Export) {after : List Export} {e : Export} : e.name ∉ names →
    Edit names (before ++ after) (before ++ e :: after)
  | remove (before : List Export) {after : List Export} {e : Export} : e.name ∉ names →
    Edit names (before ++ e :: after) (before ++ after)
  | swap (before : List Export) {after : List Export} {e e' : Export} : e.name ≠ e'.name →
    Edit names (before ++ e :: e' :: after) (before ++ e' :: e :: after)

/-- Changes of the reports, one after another. -/
abbrev Edits (names : List Text) : List Export → List Export → Prop :=
  Relation.ReflTransGen (Edit names)

/-- The exports of one name in the reports, in order. -/
def exportsOf (reported : List Export) (name : Text) : List Export :=
  reported.filter fun e => e.name = name

theorem head?_exportsOf : (exportsOf reported name).head? = firstReport reported name :=
  List.head?_filter

theorem exportsOf_cons {e : Export} : exportsOf (e :: reported) name =
    if e.name = name then e :: exportsOf reported name else exportsOf reported name := by
  rw [exportsOf, List.filter_cons]
  simp only [decide_eq_true_eq]
  rfl

theorem exportsOf_append :
    exportsOf (reported ++ reported') name = exportsOf reported name ++ exportsOf reported' name :=
  List.filter_append ..

/-- No change touches the exports of the names. -/
theorem Edit.exportsOf_eq (h : Edit names reported reported') (hname : name ∈ names) :
    exportsOf reported' name = exportsOf reported name := by
  cases h with
  | insert before he =>
    have hne := ne_of_mem_of_not_mem hname he
    rw [exportsOf_append, exportsOf_append, exportsOf_cons, if_neg hne.symm]
  | remove before he =>
    have hne := ne_of_mem_of_not_mem hname he
    rw [exportsOf_append, exportsOf_append, exportsOf_cons, if_neg hne.symm]
  | @swap before _ e e' hne =>
    simp only [exportsOf_append, exportsOf_cons]
    by_cases he : e.name = name
    · have he' : ¬ e'.name = name := fun he' => hne (he.trans he'.symm)
      rw [if_pos he, if_neg he', if_neg he', if_pos he]
    · rw [if_neg he, if_neg he]

theorem Edits.exportsOf_eq (h : Edits names reported reported') (hname : name ∈ names) :
    exportsOf reported' name = exportsOf reported name := by
  induction h with
  | refl => rfl
  | tail _ hedit ih => exact (hedit.exportsOf_eq hname).trans ih

theorem Edit.cons (e : Export) (h : Edit names reported reported') :
    Edit names (e :: reported) (e :: reported') := by
  cases h with
  | insert before he => exact .insert (e :: before) he
  | remove before he => exact .remove (e :: before) he
  | swap before hne => exact .swap (e :: before) hne

theorem Edits.cons (e : Export) (h : Edits names reported reported') :
    Edits names (e :: reported) (e :: reported') := by
  induction h with
  | refl => exact .refl
  | tail _ hedit ih => exact ih.tail (hedit.cons e)

/-- An export moves over exports of other names. -/
theorem edits_move {before after : List Export} {e : Export} (h : ∀ b ∈ before, b.name ≠ e.name) :
    Edits names (before ++ e :: after) (e :: before ++ after) := by
  induction before with
  | nil => exact .refl
  | cons b before ih =>
    obtain ⟨hb, hbefore⟩ := List.forall_mem_cons.mp h
    exact ((ih hbefore).cons b).tail (.swap [] hb)

/-- **Changes lead to all reports with the same exports of the names.** -/
theorem edits_iff :
    Edits names reported reported' ↔ ∀ n ∈ names, exportsOf reported' n = exportsOf reported n := by
  refine ⟨fun h n hn => h.exportsOf_eq hn, fun h => ?_⟩
  induction reported' generalizing reported with
  | nil =>
    -- nothing is left of the names, so all reports can go away
    induction reported with
    | nil => exact .refl
    | cons e reported ih =>
      have he : e.name ∉ names := fun hn => by
        have heq := h _ hn
        rw [exportsOf_cons, if_pos rfl] at heq
        cases heq
      refine .head (.remove [] he) (ih fun n hn => ?_)
      rw [h n hn, exportsOf_cons, if_neg (ne_of_mem_of_not_mem hn he).symm]
  | cons e reported' ih =>
    by_cases he : e.name ∈ names
    · have heq := h _ he
      rw [exportsOf_cons, if_pos rfl, eq_comm] at heq
      obtain ⟨before, after, rfl, hbefore, -, -⟩ := List.filter_eq_cons_iff.mp heq
      have hmove : Edits names (before ++ e :: after) (e :: before ++ after) :=
        edits_move fun b hb hname => hbefore b hb (decide_eq_true hname)
      refine hmove.trans ((ih fun n hn => ?_).cons e)
      have heq := (h n hn).trans (hmove.exportsOf_eq hn).symm
      rw [List.cons_append, exportsOf_cons, exportsOf_cons] at heq
      split at heq
      · exact (List.cons.inj heq).2
      · exact heq
    · refine (ih fun n hn => ?_).tail (.insert [] he)
      rw [← h n hn, exportsOf_cons, if_neg (ne_of_mem_of_not_mem hn he).symm]

/-- An explicit list whose names are reported depends on their first reports alone. -/
theorem verifyExplicit_congr (h : ∀ n ∈ d.names, n ∈ reported.map Export.name)
    (hfirst : ∀ n ∈ d.names, firstReport reported' n = firstReport reported n) :
    verifyExplicit d (reportTable reported') file module =
      verifyExplicit d (reportTable reported) file module := by
  rw [verifyExplicit_eq, verifyExplicit_eq]
  refine mapM_congr fun entry hentry => ?_
  have hname : entry.1 ∈ d.names := List.mem_map_of_mem hentry
  obtain ⟨e, he⟩ := exists_firstReport_iff.mpr (h _ hname)
  rw [entryNif_of_firstReport he, entryNif_of_firstReport ((hfirst _ hname).trans he)]

/-- **What of the reports counts, where all declared names are reported.**

An automatic list is verified as the explicit one that it is spelled out to, with the same nifs or
the same error.  An explicit list is verified alike whatever exports of other names are reported
before, behind and between those of its names, and in whatever order exports of distinct names are
reported. -/
theorem verify_of_reported (h : ∀ n ∈ d.names, n ∈ reported.map Export.name)
    (file module : Option Text) :
    (d.auto = true →
      verify d reported file module = verify (d.spelledOut reported) reported file module) ∧
    (d.auto = false → ∀ reported', Edits d.names reported reported' →
      verify d reported' file module = verify d reported file module) := by
  refine ⟨fun hauto => ?_, fun hauto reported' hedits => ?_⟩
  · rw [verify_eq, verify_eq, found_spelledOut hauto h]
  · have hfirst : ∀ n ∈ d.names, firstReport reported' n = firstReport reported n := fun n hn => by
      rw [← head?_exportsOf, ← head?_exportsOf, hedits.exportsOf_eq hn]
    rw [verify_eq, verify_eq, found_of_explicit hauto, found_of_explicit hauto,
      verifyExplicit_congr h hfirst]

/-- The function with a mode of its own, alone in an explicit list. -/
def aloneDeclared : Declared := ⟨false, mixedDeclared.entries⟩

theorem verify_of_reported_mixed :
    (∀ n ∈ mixedDeclared.names, n ∈ twiceReported.map Export.name) ∧
      mixedDeclared.spelledOut twiceReported =
        ⟨false, [("c", []), ("b", [("concurrency", .str "threaded")])]⟩ ∧
      verify mixedDeclared twiceReported none none =
        verify (mixedDeclared.spelledOut twiceReported) twiceReported none none ∧
      verify aloneDeclared [{ name := "b" }] none none =
        verify aloneDeclared twiceReported none none := by
  have hmixed : ∀ n ∈ mixedDeclared.names, n ∈ twiceReported.map Export.name := by decide
  have halone : Edits aloneDeclared.names twiceReported [{ name := "b" }] :=
    edits_iff.mpr (by decide)
  exact ⟨hmixed, by rfl, (verify_of_reported hmixed none none).1 rfl,
    (verify_of_reported (d := aloneDeclared) hmixed none none).2 rfl _ halone⟩

end Nif

end ZigNif
