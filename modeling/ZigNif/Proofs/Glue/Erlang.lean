import Mathlib.Data.List.Perm.Basic
import ZigNif.Glue.Erlang
import ZigNif.Proofs.Glue.Elixir

/-!
# Proofs/Glue/Erlang — documentation in Erlang modules

A line of documentation starts with two percent signs and holds no line boundary, so a rendered
module without its comments is the module without documentation (`code_render`).  A comment of
Erlang ends with its row, which only a newline ends; what is proved holds however a file is cut, if
one line is never cut.
-/

namespace ZigNif.Glue.Erlang

open Elixir (bare undocumented)

variable {f : Finished} {n : Nif} {ls ls' : List Text} {l doc : Text}
  {cut : Text → List Text}

/-- Whether a line is a comment from its start on. -/
def isComment (l : Text) : Bool := ("%%" : Text).isPrefixOf l

/-- The lines that are no comments. -/
def code (ls : List Text) : List Text := ls.filter fun l => !isComment l

/-- The lines that are comments. -/
def comments (ls : List Text) : List Text := ls.filter isComment

theorem code_append : code (ls ++ ls') = code ls ++ code ls' := List.filter_append ls ls'

theorem comments_append : comments (ls ++ ls') = comments ls ++ comments ls' :=
  List.filter_append ls ls'

theorem code_eq_nil (h : ∀ l ∈ ls, isComment l) : code ls = [] := by
  refine List.filter_eq_nil_iff.mpr fun l hl => ?_
  rw [h l hl]
  decide

theorem comments_eq_self (h : ∀ l ∈ ls, isComment l) : comments ls = ls :=
  List.filter_eq_self.mpr h

/-! ## Documentation -/

/-- Trimming takes at most the space away, not the percent signs. -/
theorem isComment_trimEnd (l : Text) : isComment (Text.trimEnd ("%% " ++ l)) := by
  rw [Text.trimEnd, Text.dropEndWhile_append]
  split
  case isTrue => rfl
  case isFalse => rfl

theorem isOneLine_trimEnd (h : Text.IsOneLine l) : Text.IsOneLine (Text.trimEnd ("%% " ++ l)) := by
  have hrow : Text.IsOneLine ("%% " ++ l) := Text.isOneLine_append.mpr ⟨by decide, h⟩
  exact Text.isOneLine_of_subset hrow (Text.isPrefix_dropEndWhile _ _).subset

/-- **Every line of documentation is a comment on one line**, whatever the documentation says. -/
theorem isComment_of_mem_docLines (h : l ∈ docLines n) : isComment l ∧ Text.IsOneLine l := by
  unfold docLines at h
  split at h
  case h_1 => cases h
  case h_2 doc _ =>
    obtain ⟨row, hrow, rfl⟩ := List.mem_map.mp h
    exact ⟨isComment_trimEnd row, isOneLine_trimEnd (Text.isOneLine_of_mem_lines hrow)⟩

/-! ## Modules -/

/-- The rows that define a nif. -/
def definition (n : Nif) : List Text :=
  [n.name ++ "(" ++ Text.joined ", " (parameters n) ++ ") ->",
    "    erlang:nif_error(nif_not_loaded)."]

/-- The rows in front of the nifs. -/
def header (f : Finished) : List Text :=
  ["-module(" ++ f.name ++ ").",
    "-export([" ++ Text.joined ", " (f.nifs.map exportEntry) ++ "]).",
    "-on_load(init/0)."] ++
  f.attributes.map (fun a => "-" ++ a.1 ++ "(" ++ term style a.2 ++ ").") ++
  ([ "",
    "init() ->",
    "    erlang:load_nif(" ++ Json.writeString (loadPath f) ++ ", 0)."] : List Text)

theorem lines_eq (f : Finished) : lines f = header f ++ f.nifs.flatMap nifLines := rfl

theorem nifLines_eq (n : Nif) : nifLines n = [] :: (docLines n ++ definition n) := rfl

theorem nifLines_bare (n : Nif) : nifLines (bare n) = [] :: definition n := rfl

/-- The header shows of a nif only its name and its arity. -/
theorem header_undocumented (f : Finished) : header (undocumented f) = header f := by
  have hexports : (undocumented f).nifs.map exportEntry = f.nifs.map exportEntry := List.map_map
  rw [header, hexports]
  rfl

section Cut

/-! A file is cut into lines or into rows; neither cuts a line of documentation. -/

variable (hcut : ∀ l, Text.IsOneLine l → cut l = [l])
include hcut

theorem flatMap_docLines (n : Nif) : (docLines n).flatMap cut = docLines n := by
  have hone : (docLines n).flatMap cut = (docLines n).flatMap fun l => [l] :=
    List.flatMap_congr fun l hl => hcut l (isComment_of_mem_docLines hl).2
  rw [hone, List.flatMap_singleton']

theorem flatMap_nifLines (n : Nif) : (nifLines n).flatMap cut =
    [] :: (docLines n ++ (definition n).flatMap cut) := by
  rw [nifLines_eq, List.flatMap_cons, List.flatMap_append, flatMap_docLines hcut, hcut [] nofun]
  rfl

theorem flatMap_nifLines_bare (n : Nif) :
    (nifLines (bare n)).flatMap cut = [] :: (definition n).flatMap cut := by
  rw [nifLines_bare, List.flatMap_cons, hcut [] nofun]
  rfl

/-- Documentation adds no code to a nif. -/
theorem code_nifLines (n : Nif) :
    code ((nifLines n).flatMap cut) = code ((nifLines (bare n)).flatMap cut) := by
  have hdocs : code (docLines n) = [] := code_eq_nil fun l hl => (isComment_of_mem_docLines hl).1
  have hcons : ∀ ls, code ([] :: ls) = [] :: code ls := fun _ => rfl
  rw [flatMap_nifLines hcut, flatMap_nifLines_bare hcut, hcons, hcons, code_append, hdocs,
    List.nil_append]

theorem code_flatMap_nifLines (ns : List Nif) : code ((ns.flatMap nifLines).flatMap cut) =
    code (((ns.map bare).flatMap nifLines).flatMap cut) := by
  induction ns with
  | nil => rfl
  | cons n ns ih =>
    rw [List.flatMap_cons, List.flatMap_append, code_append, code_nifLines hcut, ih, ← code_append,
      ← List.flatMap_append, ← List.flatMap_cons, ← List.map_cons]

/-- Of a nif, the comments are its documentation and those of the nif without it. -/
theorem comments_nifLines (n : Nif) : comments ((nifLines n).flatMap cut) =
    docLines n ++ comments ((nifLines (bare n)).flatMap cut) := by
  have hdocs : comments (docLines n) = docLines n :=
    comments_eq_self fun l hl => (isComment_of_mem_docLines hl).1
  have hcons : ∀ ls, comments ([] :: ls) = comments ls := fun _ => rfl
  rw [flatMap_nifLines hcut, flatMap_nifLines_bare hcut, hcons, hcons, comments_append, hdocs]

theorem comments_flatMap_nifLines (ns : List Nif) :
    (comments ((ns.flatMap nifLines).flatMap cut)).Perm
      (ns.flatMap docLines ++ comments (((ns.map bare).flatMap nifLines).flatMap cut)) := by
  induction ns with
  | nil => exact .nil
  | cons n ns ih =>
    rw [List.flatMap_cons, List.flatMap_append, comments_append, comments_nifLines hcut,
      List.map_cons, List.flatMap_cons, List.flatMap_cons, List.flatMap_append, comments_append,
      List.append_assoc, List.append_assoc]
    refine List.Perm.append_left (docLines n) ?_
    exact (List.Perm.append_left _ ih).trans (List.perm_append_comm_assoc _ _ _)

/-- **Without comments, a module and the module without documentation are the same**, and the
comments are the documentation and those of the module without it. -/
theorem code_flatMap (f : Finished) :
    code ((lines f).flatMap cut) = code ((lines (undocumented f)).flatMap cut) ∧
      (comments ((lines f).flatMap cut)).Perm
        (f.nifs.flatMap docLines ++ comments ((lines (undocumented f)).flatMap cut)) := by
  have hbare : (undocumented f).nifs = f.nifs.map bare := rfl
  rw [lines_eq, lines_eq, header_undocumented, hbare, List.flatMap_append, List.flatMap_append,
    code_append, code_append, comments_append, comments_append]
  refine ⟨congrArg _ (code_flatMap_nifLines hcut f.nifs), ?_⟩
  exact (List.Perm.append_left _ (comments_flatMap_nifLines hcut f.nifs)).trans
    (List.perm_append_comm_assoc _ _ _)

end Cut

theorem lines_render (f : Finished) : Text.lines (render f) = (lines f).flatMap Text.cut :=
  Text.lines_unlines_append_newline (List.cons_ne_nil _ _)

theorem rows_render (f : Finished) :
    Text.rows (render f) = (lines f).flatMap Text.rows ++ [[]] :=
  Text.rows_unlines_append_newline (List.cons_ne_nil _ _)

/-- **Documentation stays in comments**: a rendered module has the code of the module without
documentation, and its comments are those of that module and the documentation.  This holds of its
lines, whatever may end them, and of its rows, which only newlines end. -/
theorem code_render (f : Finished) :
    (code (Text.lines (render f)) = code (Text.lines (render (undocumented f))) ∧
      (comments (Text.lines (render f))).Perm
        (f.nifs.flatMap docLines ++ comments (Text.lines (render (undocumented f))))) ∧
    (code (Text.rows (render f)) = code (Text.rows (render (undocumented f))) ∧
      (comments (Text.rows (render f))).Perm
        (f.nifs.flatMap docLines ++ comments (Text.rows (render (undocumented f))))) := by
  have hcode : ∀ ls, code (ls ++ [[]]) = code ls ++ [[]] := fun ls => code_append
  have hcomments : ∀ ls, comments (ls ++ [[]]) = comments ls := fun ls =>
    comments_append.trans (List.append_nil _)
  have hwhole : ∀ l, Text.IsOneLine l → Text.rows l = [l] := fun l hl => Text.rows_of_isOneLine hl
  obtain ⟨hrows, hperm⟩ := code_flatMap hwhole f
  rw [lines_render, lines_render, rows_render, rows_render, hcode, hcode, hcomments, hcomments,
    hrows]
  exact ⟨code_flatMap (fun l hl => Text.cut_of_isOneLine hl) f, rfl, hperm⟩

end ZigNif.Glue.Erlang
