import Mathlib.Data.List.Nodup
import ZigNif.Glue.Render
import ZigNif.Proofs.Glue.Erlang
import ZigNif.Proofs.Nif.Verified
import ZigNif.Proofs.Path
import ZigNif.Proofs.Source.Grammar

/-!
# Proofs/Glue/Functions — the functions that glue code defines

Glue code defines the loader and, for every nif, a function of its name and arity; the export list
and the table of the entry file have the same names and arities in the same order.  Verified nifs
have distinct names, so a function is defined twice only if a nif is called like the loader
(`heads_renderAs`).
-/

namespace ZigNif

/-- The name and the number of parameters of a nif. -/
def Nif.head (n : Nif) : Text × Nat := (n.name, n.arity)

namespace Glue

open Source (isLetter isNameChar IsWord)
open Elixir (names)

variable {f : Finished} {n : Nif} {ns : List Nif} {name rest l : Text} {ps ls : List Text}

/-! ## Heads -/

/-- The number of parameters in the parentheses that a text starts with; none without them. -/
def parameterCount : Text → Nat
  | '(' :: r => if r.head? = some ')' then 0 else (r.takeWhile (· != ')')).count ',' + 1
  | _ => 0

/-- The name and the number of parameters that a text starts with. -/
def headOf (t : Text) : Text × Nat :=
  (t.takeWhile isNameChar, parameterCount (t.dropWhile isNameChar))

theorem all_isNameChar (h : IsWord isLetter isNameChar name) : ∀ c ∈ name, isNameChar c := by
  intro c hc
  refine (h.of_mem hc).elim (fun hletter => ?_) id
  rw [isNameChar, hletter, Bool.true_or]

theorem isOneLine_of_isWord (h : IsWord isLetter isNameChar name) : Text.IsOneLine name := by
  intro c hc
  refine Bool.eq_false_iff.mpr fun hend => ?_
  have hblank : Text.isBlank c := by
    simp only [Text.isLineEnd, Text.isBlank, Bool.or_eq_true, Bool.and_eq_true, decide_eq_true_eq,
      beq_iff_eq] at hend ⊢
    omega
  exact Source.Terminal.not_isNameChar_of_isBlank hblank (all_isNameChar h c hc)

theorem count_joined (h : ∀ p ∈ ps, ',' ∉ p) : (Text.joined ", " ps).count ',' = ps.length - 1 := by
  induction ps with
  | nil => rfl
  | cons p ps ih =>
    obtain ⟨hp, hps⟩ := List.forall_mem_cons.mp h
    cases ps with
    | nil => exact List.count_eq_zero.mpr hp
    | cons q ps =>
      have hjoined : Text.joined ", " (p :: q :: ps) =
          p ++ ", " ++ Text.joined ", " (q :: ps) := rfl
      rw [hjoined, List.count_append, List.count_append, List.count_eq_zero.mpr hp, ih hps]
      simp [Nat.add_comm]

theorem notMem_joined {sep : Text} {c : Char} (hsep : c ∉ sep) (h : ∀ p ∈ ps, c ∉ p) :
    c ∉ Text.joined sep ps := by
  induction ps with
  | nil => exact List.not_mem_nil
  | cons p ps ih =>
    obtain ⟨hp, hps⟩ := List.forall_mem_cons.mp h
    cases ps with
    | nil => exact hp
    | cons q ps => exact List.not_mem_append (List.not_mem_append hp hsep) (ih hps)

theorem parameterCount_joined (h : ∀ p ∈ ps, p ≠ [] ∧ ',' ∉ p ∧ ')' ∉ p) (rest : Text) :
    parameterCount ('(' :: (Text.joined ", " ps ++ ')' :: rest)) = ps.length := by
  have hparen : ∀ c ∈ Text.joined ", " ps, (c != ')') = true := by
    intro c hc
    refine bne_iff_ne.mpr ?_
    rintro rfl
    exact notMem_joined (by decide) (fun p hp => (h p hp).2.2) hc
  cases ps with
  | nil => rfl
  | cons p ps =>
    obtain ⟨c, t, hjoined⟩ : ∃ c t, Text.joined ", " (p :: ps) = c :: t := by
      refine List.exists_cons_of_ne_nil fun hnil => ?_
      cases ps with
      | nil => exact (h p List.mem_cons_self).1 hnil
      | cons q ps => simp [Text.joined] at hnil
    have hc : c ≠ ')' := bne_iff_ne.mp (hparen c (hjoined ▸ List.mem_cons_self))
    have hhead : (Text.joined ", " (p :: ps) ++ ')' :: rest).head? ≠ some ')' := by
      rw [hjoined]
      exact fun hsome => hc (Option.some.inj hsome)
    rw [parameterCount, if_neg hhead, List.takeWhile_append_of_pos hparen,
      List.takeWhile_cons_of_neg (by decide), List.append_nil,
      count_joined fun p hp => (h p hp).2.1]
    rfl

theorem takeWhile_append_of_isWord (hname : IsWord isLetter isNameChar name)
    (hrest : ∀ c ∈ rest.head?, ¬isNameChar c) : (name ++ rest).takeWhile isNameChar = name := by
  have hnone : rest.takeWhile isNameChar = [] := by
    cases rest with
    | nil => rfl
    | cons c rest => exact List.takeWhile_cons_of_neg (hrest c rfl)
  rw [List.takeWhile_append_of_pos (all_isNameChar hname), hnone, List.append_nil]

theorem dropWhile_append_of_isWord (hname : IsWord isLetter isNameChar name)
    (hrest : ∀ c ∈ rest.head?, ¬isNameChar c) : (name ++ rest).dropWhile isNameChar = rest := by
  rw [List.dropWhile_append_of_pos (all_isNameChar hname)]
  cases rest with
  | nil => rfl
  | cons c rest => exact List.dropWhile_cons_of_neg (hrest c rfl)

/-- **A function that is written with the parameters of a nif has the nif's head.** -/
theorem headOf_definition (hname : IsWord isLetter isNameChar n.name)
    (hrest : rest.head? = some ')') :
    headOf (n.name ++ ("(" ++ (Text.joined ", " (parameters n) ++ rest))) = n.head := by
  obtain ⟨rest, rfl⟩ := List.head?_eq_some_iff.mp hrest
  have hparameters : ∀ p ∈ parameters n, p ≠ [] ∧ ',' ∉ p ∧ ')' ∉ p := by
    intro p hp
    obtain ⟨i, -, rfl⟩ := List.mem_map.mp hp
    have hdigits : ∀ c : Char, c.isDigit = false → c ∉ Text.ofNat i := by
      intro c hc hmem
      rw [Text.charIsDigit_of_mem_ofNat hmem] at hc
      cases hc
    exact ⟨List.cons_ne_nil _ _, List.not_mem_append (by decide) (hdigits ',' rfl),
      List.not_mem_append (by decide) (hdigits ')' rfl)⟩
  have hparen : ∀ c ∈ ('(' :: (Text.joined ", " (parameters n) ++ ')' :: rest)).head?,
      ¬isNameChar c := by
    rintro c ⟨⟩
    decide
  refine Prod.ext (takeWhile_append_of_isWord hname hparen) ?_
  refine (congrArg parameterCount (dropWhile_append_of_isWord hname hparen)).trans ?_
  refine (parameterCount_joined hparameters rest).trans ?_
  rw [parameters, List.length_map, List.length_range]
  rfl

theorem filterMap_map_eq {g : Nif → Text} {r : Text → Option (Text × Nat)}
    (h : ∀ n ∈ ns, r (g n) = some n.head) : (ns.map g).filterMap r = ns.map Nif.head := by
  rw [List.filterMap_map, ← List.filterMap_eq_map]
  exact List.filterMap_congr h

theorem isOneLine_parameters (n : Nif) : Text.IsOneLine (Text.joined ", " (parameters n)) := by
  refine Text.isOneLine_joined (by decide) fun p hp => ?_
  obtain ⟨i, -, rfl⟩ := List.mem_map.mp hp
  exact Text.isOneLine_append.mpr ⟨by decide, Text.isOneLine_ofNat i⟩

/-! ## Erlang -/

namespace Erlang

/-- The function that loads the library. -/
def loader : Text × Nat := ("init", 0)

/-- The head of the function that a line starts: functions start at the margin. -/
def head? (l : Text) : Option (Text × Nat) :=
  if l.head?.any isNameChar then some (headOf l) else none

/-- The functions of a module, in order. -/
def heads (t : Text) : List (Text × Nat) := (Text.lines t).filterMap head?

theorem head?_of_isComment (h : isComment l) : head? l = none := by
  obtain ⟨t, rfl⟩ := List.isPrefixOf_iff_prefix.mp h
  rfl

theorem head?_definition (hname : IsWord isLetter isNameChar n.name) :
    head? (n.name ++ "(" ++ Text.joined ", " (parameters n) ++ ") ->") = some n.head := by
  have hclose : (") ->" : Text).head? = some ')' := by decide
  have hhead := headOf_definition hname hclose
  obtain ⟨c, r, hc, hletter, -⟩ := hname
  have hfirst : isNameChar c = true := by rw [isNameChar, hletter, Bool.true_or]
  rw [head?, if_pos, List.append_assoc, List.append_assoc, hhead]
  · rw [hc]
    exact hfirst

theorem filterMap_head?_header (f : Finished) : (header f).filterMap head? = [loader] := by
  have hattributes : (f.attributes.map fun a =>
      ("-" : Text) ++ a.1 ++ "(" ++ term style a.2 ++ ").").filterMap head? = [] := by
    refine List.filterMap_eq_nil_iff.mpr fun row hrow => ?_
    obtain ⟨a, -, rfl⟩ := List.mem_map.mp hrow
    rfl
  unfold header
  rw [List.filterMap_append, List.filterMap_append, hattributes]
  rfl

theorem filterMap_head?_nifLines (hname : IsWord isLetter isNameChar n.name) :
    (nifLines n).filterMap head? = [n.head] := by
  have hdocs : (docLines n).filterMap head? = [] :=
    List.filterMap_eq_nil_iff.mpr fun row hrow =>
      head?_of_isComment (isComment_of_mem_docLines hrow).1
  have hnil : head? [] = none := rfl
  rw [nifLines_eq, List.filterMap_cons_none hnil, List.filterMap_append, hdocs, definition,
    List.filterMap_cons_some (head?_definition hname)]
  rfl

theorem filterMap_head?_flatMap (h : ∀ n ∈ ns, IsWord isLetter isNameChar n.name) :
    (ns.flatMap nifLines).filterMap head? = ns.map Nif.head := by
  induction ns with
  | nil => rfl
  | cons n ns ih =>
    obtain ⟨hn, hns⟩ := List.forall_mem_cons.mp h
    rw [List.flatMap_cons, List.filterMap_append, filterMap_head?_nifLines hn, ih hns]
    rfl

theorem isOneLine_header (h : ∀ name ∈ names f, Text.IsOneLine name) :
    ∀ row ∈ header f, Text.IsOneLine row := by
  have hname : Text.IsOneLine f.name := h f.name (List.mem_append_left _ List.mem_cons_self)
  have hkeys : ∀ a ∈ f.attributes, Text.IsOneLine a.1 := fun a ha =>
    h a.1 (List.mem_append_left _ (List.mem_cons_of_mem _ (List.mem_map_of_mem ha)))
  have hentries : Text.IsOneLine (Text.joined ", " (f.nifs.map exportEntry)) := by
    refine Text.isOneLine_joined (by decide) fun e he => ?_
    obtain ⟨n, hn, rfl⟩ := List.mem_map.mp he
    have hnif : Text.IsOneLine n.name := h n.name (List.mem_append_right _ (List.mem_map_of_mem hn))
    exact Text.isOneLine_append.mpr
      ⟨Text.isOneLine_append.mpr ⟨hnif, by decide⟩, Text.isOneLine_ofNat n.arity⟩
  -- a text on one line between two others
  have hbetween : ∀ {o t e : Text}, Text.IsOneLine o → Text.IsOneLine t → Text.IsOneLine e →
      Text.IsOneLine (o ++ t ++ e) := fun ho ht he =>
    Text.isOneLine_append.mpr ⟨Text.isOneLine_append.mpr ⟨ho, ht⟩, he⟩
  intro row hrow
  simp only [header, List.mem_append, List.mem_map, List.mem_cons, List.not_mem_nil,
    or_false] at hrow
  rcases hrow with ((rfl | rfl | rfl) | ⟨a, ha, rfl⟩) | rfl | rfl | rfl
  · exact hbetween (by decide) hname (by decide)
  · exact hbetween (by decide) hentries (by decide)
  · decide
  · exact hbetween (hbetween (by decide) (hkeys a ha) (by decide))
      (isOneLine_term (by decide) (by decide) a.2) (by decide)
  · decide
  · decide
  · exact hbetween (by decide) (Json.isOneLine_writeString (loadPath f)) (by decide)

theorem isOneLine_nifLines (h : Text.IsOneLine n.name) :
    ∀ row ∈ nifLines n, Text.IsOneLine row := by
  intro row hrow
  rw [nifLines_eq, List.mem_cons, List.mem_append, definition] at hrow
  simp only [List.mem_cons, List.not_mem_nil, or_false] at hrow
  rcases hrow with rfl | hdoc | rfl | rfl
  · decide
  · exact (isComment_of_mem_docLines hdoc).2
  · exact Text.isOneLine_append.mpr ⟨Text.isOneLine_append.mpr
      ⟨Text.isOneLine_append.mpr ⟨h, by decide⟩, isOneLine_parameters n⟩, by decide⟩
  · decide

/-- Names on one line leave every row a line. -/
theorem lines_render_of_isOneLine (h : ∀ name ∈ names f, Text.IsOneLine name) :
    Text.lines (render f) = lines f := by
  rw [lines_render]
  refine Text.flatMap_cut_of_isOneLine fun row hrow => ?_
  rw [lines_eq, List.mem_append, List.mem_flatMap] at hrow
  rcases hrow with hrow | ⟨n, hn, hrow⟩
  · exact isOneLine_header h row hrow
  · exact isOneLine_nifLines (h n.name (List.mem_append_right _ (List.mem_map_of_mem hn))) row hrow

/-- **The functions of an Erlang module** are the loader and the nifs. -/
theorem heads_render (h : ∀ name ∈ names f, Text.IsOneLine name)
    (hnifs : ∀ n ∈ f.nifs, IsWord isLetter isNameChar n.name) :
    heads (render f) = loader :: f.nifs.map Nif.head := by
  rw [heads, lines_render_of_isOneLine h, lines_eq, List.filterMap_append, filterMap_head?_header,
    filterMap_head?_flatMap hnifs]
  rfl

end Erlang

/-! ## Elixir -/

namespace Elixir

/-- The function that loads the library. -/
def loader : Text × Nat := ("__load_nifs__", 0)

/-- The head of the function that a line starts. -/
def head? (l : Text) : Option (Text × Nat) := (Text.dropPrefix? "  def " l).map headOf

/-- The functions of a module outside of its documentation, in order. -/
def heads (t : Text) : List (Text × Nat) := (extract (Text.lines t)).left.filterMap head?

theorem head?_definition (hname : IsWord isLetter isNameChar n.name) :
    head? (definition n) = some n.head := by
  have hclose : ("), do: :erlang.nif_error(:nif_not_loaded)" : Text).head? = some ')' := by decide
  unfold definition
  rw [head?, List.append_assoc, List.append_assoc, List.append_assoc, Text.dropPrefix?_append,
    Option.map_some, headOf_definition hname hclose]

theorem filterMap_head?_header (f : Finished) : (header f).filterMap head? = [loader] := by
  have hattributes : (f.attributes.map fun a =>
      ("  @" : Text) ++ a.1 ++ " " ++ term style a.2).filterMap head? = [] := by
    refine List.filterMap_eq_nil_iff.mpr fun row hrow => ?_
    obtain ⟨a, -, rfl⟩ := List.mem_map.mp hrow
    rfl
  have hresources : ((Text.sorted f.dependencies).map fun d =>
      ("  @external_resource " : Text) ++ Json.writeString d).filterMap head? = [] := by
    refine List.filterMap_eq_nil_iff.mpr fun row hrow => ?_
    obtain ⟨d, -, rfl⟩ := List.mem_map.mp hrow
    rfl
  unfold header
  rw [List.filterMap_append, List.filterMap_append, List.filterMap_append, hattributes, hresources]
  rfl

theorem filterMap_head?_bareLines (h : ∀ n ∈ ns, IsWord isLetter isNameChar n.name) :
    (bareLines ns).filterMap head? = ns.map Nif.head := by
  induction ns with
  | nil => rfl
  | cons n ns ih =>
    obtain ⟨hn, hns⟩ := List.forall_mem_cons.mp h
    have hnil : head? [] = none := rfl
    rw [bareLines_cons, Text.cut_of_isOneLine (isOneLine_definition (isOneLine_of_isWord hn)).1,
      List.filterMap_cons_none hnil, List.singleton_append,
      List.filterMap_cons_some (head?_definition hn), ih hns]
    rfl

/-- **The functions of an Elixir module** whose docs do not close themselves are the loader and the
nifs. -/
theorem heads_render (h : ∀ name ∈ names f, Text.IsOneLine name)
    (hnifs : ∀ n ∈ f.nifs, IsWord isLetter isNameChar n.name)
    (hdocs : ∀ doc ∈ docs f, ("\"\"\"" : Text) ∉ doc) :
    heads (render f) = loader :: f.nifs.map Nif.head := by
  have hheader : (header f).flatMap Text.cut = header f :=
    Text.flatMap_cut_of_isOneLine fun row hrow => (isOneLine_header h row hrow).1
  rw [heads, (extract_render_eq_iff f).mpr ((isSealed_iff h).mpr hdocs),
    lines_render_undocumented, hheader, List.filterMap_append, List.filterMap_append,
    filterMap_head?_header, filterMap_head?_bareLines hnifs]
  exact congrArg (loader :: ·) (List.append_nil _)

end Elixir

/-! ## Exports -/

namespace Erlang

/-- The name and the arity that an entry of an export list stands for. -/
def exported? (e : Text) : Option (Text × Nat) :=
  match e.dropWhile isNameChar with
  | '/' :: r => some (e.takeWhile isNameChar, Text.readNat r)
  | _ => none

/-- The entries of the export list that a line is. -/
def exportList? (l : Text) : Option (List (Text × Nat)) :=
  (Text.dropPrefix? "-export([" l).map fun r =>
    (Text.splitOn ',' (r.takeWhile (· != ']'))).filterMap fun e =>
      exported? (e.dropWhile (· == ' '))

/-- The exported functions of a module, in order. -/
def exports (t : Text) : List (Text × Nat) := ((Text.lines t).findSome? exportList?).getD []

theorem splitOn_joined_spaced (h : ∀ p ∈ l :: ps, ',' ∉ p) :
    Text.splitOn ',' (Text.joined ", " (l :: ps)) = l :: ps.map (' ' :: ·) := by
  induction ps generalizing l with
  | nil => exact Text.splitOn_of_notMem (h l List.mem_cons_self)
  | cons p ps ih =>
    obtain ⟨hl, hps⟩ := List.forall_mem_cons.mp h
    have hjoined : Text.joined ", " (l :: p :: ps) =
        l ++ ',' :: (' ' :: Text.joined ", " (p :: ps)) :=
      List.append_assoc l ", ".toList _
    rw [hjoined, Text.splitOn_append_cons, Text.splitOn_of_notMem hl, Text.splitOn,
      if_neg (by decide), ih hps]
    rfl

theorem exported?_exportEntry (hname : IsWord isLetter isNameChar n.name) :
    exported? (exportEntry n) = some n.head := by
  have hslash : ∀ c ∈ ('/' :: Text.ofNat n.arity).head?, ¬isNameChar c := by
    rintro c ⟨⟩
    decide
  have hentry : exportEntry n = n.name ++ '/' :: Text.ofNat n.arity :=
    List.append_assoc n.name ['/'] _
  rw [exported?, hentry, takeWhile_append_of_isWord hname hslash,
    dropWhile_append_of_isWord hname hslash]
  exact congrArg some (Prod.ext rfl (Text.readNat_ofNat n.arity))

theorem notMem_exportEntry (hname : IsWord isLetter isNameChar n.name) {c : Char}
    (hc : ¬isNameChar c) (hslash : c ≠ '/') : c ∉ exportEntry n := by
  have hdigits : c ∉ Text.ofNat n.arity := by
    intro hmem
    have hrange := Text.toNat_of_isDigit (Text.charIsDigit_of_mem_ofNat hmem)
    have hnumeric : Source.isNumeric c := Source.Terminal.isNumeric_iff.mpr (by omega)
    rw [isNameChar, hnumeric, Bool.or_true] at hc
    exact hc rfl
  have hmem : c ∉ n.name := fun hmem => hc (all_isNameChar hname c hmem)
  exact List.not_mem_append (List.not_mem_append hmem (mt List.mem_singleton.mp hslash)) hdigits

/-- A space in front of an entry does not count. -/
theorem exported?_dropWhile (hname : IsWord isLetter isNameChar n.name) :
    exported? ((exportEntry n).dropWhile (· == ' ')) = some n.head := by
  have hne : exportEntry n ≠ [] := List.append_ne_nil_of_right_ne_nil _ Text.ofNat_ne_nil
  obtain ⟨c, e, he⟩ := List.exists_cons_of_ne_nil hne
  have hc : ¬(c == ' ') := by
    intro heq
    have hspace : ' ' ∈ exportEntry n := by
      rw [he, beq_iff_eq.mp heq]
      exact List.mem_cons_self
    exact notMem_exportEntry hname (by decide) (by decide) hspace
  have hkept : (exportEntry n).dropWhile (· == ' ') = exportEntry n := by
    rw [he]
    exact List.dropWhile_cons_of_neg hc
  rw [hkept, exported?_exportEntry hname]

theorem exportList?_render (hnifs : ∀ n ∈ ns, IsWord isLetter isNameChar n.name) (hne : ns ≠ []) :
    exportList? ("-export([" ++ Text.joined ", " (ns.map exportEntry) ++ "]).") =
      some (ns.map Nif.head) := by
  have hclose : ∀ c ∈ Text.joined ", " (ns.map exportEntry), (c != ']') = true := by
    intro c hc
    refine bne_iff_ne.mpr ?_
    rintro rfl
    refine notMem_joined (by decide) (fun e he => ?_) hc
    obtain ⟨n, hn, rfl⟩ := List.mem_map.mp he
    exact notMem_exportEntry (hnifs n hn) (by decide) (by decide)
  have hcomma : ∀ e ∈ ns.map exportEntry, ',' ∉ e := by
    intro e he
    obtain ⟨n, hn, rfl⟩ := List.mem_map.mp he
    exact notMem_exportEntry (hnifs n hn) (by decide) (by decide)
  have hentries := filterMap_map_eq (g := exportEntry)
    (r := fun e => exported? (e.dropWhile (· == ' '))) fun n hn => exported?_dropWhile (hnifs n hn)
  have hend : (("])." : Text).takeWhile (· != ']')) = [] := by decide
  rw [exportList?, List.append_assoc, Text.dropPrefix?_append, Option.map_some,
    List.takeWhile_append_of_pos hclose, hend, List.append_nil, ← hentries]
  obtain ⟨m, ms, rfl⟩ := List.exists_cons_of_ne_nil hne
  rw [List.map_cons] at hcomma ⊢
  rw [splitOn_joined_spaced hcomma, List.filterMap_cons, List.filterMap_cons, List.filterMap_map]
  rfl

/-- **The exported functions of an Erlang module are its nifs.** -/
theorem exports_render (h : ∀ name ∈ names f, Text.IsOneLine name)
    (hnifs : ∀ n ∈ f.nifs, IsWord isLetter isNameChar n.name) (hne : f.nifs ≠ []) :
    exports (render f) = f.nifs.map Nif.head := by
  have hmodule : exportList? ("-module(" ++ f.name ++ ").") = none := rfl
  have hlist := exportList?_render hnifs hne
  rw [exports, lines_render_of_isOneLine h, lines_eq]
  unfold header
  rw [List.cons_append, List.cons_append, List.cons_append, List.cons_append, List.findSome?_cons,
    hmodule, List.cons_append, List.cons_append, List.cons_append, List.findSome?_cons, hlist]
  rfl

end Erlang

/-! ## Entry files -/

namespace Entry

/-- The line that opens the table of nifs. -/
def tableOpening : Text := "pub const nifs = .\x7b"

/-- The rows in front of the table of nifs. -/
def front (f : Finished) : List Text :=
  [header,
    "const nif_module = @import(\"" ++ Staging.sourceName f.name ++ "\");",
    "",
    "pub const resources = .\x7b"] ++
  f.resources.map resourceLine ++
  (["\x7d;", ""] : List Text)

/-- The rows of the table of nifs. -/
def tableRows (f : Finished) : List Text := f.nifs.map nifLine ++ [("\x7d;" : Text)]

theorem lines_eq (f : Finished) : lines f = front f ++ tableOpening :: tableRows f := by
  unfold lines front
  rw [List.append_assoc, List.append_assoc, List.append_assoc (_ ++ _)]
  rfl

/-- The name and the arity that a row of the table stands for. -/
def row? (l : Text) : Option (Text × Nat) := do
  let r ← Text.dropPrefix? "    .\x7b .name = \"" l
  let s ← Text.dropPrefix? "\", .arity = " (r.dropWhile isNameChar)
  some (r.takeWhile isNameChar, Text.readNat (s.takeWhile Char.isDigit))

/-- The nifs that an entry file lists behind the last line that opens their table, in order. -/
def table (t : Text) : List (Text × Nat) :=
  ((Text.lines t).reverse.takeWhile (· ≠ tableOpening)).reverse.filterMap row?

theorem row?_nifLine (hname : IsWord isLetter isNameChar n.name) :
    row? (nifLine n) = some n.head := by
  -- the row behind the arity
  obtain ⟨rest, hrow⟩ : ∃ rest, nifLine n = "    .\x7b .name = \"" ++ (n.name ++
      ("\", .arity = " ++ (Text.ofNat n.arity ++ (", .concurrency = ." ++ rest)))) := by
    refine ⟨n.mode.name ++ (", .function = nif_module." ++ (n.name ++ " \x7d,")), ?_⟩
    unfold nifLine
    simp only [List.append_assoc]
  have hquote : ∀ c ∈ ("\", .arity = " ++ (Text.ofNat n.arity ++
      (", .concurrency = ." ++ rest))).head?, ¬isNameChar c := by
    rintro c ⟨⟩
    decide
  have hcomma : (", .concurrency = ." ++ rest).takeWhile Char.isDigit = [] := rfl
  have hdigits : (Text.ofNat n.arity ++ (", .concurrency = ." ++ rest)).takeWhile Char.isDigit =
      Text.ofNat n.arity := by
    rw [List.takeWhile_append_of_pos fun c hc => Text.charIsDigit_of_mem_ofNat hc, hcomma,
      List.append_nil]
  rw [row?, hrow, Text.dropPrefix?_append, Option.bind_eq_bind, Option.bind_some,
    dropWhile_append_of_isWord hname hquote, Text.dropPrefix?_append,
    Option.bind_some, takeWhile_append_of_isWord hname hquote, hdigits, Text.readNat_ofNat]
  rfl

theorem isOneLine_nifLine (hname : Text.IsOneLine n.name) : Text.IsOneLine (nifLine n) := by
  have hmode : ∀ m : Mode, Text.IsOneLine m.name := by
    rintro (_ | _ | _ | _ | _)
    all_goals decide
  have happend : ∀ {s t : Text}, Text.IsOneLine s → Text.IsOneLine t → Text.IsOneLine (s ++ t) :=
    fun hs ht => Text.isOneLine_append.mpr ⟨hs, ht⟩
  have hfront : Text.IsOneLine ("    .\x7b .name = \"" ++ n.name ++ "\", .arity = " ++
      Text.ofNat n.arity) :=
    happend (happend (happend (by decide) hname) (by decide)) (Text.isOneLine_ofNat n.arity)
  exact happend (happend (happend (happend (happend hfront (by decide)) (hmode n.mode))
    (by decide)) hname) (by decide)

/-- What is behind the last line that opens the table. -/
theorem reverse_takeWhile_reverse {front rows : List Text} (h : tableOpening ∉ rows) :
    ((front ++ tableOpening :: rows).reverse.takeWhile (· ≠ tableOpening)).reverse = rows := by
  have hrows : ∀ l ∈ rows.reverse, decide (l ≠ tableOpening) = true := by
    intro l hl
    refine decide_eq_true fun heq => ?_
    exact h (heq ▸ List.mem_reverse.mp hl)
  have hreverse : (front ++ tableOpening :: rows).reverse =
      rows.reverse ++ tableOpening :: front.reverse := by
    rw [List.reverse_append, List.reverse_cons, List.append_assoc, List.singleton_append]
  rw [hreverse, List.takeWhile_append_of_pos hrows, List.takeWhile_cons_of_neg (by simp),
    List.append_nil, List.reverse_reverse]

theorem tableOpening_notMem_tableRows (f : Finished) : tableOpening ∉ tableRows f := by
  rw [tableRows, List.mem_append, List.mem_map, List.mem_singleton, not_or]
  refine ⟨?_, by decide⟩
  rintro ⟨n, -, hn⟩
  cases hn

/-- **The nifs that an entry file lists are those of the module**, whatever the module and the
resources are called. -/
theorem table_render (hnifs : ∀ n ∈ f.nifs, IsWord isLetter isNameChar n.name) :
    table (render f) = f.nifs.map Nif.head := by
  have hone : ∀ row ∈ tableOpening :: tableRows f, Text.IsOneLine row := by
    intro row hrow
    rw [tableRows, List.mem_cons, List.mem_append, List.mem_map, List.mem_singleton] at hrow
    rcases hrow with rfl | ⟨n, hn, rfl⟩ | rfl
    · decide
    · exact isOneLine_nifLine (isOneLine_of_isWord (hnifs n hn))
    · decide
  have hlines : Text.lines (render f) = (lines f).flatMap Text.cut :=
    Text.lines_unlines_append_newline (List.append_ne_nil_of_right_ne_nil _ (List.cons_ne_nil _ _))
  have hend : row? "\x7d;" = none := rfl
  rw [table, hlines, lines_eq, List.flatMap_append, Text.flatMap_cut_of_isOneLine hone,
    reverse_takeWhile_reverse (tableOpening_notMem_tableRows f), tableRows, List.filterMap_append,
    filterMap_map_eq fun n hn => row?_nifLine (hnifs n hn), List.filterMap_cons_none hend]
  exact List.append_nil _

end Entry

/-! ## Both flavors -/

/-- The function of a flavor that loads the library. -/
def loader : Flavor → Text × Nat
  | .elixir => Elixir.loader
  | .erlang => Erlang.loader

/-- The functions of a module, in order. -/
def heads : Flavor → Text → List (Text × Nat)
  | .elixir => Elixir.heads
  | .erlang => Erlang.heads

section Verified

variable {raw : List Json} {d : Declared} {reported : List Export} {file module : Option Text}
  {nifs : List Nif}

theorem heads_renderAs_eq (hone : ∀ name ∈ names f, Text.IsOneLine name)
    (hwords : ∀ n ∈ f.nifs, IsWord isLetter isNameChar n.name) {flavor : Flavor}
    (hdocs : flavor = .elixir → ∀ doc ∈ Elixir.docs f, ("\"\"\"" : Text) ∉ doc) :
    heads flavor (renderAs flavor f) = loader flavor :: f.nifs.map Nif.head := by
  cases flavor with
  | elixir => exact Elixir.heads_render hone hwords (hdocs rfl)
  | erlang => exact Erlang.heads_render hone hwords

/-- Verified nifs have distinct heads, because they have distinct names. -/
theorem nodup_heads_of_verify (hraw : Declared.ofJson raw = .ok d)
    (hverify : Nif.verify d reported file module = .ok nifs) : (nifs.map Nif.head).Nodup := by
  have hnames := Nif.nodup_names_of_verify (Declared.nodup_names_of_ofJson hraw) hverify
  refine List.Nodup.of_map Prod.fst ?_
  rwa [List.map_map]

theorem arity_of_verify (hraw : Declared.ofJson raw = .ok d)
    (hverify : Nif.verify d reported file module = .ok nifs) (hn : n ∈ nifs) :
    (Nif.firstReport reported n.name).map (fun e => e.signature.arity) = some n.arity := by
  have hd := Declared.nodup_names_of_ofJson hraw
  obtain ⟨e, mode, hfirst, -, heq⟩ :=
    (Nif.found_eq_ok hd (Nif.verify_eq_ok_iff.mp hverify).1).2 n hn
  have harity : n.arity = e.signature.arity := by
    rw [heq]
    rfl
  rw [hfirst, harity]
  rfl

/-- **Glue code defines the loader and the nifs**, in order and with the reported arities, and each
function once unless a nif is called like the loader; the exports and the table of the entry file
are the nifs.  In Elixir this needs docs that do not close themselves. -/
theorem heads_renderAs (hraw : Declared.ofJson raw = .ok d)
    (hverify : Nif.verify d reported file module = .ok nifs)
    (hwords : ∀ n ∈ nifs, IsWord isLetter isNameChar n.name)
    (hsame : f.nifs.map Nif.head = nifs.map Nif.head)
    (hone : ∀ name ∈ f.name :: f.attributes.map Prod.fst, Text.IsOneLine name) :
    (∀ flavor : Flavor,
      (flavor = .elixir → ∀ doc ∈ Elixir.docs f, ("\"\"\"" : Text) ∉ doc) →
        heads flavor (renderAs flavor f) = loader flavor :: nifs.map Nif.head ∧
          ((heads flavor (renderAs flavor f)).Nodup ↔ loader flavor ∉ nifs.map Nif.head)) ∧
    (∀ n ∈ nifs,
      (Nif.firstReport reported n.name).map (fun e => e.signature.arity) = some n.arity) ∧
    Erlang.exports (Erlang.render f) = nifs.map Nif.head ∧
    Entry.table (Entry.render f) = nifs.map Nif.head := by
  have hfinished : ∀ n ∈ f.nifs, IsWord isLetter isNameChar n.name := by
    intro n hn
    obtain ⟨m, hm, hhead⟩ := List.mem_map.mp (hsame ▸ List.mem_map_of_mem (f := Nif.head) hn)
    have hname : m.name = n.name := congrArg Prod.fst hhead
    exact hname ▸ hwords m hm
  have hnames : ∀ name ∈ names f, Text.IsOneLine name := by
    refine List.forall_mem_append.mpr ⟨hone, List.forall_mem_map.mpr fun n hn => ?_⟩
    exact isOneLine_of_isWord (hfinished n hn)
  have hne : f.nifs ≠ [] := by
    intro hnil
    rw [hnil, List.map_nil, eq_comm, List.map_eq_nil_iff] at hsame
    exact (Nif.verify_eq_ok_iff.mp hverify).2 hsame
  rw [← hsame]
  refine ⟨fun flavor hdocs => ?_, fun n hn => arity_of_verify hraw hverify hn,
    Erlang.exports_render hnames hfinished hne, Entry.table_render hfinished⟩
  have hheads := heads_renderAs_eq hnames hfinished hdocs
  have hnodup := nodup_heads_of_verify hraw hverify
  rw [hheads, List.nodup_cons, hsame, and_iff_left hnodup]
  exact ⟨rfl, Iff.rfl⟩

end Verified

/-- A nif as it is verified, without options. -/
def verified (name : Text) (params : List Text) : Nif :=
  { name, mode := .synchronous, signature := { params } }

theorem heads_renderAs_documented :
    Nif.verify ⟨false, [("f", []), ("g", [])]⟩
        [{ name := "g" }, { name := "f", signature := { params := ["i64"] } }] none none =
      .ok [verified "f" ["i64"], verified "g" []] ∧
    heads .elixir (renderAs .elixir (Elixir.documented "  def h(), do: 1")) =
      [Elixir.loader, ("f", 1), ("g", 0)] ∧
    (heads .elixir (renderAs .elixir (Elixir.documented "  def h(), do: 1"))).Nodup ∧
    Erlang.exports (Erlang.render (Elixir.documented "  def h(), do: 1")) =
      [(("f" : Text), 1), ("g", 0)] := by
  have hraw : Declared.ofJson [.str "f", .str "g"] = .ok ⟨false, [("f", []), ("g", [])]⟩ := by rfl
  have hverify : Nif.verify ⟨false, [("f", []), ("g", [])]⟩
      [{ name := "g" }, { name := "f", signature := { params := ["i64"] } }] none none =
      .ok [verified "f" ["i64"], verified "g" []] := by rfl
  have hwords : ∀ n ∈ [verified "f" ["i64"], verified "g" []],
      IsWord isLetter isNameChar n.name := by
    intro n hn
    simp only [List.mem_cons, List.not_mem_nil, or_false] at hn
    rcases hn with rfl | rfl
    · exact ⟨'f', [], rfl, by decide, nofun⟩
    · exact ⟨'g', [], rfl, by decide, nofun⟩
  obtain ⟨hheads, -, hexports, -⟩ := heads_renderAs (f := Elixir.documented "  def h(), do: 1")
    hraw hverify hwords rfl (by decide)
  obtain ⟨helixir, hnodup⟩ := hheads .elixir fun _ => by decide +kernel
  exact ⟨hverify, helixir, hnodup.mpr (by decide), hexports⟩

/-- A module with one nif. -/
def single (name : Text) : Finished where
  name := "M"
  flavor := .erlang
  nifs := [verified name []]
  resources := []
  attributes := []
  libraryPath := none
  dependencies := []

/-- A nif that is called like the loader is verified, and defined twice. -/
theorem not_nodup_heads_of_loader :
    Nif.verify ⟨false, [("init", [])]⟩ [{ name := "init" }] none none =
      .ok [verified "init" []] ∧
    ¬(heads .erlang (renderAs .erlang (single "init"))).Nodup ∧
    Nif.verify ⟨false, [("__load_nifs__", [])]⟩ [{ name := "__load_nifs__" }] none none =
      .ok [verified "__load_nifs__" []] ∧
    ¬(heads .elixir (renderAs .elixir (single "__load_nifs__"))).Nodup :=
  ⟨rfl, by decide +kernel, rfl, by decide +kernel⟩

end Glue

end ZigNif
