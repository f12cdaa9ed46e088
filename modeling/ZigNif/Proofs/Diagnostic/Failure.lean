import Mathlib.Data.Bool.AllAny
import ZigNif.Proofs.Diagnostic
import ZigNif.Proofs.Text.Blank
import ZigNif.Proofs.Text.Rows

/-!
# Proofs/Diagnostic/Failure — which error a failed run reports

The span of the error is that of the first located error of the output.  Its message is read from
the new text instead: what stands behind the first error mark there, on whatever line.  The two
belong to one diagnostic exactly if no line in front of that message holds the mark, or the first
that does has the same message behind it.
-/

namespace ZigNif

namespace Text

variable {s t x : Text} {ls : List Text}

/-- What follows a text that ends within a line goes on with its last line. -/
theorem lines_append_of_getLast? (hne : s ≠ []) (hlast : ∀ c ∈ s.getLast?, isLineEnd c = false)
    (ht : lines t = x :: ls) : ∃ u l, lines s = u ++ [l] ∧ l.getLast? = s.getLast? ∧
      lines (s ++ t) = u ++ (l ++ x) :: ls := by
  fun_induction lines s with
  | case1 => exact absurd rfl hne
  | case2 r ih =>
    have hr : r ≠ [] := by
      rintro rfl
      exact absurd (hlast '\n' rfl) (by decide)
    have hend : ('\r' :: '\n' :: r).getLast? = r.getLast? := by
      rw [List.getLast?_cons_of_ne_nil (List.cons_ne_nil _ _), List.getLast?_cons_of_ne_nil hr]
    obtain ⟨u, l, hl, hlast', happend⟩ := ih hr (hend ▸ hlast)
    exact ⟨[] :: u, l, congrArg ([] :: ·) hl, hlast'.trans hend.symm, congrArg ([] :: ·) happend⟩
  | case3 c r hpair hc ih =>
    have hr : r ≠ [] := by
      rintro rfl
      exact absurd hc (by rw [hlast c rfl]; exact Bool.false_ne_true)
    have hend : (c :: r).getLast? = r.getLast? := List.getLast?_cons_of_ne_nil hr
    obtain ⟨u, l, hl, hlast', happend⟩ := ih hr (hend ▸ hlast)
    have hhead : c = '\r' → (r ++ t).head? ≠ some '\n' := by
      obtain ⟨d, r, rfl⟩ := List.exists_cons_of_ne_nil hr
      exact fun hret hnew => hpair r hret (congrArg (· :: r) (Option.some.inj hnew))
    refine ⟨[] :: u, l, congrArg ([] :: ·) hl, hlast'.trans hend.symm, ?_⟩
    rw [List.cons_append, lines_cons_eq hhead, if_pos hc, happend]
    rfl
  | case4 c r hpair hc ih =>
    have hc : isLineEnd c = false := by simpa using hc
    by_cases hr : r = []
    · subst hr
      exact ⟨[], [c], rfl, rfl, by rw [List.singleton_append, lines_cons hc, ht]; rfl⟩
    · have hend : (c :: r).getLast? = r.getLast? := List.getLast?_cons_of_ne_nil hr
      obtain ⟨u, l, hl, hlast', happend⟩ := ih hr (hend ▸ hlast)
      rw [List.cons_append, lines_cons hc, hl, happend, hend, ← hlast']
      cases u with
      | nil =>
        refine ⟨[], c :: l, rfl, List.getLast?_cons_of_ne_nil ?_, rfl⟩
        rintro rfl
        exact hr (List.getLast?_eq_none_iff.mp hlast'.symm)
      | cons v u => exact ⟨(c :: v) :: u, l, rfl, rfl, rfl⟩

/-- What two texts are joined to is cut where one of them is. -/
theorem joined_append_cons (sep a b : Text) (ts us : List Text) :
    joined sep (ts ++ (a ++ b) :: us) = joined sep (ts ++ [a]) ++ joined sep (b :: us) := by
  induction ts with
  | nil => cases us <;> simp [joined]
  | cons t ts ih =>
    have hne : ∀ (u : Text) (us : List Text), ts ++ u :: us ≠ [] := fun u us =>
      List.append_ne_nil_of_right_ne_nil ts (List.cons_ne_nil u us)
    rw [List.cons_append, joined_cons (hne _ us), List.cons_append, joined_cons (hne a []), ih,
      List.append_assoc (t ++ sep)]

end Text

namespace Diagnostic

variable {line path place message what output module file : Text} {before after ls us : List Text}
  {tail : Tail} {s : Span} {stagedPath : Option Text} {manifest : Option Manifest}
  {l : Text}

/-- White space holds no mark. -/
theorem findSome?_after_filter : (ls.filter fun l => Text.trim l ≠ []).findSome?
    (Text.after? errorMark) = ls.findSome? (Text.after? errorMark) := by
  induction ls with
  | nil => rfl
  | cons l ls ih =>
    by_cases h : Text.trim l = []
    · have hnone : Text.after? errorMark l = none := Text.after?_eq_none_iff.mpr fun hmark =>
        absurd (Text.trim_eq_nil_iff.mp h ':' (hmark.subset List.mem_cons_self)) (by decide)
      rw [List.filter_cons_of_neg (by simpa using h), ih, List.findSome?_cons, hnone]
    · rw [List.filter_cons_of_pos (by simpa using h), List.findSome?_cons, List.findSome?_cons, ih]

theorem findSome?_after_eq_none_iff :
    ls.findSome? (Text.after? errorMark) = none ↔ ∀ l ∈ ls, ¬ errorMark <:+: l := by
  simp only [List.findSome?_eq_none_iff, Text.after?_eq_none_iff]

/-- **The message behind the mark of a line is found** if no line in front of it and nothing in
front of it on the line holds the mark, or if the first line that does has the same message. -/
theorem findSome?_after_eq_some_iff (hlast : ∀ c ∈ l.getLast?, c ∉ errorMark) :
    (us ++ (l ++ (errorMark ++ message)) :: ls).findSome? (Text.after? errorMark) = some message ↔
      (∀ l' ∈ us ++ [l], ¬ errorMark <:+: l') ∨
        us.findSome? (Text.after? errorMark) = some message := by
  rw [List.findSome?_append, List.forall_mem_append, List.forall_mem_singleton,
    ← findSome?_after_eq_none_iff]
  cases hus : us.findSome? (Text.after? errorMark) with
  | some r => simp
  | none =>
    rw [Option.none_or, List.findSome?_cons]
    by_cases hl : errorMark <:+: l
    · obtain ⟨r, hr⟩ : ∃ r, Text.after? errorMark l = some r :=
        Option.ne_none_iff_exists'.mp fun h => Text.after?_eq_none_iff.mp h hl
      -- what is found on the line goes on to its end, so it is longer than the message
      have hlong : r ++ (errorMark ++ message) ≠ message := by
        intro h
        have hlength := congrArg List.length h
        have hmark : errorMark.length = 9 := rfl
        rw [List.length_append, List.length_append] at hlength
        omega
      simp [Text.after?_append_of_eq_some hr, hl, hlong]
    · simp [Text.after?_append hl hlast, hl]

theorem forall₂_append_left_iff {α β : Type} {R : α → β → Prop} {l l' : List α} {r : List β} :
    List.Forall₂ R (l ++ l') r ↔
      ∃ u v, r = u ++ v ∧ List.Forall₂ R l u ∧ List.Forall₂ R l' v := by
  induction l generalizing r with
  | nil => simp
  | cons a l ih =>
    simp only [List.cons_append, List.forall₂_cons_left_iff, ih]
    constructor
    · rintro ⟨b, _, hb, ⟨u, v, rfl, hu, hv⟩, rfl⟩
      exact ⟨b :: u, v, rfl, ⟨b, u, hb, hu, rfl⟩, hv⟩
    · rintro ⟨_, v, rfl, ⟨b, u, hb, hu, rfl⟩, hv⟩
      exact ⟨b, u ++ v, hb, ⟨u, v, rfl, hu, hv⟩, rfl⟩

/-! ## The text in front of a message -/

/-- A place ends with its column. -/
theorem Place.exists_eq_append {n k : Nat} (h : Place stagedPath manifest path n k place s) :
    ∃ front, place = front ++ Text.ofNat k := by
  cases h with
  | kept => exact ⟨_, rfl⟩
  | @resolved m =>
    obtain ⟨l, hline⟩ : ∃ l, (m.resolve n (some (k : Int))).line = some l := by
      rw [Manifest.resolve]
      split <;> exact ⟨_, rfl⟩
    have hcolumn : (m.resolve n (some (k : Int))).column = some (k : Int) := by
      rw [Manifest.resolve]
      split <;> rfl
    unfold Span.format
    rw [hline, hcolumn]
    exact ⟨_, rfl⟩

theorem isDigit_of_mem_errorMark : ∀ c ∈ errorMark, c.isDigit = false :=
  List.all_iff_forall_prop.mp rfl

/-- A digit neither ends a line nor stands in the mark. -/
theorem Place.getLast? {n k : Nat} (h : Place stagedPath manifest path n k place s) :
    place ≠ [] ∧ ∀ c ∈ place.getLast?, Text.isLineEnd c = false ∧ c ∉ errorMark := by
  obtain ⟨front, rfl⟩ := h.exists_eq_append
  refine ⟨List.append_ne_nil_of_right_ne_nil front Text.ofNat_ne_nil, fun c hc => ?_⟩
  rw [List.getLast?_append_of_ne_nil _ Text.ofNat_ne_nil] at hc
  have hmem : c ∈ Text.ofNat k := List.mem_of_getLast? hc
  refine ⟨Text.isOneLine_ofNat k c hmem, fun hmark => ?_⟩
  exact Bool.false_ne_true ((isDigit_of_mem_errorMark c hmark).symm.trans
    (Text.charIsDigit_of_mem_ofNat hmem))

/-- In the new text, a message stands on the line that ends with the place of its error. -/
theorem exists_lines_eq (texts rest : List Text) (hne : place ≠ [])
    (hplace : ∀ c ∈ place.getLast?, Text.isLineEnd c = false)
    (hmessage : Text.IsOneLine message) :
    ∃ u l ls, Text.lines (Text.unlines (texts ++ [place])) = u ++ [l] ∧
      l.getLast? = place.getLast? ∧
      Text.lines (Text.unlines (texts ++ (place ++ (errorMark ++ message)) :: rest)) =
        u ++ (l ++ (errorMark ++ message)) :: ls := by
  have hfront : Text.unlines (texts ++ [place]) = Text.unlines (texts ++ [[]]) ++ place :=
    Text.joined_append_cons ['\n'] [] place texts []
  have hend : (Text.unlines (texts ++ [place])).getLast? = place.getLast? := by
    rw [hfront, List.getLast?_append_of_ne_nil _ hne]
  have hmark : Text.IsOneLine (errorMark ++ message) :=
    Text.isOneLine_append.mpr ⟨by decide, hmessage⟩
  obtain ⟨ls, hls⟩ : ∃ ls, Text.lines (Text.unlines ((errorMark ++ message) :: rest)) =
      (errorMark ++ message) :: ls := by
    cases rest with
    | nil => exact ⟨[], Text.lines_of_isOneLine hmark (List.cons_ne_nil _ _)⟩
    | cons t rest => exact ⟨_, Text.lines_unlines_cons hmark⟩
  obtain ⟨u, l, hlines, hlast, happend⟩ := Text.lines_append_of_getLast?
    (by rw [hfront]; exact List.append_ne_nil_of_right_ne_nil _ hne) (hend ▸ hplace) hls
  refine ⟨u, l, ls, hlines, hlast.trans hend, ?_⟩
  rw [← happend, Text.unlines, Text.joined_append_cons]
  rfl

/-- A located error becomes its place, the mark and its message. -/
theorem becomes_error {row : Text × Option Span} (hreads : Reads line path tail)
    (herror : tail.severity = .error)
    (hplace : Place stagedPath manifest path (Text.readNat tail.line) (Text.readNat tail.column)
      place s) (h : Becomes stagedPath manifest line row) :
    row = (place ++ (errorMark ++ tail.message), some s) := by
  obtain ⟨rfl, rfl⟩ := hreads.place_iff.mp hplace
  rw [(becomes_of_reads hreads).mp h, herror, if_pos rfl]
  simp only [List.append_assoc]
  rfl

theorem exists_failure_eq_ok_iff :
    (∃ e, failure what output module file stagedPath manifest = .ok e) ↔
      ∀ l ∈ Text.lines output, IsShort stagedPath manifest l := by
  rw [← exists_remap_eq_ok_iff]
  simp only [failure, bind_eq_ok_iff]
  constructor
  · rintro ⟨e, r, hr, -⟩
    exact ⟨r, hr⟩
  · rintro ⟨r, hr⟩
    exact ⟨_, r, hr, rfl⟩

/-- The message is what stands behind the first mark in the new text. -/
theorem exists_remap_of_failure {e : BuildError}
    (h : failure what output module file stagedPath manifest = .ok e) :
    ∃ text first, remap output stagedPath manifest = .ok (text, first) ∧
      e.span = first.getD { file := some file } ∧
      ∀ message, e.message = "zig " ++ what ++ " failed: " ++ message ↔
        (Text.lines text).findSome? (Text.after? errorMark) = some message := by
  obtain ⟨⟨text, first⟩, hremap, he⟩ := bind_eq_ok_iff.mp h
  obtain rfl := Except.ok.inj he
  refine ⟨text, first, hremap, rfl, fun message => ?_⟩
  have hfailed : ("zig " ++ what ++ " failed: " ++ message : Text) =
      "zig " ++ what ++ " failed" ++ (": " ++ message) := by
    simp only [List.append_assoc]
    rfl
  dsimp only
  rw [findSome?_after_filter, hfailed, List.append_cancel_left_eq]
  cases (Text.lines text).findSome? (Text.after? errorMark) with
  | none => exact iff_of_false nofun nofun
  | some found => rw [List.append_cancel_left_eq, Option.some_inj]

/-- **The span of a failed run is that of the first error**, and its message is the same error's
exactly if no line in front of that message holds the mark, or the first that does has the same
message behind it. -/
theorem failure_agrees (what module file : Text)
    (hlines : Text.lines output = before ++ line :: after)
    (hbefore : ∀ l ∈ before, ¬ IsError l) (hreads : Reads line path tail)
    (herror : tail.severity = .error)
    (hplace : Place stagedPath manifest path (Text.readNat tail.line) (Text.readNat tail.column)
      place s) :
    ((∃ e, failure what output module file stagedPath manifest = .ok e) ↔
      ∀ l ∈ Text.lines output, IsShort stagedPath manifest l) ∧
    ∀ e, failure what output module file stagedPath manifest = .ok e → e.span = s ∧
      ∃ rows, List.Forall₂ (Becomes stagedPath manifest) before rows ∧
        let front := Text.lines (Text.unlines (rows.map Prod.fst ++ [place]))
        (e.message = "zig " ++ what ++ " failed: " ++ tail.message ↔
          (∀ l ∈ front, ¬ errorMark <:+: l) ∨
            front.dropLast.findSome? (Text.after? errorMark) = some tail.message) := by
  refine ⟨exists_failure_eq_ok_iff, fun e he => ?_⟩
  obtain ⟨text, first, hremap, hspan, hmessage⟩ := exists_remap_of_failure he
  obtain ⟨-, all, hall, rfl, rfl⟩ := remap_eq_ok_iff.mp hremap
  rw [hlines] at hall
  obtain ⟨rows, rest, rfl, hrows, hrest⟩ := forall₂_append_left_iff.mp hall
  obtain ⟨row, rest, hrow, -, rfl⟩ := List.forall₂_cons_left_iff.mp hrest
  obtain rfl := becomes_error hreads herror hplace hrow
  have hnone : rows.findSome? Prod.snd = none := (findSome?_eq_none_of_becomes hrows).mpr hbefore
  refine ⟨by rw [hspan, List.findSome?_append, hnone]; rfl, rows, hrows, ?_⟩
  have honeLine : Text.IsOneLine tail.message := by
    have hline := Text.isOneLine_of_mem_lines (hlines ▸ List.mem_append_cons_self)
    rw [hreads.1.eq, Text.isOneLine_append, Tail.isOneLine_text_iff] at hline
    exact hline.2.2.2
  obtain ⟨hne, hlast⟩ := hplace.getLast?
  obtain ⟨u, l, ls, hfront, hl, htext⟩ := exists_lines_eq (rows.map Prod.fst) (rest.map Prod.fst)
    hne (fun c hc => (hlast c hc).1) honeLine
  intro front
  have hmark : ∀ c ∈ l.getLast?, c ∉ errorMark := hl ▸ fun c hc => (hlast c hc).2
  rw [hmessage, List.map_append, List.map_cons, htext, findSome?_after_eq_some_iff hmark, ← hfront]
  simp only [front, hfront, List.dropLast_concat]

theorem failure_agrees_unlocated :
    Text.lines ("error: a\nm:2:3: error: b: error: c" : Text) =
        ([("error: a" : Text)] ++ ("m:2:3: error: b: error: c" : Text) :: [] : List Text) ∧
      ∃ e, failure "compile" "error: a\nm:2:3: error: b: error: c" "M" "m.ex" none none = .ok e ∧
        e.span = { file := some ("m" : Text), line := some 2, column := some 3 } ∧
        e.message = ("zig compile failed: b: error: c" : Text) := by
  have hlines : Text.lines ("error: a\nm:2:3: error: b: error: c" : Text) =
      ([("error: a" : Text)] ++ ("m:2:3: error: b: error: c" : Text) :: [] : List Text) := by
    decide +kernel
  have hfree : ∀ path tail, ¬ IsLocated ("error: a" : Text) path tail :=
    split?_eq_none_iff.mp (by decide +kernel)
  have hreads : Reads ("m:2:3: error: b: error: c" : Text) "m"
      ⟨"2", "3", .error, "b: error: c"⟩ := split?_eq_some_iff.mp (by decide +kernel)
  have hplace : Place none none ("m" : Text) 2 3 "m:2:3"
      { file := some ("m" : Text), line := some 2, column := some 3 } := .kept (.inl rfl)
  obtain ⟨hok, hsame⟩ := failure_agrees "compile" "M" "m.ex" hlines
    (List.forall_mem_singleton.mpr fun ⟨_, _, h, _⟩ => hfree _ _ h.1) hreads rfl hplace
  obtain ⟨e, he⟩ := hok.mpr (by
    rw [hlines]
    refine List.forall_mem_cons.mpr ⟨fun _ _ h => absurd h.1 (hfree _ _), ?_⟩
    exact List.forall_mem_singleton.mpr ((isShort_of_reads hreads).mpr (by decide +kernel)))
  obtain ⟨hspan, rows, hrows, hmessage⟩ := hsame e he
  obtain ⟨row, _, hrow, hnil, rfl⟩ := List.forall₂_cons_left_iff.mp hrows
  obtain rfl := List.forall₂_nil_left_iff.mp hnil
  obtain rfl := (becomes_of_free hfree).mp hrow
  exact ⟨hlines, e, he, hspan, hmessage.mpr (.inl (by decide +kernel))⟩

/-- The message of a note that quotes an error, with the span of the error behind it. -/
theorem failure_disagrees_of_note :
    Text.lines ("m:1:1: note: x: error: a\nm:2:3: error: b" : Text) =
        ["m:1:1: note: x: error: a", "m:2:3: error: b"] ∧
      ¬ IsError "m:1:1: note: x: error: a" ∧
      Reads "m:2:3: error: b" "m" ⟨"2", "3", .error, "b"⟩ ∧
      (failure "compile" "m:1:1: note: x: error: a\nm:2:3: error: b" "M" "m.ex" none none).map
          (fun e => (e.span, e.message)) =
        .ok ({ file := some ("m" : Text), line := some 2, column := some 3 },
          "zig compile failed: a") := by
  have hnote : Reads "m:1:1: note: x: error: a" "m" ⟨"1", "1", .note, "x: error: a"⟩ :=
    split?_eq_some_iff.mp (by decide +kernel)
  refine ⟨by decide +kernel, ?_, split?_eq_some_iff.mp (by decide +kernel), by decide +kernel⟩
  rintro ⟨path, tail, hreads, herror⟩
  rw [← (hnote.unique hreads).2] at herror
  cases herror

end Diagnostic

end ZigNif
