import ZigNif.Module
import ZigNif.Proofs.Manifest
import ZigNif.Proofs.Source.Depth
import ZigNif.Proofs.Text.Rows
import ZigNif.Proofs.Workspace

/-!
# Proofs/Manifest/Rows — manifests and the rows of the lexer

The manifest numbers lines and the lexer numbers rows.  As long as no row before the last marker is
cut into several lines, the two agree: every marker owns the rows behind it, and a fault of the
lexer is reported in the file and line that its row comes from.  A row that is cut moves all markers
behind it.
-/

namespace ZigNif

namespace Manifest

variable {n : Nat} {t row mark : Text} {ls rs before after : List Text} {segments : List Segment}
  {m : Manifest} {file source : Text} {column : Option Int}

/-! ## A carriage return behind a marker -/

theorem skipMark_append_return (hne : mark ≠ []) (hmark : '\r' ∉ mark) :
    skipMark mark (t ++ ['\r']) = (skipMark mark t).map (· ++ ['\r']) := by
  rw [skipMark, skipMark, Text.trimStart, Text.trimStart, List.dropWhile_append]
  cases hrest : t.dropWhile Text.isBlank with
  | nil =>
    obtain ⟨c, mark, rfl⟩ := List.exists_cons_of_ne_nil hne
    rfl
  | cons c rest =>
    have hiff : mark.isPrefixOf (c :: rest ++ ['\r']) = mark.isPrefixOf (c :: rest) := by
      rw [Bool.eq_iff_iff, List.isPrefixOf_iff_prefix, List.isPrefixOf_iff_prefix,
        List.prefix_concat_iff]
      refine or_iff_right ?_
      rintro rfl
      exact hmark (List.mem_append_right _ List.mem_cons_self)
    rw [List.isEmpty_cons, if_neg Bool.false_ne_true]
    simp only [hiff]
    split
    case isTrue h =>
      have hlen := (List.isPrefixOf_iff_prefix.mp h).length_le
      rw [Option.map_some, List.drop_append_of_le_length hlen]
    case isFalse => rfl

theorem lastColon?_append_return :
    lastColon? (t ++ ['\r']) = (lastColon? t).map fun p => (p.1, p.2 ++ ['\r']) := by
  have htail : ((t ++ ['\r']).reverse.takeWhile (· != ':')).reverse =
      (t.reverse.takeWhile (· != ':')).reverse ++ ['\r'] := by
    rw [List.reverse_append, List.reverse_singleton, List.singleton_append,
      List.takeWhile_cons_of_pos (by decide), List.reverse_cons]
  have hle : (t.reverse.takeWhile (· != ':')).reverse.length ≤ t.length := by
    calc (t.reverse.takeWhile (· != ':')).reverse.length
        = (t.reverse.takeWhile (· != ':')).length := List.length_reverse
      _ ≤ t.reverse.length := (List.takeWhile_sublist _).length_le
      _ = t.length := List.length_reverse
  rw [lastColon?, lastColon?, htail]
  simp only [List.length_append, List.length_singleton, Nat.add_right_cancel_iff,
    Nat.add_sub_add_right]
  split
  · rfl
  · rw [Option.map_some, List.take_append_of_le_length (by omega)]

theorem lineDigits?_append_return : lineDigits? (t ++ ['\r']) = lineDigits? t := by
  have htake : (t ++ ['\r']).takeWhile Text.isDigit = t.takeWhile Text.isDigit := by
    rw [List.takeWhile_append]
    split
    case isTrue h =>
      have hself := (List.takeWhile_sublist Text.isDigit).eq_of_length h
      exact (List.append_nil t).trans hself.symm
    case isFalse => rfl
  have hall : ((t ++ ['\r']).dropWhile Text.isDigit).all Text.isBlank =
      (t.dropWhile Text.isDigit).all Text.isBlank := by
    rw [List.dropWhile_append]
    split
    case isTrue h =>
      rw [List.isEmpty_iff.mp h]
      rfl
    case isFalse => rw [List.all_append]; exact Bool.and_true _
  rw [lineDigits?, lineDigits?, htake, hall]

/-- **A marker is one with or without a carriage return at its end.** -/
theorem marker?_append_return (t : Text) : marker? (t ++ ['\r']) = marker? t := by
  have hrest : (skipMark "//" (t ++ ['\r'])).bind (skipMark "ref") =
      ((skipMark "//" t).bind (skipMark "ref")).map (· ++ ['\r']) := by
    rw [skipMark_append_return (by decide) (by decide)]
    cases skipMark "//" t with
    | none => rfl
    | some r => exact skipMark_append_return (by decide) (by decide)
  rw [marker?, marker?, hrest]
  cases (skipMark "//" t).bind (skipMark "ref") with
  | none => rfl
  | some rest =>
    have hdrop : (rest ++ ['\r']).dropWhile Text.isBlank =
        if (rest.dropWhile Text.isBlank).isEmpty then ['\r'].dropWhile Text.isBlank
        else rest.dropWhile Text.isBlank ++ ['\r'] := List.dropWhile_append
    have htake : (rest ++ ['\r']).takeWhile Text.isBlank =
        if (rest.takeWhile Text.isBlank).length = rest.length
        then rest ++ ['\r'].takeWhile Text.isBlank
        else rest.takeWhile Text.isBlank := List.takeWhile_append
    rw [Option.map_some]
    simp only [Option.bind_eq_bind, Option.bind_some]
    cases hfile : rest.dropWhile Text.isBlank with
    | nil =>
      -- blanks alone hold no colon
      rw [hdrop, hfile]
      rfl
    | cons c file =>
      have hlen : (rest.takeWhile Text.isBlank).length ≠ rest.length := by
        have hcut := congrArg List.length (List.takeWhile_append_dropWhile (p := Text.isBlank)
          (l := rest))
        rw [hfile, List.length_append, List.length_cons] at hcut
        omega
      rw [hdrop, hfile, List.isEmpty_cons, if_neg Bool.false_ne_true, htake, if_neg hlen,
        lastColon?_append_return]
      cases lastColon? (c :: file) with
      | none => rfl
      | some p => simp only [Option.map_some, Option.bind_some, lineDigits?_append_return]

theorem marker?_withoutReturn (row : Text) : marker? (Text.withoutReturn row) = marker? row := by
  rcases Text.eq_withoutReturn_or row with h | h
  · rw [← h]
  · calc marker? (Text.withoutReturn row) = marker? (Text.withoutReturn row ++ ['\r']) :=
        (marker?_append_return _).symm
      _ = marker? row := by rw [← h]

/-! ## Segments by rows -/

/-- The segments are those of the markers among the rows: each starts on the row behind its
marker. -/
structure NumbersRows (segments : List Segment) (rs : List Text) : Prop where
  sorted : segments.Pairwise fun s t => s.start < t.start
  mem_iff : ∀ s, s ∈ segments ↔ ∃ n row digits, rs[n]? = some row ∧
    marker? row = some (s.file, digits) ∧ s.start = n + 2 ∧ s.line = Text.readNat digits

/-- Neither the row nor a line that it falls into is a marker. -/
def IsUnmarked (row : Text) : Prop := marker? row = none ∧ ∀ l ∈ Text.cut row, marker? l = none

instance (row : Text) : Decidable (IsUnmarked row) :=
  inferInstanceAs (Decidable (marker? row = none ∧ ∀ l ∈ Text.cut row, marker? l = none))

/-- Up to the last marker, every row is one line. -/
def CountsRows (rs : List Text) : Prop :=
  ∃ front back, rs = front ++ back ∧ (∀ row ∈ front, Text.IsWhole row) ∧
    ∀ row ∈ back, IsUnmarked row

theorem segmentsFrom_append_eq_ok_iff :
    segmentsFrom n (ls ++ rs) = .ok segments ↔ ∃ front back, segmentsFrom n ls = .ok front ∧
      segmentsFrom (n + ls.length) rs = .ok back ∧ segments = front ++ back := by
  induction ls generalizing n segments with
  | nil => simp [segmentsFrom]
  | cons l ls ih =>
    have hnext : n + 1 + ls.length = n + (l :: ls).length := by rw [List.length_cons]; omega
    rw [List.cons_append, ← hnext]
    cases hl : marker? l with
    | none => rw [segmentsFrom_cons_of_plain hl, segmentsFrom_cons_of_plain hl, ih]
    | some marked =>
      simp only [segmentsFrom_cons_eq_ok_iff hl, ih]
      constructor
      · rintro ⟨line, _, hline, ⟨front, back, hfront, hback, rfl⟩, rfl⟩
        exact ⟨_, back, ⟨line, front, hline, hfront, rfl⟩, hback, rfl⟩
      · rintro ⟨_, back, ⟨line, front, hline, hfront, rfl⟩, hback, rfl⟩
        exact ⟨line, _, hline, ⟨front, back, hfront, hback, rfl⟩, rfl⟩

/-- Behind the last marker nothing counts. -/
theorem segmentsFrom_append_of_unmarked (h : ∀ l ∈ rs, marker? l = none) :
    segmentsFrom n (ls ++ rs) = segmentsFrom n ls := by
  induction ls generalizing n with
  | nil => exact (congrArg _ (List.append_nil rs).symm).trans (segmentsFrom_append_of_plain h)
  | cons l ls ih => rw [List.cons_append, segmentsFrom, segmentsFrom, ih]

theorem segmentsFrom_lines (source : Text) :
    segmentsFrom n (Text.lines source) = segmentsFrom n ((Text.rows source).flatMap Text.cut) := by
  have hrows := Text.lines_unlines_eq_cut (Text.rows source)
  rw [Text.unlines_rows] at hrows
  rcases hrows with h | h
  · rw [h]
  · rw [← h, segmentsFrom_append_nil]

theorem segmentsFrom_map_withoutReturn :
    segmentsFrom n (rs.map Text.withoutReturn) = segmentsFrom n rs := by
  induction rs generalizing n with
  | nil => rfl
  | cons row rs ih => rw [List.map_cons, segmentsFrom, segmentsFrom, marker?_withoutReturn, ih]

/-- **Rows that are counted have the segments of their lines.** -/
theorem segmentsFrom_cut (h : CountsRows rs) :
    segmentsFrom n (rs.flatMap Text.cut) = segmentsFrom n rs := by
  obtain ⟨front, back, rfl, hfront, hback⟩ := h
  have hcut : ∀ l ∈ back.flatMap Text.cut, marker? l = none := by
    intro l hl
    obtain ⟨row, hrow, hl⟩ := List.mem_flatMap.mp hl
    exact (hback row hrow).2 l hl
  rw [List.flatMap_append, segmentsFrom_append_of_unmarked hcut,
    Text.flatMap_cut_of_isWhole hfront, segmentsFrom_map_withoutReturn,
    segmentsFrom_append_of_unmarked fun row hrow => (hback row hrow).1]

theorem mem_segmentsFrom_iff (h : segmentsFrom n rs = .ok segments) (s : Segment) :
    s ∈ segments ↔ ∃ k row digits, rs[k]? = some row ∧ marker? row = some (s.file, digits) ∧
      s.start = n + k + 1 ∧ s.line = Text.readNat digits := by
  induction rs generalizing n segments with
  | nil => cases h; simp
  | cons row rs ih =>
    cases hrow : marker? row with
    | none =>
      rw [segmentsFrom_cons_of_plain hrow] at h
      rw [ih h]
      constructor
      · rintro ⟨k, row', digits, hk, hmark, hstart, hline⟩
        exact ⟨k + 1, row', digits, hk, hmark, by omega, hline⟩
      · rintro ⟨_ | k, row', digits, hk, hmark, hstart, hline⟩
        · cases hk
          rw [hrow] at hmark
          cases hmark
        · exact ⟨k, row', digits, hk, hmark, by omega, hline⟩
    | some marked =>
      obtain ⟨line, rest, hnumeral, hrest, rfl⟩ := (segmentsFrom_cons_eq_ok_iff hrow).mp h
      obtain ⟨-, rfl⟩ := Text.numeral_eq_ok_iff.mp hnumeral
      rw [List.mem_cons, ih hrest]
      constructor
      · rintro (rfl | ⟨k, row', digits, hk, hmark, hstart, hline⟩)
        · exact ⟨0, row, _, rfl, hrow, rfl, rfl⟩
        · exact ⟨k + 1, row', digits, hk, hmark, by omega, hline⟩
      · rintro ⟨_ | k, row', digits, hk, hmark, hstart, hline⟩
        · cases hk
          rw [hrow] at hmark
          cases hmark
          cases s
          cases hstart
          cases hline
          exact Or.inl rfl
        · exact Or.inr ⟨k, row', digits, hk, hmark, by omega, hline⟩

theorem numbersRows_of_segmentsFrom (h : segmentsFrom 1 rs = .ok segments) :
    NumbersRows segments rs := by
  refine ⟨(starts_of_segmentsFrom h).2, fun s => ?_⟩
  simp only [mem_segmentsFrom_iff h s, Nat.add_comm 1, Nat.add_assoc]

theorem start_le_of_mem_segmentsFrom (h : segmentsFrom n ls = .ok segments) {s : Segment}
    (hs : s ∈ segments) : s.start ≤ n + ls.length := by
  obtain ⟨k, row, digits, hk, -, hstart, -⟩ := (mem_segmentsFrom_iff h s).mp hs
  obtain ⟨hlt, -⟩ := List.getElem?_eq_some_iff.mp hk
  omega

/-- A whole row is marked if it is a marker. -/
theorem isUnmarked_of_isWhole (hwhole : Text.IsWhole row) (h : marker? row = none) :
    IsUnmarked row := by
  refine ⟨h, fun l hl => ?_⟩
  rw [Text.cut_of_isWhole hwhole, List.mem_singleton] at hl
  rw [hl, marker?_withoutReturn, h]

theorem exists_first {p : Text → Prop} (h : ¬ ∀ row ∈ rs, p row) :
    ∃ front row back, rs = front ++ row :: back ∧ (∀ r ∈ front, p r) ∧ ¬ p row := by
  induction rs with
  | nil => exact absurd nofun h
  | cons row rs ih =>
    by_cases hrow : p row
    · obtain ⟨front, r, back, rfl, hfront, hr⟩ :=
        ih fun hrs => h (List.forall_mem_cons.mpr ⟨hrow, hrs⟩)
      exact ⟨row :: front, r, back, rfl, List.forall_mem_cons.mpr ⟨hrow, hfront⟩, hr⟩
    · exact ⟨[], row, rs, rfl, nofun, hrow⟩

/-- If the markers do not count rows, then a row is cut, and a marked row comes behind it. -/
theorem exists_cut_of_not_countsRows (hcut : ∀ row ∈ rs, ¬ Text.IsWhole row → IsUnmarked row)
    (h : ¬ CountsRows rs) : ∃ front row between marked rest,
      rs = front ++ row :: (between ++ marked :: rest) ∧ (∀ r ∈ front, Text.IsWhole r) ∧
      ¬ Text.IsWhole row ∧ (∀ r ∈ row :: between, IsUnmarked r) ∧
      ∃ name digits, marker? marked = some (name, digits) := by
  obtain ⟨front, row, back, rfl, hfront, hrow⟩ : ∃ front row back, rs = front ++ row :: back ∧
      (∀ r ∈ front, Text.IsWhole r) ∧ ¬ Text.IsWhole row :=
    exists_first fun hall => h ⟨rs, [], (List.append_nil rs).symm, hall, nofun⟩
  have hunmarked : IsUnmarked row := hcut row (by simp) hrow
  obtain ⟨between, marked, rest, rfl, hbetween, hmarked⟩ : ∃ between marked rest,
      back = between ++ marked :: rest ∧ (∀ r ∈ between, IsUnmarked r) ∧ ¬ IsUnmarked marked :=
    exists_first fun hall =>
      h ⟨front, row :: back, rfl, hfront, List.forall_mem_cons.mpr ⟨hunmarked, hall⟩⟩
  have hwhole : Text.IsWhole marked := not_not.mp fun hw => hmarked (hcut marked (by simp) hw)
  obtain ⟨⟨name, digits⟩, hmark⟩ : ∃ p, marker? marked = some p :=
    Option.ne_none_iff_exists'.mp fun hnone => hmarked (isUnmarked_of_isWhole hwhole hnone)
  exact ⟨front, row, between, marked, rest, rfl, hfront, hrow,
    List.forall_mem_cons.mpr ⟨hunmarked, hbetween⟩, name, digits, hmark⟩

/-- **A row that is cut moves the markers behind it**, if it holds none itself. -/
theorem countsRows_of_numbersRows (hnew : ∀ row ∈ rs, '\n' ∉ row)
    (hcut : ∀ row ∈ rs, ¬ Text.IsWhole row → IsUnmarked row)
    (h : segmentsFrom 1 (rs.flatMap Text.cut) = .ok segments) (hnum : NumbersRows segments rs) :
    CountsRows rs := by
  by_contra hcounts
  obtain ⟨front, row, between, marked, rest, rfl, hfront, hrow, hunmarked, name, digits, hmark⟩ :=
    exists_cut_of_not_countsRows hcut hcounts
  -- by its row, the segment of the marker starts here
  have hindex : (front ++ row :: (between ++ marked :: rest))[front.length + 1 + between.length]?
      = some marked := by
    rw [List.getElem?_append_right (by omega)]
    have hk : front.length + 1 + between.length - front.length = between.length + 1 := by omega
    rw [hk, List.getElem?_cons_succ, List.getElem?_append_right (Nat.le_refl _), Nat.sub_self]
    rfl
  have hs := (hnum.mem_iff ⟨front.length + 1 + between.length + 2, name, Text.readNat digits⟩).mpr
    ⟨_, marked, digits, hindex, hmark, rfl, rfl⟩
  -- by its line, it starts later, because the row before it is cut
  have hlong := Text.one_lt_length_cut (hnew row (by simp)) hrow
  have hle : between.length ≤ (between.flatMap Text.cut).length :=
    Text.length_le_length_flatMap_cut between
  have hplain : ∀ l ∈ (row :: between).flatMap Text.cut, marker? l = none := fun l hl => by
    obtain ⟨r, hr, hl⟩ := List.mem_flatMap.mp hl
    exact (hunmarked r hr).2 l hl
  rw [← List.cons_append, List.flatMap_append, List.flatMap_append, segmentsFrom_append_eq_ok_iff]
    at h
  obtain ⟨early, late, hearly, hlate, rfl⟩ := h
  rw [Text.flatMap_cut_of_isWhole hfront, segmentsFrom_map_withoutReturn] at hearly
  rw [segmentsFrom_append_of_plain hplain, Text.flatMap_cut_of_isWhole hfront, List.length_map]
    at hlate
  rcases List.mem_append.mp hs with hs | hs
  · have hstart := start_le_of_mem_segmentsFrom hearly hs
    dsimp only at hstart
    omega
  · have hstart := (starts_of_segmentsFrom hlate).1 _ hs
    rw [List.flatMap_cons, List.length_append] at hstart
    dsimp only at hstart
    omega

/-! ## Places by rows -/

theorem exists_segmentsFrom_eq_ok_iff :
    (∃ segments, segmentsFrom n ls = .ok segments) ↔
      ∀ l ∈ ls, ∀ name digits, marker? l = some (name, digits) →
        digits.length ≤ Text.maxDigits := by
  induction ls generalizing n with
  | nil => exact ⟨fun _ => nofun, fun _ => ⟨[], rfl⟩⟩
  | cons l ls ih =>
    rw [List.forall_mem_cons]
    cases hl : marker? l with
    | none => simp [segmentsFrom_cons_of_plain hl, ih]
    | some marked =>
      simp only [segmentsFrom_cons_eq_ok_iff hl, Text.numeral_eq_ok_iff, ← ih (n := n + 1)]
      constructor
      · rintro ⟨_, line, rest, ⟨hlen, -⟩, hrest, -⟩
        exact ⟨by rintro name digits ⟨⟩; exact hlen, rest, hrest⟩
      · rintro ⟨hlen, rest, hrest⟩
        exact ⟨_, _, rest, ⟨hlen _ _ rfl, rfl⟩, hrest, rfl⟩

/-- The file and the line that a row comes from, by the rows before it: they belong to the last
marker among these, or to the module's own file if there is none. -/
inductive Place (file : Text) (before : List Text) (line : Nat) : Text → Int → Prop
  | own (h : ∀ row ∈ before, marker? row = none) : Place file before line file line
  | behind {front row between name digits} (hsplit : before = front ++ row :: between)
      (hrow : marker? row = some (name, digits)) (hbetween : ∀ r ∈ between, marker? r = none) :
      Place file before line name (Text.readNat digits + ((line : Int) - (front.length + 2 : Nat)))

theorem exists_place (file : Text) (before : List Text) (line : Nat) :
    ∃ name place, Place file before line name place := by
  by_cases h : ∀ row ∈ before.reverse, marker? row = none
  · exact ⟨file, line, .own fun row hrow => h row (List.mem_reverse.mpr hrow)⟩
  · obtain ⟨between, row, front, hsplit, hbetween, hrow⟩ := exists_first h
    obtain ⟨⟨name, digits⟩, hrow⟩ := Option.ne_none_iff_exists'.mp hrow
    have hbefore : before = front.reverse ++ row :: between.reverse := by
      simpa using congrArg List.reverse hsplit
    exact ⟨name, _, .behind hbefore hrow fun r hr => hbetween r (List.mem_reverse.mp hr)⟩

theorem segmentsFrom_of_plain (h : ∀ l ∈ ls, marker? l = none) : segmentsFrom n ls = .ok [] := by
  rw [← List.append_nil ls]
  exact segmentsFrom_append_of_plain h

/-- **A line resolves to its place**, if the segments before it are those of the rows before it. -/
theorem resolve_of_place {early late : List Segment} {line : Nat} {name : Text} {place : Int}
    (hplace : Place m.file before line name place) (hm : m.segments = early ++ late)
    (hsorted : m.segments.Pairwise fun s t => s.start < t.start)
    (hearly : segmentsFrom 1 before = .ok early) (hlate : ∀ s ∈ late, line < s.start)
    (hline : before.length ≤ line - 1) :
    m.resolve line column = { file := some name, line := some place, column } := by
  have hlater : ∀ s ∈ late, (line : Int) < s.start := fun s hs => Int.ofNat_lt.mpr (hlate s hs)
  cases hplace with
  | own h =>
    rw [segmentsFrom_of_plain h] at hearly
    cases hearly
    rw [resolve, segmentAt?_eq_none (hm ▸ hlater)]
  | @behind front row between name digits hsplit hrow hbetween =>
    rw [hsplit] at hearly hline
    rw [List.length_append, List.length_cons] at hline
    obtain ⟨first, _, -, hlast, rfl⟩ := segmentsFrom_append_eq_ok_iff.mp hearly
    obtain ⟨start, rest, hnumeral, hrest, rfl⟩ := (segmentsFrom_cons_eq_ok_iff hrow).mp hlast
    obtain ⟨-, rfl⟩ := Text.numeral_eq_ok_iff.mp hnumeral
    rw [segmentsFrom_of_plain hbetween] at hrest
    cases hrest
    rw [List.append_assoc, List.singleton_append] at hm
    have hstart : 1 + front.length + 1 = front.length + 2 := by omega
    rw [resolve, segmentAt?_eq_some hsorted hm (by dsimp only; omega) hlater]
    dsimp only
    rw [hstart]

/-- The segments of a text, before and behind the row `k`. -/
theorem exists_segments_of_rows {k : Nat} (h : segmentsFrom 1 (Text.lines source) = .ok segments)
    (hcounts : CountsRows ((Text.rows source).take k)) :
    ∃ early late, segments = early ++ late ∧
      segmentsFrom 1 ((Text.rows source).take k) = .ok early ∧ ∀ s ∈ late, k + 1 < s.start := by
  rw [segmentsFrom_lines, ← List.take_append_drop k (Text.rows source), List.flatMap_append,
    segmentsFrom_append_eq_ok_iff, segmentsFrom_cut hcounts] at h
  obtain ⟨early, late, hearly, hlate, rfl⟩ := h
  refine ⟨early, late, rfl, hearly, fun s hs => ?_⟩
  have hstart := (starts_of_segmentsFrom hlate).1 s hs
  have hle := Text.length_le_length_flatMap_cut ((Text.rows source).take k)
  by_cases hk : k ≤ (Text.rows source).length
  · rw [List.length_take_of_le hk] at hle
    omega
  · rw [List.drop_of_length_le (by omega)] at hlate
    cases hlate
    cases hs

end Manifest

/-! ## Faults of the lexer -/

namespace Module

open Manifest

theorem exists_line_of_parseFile {file : Option Text} {code : Text} {e : BuildError}
    (h : Source.parseFile file code = .error e) : ∃ line : Nat, e.span.line = some (line : Int) := by
  rw [Source.parseFile] at h
  split at h
  · cases h
  · cases h
    exact ⟨_, rfl⟩

theorem withManifest_eq_ok_iff {m m' : Module} {code : Text} :
    m.withManifest code = .ok m' ↔ ∃ segments,
      segmentsFrom 1 (Text.lines code) = .ok segments ∧
      m' = { m with manifest := some ⟨m.file, segments⟩ } := by
  rw [withManifest, ofSource]
  cases segmentsFrom 1 (Text.lines code) with
  | error fault => simp [bind, Except.bind]
  | ok segments => simp [bind, Except.bind, pure, Except.pure, eq_comm]

theorem withParsed_of_fault {m : Module} {code : Text} {e : BuildError} {line : Int}
    (h : Source.parseFile (some m.file) code = .error e) (hline : e.span.line = some line)
    (manifest : Manifest) {host : Host}
    (hshallow : ¬ Source.Overflows (host.stack.groups + 1) code) (w : Workspace) :
    (({ m with manifest := some manifest } : Module).withParsed code).runIn host w =
      (.error (.build { e with span := manifest.resolve line e.span.column }), w) := by
  have hwithin : Source.parseFileWithin (host.stack.groups + 1) (some m.file) code =
      .error (.build e) := Source.parseFileWithin_eq_error_iff.mpr (.inr ⟨hshallow, e, h, rfl⟩)
  simp only [withParsed, Build.runIn_bind, Build.runIn_read, hwithin, hline]
  rfl

/-- **The manifest numbers rows as the lexer does, if no row before the last marker is cut.**

It can be read if and only if no line number in a marker has too many digits.  If the rows up to the
last marker are whole, its segments are those of the markers among the rows, and if no row that is
cut is marked itself, then only so.  For a fault that the lexer finds in some row it is enough that
the rows before that one are so: then the fault is reported in the file and line of that row, if the
stack lasts until it is found. -/
theorem numbersRows_withManifest (m : Module) (code : Text) :
    ((∃ m', m.withManifest code = .ok m') ↔
      ∀ l ∈ Text.lines code, ∀ name digits, marker? l = some (name, digits) →
        digits.length ≤ Text.maxDigits) ∧
    ∀ m', m.withManifest code = .ok m' → ∃ manifest, m'.manifest = some manifest ∧
      (CountsRows (Text.rows code) → NumbersRows manifest.segments (Text.rows code)) ∧
      ((∀ row ∈ Text.rows code, ¬ Text.IsWhole row → IsUnmarked row) →
        NumbersRows manifest.segments (Text.rows code) → CountsRows (Text.rows code)) ∧
      ∀ e, Source.parseFile (some m.file) code = .error e →
        ∃ line : Nat, e.span.line = some (line : Int) ∧
          (∃ name place, Place m.file ((Text.rows code).take (line - 1)) line name place) ∧
          (CountsRows ((Text.rows code).take (line - 1)) → ∀ name place,
            Place m.file ((Text.rows code).take (line - 1)) line name place →
            ∀ host w, ¬ Source.Overflows (host.stack.groups + 1) code →
              (m'.withParsed code).runIn host w = (.error (.build { e with span :=
                { file := some name, line := some place, column := e.span.column } }), w)) := by
  have hnew : ∀ row ∈ Text.rows code, '\n' ∉ row := fun row => Text.newline_notMem_of_mem_rows
  refine ⟨?_, fun m' hm' => ?_⟩
  · rw [← exists_segmentsFrom_eq_ok_iff (n := 1)]
    simp only [withManifest_eq_ok_iff]
    exact ⟨fun ⟨_, segments, h, _⟩ => ⟨segments, h⟩, fun ⟨segments, h⟩ => ⟨_, segments, h, rfl⟩⟩
  · obtain ⟨segments, hsegments, rfl⟩ := withManifest_eq_ok_iff.mp hm'
    have hsorted := (starts_of_segmentsFrom hsegments).2
    refine ⟨_, rfl, fun hcounts => ?_, fun hcut hnum => ?_, fun e he => ?_⟩
    · rw [segmentsFrom_lines, segmentsFrom_cut hcounts] at hsegments
      exact numbersRows_of_segmentsFrom hsegments
    · rw [segmentsFrom_lines] at hsegments
      exact countsRows_of_numbersRows hnew hcut hsegments hnum
    · obtain ⟨line, hline⟩ := exists_line_of_parseFile he
      refine ⟨line, hline, exists_place .., fun hcounts name place hplace host w hshallow => ?_⟩
      obtain ⟨early, late, hsplit, hearly, hlate⟩ := exists_segments_of_rows hsegments hcounts
      have hresolve : resolve ⟨m.file, segments⟩ line e.span.column =
          { file := some name, line := some place, column := e.span.column } :=
        resolve_of_place hplace hsplit hsorted hearly
          (fun s hs => by have := hlate s hs; omega) (List.length_take_le _ _)
      rw [← hresolve]
      exact withParsed_of_fault he hline _ hshallow w

/-- A module of which only the name of its file counts. -/
def bare : Module := .ofOptions { module := "M", file := "m", env := "dev" } {}

/-- A brace without its partner, behind a marker that a carriage return ends and a row that is
cut. -/
def cutBehindMarker : Text := "// ref a:3\r\nx\n\x0c\n\x7d"

theorem numbersRows_withManifest_cutBehindMarker :
    CountsRows (Text.rows cutBehindMarker) ∧
      ∃ m manifest, bare.withManifest cutBehindMarker = .ok m ∧ m.manifest = some manifest ∧
        NumbersRows manifest.segments (Text.rows cutBehindMarker) ∧
        ∃ e, Source.parseFile (some bare.file) cutBehindMarker = .error e ∧
          e.span.line = some 4 ∧
          ∀ host w, (m.withParsed cutBehindMarker).runIn host w = (.error (.build { e with span :=
            { file := some ("a" : Text), line := some 5, column := e.span.column } }), w) := by
  have hcounts : CountsRows (Text.rows cutBehindMarker) :=
    ⟨["// ref a:3\r", "x"], ["\x0c", "\x7d"], by decide, by decide, by decide⟩
  have hbefore : CountsRows ((Text.rows cutBehindMarker).take (4 - 1)) :=
    ⟨["// ref a:3\r", "x"], ["\x0c"], by decide, by decide, by decide⟩
  have hparse : Source.parse cutBehindMarker = .error (.shape (.token ⟨16, 4, 1⟩)) := by
    decide +kernel
  obtain ⟨e, he, hline⟩ : ∃ e, Source.parseFile (some bare.file) cutBehindMarker = .error e ∧
      e.span.line = some ((4 : Nat) : Int) := by
    rw [Source.parseFile, hparse]
    exact ⟨_, rfl, rfl⟩
  have hsegments : segmentsFrom 1 (Text.lines cutBehindMarker) = .ok [⟨2, "a", 3⟩] := by decide
  obtain ⟨m, hm⟩ : ∃ m, bare.withManifest cutBehindMarker = .ok m :=
    ⟨_, withManifest_eq_ok_iff.mpr ⟨_, hsegments, rfl⟩⟩
  obtain ⟨manifest, hmanifest, hnum, -, hfault⟩ :=
    (numbersRows_withManifest bare cutBehindMarker).2 m hm
  obtain ⟨line, hline', -, hfault⟩ := hfault e he
  obtain rfl : line = 4 := by
    rw [hline] at hline'
    exact (Int.ofNat_inj.mp (Option.some.inj hline')).symm
  have hsplit : (Text.rows cutBehindMarker).take (4 - 1) =
      [] ++ ("// ref a:3\r" : Text) :: ["x", "\x0c"] := rfl
  have hrow : marker? "// ref a:3\r" = some (("a" : Text), ("3" : Text)) := rfl
  have hplace : Place bare.file ((Text.rows cutBehindMarker).take (4 - 1)) 4 "a" 5 :=
    .behind hsplit hrow (by decide)
  exact ⟨hcounts, m, manifest, hm, hmanifest, hnum hcounts, e, he, hline,
    fun host w => hfault hbefore _ _ hplace host w (Source.not_overflows_of_shape hparse)⟩

/-- A brace without its partner, behind a form feed and a marker. -/
def cutBeforeMarker : Text := "\x0c\n// ref a:5\n\x7d"

/-- The marker stands on the second row and the brace on the third, but the manifest has the marker
on the third line, and the brace is reported in the module's own file. -/
theorem not_numbersRows_cutBeforeMarker :
    (Text.rows cutBeforeMarker)[1]?.bind marker? = some (("a" : Text), ("5" : Text)) ∧
      ∃ m manifest, bare.withManifest cutBeforeMarker = .ok m ∧ m.manifest = some manifest ∧
        ¬ NumbersRows manifest.segments (Text.rows cutBeforeMarker) ∧
        ∃ e, Source.parseFile (some bare.file) cutBeforeMarker = .error e ∧ e.span.line = some 3 ∧
          ∀ host w, (m.withParsed cutBeforeMarker).runIn host w = (.error (.build { e with span :=
            { file := some bare.file, line := some 3, column := e.span.column } }), w) := by
  have hsegments : segmentsFrom 1 (Text.lines cutBeforeMarker) = .ok [⟨4, "a", 5⟩] := by decide
  have hparse : Source.parse cutBeforeMarker = .error (.shape (.token ⟨13, 3, 1⟩)) := by
    decide +kernel
  obtain ⟨e, he, hline⟩ : ∃ e, Source.parseFile (some bare.file) cutBeforeMarker = .error e ∧
      e.span.line = some 3 := by
    rw [Source.parseFile, hparse]
    exact ⟨_, rfl, rfl⟩
  refine ⟨by decide, _, _, withManifest_eq_ok_iff.mpr ⟨_, hsegments, rfl⟩, rfl, fun hnum => ?_,
    e, he, hline, fun host w =>
      withParsed_of_fault he hline _ (Source.not_overflows_of_shape hparse) w⟩
  have hstart := (hnum.mem_iff ⟨3, "a", 5⟩).mpr ⟨1, "// ref a:5", "5", rfl, rfl, rfl, rfl⟩
  exact absurd hstart (by decide)

end Module

end ZigNif
