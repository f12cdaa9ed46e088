import Mathlib.Data.List.TakeWhile
import ZigNif.Diagnostic
import ZigNif.Proofs.Except
import ZigNif.Proofs.Text.Lines
import ZigNif.Proofs.Text.Search

/-!
# Proofs/Diagnostic — what becomes of a compiler's output

A line of output is located if it is a path, two numerals, a severity and a message; where it can
be read so in several ways, the shortest path counts (`Reads`).  The lines of the output become
lines of the new text one by one (`Becomes`): a located line keeps its severity and its message,
and shows the place that the manifest has for its own if it is about the staged file; all other
lines stay as they are.
-/

namespace ZigNif

namespace Span

/-- A span is written on one line if its file is named on one. -/
theorem isOneLine_format {s : Span} (h : ∀ file ∈ s.file, Text.IsOneLine file) :
    Text.IsOneLine s.format := by
  have hunknown : Text.IsOneLine ("<unknown>" : Text) := by decide
  have hcolon : Text.IsOneLine (":" : Text) := by decide
  unfold format
  split
  case h_1 | h_2 =>
    split <;> simp only [Text.isOneLine_append, Text.isOneLine_ofInt, hunknown, hcolon, and_self]
  case h_3 file _ hfile =>
    have hline := h file hfile
    split <;> simp only [Text.isOneLine_append, Text.isOneLine_ofInt, hline, hcolon, and_self]

end Span

namespace Manifest

/-- The files that the manifest names. -/
def files (m : Manifest) : List Text := m.file :: m.segments.map Segment.file

/-- A place is in one of the files that the manifest names. -/
theorem mem_files_of_resolve (m : Manifest) (line : Int) (column : Option Int) :
    ∀ file ∈ (m.resolve line column).file, file ∈ m.files := by
  rw [resolve]
  split
  case h_1 =>
    rintro _ ⟨⟩
    exact List.mem_cons_self
  case h_2 s hs =>
    rintro _ ⟨⟩
    have hmem : s ∈ m.segments := (List.takeWhile_sublist _).subset (List.mem_of_getLast? hs)
    exact List.mem_cons_of_mem _ (List.mem_map_of_mem hmem)

end Manifest

namespace Severity

theorem isOneLine_text (severity : Severity) : Text.IsOneLine severity.text := by
  cases severity <;> decide

end Severity

namespace Diagnostic

variable {t r line path path' digits place message output : Text} {tail tail' : Tail} {c : Char}
  {n k : Nat} {s : Span} {severity : Severity} {stagedPath : Option Text}
  {manifest : Option Manifest}

/-! ## Located lines -/

/-- The text is a run of digits. -/
def IsNumeral (t : Text) : Prop := t ≠ [] ∧ ∀ c ∈ t, Text.isDigit c

instance (t : Text) : Decidable (IsNumeral t) :=
  have : Decidable (∀ c ∈ t, Text.isDigit c) := List.decidableBAll _ t
  inferInstanceAs (Decidable (_ ∧ _))

theorem isOneLine_separator : Text.IsOneLine (": " : Text) := by decide

namespace Tail

/-- The tail as it stands behind the path. -/
def text (t : Tail) : Text :=
  ':' :: t.line ++ ':' :: t.column ++ ": " ++ t.severity.text ++ ": " ++ t.message

/-- The numbers of the tail are numerals. -/
def IsProper (t : Tail) : Prop := IsNumeral t.line ∧ IsNumeral t.column

theorem isOneLine_text_iff : Text.IsOneLine tail.text ↔
    Text.IsOneLine tail.line ∧ Text.IsOneLine tail.column ∧ Text.IsOneLine tail.message := by
  have hcolon : Text.isLineEnd ':' = false := rfl
  simp only [text, List.cons_append, Text.isOneLine_cons, Text.isOneLine_append, hcolon,
    isOneLine_separator, Severity.isOneLine_text, true_and, and_true, and_assoc]

end Tail

/-- The line is a path with a tail behind it. -/
structure IsLocated (line path : Text) (tail : Tail) : Prop where
  eq : line = path ++ tail.text
  path_ne_nil : path ≠ []
  proper : tail.IsProper

/-- The line is read as a path with a tail behind it: no shorter path has a tail behind it. -/
def Reads (line path : Text) (tail : Tail) : Prop :=
  IsLocated line path tail ∧ ∀ path' tail', IsLocated line path' tail' → path.length ≤ path'.length

/-- A run of digits is read as far as it goes. -/
theorem digits?_eq_some_iff : digits? t = some (digits, r) ↔
    t = ':' :: (digits ++ r) ∧ IsNumeral digits ∧ ∀ c ∈ r.head?, ¬ Text.isDigit c := by
  simp only [digits?, bind, Option.bind_eq_some_iff, Text.dropPrefix?_eq_some_iff]
  constructor
  · rintro ⟨u, rfl, h⟩
    split at h
    case isTrue => cases h
    case isFalse hne =>
      obtain ⟨rfl, rfl⟩ := Prod.mk.inj (Option.some.inj h)
      refine ⟨?_, ⟨hne, fun c hc => List.mem_takeWhile_imp hc⟩, fun c hc => ?_⟩
      · rw [List.takeWhile_append_dropWhile]
        rfl
      · have hhead := List.head?_dropWhile_not Text.isDigit u
        rw [Option.mem_def.mp hc] at hhead
        simpa using hhead
  · rintro ⟨rfl, ⟨hne, hdigits⟩, hr⟩
    refine ⟨digits ++ r, rfl, ?_⟩
    have htake : r.takeWhile Text.isDigit = [] := by
      cases r with
      | nil => rfl
      | cons c r => exact List.takeWhile_cons_of_neg (hr c rfl)
    have hdrop : r.dropWhile Text.isDigit = r := by
      cases r with
      | nil => rfl
      | cons c r => exact List.dropWhile_cons_of_neg (hr c rfl)
    rw [List.takeWhile_append_of_pos hdigits, List.dropWhile_append_of_pos hdigits, htake, hdrop,
      List.append_nil, if_neg hne]

/-- **A tail is read if and only if it stands there.** -/
theorem tail?_eq_some_iff : tail? t = some tail ↔ t = tail.text ∧ tail.IsProper := by
  constructor
  · intro h
    simp only [tail?, bind, Option.bind_eq_some_iff, Prod.exists] at h
    obtain ⟨line, r, hline, column, r', hcolumn, h⟩ := h
    obtain ⟨rfl, hline', -⟩ := digits?_eq_some_iff.mp hline
    obtain ⟨rfl, hcolumn', -⟩ := digits?_eq_some_iff.mp hcolumn
    split at h
    case h_1 hmessage | h_2 hmessage =>
      rw [Text.dropPrefix?_eq_some_iff] at hmessage
      subst hmessage
      obtain rfl := Option.some.inj h
      refine ⟨?_, hline', hcolumn'⟩
      simp only [Tail.text, List.append_assoc]
      rfl
    case h_3 => cases h
  · rintro ⟨rfl, hline, hcolumn⟩
    obtain ⟨line, column, severity, message⟩ := tail
    have htext : Tail.text ⟨line, column, severity, message⟩ = ':' :: (line ++ ':' :: (column ++
        ((": " : Text) ++ severity.text ++ (": " : Text) ++ message))) := by
      simp only [Tail.text, List.cons_append, List.append_assoc]
    have hread : ∀ digits r : Text, IsNumeral digits →
        digits? (':' :: (digits ++ ':' :: r)) = some (digits, ':' :: r) := fun _ _ h =>
      digits?_eq_some_iff.mpr ⟨rfl, h, by rintro _ ⟨⟩; decide⟩
    rw [htext, tail?, hread line _ hline]
    change (digits? (':' :: (column ++ ':' :: ((" " : Text) ++ severity.text ++ (": " : Text) ++
      message))) >>= _) = _
    rw [hread column _ hcolumn]
    cases severity <;> rfl

theorem not_isLocated_nil : ¬ IsLocated [] path tail :=
  fun h => h.path_ne_nil (List.append_eq_nil_iff.mp h.eq.symm).1

/-- A path of one character has the tail behind it that is read there. -/
theorem isLocated_singleton_iff : IsLocated (c :: t) [c] tail ↔ tail? t = some tail := by
  rw [tail?_eq_some_iff]
  exact ⟨fun h => ⟨(List.cons.inj h.eq).2, h.proper⟩,
    fun h => ⟨congrArg (c :: ·) h.1, List.cons_ne_nil c [], h.2⟩⟩

/-- If no tail is read behind the first character, a path goes on. -/
theorem isLocated_cons_iff (h : tail? t = none) :
    IsLocated (c :: t) path tail ↔ ∃ s, path = c :: s ∧ IsLocated t s tail := by
  constructor
  · intro hloc
    obtain ⟨d, s, rfl⟩ := List.exists_cons_of_ne_nil hloc.path_ne_nil
    obtain ⟨rfl, ht⟩ := List.cons.inj hloc.eq
    refine ⟨s, rfl, ht, ?_, hloc.proper⟩
    rintro rfl
    exact nomatch h.symm.trans (isLocated_singleton_iff.mp hloc)
  · rintro ⟨s, rfl, hloc⟩
    exact ⟨congrArg (c :: ·) hloc.eq, List.cons_ne_nil c s, hloc.proper⟩

theorem reads_singleton (h : tail? t = some tail) :
    Reads (c :: t) path tail' ↔ path = [c] ∧ tail' = tail := by
  have hshort : IsLocated (c :: t) [c] tail := isLocated_singleton_iff.mpr h
  constructor
  · rintro ⟨hloc, hmin⟩
    obtain ⟨d, s, rfl⟩ := List.exists_cons_of_ne_nil hloc.path_ne_nil
    obtain ⟨rfl, -⟩ := List.cons.inj hloc.eq
    obtain rfl := List.eq_nil_of_length_eq_zero (Nat.le_zero.mp (Nat.le_of_succ_le_succ
      (hmin _ _ hshort)))
    exact ⟨rfl, Option.some.inj ((isLocated_singleton_iff.mp hloc).symm.trans h)⟩
  · rintro ⟨rfl, rfl⟩
    exact ⟨hshort, fun path' _ h => List.length_pos_iff.mpr h.path_ne_nil⟩

theorem reads_cons_iff (h : tail? t = none) :
    Reads (c :: t) path tail ↔ ∃ s, path = c :: s ∧ Reads t s tail := by
  constructor
  · rintro ⟨hloc, hmin⟩
    obtain ⟨s, rfl, hlocs⟩ := (isLocated_cons_iff h).mp hloc
    exact ⟨s, rfl, hlocs, fun s' tail' h' =>
      Nat.le_of_succ_le_succ (hmin (c :: s') tail' ((isLocated_cons_iff h).mpr ⟨s', rfl, h'⟩))⟩
  · rintro ⟨s, rfl, hloc, hmin⟩
    refine ⟨(isLocated_cons_iff h).mpr ⟨s, rfl, hloc⟩, fun path' tail' h' => ?_⟩
    obtain ⟨s', rfl, hloc'⟩ := (isLocated_cons_iff h).mp h'
    exact Nat.succ_le_succ (hmin s' tail' hloc')

theorem splitFrom_eq_none_iff :
    splitFrom path t = none ↔ ∀ s tail, ¬ IsLocated t s tail := by
  induction t generalizing path with
  | nil => exact iff_of_true rfl fun _ _ => not_isLocated_nil
  | cons c t ih =>
    rw [splitFrom]
    split
    case h_1 tail h =>
      exact iff_of_false nofun fun hnone => hnone [c] tail (isLocated_singleton_iff.mpr h)
    case h_2 h =>
      simp only [ih, isLocated_cons_iff h]
      grind

theorem splitFrom_eq_some_iff :
    splitFrom path t = some (path', tail) ↔ ∃ s, path' = path.reverse ++ s ∧ Reads t s tail := by
  induction t generalizing path with
  | nil => exact iff_of_false nofun fun ⟨_, _, h⟩ => not_isLocated_nil h.1
  | cons c t ih =>
    rw [splitFrom]
    split
    case h_1 tail' h =>
      simp [reads_singleton h, eq_comm]
    case h_2 h =>
      simp only [ih, reads_cons_iff h, List.reverse_cons, List.append_assoc, List.singleton_append]
      grind

/-- **A line is split if and only if it is located**, -/
theorem split?_eq_none_iff : split? line = none ↔ ∀ path tail, ¬ IsLocated line path tail :=
  splitFrom_eq_none_iff

/-- and it is split as it is read. -/
theorem split?_eq_some_iff : split? line = some (path, tail) ↔ Reads line path tail := by
  simp [split?, splitFrom_eq_some_iff]

/-! ## Places -/

/-- The path has the same last component as that of the staged file. -/
def IsAbout (stagedPath : Option Text) (path : Text) : Prop :=
  ∃ staged, stagedPath = some staged ∧ staged ≠ [] ∧
    (Path.ofText path).name = (Path.ofText staged).name

/-- How the place of a diagnostic is shown, and as which span it is returned: as the manifest has
it if the path is about the staged file, else as it is, the numbers in plain decimal. -/
inductive Place (stagedPath : Option Text) (manifest : Option Manifest) (path : Text)
    (line column : Nat) : Text → Span → Prop
  | resolved {m : Manifest} (present : manifest = some m) (about : IsAbout stagedPath path) :
    Place stagedPath manifest path line column (m.resolve line (some column)).format
      (m.resolve line (some column))
  | kept (foreign : manifest = none ∨ ¬ IsAbout stagedPath path) :
    Place stagedPath manifest path line column
      (path ++ ":" ++ Text.ofNat line ++ ":" ++ Text.ofNat column)
      { file := some path, line := some line, column := some column }

theorem isAbout_iff :
    IsAbout stagedPath path ↔ stagedName stagedPath = some (Path.ofText path).name := by
  rw [stagedName, Option.map_eq_some_iff]
  refine exists_congr fun staged => ?_
  rw [eq_comm (a := (Path.ofText path).name), ← and_assoc]
  refine and_congr_left fun _ => ?_
  cases stagedPath with
  | none => simp [Span.named]
  | some t => cases t <;> simp +contextual [Span.named, eq_comm]

/-- The file of a place is the path itself, or the manifest names it. -/
theorem Place.file_of_mem (h : Place stagedPath manifest path n k place s) :
    ∀ file ∈ s.file, file = path ∨ ∃ m ∈ manifest, file ∈ m.files := by
  cases h with
  | resolved present =>
    exact fun file hfile => .inr ⟨_, present, Manifest.mem_files_of_resolve _ _ _ file hfile⟩
  | kept =>
    rintro _ ⟨⟩
    exact .inl rfl

/-- A diagnostic that is kept is shown in plain decimal. -/
theorem format_kept {d : Diagnostic} (h : d.path ≠ []) :
    Span.format
        { file := some d.path, line := some (d.line : Int), column := some (d.column : Int) } =
      d.path ++ ":" ++ Text.ofNat d.line ++ ":" ++ Text.ofNat d.column := by
  obtain ⟨c, r, hpath⟩ := List.exists_cons_of_ne_nil h
  rw [hpath]
  rfl

theorem span_of_isAbout {d : Diagnostic} {m : Manifest} (h : IsAbout stagedPath d.path) :
    d.span (stagedName stagedPath) (some m) = m.resolve d.line (some (d.column : Int)) := by
  rw [isAbout_iff.mp h, span, if_pos rfl]

theorem span_of_foreign {d : Diagnostic} (h : manifest = none ∨ ¬ IsAbout stagedPath d.path) :
    d.span (stagedName stagedPath) manifest =
      { file := some d.path, line := some (d.line : Int), column := some (d.column : Int) } := by
  rcases h with rfl | hforeign
  · rfl
  · rw [isAbout_iff] at hforeign
    unfold span
    split
    case h_1 name hname => exact if_neg fun heq => hforeign (by rw [hname, heq])
    case h_2 => rfl

/-- **The place is the span of the diagnostic, as it is written.** -/
theorem place_iff {d : Diagnostic} (h : d.path ≠ []) :
    Place stagedPath manifest d.path d.line d.column place s ↔
      s = d.span (stagedName stagedPath) manifest ∧ place = s.format := by
  constructor
  · rintro (⟨rfl, habout⟩ | hforeign)
    · exact ⟨(span_of_isAbout habout).symm, rfl⟩
    · exact ⟨(span_of_foreign hforeign).symm, (format_kept h).symm⟩
  · rintro ⟨rfl, rfl⟩
    by_cases hforeign : manifest = none ∨ ¬ IsAbout stagedPath d.path
    · rw [span_of_foreign hforeign, format_kept h]
      exact .kept hforeign
    · obtain ⟨hpresent, habout⟩ := not_or.mp hforeign
      obtain ⟨m, rfl⟩ := Option.ne_none_iff_exists'.mp hpresent
      rw [span_of_isAbout (not_not.mp habout)]
      exact .resolved rfl (not_not.mp habout)

/-! ## Lines -/

/-- A line of output, and what stands for it in the new text: the line itself if it is not located,
and else its place, severity and message.  An error comes with its span. -/
inductive Becomes (stagedPath : Option Text) (manifest : Option Manifest) :
    Text → Text × Option Span → Prop
  | free {line : Text} (unlocated : ∀ path tail, ¬ IsLocated line path tail) :
    Becomes stagedPath manifest line (line, none)
  | located {line path place : Text} {tail : Tail} {s : Span} (reads : Reads line path tail)
    (at_ : Place stagedPath manifest path (Text.readNat tail.line) (Text.readNat tail.column)
      place s) :
    Becomes stagedPath manifest line
      (place ++ ": " ++ tail.severity.text ++ ": " ++ tail.message,
        if tail.severity = .error then some s else none)

/-- The numbers of the line are not too long to be read, nor those of its place to be written. -/
def IsShort (stagedPath : Option Text) (manifest : Option Manifest) (line : Text) : Prop :=
  ∀ path tail, Reads line path tail →
    tail.line.length ≤ Text.maxDigits ∧ tail.column.length ≤ Text.maxDigits ∧
    ∀ place s, Place stagedPath manifest path (Text.readNat tail.line) (Text.readNat tail.column)
      place s → s.isWritable

theorem Reads.unique (h : Reads line path tail) (h' : Reads line path' tail') :
    path = path' ∧ tail = tail' :=
  Prod.mk.inj (Option.some.inj ((split?_eq_some_iff.mpr h).symm.trans (split?_eq_some_iff.mpr h')))

/-- The diagnostic that a path and a tail denote. -/
def denoted (path : Text) (t : Tail) : Diagnostic :=
  { path, line := Text.readNat t.line, column := Text.readNat t.column, severity := t.severity
    message := t.message }

/-- The place of a line is that of the diagnostic that it denotes. -/
theorem Reads.place_iff (h : Reads line path tail) :
    Place stagedPath manifest path (Text.readNat tail.line) (Text.readNat tail.column) place s ↔
      s = (denoted path tail).span (stagedName stagedPath) manifest ∧ place = s.format :=
  Diagnostic.place_iff (d := denoted path tail) h.1.path_ne_nil

theorem ofTail_eq_ok_iff {d : Diagnostic} : ofTail path tail = .ok d ↔
    tail.line.length ≤ Text.maxDigits ∧ tail.column.length ≤ Text.maxDigits ∧
      d = denoted path tail := by
  simp only [ofTail, bind_eq_ok_iff, Text.numeral_eq_ok_iff]
  constructor
  · rintro ⟨n, ⟨hline, rfl⟩, k, ⟨hcolumn, rfl⟩, h⟩
    exact ⟨hline, hcolumn, (Except.ok.inj h).symm⟩
  · rintro ⟨hline, hcolumn, rfl⟩
    exact ⟨_, ⟨hline, rfl⟩, _, ⟨hcolumn, rfl⟩, rfl⟩

theorem becomes_of_free {row : Text × Option Span}
    (h : ∀ path tail, ¬ IsLocated line path tail) :
    Becomes stagedPath manifest line row ↔ row = (line, none) := by
  constructor
  · rintro (_ | ⟨hreads, -⟩)
    · rfl
    · exact absurd hreads.1 (h _ _)
  · rintro rfl
    exact .free h

theorem becomes_of_reads {row : Text × Option Span} (h : Reads line path tail) :
    Becomes stagedPath manifest line row ↔
      let s := (denoted path tail).span (stagedName stagedPath) manifest
      row = (s.format ++ ": " ++ tail.severity.text ++ ": " ++ tail.message,
        if tail.severity = .error then some s else none) := by
  constructor
  · rintro (hfree | ⟨hreads, hat⟩)
    · exact absurd h.1 (hfree path tail)
    · obtain ⟨rfl, rfl⟩ := h.unique hreads
      obtain ⟨rfl, rfl⟩ := h.place_iff.mp hat
      rfl
  · rintro rfl
    exact .located h (h.place_iff.mpr ⟨rfl, rfl⟩)

theorem isShort_of_reads (h : Reads line path tail) : IsShort stagedPath manifest line ↔
    tail.line.length ≤ Text.maxDigits ∧ tail.column.length ≤ Text.maxDigits ∧
      ((denoted path tail).span (stagedName stagedPath) manifest).isWritable := by
  constructor
  · intro hshort
    obtain ⟨hline, hcolumn, hwritable⟩ := hshort path tail h
    exact ⟨hline, hcolumn, hwritable _ _ (h.place_iff.mpr ⟨rfl, rfl⟩)⟩
  · rintro ⟨hline, hcolumn, hwritable⟩ path' tail' hreads
    obtain ⟨rfl, rfl⟩ := h.unique hreads
    refine ⟨hline, hcolumn, fun place s hat => ?_⟩
    obtain ⟨rfl, -⟩ := h.place_iff.mp hat
    exact hwritable

/-- **A line is remapped if and only if its numbers are short**, and then to what it becomes. -/
theorem remapLine_eq_ok_iff {row : Text × Option Span} :
    remapLine (stagedName stagedPath) manifest line = .ok row ↔
      IsShort stagedPath manifest line ∧ Becomes stagedPath manifest line row := by
  cases hsplit : split? line with
  | none =>
    have hfree := split?_eq_none_iff.mp hsplit
    have hshort : IsShort stagedPath manifest line := fun path tail h =>
      absurd h.1 (hfree path tail)
    rw [becomes_of_free hfree, and_iff_right hshort, remapLine, hsplit]
    exact ⟨fun h => (Except.ok.inj h).symm, fun h => congrArg Except.ok h.symm⟩
  | some r =>
    obtain ⟨path, tail⟩ := r
    have hreads : Reads line path tail := split?_eq_some_iff.mp hsplit
    rw [becomes_of_reads hreads, isShort_of_reads hreads, remapLine, hsplit]
    simp only [bind_eq_ok_iff, ofTail_eq_ok_iff]
    constructor
    · rintro ⟨d, ⟨hline, hcolumn, rfl⟩, hrow⟩
      split at hrow
      case isTrue => cases hrow
      case isFalse hwritable =>
        exact ⟨⟨hline, hcolumn, by simpa using hwritable⟩, (Except.ok.inj hrow).symm⟩
    · rintro ⟨⟨hline, hcolumn, hwritable⟩, rfl⟩
      refine ⟨_, ⟨hline, hcolumn, rfl⟩, if_neg ?_⟩
      simpa using hwritable

theorem exists_becomes (stagedPath : Option Text) (manifest : Option Manifest) (line : Text) :
    ∃ row, Becomes stagedPath manifest line row := by
  cases h : split? line with
  | none => exact ⟨_, .free (split?_eq_none_iff.mp h)⟩
  | some r =>
    have hreads : Reads line r.1 r.2 := split?_eq_some_iff.mp h
    exact ⟨_, .located hreads (hreads.place_iff.mpr ⟨rfl, rfl⟩)⟩

/-! ## The output -/

/-- The line is a located error. -/
def IsError (line : Text) : Prop := ∃ path tail, Reads line path tail ∧ tail.severity = .error

section Becomes

variable {row : Text × Option Span} {ls : List Text} {rows : List (Text × Option Span)}

theorem Becomes.snd_eq_none_iff (h : Becomes stagedPath manifest line row) :
    row.2 = none ↔ ¬ IsError line := by
  cases h with
  | free hfree => exact iff_of_true rfl fun ⟨path, tail, h, _⟩ => hfree path tail h.1
  | @located path _ tail _ hreads _ =>
    have herror : IsError line ↔ tail.severity = .error := by
      refine ⟨fun ⟨path', tail', h, h'⟩ => ?_, fun h => ⟨path, tail, hreads, h⟩⟩
      rwa [(hreads.unique h).2]
    rw [herror]
    split
    case isTrue h => simp [h]
    case isFalse h => simp [h]

theorem Becomes.fst_eq_nil_iff (h : Becomes stagedPath manifest line row) :
    row.1 = [] ↔ line = [] := by
  cases h with
  | free => rfl
  | located hreads =>
    refine iff_of_false (by simp) ?_
    rintro rfl
    exact not_isLocated_nil hreads.1

/-- What every line shares with what it becomes, the last ones share. -/
theorem getLast?_of_becomes (h : List.Forall₂ (Becomes stagedPath manifest) ls rows) :
    (rows.map Prod.fst).getLast? = some [] ↔ ls.getLast? = some [] := by
  induction h with
  | nil => rfl
  | cons hrow hrows ih =>
    cases hrows with
    | nil => simpa using hrow.fst_eq_nil_iff
    | cons => simpa using ih

theorem findSome?_eq_none_of_becomes (h : List.Forall₂ (Becomes stagedPath manifest) ls rows) :
    rows.findSome? Prod.snd = none ↔ ∀ line ∈ ls, ¬ IsError line := by
  rw [List.findSome?_eq_none_iff]
  induction h with
  | nil => simp
  | cons hrow _ ih => rw [List.forall_mem_cons, List.forall_mem_cons, hrow.snd_eq_none_iff, ih]

/-- A line stays one line unless a file of the manifest is named on several. -/
theorem Becomes.isOneLine (h : Becomes stagedPath manifest line row)
    (hfiles : ∀ m ∈ manifest, ∀ file ∈ m.files, Text.IsOneLine file)
    (hline : Text.IsOneLine line) : Text.IsOneLine row.1 := by
  cases h with
  | free => exact hline
  | @located path place tail s hreads hat =>
    rw [hreads.1.eq, Text.isOneLine_append] at hline
    obtain ⟨hpath, htail⟩ := hline
    obtain ⟨-, -, hmessage⟩ := Tail.isOneLine_text_iff.mp htail
    have hplace : Text.IsOneLine place := by
      rw [(hreads.place_iff.mp hat).2]
      refine Span.isOneLine_format fun file hfile => ?_
      rcases hat.file_of_mem file hfile with rfl | ⟨m, hm, hfile⟩
      · exact hpath
      · exact hfiles m hm file hfile
    simp only [Text.isOneLine_append, hplace, hmessage, isOneLine_separator,
      Severity.isOneLine_text, and_self]

theorem isOneLine_of_becomes (h : List.Forall₂ (Becomes stagedPath manifest) ls rows)
    (hfiles : ∀ m ∈ manifest, ∀ file ∈ m.files, Text.IsOneLine file)
    (hlines : ∀ line ∈ ls, Text.IsOneLine line) : ∀ t ∈ rows.map Prod.fst, Text.IsOneLine t := by
  induction h with
  | nil => nofun
  | cons hrow _ ih =>
    obtain ⟨hline, hlines⟩ := List.forall_mem_cons.mp hlines
    exact List.forall_mem_cons.mpr ⟨hrow.isOneLine hfiles hline, ih hlines⟩

end Becomes

theorem remap_eq_ok_iff {text : Text} {first : Option Span} :
    remap output stagedPath manifest = .ok (text, first) ↔
      (∀ line ∈ Text.lines output, IsShort stagedPath manifest line) ∧
      ∃ rows, List.Forall₂ (Becomes stagedPath manifest) (Text.lines output) rows ∧
        text = Text.unlines (rows.map Prod.fst) ∧ first = rows.findSome? Prod.snd := by
  simp only [remap, bind_eq_ok_iff, mapM_eq_ok_iff_forall₂, remapLine_eq_ok_iff,
    List.forall₂_and_left]
  constructor
  · rintro ⟨rows, ⟨hshort, hrows⟩, h⟩
    obtain ⟨rfl, rfl⟩ := Prod.mk.inj (Except.ok.inj h)
    exact ⟨hshort, rows, hrows, rfl, rfl⟩
  · rintro ⟨hshort, rows, hrows, rfl, rfl⟩
    exact ⟨rows, ⟨hshort, hrows⟩, rfl⟩

theorem exists_remap_eq_ok_iff : (∃ r, remap output stagedPath manifest = .ok r) ↔
    ∀ line ∈ Text.lines output, IsShort stagedPath manifest line := by
  simp only [Prod.exists, remap_eq_ok_iff]
  constructor
  · rintro ⟨_, _, hshort, -⟩
    exact hshort
  · intro hshort
    choose row hrow using exists_becomes stagedPath manifest
    refine ⟨_, _, hshort, (Text.lines output).map row, ?_, rfl, rfl⟩
    exact List.forall₂_map_right_iff.mpr (List.forall₂_same.mpr fun line _ => hrow line)

/-- **The lines of the output become those of the new text, one by one.** -/
theorem remap_becomes (output : Text) (stagedPath : Option Text) (manifest : Option Manifest) :
    ((∃ r, remap output stagedPath manifest = .ok r) ↔
      ∀ line ∈ Text.lines output, IsShort stagedPath manifest line) ∧
    ∀ text first, remap output stagedPath manifest = .ok (text, first) →
      ∃ rows, List.Forall₂ (Becomes stagedPath manifest) (Text.lines output) rows ∧
        text = Text.unlines (rows.map Prod.fst) ∧
        ((∀ m ∈ manifest, ∀ file ∈ m.files, Text.IsOneLine file) →
          (Text.lines text = rows.map Prod.fst ↔ (Text.lines output).getLast? ≠ some [])) ∧
        first = rows.findSome? Prod.snd ∧
        (first = none ↔ ∀ line ∈ Text.lines output, ¬ IsError line) := by
  refine ⟨exists_remap_eq_ok_iff, fun text first h => ?_⟩
  obtain ⟨-, rows, hrows, rfl, rfl⟩ := remap_eq_ok_iff.mp h
  refine ⟨rows, hrows, rfl, fun hfiles => ?_, rfl, findSome?_eq_none_of_becomes hrows⟩
  have honeLine := isOneLine_of_becomes hrows hfiles fun _ => Text.isOneLine_of_mem_lines
  rw [Text.lines_unlines_eq_iff, and_iff_right honeLine, Ne, getLast?_of_becomes hrows]

/-- A note about the staged file that quotes an error, an error in a file whose name looks like a
place, and a line that is not located. -/
def quotingOutput : Text :=
  "s/M.zig:3:5: note: a:1:2: error: x\nb 1:2:c:07:1: error: y\nerror: z"

/-- The manifest of a staged source whose first line is the module's own. -/
def quotedManifest : Manifest := { file := "m.ex", segments := [⟨2, "nif.ex", 10⟩] }

theorem remap_becomes_quoting :
    ∃ rows, List.Forall₂ (Becomes (some "s/M.zig") (some quotedManifest))
        (Text.lines quotingOutput) rows ∧
      rows.map Prod.fst =
        ["nif.ex:11:5: note: a:1:2: error: x", "b 1:2:c:7:1: error: y", "error: z"] ∧
      rows.findSome? Prod.snd =
        some { file := some ("b 1:2:c" : Text), line := some 7, column := some 1 } := by
  have hrun : remap quotingOutput (some ("s/M.zig" : Text)) (some quotedManifest) = .ok
      ("nif.ex:11:5: note: a:1:2: error: x\nb 1:2:c:7:1: error: y\nerror: z",
        some { file := some ("b 1:2:c" : Text), line := some 7, column := some 1 }) := by
    decide +kernel
  obtain ⟨rows, hrows, -, hlines, hfirst, -⟩ := (remap_becomes _ _ _).2 _ _ hrun
  refine ⟨rows, hrows, ((hlines ?_).mpr (by decide +kernel)).symm.trans (by decide +kernel),
    hfirst.symm⟩
  rintro _ ⟨⟩
  decide +kernel

/-- The tail of an error whose line number has one digit more than can be read. -/
def longTail : Tail :=
  { line := List.replicate (Text.maxDigits + 1) '1', column := "1", severity := .error
    message := "x" }

theorem not_remap_of_longTail :
    IsLocated ("a" ++ longTail.text) "a" longTail ∧
      ¬ ∃ r, remap ("a" ++ longTail.text) none none = .ok r := by
  have hdigits : ∀ c ∈ longTail.line, c = '1' := fun c hc => List.eq_of_mem_replicate hc
  have hlocated : IsLocated ("a" ++ longTail.text) "a" longTail :=
    ⟨rfl, by decide, ⟨List.cons_ne_nil _ _, fun c hc => hdigits c hc ▸ rfl⟩, by decide⟩
  refine ⟨hlocated, fun hok => ?_⟩
  have hreads : Reads ("a" ++ longTail.text) "a" longTail :=
    ⟨hlocated, fun path' _ h => List.length_pos_iff.mpr h.path_ne_nil⟩
  have hline : Text.lines ("a" ++ longTail.text) = ["a" ++ longTail.text] := by
    refine Text.lines_of_isOneLine (Text.isOneLine_cons.mpr ⟨rfl, Tail.isOneLine_text_iff.mpr ?_⟩)
      (List.cons_ne_nil _ _)
    exact ⟨fun c hc => hdigits c hc ▸ rfl, by decide, by decide⟩
  have hshort := exists_remap_eq_ok_iff.mp hok _ (by rw [hline]; exact List.mem_cons_self) _ _
    hreads
  have hlength : longTail.line.length = Text.maxDigits + 1 := List.length_replicate
  omega

end Diagnostic

end ZigNif
