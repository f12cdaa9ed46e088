import Mathlib.Data.List.TakeWhile
import ZigNif.Manifest
import ZigNif.Proofs.Except
import ZigNif.Proofs.Text.Digit
import ZigNif.Proofs.Text.Lines

/-!
# Proofs/Manifest — staged source, and where its lines come from

Staged source is assembled from the module's own lines and from fragments, each behind a marker.
Its manifest undoes this: every line resolves to the file and the line that it was taken from.  A
line number with too many digits is the one thing that keeps a manifest from being read.
-/

namespace ZigNif

namespace Manifest

/-! ## Segments in order -/

variable {n : Nat} {ls rs : List Text} {segments : List Segment} {m : Manifest} {file source : Text}

theorem segmentsFrom_cons_of_plain {l : Text} (h : marker? l = none) :
    segmentsFrom n (l :: ls) = segmentsFrom (n + 1) ls := by
  rw [segmentsFrom, h]

theorem segmentsFrom_cons_eq_ok_iff {l name digits : Text} (h : marker? l = some (name, digits)) :
    segmentsFrom n (l :: ls) = .ok segments ↔ ∃ line rest, Text.numeral digits = .ok line ∧
      segmentsFrom (n + 1) ls = .ok rest ∧ segments = ⟨n + 1, name, line⟩ :: rest := by
  rw [segmentsFrom, h]
  simp only [bind_eq_ok_iff]
  constructor
  · rintro ⟨line, hline, rest, hrest, h⟩
    exact ⟨line, rest, hline, hrest, (Except.ok.inj h).symm⟩
  · rintro ⟨line, rest, hline, hrest, rfl⟩
    exact ⟨line, hline, rest, hrest, rfl⟩

/-- **The segments of lines start one behind the other**, and behind the first line. -/
theorem starts_of_segmentsFrom (h : segmentsFrom n ls = .ok segments) :
    (∀ s ∈ segments, n < s.start) ∧ segments.Pairwise fun s t => s.start < t.start := by
  induction ls generalizing n segments with
  | nil => cases h; exact ⟨nofun, .nil⟩
  | cons l ls ih =>
    cases hl : marker? l with
    | none =>
      rw [segmentsFrom_cons_of_plain hl] at h
      obtain ⟨hstart, hsorted⟩ := ih h
      exact ⟨fun s hs => Nat.lt_of_succ_lt (hstart s hs), hsorted⟩
    | some marked =>
      obtain ⟨line, rest, -, hrest, rfl⟩ := (segmentsFrom_cons_eq_ok_iff hl).mp h
      obtain ⟨hstart, hsorted⟩ := ih hrest
      refine ⟨List.forall_mem_cons.mpr ⟨Nat.lt_succ_self n, fun s hs => ?_⟩,
        List.pairwise_cons.mpr ⟨hstart, hsorted⟩⟩
      exact Nat.lt_of_succ_lt (hstart s hs)

theorem ofSource_eq_ok_iff :
    ofSource file source = .ok m ↔
      segmentsFrom 1 (Text.lines source) = .ok m.segments ∧ m.file = file := by
  rw [ofSource, bind_eq_ok_iff]
  constructor
  · rintro ⟨segments, hsegments, h⟩
    cases h
    exact ⟨hsegments, rfl⟩
  · rintro ⟨hsegments, rfl⟩
    exact ⟨m.segments, hsegments, rfl⟩

/-! ## Resolving -/

theorem segmentAt?_eq_none {line : Int} (h : ∀ s ∈ m.segments, line < s.start) :
    m.segmentAt? line = none := by
  have htake : (m.segments.takeWhile fun s => (s.start : Int) ≤ line) = [] := by
    cases hm : m.segments with
    | nil => rfl
    | cons s segments =>
      have hs := h s (hm ▸ List.mem_cons_self)
      exact List.takeWhile_cons_of_neg (by simpa using hs)
  rw [segmentAt?, htake]
  rfl

/-- **A line belongs to the last segment that starts at or before it.** -/
theorem segmentAt?_eq_some {line : Int} {before after : List Segment} {s : Segment}
    (hsorted : m.segments.Pairwise fun s t => s.start < t.start)
    (hm : m.segments = before ++ s :: after) (hs : s.start ≤ line)
    (hafter : ∀ t ∈ after, line < t.start) : m.segmentAt? line = some s := by
  rw [hm] at hsorted
  have hbefore : ∀ t ∈ before ++ [s], (t.start : Int) ≤ line := by
    refine List.forall_mem_append.mpr ⟨fun t ht => ?_, List.forall_mem_singleton.mpr hs⟩
    -- the segments before it start before it
    have hlt := (List.pairwise_append.mp hsorted).2.2 t ht s List.mem_cons_self
    omega
  have htake : (after.takeWhile fun t => (t.start : Int) ≤ line) = [] := by
    cases after with
    | nil => rfl
    | cons t after =>
      have ht := hafter t List.mem_cons_self
      exact List.takeWhile_cons_of_neg (by simpa using ht)
  rw [segmentAt?, hm, List.append_cons, List.takeWhile_append_of_pos (by simpa using hbefore),
    htake, List.append_nil, List.getLast?_concat]

/-! ## Markers -/

theorem lastColon?_append {name digits : Text} (h : ∀ c ∈ digits, c ≠ ':') :
    lastColon? (name ++ ':' :: digits) = some (name, digits) := by
  have htail : ((name ++ ':' :: digits).reverse.takeWhile (· != ':')).reverse = digits := by
    rw [List.reverse_append, List.reverse_cons, List.append_assoc,
      List.takeWhile_append_of_pos (by simpa using h)]
    simp
  have hlen : (name ++ ':' :: digits).length = name.length + 1 + digits.length := by
    rw [List.length_append, List.length_cons, Nat.add_assoc, Nat.add_comm 1]
  have hcut : name.length + 1 + digits.length - digits.length - 1 = name.length := by omega
  rw [lastColon?, htail, hlen, if_neg (by omega), hcut, List.take_left]

theorem lineDigits?_of_digits {digits : Text} (h : ∀ c ∈ digits, Text.isDigit c)
    (hne : digits ≠ []) : lineDigits? digits = some digits := by
  have htake : digits.takeWhile Text.isDigit = digits := List.takeWhile_eq_self_iff.mpr h
  have hdrop : digits.dropWhile Text.isDigit = [] := List.dropWhile_eq_nil_iff.mpr h
  rw [lineDigits?, htake, hdrop]
  simp [hne]

/-- **A marker names its file and its digits**, though the file be full of colons. -/
theorem marker?_append {name digits : Text} (hname : name ≠ [])
    (hblank : ∀ c ∈ name.head?, Text.isBlank c = false) (hdigits : ∀ c ∈ digits, Text.isDigit c)
    (hne : digits ≠ []) :
    marker? ("// ref " ++ (name ++ ':' :: digits)) = some (name, digits) := by
  obtain ⟨c, name, rfl⟩ := List.exists_cons_of_ne_nil hname
  have hc : Text.isBlank c = false := hblank c rfl
  have hmark : (skipMark "//" ("// ref " ++ (c :: name ++ ':' :: digits))).bind (skipMark "ref")
      = some (' ' :: (c :: name ++ ':' :: digits)) := rfl
  have hblanks : (' ' :: (c :: name ++ ':' :: digits)).takeWhile Text.isBlank = [' '] := by
    rw [List.takeWhile_cons_of_pos rfl, List.cons_append,
      List.takeWhile_cons_of_neg (by rw [hc]; exact Bool.false_ne_true)]
  have hrest : (' ' :: (c :: name ++ ':' :: digits)).dropWhile Text.isBlank
      = c :: name ++ ':' :: digits := by
    rw [List.dropWhile_cons_of_pos rfl, List.cons_append,
      List.dropWhile_cons_of_neg (by rw [hc]; exact Bool.false_ne_true)]
  have hcolon : ∀ c ∈ digits, c ≠ ':' := by
    rintro c hc rfl
    exact absurd (hdigits ':' hc) (by decide)
  rw [marker?, hmark]
  simp only [Option.bind_eq_bind, Option.bind_some, hblanks, hrest, lastColon?_append hcolon,
    lineDigits?_of_digits hdigits hne]
  simp

/-- The line holds no line boundary, and is no marker. -/
def IsPlain (l : Text) : Prop := Text.IsOneLine l ∧ marker? l = none

instance (l : Text) : Decidable (IsPlain l) :=
  inferInstanceAs (Decidable (Text.IsOneLine l ∧ marker? l = none))

/-- Lines that are no markers only count. -/
theorem segmentsFrom_append_of_plain (h : ∀ l ∈ ls, marker? l = none) :
    segmentsFrom n (ls ++ rs) = segmentsFrom (n + ls.length) rs := by
  induction ls generalizing n with
  | nil => rfl
  | cons l ls ih =>
    obtain ⟨hl, hls⟩ := List.forall_mem_cons.mp h
    rw [List.cons_append, segmentsFrom_cons_of_plain hl, ih hls, List.length_cons, Nat.add_assoc,
      Nat.add_comm 1]

/-- An empty last line may be left out. -/
theorem segmentsFrom_append_nil : segmentsFrom n (ls ++ [[]]) = segmentsFrom n ls := by
  induction ls generalizing n with
  | nil => rfl
  | cons l ls ih => rw [List.cons_append, segmentsFrom, segmentsFrom, ih]

theorem segmentsFrom_lines_unlines (h : ∀ l ∈ ls, Text.IsOneLine l) :
    segmentsFrom n (Text.lines (Text.unlines ls)) = segmentsFrom n ls := by
  -- an empty last line is lost when the text is cut, but it is no marker
  rcases Text.lines_unlines h with hls | hls
  · rw [hls]
  · rw [← segmentsFrom_append_nil, hls]

end Manifest

/-! ## Fragments -/

/-- Lines of a file, from the line `line` on. -/
structure Fragment where
  file : Text
  line : Nat
  lines : List Text

namespace Fragment

open Manifest

/-- The line that says where the lines of a fragment come from. -/
def marker (f : Fragment) : Text := "// ref " ++ (f.file ++ ':' :: Text.ofNat f.line)

/-- The staged lines of a fragment. -/
def staged (f : Fragment) : List Text := f.marker :: f.lines

/-- The file can be named in a marker, and the lines can be told from markers. -/
structure IsProper (f : Fragment) : Prop where
  named : f.file ≠ []
  unindented : ∀ c ∈ f.file.head?, Text.isBlank c = false
  oneLine : Text.IsOneLine f.file
  plain : ∀ l ∈ f.lines, IsPlain l

/-- The number of the line has no more digits than can be read. -/
def IsReadable (f : Fragment) : Prop := (Text.ofNat f.line).length ≤ Text.maxDigits

/-- The segments of fragments that are staged from line `n` on. -/
def segments : Nat → List Fragment → List Segment
  | _, [] => []
  | n, f :: fs => ⟨n + 1, f.file, f.line⟩ :: segments (n + f.staged.length) fs

variable {n : Nat} {f : Fragment} {fs before after : List Fragment} {file : Text}
  {own : List Text}

theorem marker?_marker (h : f.IsProper) : marker? f.marker = some (f.file, Text.ofNat f.line) :=
  marker?_append h.named h.unindented (fun _ => Text.isDigit_of_mem_ofNat) Text.ofNat_ne_nil

theorem isOneLine_marker (h : f.IsProper) : Text.IsOneLine f.marker := by
  exact Text.isOneLine_append.mpr ⟨by decide, Text.isOneLine_append.mpr
    ⟨h.oneLine, Text.isOneLine_cons.mpr ⟨by decide, Text.isOneLine_ofNat f.line⟩⟩⟩

theorem isOneLine_staged (h : f.IsProper) : ∀ l ∈ f.staged, Text.IsOneLine l :=
  List.forall_mem_cons.mpr ⟨isOneLine_marker h, fun l hl => (h.plain l hl).1⟩

theorem segments_append :
    segments n (before ++ after) =
      segments n before ++ segments (n + (before.flatMap staged).length) after := by
  induction before generalizing n with
  | nil => rfl
  | cons f fs ih =>
    rw [List.cons_append, segments, segments, ih, List.cons_append, List.flatMap_cons,
      List.length_append, Nat.add_assoc]

theorem lt_start_of_mem_segments : ∀ s ∈ segments n fs, n < s.start := by
  induction fs generalizing n with
  | nil => nofun
  | cons f fs ih =>
    refine List.forall_mem_cons.mpr ⟨Nat.lt_succ_self n, fun s hs => ?_⟩
    exact Nat.lt_of_le_of_lt (Nat.le_add_right _ _) (ih s hs)

/-- **The manifest of fragments has a segment for each**, if the line numbers can be read. -/
theorem segmentsFrom_fragments_eq_ok_iff {segs : List Segment} (h : ∀ f ∈ fs, f.IsProper) :
    segmentsFrom n (fs.flatMap staged) = .ok segs ↔
      (∀ f ∈ fs, f.IsReadable) ∧ segs = segments n fs := by
  induction fs generalizing n segs with
  | nil => simp [segmentsFrom, segments, eq_comm]
  | cons f fs ih =>
    obtain ⟨hf, hfs⟩ := List.forall_mem_cons.mp h
    have hlines : ∀ l ∈ f.lines, marker? l = none := fun l hl => (hf.plain l hl).2
    have hnext : n + 1 + f.lines.length = n + f.staged.length := by
      rw [staged, List.length_cons, Nat.add_assoc, Nat.add_comm 1]
    rw [List.flatMap_cons, staged, List.cons_append,
      segmentsFrom_cons_eq_ok_iff (marker?_marker hf), segmentsFrom_append_of_plain hlines,
      Text.numeral_ofNat, hnext]
    simp only [ih hfs, List.forall_mem_cons, segments]
    constructor
    · rintro ⟨line, rest, hline, ⟨hrest, rfl⟩, rfl⟩
      split at hline
      case isTrue hlt => cases hline; exact ⟨⟨hlt, hrest⟩, rfl⟩
      case isFalse => cases hline
    · rintro ⟨⟨hlt, hrest⟩, rfl⟩
      exact ⟨f.line, _, if_pos hlt, ⟨hrest, rfl⟩, rfl⟩

end Fragment

/-! ## Staged source -/

namespace Manifest

variable {m : Manifest} {f : Fragment} {fragments before after : List Fragment} {file : Text}
  {own : List Text}

/-- The lines of a staged source: the module's own, and those of the fragments. -/
def assembled (own : List Text) (fragments : List Fragment) : List Text :=
  own ++ fragments.flatMap Fragment.staged

theorem ofSource_assembled_eq_ok_iff (hown : ∀ l ∈ own, IsPlain l)
    (hfragments : ∀ f ∈ fragments, f.IsProper) :
    ofSource file (Text.unlines (assembled own fragments)) = .ok m ↔
      (∀ f ∈ fragments, f.IsReadable) ∧
        m = ⟨file, Fragment.segments (1 + own.length) fragments⟩ := by
  have honeLine : ∀ l ∈ assembled own fragments, Text.IsOneLine l := by
    refine List.forall_mem_append.mpr ⟨fun l hl => (hown l hl).1, fun l hl => ?_⟩
    obtain ⟨f, hf, hl⟩ := List.mem_flatMap.mp hl
    exact Fragment.isOneLine_staged (hfragments f hf) l hl
  rw [ofSource_eq_ok_iff, segmentsFrom_lines_unlines honeLine, assembled,
    segmentsFrom_append_of_plain fun l hl => (hown l hl).2,
    Fragment.segmentsFrom_fragments_eq_ok_iff hfragments, and_assoc]
  refine and_congr_right fun _ => ⟨?_, ?_⟩
  · rintro ⟨hsegments, rfl⟩
    rw [← hsegments]
  · rintro rfl
    exact ⟨rfl, rfl⟩

theorem exists_ofSource_assembled_iff (hown : ∀ l ∈ own, IsPlain l)
    (hfragments : ∀ f ∈ fragments, f.IsProper) :
    (∃ m, ofSource file (Text.unlines (assembled own fragments)) = .ok m) ↔
      ∀ f ∈ fragments, f.IsReadable := by
  simp only [ofSource_assembled_eq_ok_iff hown hfragments]
  exact ⟨fun ⟨_, h, _⟩ => h, fun h => ⟨_, h, rfl⟩⟩

theorem assembled_append :
    assembled own (before ++ f :: after) =
      assembled own before ++ (f.marker :: (f.lines ++ after.flatMap Fragment.staged)) := by
  rw [assembled, assembled, List.flatMap_append, List.flatMap_cons, Fragment.staged,
    List.append_assoc, List.cons_append]

/-- The lines of a fragment are staged behind its marker. -/
theorem getElem?_assembled {k : Nat} {l : Text} (h : f.lines[k]? = some l) :
    (assembled own (before ++ f :: after))[(assembled own before).length + 1 + k]? = some l := by
  obtain ⟨hk, -⟩ := List.getElem?_eq_some_iff.mp h
  have hindex : (assembled own before).length + 1 + k - (assembled own before).length = k + 1 := by
    omega
  rw [assembled_append, List.getElem?_append_right (by omega), hindex, List.getElem?_cons_succ,
    List.getElem?_append_left hk, h]

/-- The line at `k` behind the marker of a fragment belongs to its segment. -/
theorem segmentAt?_fragment {k : Nat} (hk : k < f.lines.length)
    (hsegments : m.segments = Fragment.segments (1 + own.length) (before ++ f :: after))
    (hsorted : m.segments.Pairwise fun s t => s.start < t.start) :
    m.segmentAt? ((assembled own before).length + 1 + k + 1 : Nat) =
      some ⟨(assembled own before).length + 2, f.file, f.line⟩ := by
  have hlen : 1 + own.length + (before.flatMap Fragment.staged).length + 1
      = (assembled own before).length + 2 := by
    rw [assembled, List.length_append]
    omega
  rw [Fragment.segments_append, Fragment.segments, hlen] at hsegments
  refine segmentAt?_eq_some hsorted hsegments (by dsimp only; omega) fun t ht => ?_
  -- the next segment starts behind the next marker, which stands behind the lines of this one
  have hlt := Fragment.lt_start_of_mem_segments t ht
  rw [Fragment.staged, List.length_cons] at hlt
  omega

/-- **The manifest of an assembled source undoes the assembly.**

It can be read if and only if no line number of a fragment has too many digits.  Then the module's
own lines resolve to themselves, and the lines of a fragment to the lines of its file. -/
theorem resolve_assembled (file : Text) (hown : ∀ l ∈ own, IsPlain l)
    (hfragments : ∀ f ∈ fragments, f.IsProper) :
    ((∃ m, ofSource file (Text.unlines (assembled own fragments)) = .ok m) ↔
      ∀ f ∈ fragments, f.IsReadable) ∧
    ∀ m, ofSource file (Text.unlines (assembled own fragments)) = .ok m → ∀ column,
      (∀ n, 1 ≤ n → n ≤ own.length →
        m.resolve n column = { file := some file, line := some n, column }) ∧
      ∀ before f after, fragments = before ++ f :: after → ∀ k l, f.lines[k]? = some l →
        (assembled own fragments)[(assembled own before).length + 1 + k]? = some l ∧
        m.resolve ((assembled own before).length + 1 + k + 1 : Nat) column =
          { file := some f.file, line := some (f.line + k), column } := by
  refine ⟨exists_ofSource_assembled_iff hown hfragments, fun m hm column => ?_⟩
  obtain ⟨-, rfl⟩ := (ofSource_assembled_eq_ok_iff hown hfragments).mp hm
  have hsorted := (starts_of_segmentsFrom (ofSource_eq_ok_iff.mp hm).1).2
  refine ⟨fun n _ hn => ?_, fun before f after hsplit k l hl => ⟨?_, ?_⟩⟩
  · have hnone : (Manifest.mk file (Fragment.segments (1 + own.length) fragments)).segmentAt? n
        = none := segmentAt?_eq_none fun s hs => by
      have hlt := Fragment.lt_start_of_mem_segments s hs
      omega
    rw [resolve, hnone]
  · subst hsplit
    exact getElem?_assembled hl
  · subst hsplit
    obtain ⟨hk, -⟩ := List.getElem?_eq_some_iff.mp hl
    rw [resolve, segmentAt?_fragment hk rfl hsorted]
    have hline : (f.line : Int) + (((assembled own before).length + 1 + k + 1 : Nat) -
        ((assembled own before).length + 2 : Nat)) = f.line + k := by
      omega
    exact congrArg (fun line => ({ file := some f.file, line := some line, column } : Span)) hline

/-- A file whose name ends like a marker, a fragment without lines, and two markers in a row. -/
def colonFragments : List Fragment := [⟨"a:7", 3, ["x", ""]⟩, ⟨"b", 1, []⟩, ⟨"c d:9", 12, ["y"]⟩]

theorem resolve_assembled_colon :
    (∀ l ∈ [("w" : Text)], IsPlain l) ∧ (∀ f ∈ colonFragments, f.IsProper) ∧
      ∃ m, ofSource "m" (Text.unlines (assembled ["w"] colonFragments)) = .ok m ∧
        m.resolve 1 none = { file := some "m", line := some 1 } ∧
        m.resolve 4 (some 2) = { file := some "a:7", line := some 4, column := some 2 } ∧
        m.resolve 7 (some 2) = { file := some "c d:9", line := some 12, column := some 2 } := by
  have hown : ∀ l ∈ [("w" : Text)], IsPlain l := by decide
  have hfragments : ∀ f ∈ colonFragments, f.IsProper := by
    simp only [colonFragments, List.forall_mem_cons]
    refine ⟨⟨by decide, ?_, by decide, by decide⟩, ⟨by decide, ?_, by decide, by decide⟩,
      ⟨by decide, ?_, by decide, by decide⟩, nofun⟩
    all_goals
      rintro _ ⟨⟩
      rfl
  have hreadable : ∀ f ∈ colonFragments, f.IsReadable := by
    simp only [colonFragments, List.forall_mem_cons, Fragment.IsReadable]
    exact ⟨by decide, by decide, by decide, nofun⟩
  obtain ⟨hread, hresolve⟩ := resolve_assembled "m" hown hfragments
  obtain ⟨m, hm⟩ := hread.mpr hreadable
  obtain ⟨hfirst, -⟩ := hresolve m hm none
  obtain ⟨-, hlater⟩ := hresolve m hm (some 2)
  refine ⟨hown, hfragments, m, hm, hfirst 1 (by decide) (by decide), ?_, ?_⟩
  · exact (hlater [] _ _ rfl 1 _ rfl).2
  · exact (hlater [_, _] _ _ rfl 0 _ rfl).2

/-- A line number with more digits than can be read. -/
def longFragment : Fragment := ⟨"a", Nat.pow 10 Text.maxDigits, ["x"]⟩

theorem no_manifest_of_longFragment :
    longFragment.IsProper ∧
      ¬ ∃ m, ofSource "m" (Text.unlines (assembled [] [longFragment])) = .ok m := by
  have hproper : longFragment.IsProper := by
    refine ⟨by decide, ?_, by decide, by decide⟩
    rintro _ ⟨⟩
    rfl
  refine ⟨hproper, fun h => ?_⟩
  have hreadable : longFragment.IsReadable := (exists_ofSource_assembled_iff (by decide)
    (List.forall_mem_singleton.mpr hproper)).mp h longFragment List.mem_cons_self
  have hline : Nat.pow 10 Text.maxDigits ≤ longFragment.line := by rw [longFragment]
  exact Nat.not_lt_of_le hreadable (Text.lt_length_ofNat (by decide) hline)

end Manifest

end ZigNif
