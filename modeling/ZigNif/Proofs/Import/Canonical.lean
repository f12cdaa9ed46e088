import ZigNif.Proofs.Import.Location
import ZigNif.Proofs.Path.Lexical

/-!
# Proofs/Import/Canonical — one file, one name

An import means the location that its pieces lead to, behind those of the importing file's directory
and of the working directory.  The name of the file depends on this location alone and leads back to
it: it is the way down from the working directory if the file lies below that, and the location
itself otherwise.  So two imports have one name exactly if they mean one location.
-/

namespace ZigNif.Import

open ZigNif.Path

/-- A text that starts with two slashes, which POSIX lets mean anything. -/
def IsDoubled (t : Text) : Prop := ['/', '/'] <+: t

instance : DecidablePred IsDoubled := fun t => inferInstanceAs (Decidable (['/', '/'] <+: t))

/-- What the pieces of a path stand behind: a directory, unless the path starts at the root. -/
def behind (directory : List Text) (t : Text) : List Text :=
  if t.head? = some '/' then [] else directory

/-- The pieces of the working directory, of the importing file's directory and of the import, as far
as they count. -/
def pieces (base referrer dep : Text) : List Text :=
  behind (behind (Text.splitOn '/' base) referrer ++ (Text.splitOn '/' referrer).dropLast) dep ++
    Text.splitOn '/' dep

/-- The import means the location. -/
def Means (base referrer dep : Text) (l : Location) : Prop := LeadsTo (pieces base referrer dep) l

/-- The text of a relative path that leads down by every one of its pieces. -/
def IsWayDown (t : Text) : Prop := t.head? ≠ some '/' ∧ ∀ n ∈ Text.splitOn '/' t, IsProperName n

variable {g : Ground} {base referrer dep t : Text} {l : Location}

/-! ## Pieces and paths -/

theorem root_ofText_of_relative (ht : t.head? ≠ some '/') : (ofText t).root = .relative := by
  cases t with
  | nil => rfl
  | cons c r =>
    have hc : c ≠ '/' := fun hc => ht (by rw [hc]; rfl)
    simp [ofText, hc, Root.ofSlashes]

theorem root_ofText_of_slash (ht : t.head? = some '/') (hdouble : ¬ IsDoubled t) :
    (ofText t).root = .slash := by
  obtain ⟨r, rfl⟩ := List.head?_eq_some_iff.mp ht
  cases r with
  | nil => rfl
  | cons c r =>
    have hc : c ≠ '/' := by
      rintro rfl
      exact hdouble ⟨r, rfl⟩
    simp [ofText, hc, Root.ofSlashes]

theorem root_directoryOf : (directoryOf t).root = (ofText t).root := rfl

/-- Joining a path puts its names behind those of the directory, or drops these. -/
theorem join_ofText {p q : Path} (hp : p.root = .slash) (hdouble : ¬ IsDoubled t)
    (hq : q.root = (ofText t).root) :
    p.join q = ⟨.slash, (if t.head? = some '/' then [] else p.names) ++ q.names⟩ := by
  by_cases ht : t.head? = some '/'
  · rw [root_ofText_of_slash ht hdouble] at hq
    obtain ⟨_, names⟩ := q
    obtain rfl := hq
    simp [join, ht]
  · rw [root_ofText_of_relative ht] at hq
    obtain ⟨_, names⟩ := p
    obtain rfl := hp
    simp [join, ht, hq]

/-- **An import is resolved to the location that it means.** -/
theorem location_eq (hg : g.IsAbsolute) (hbase : ¬ IsDoubled g.base)
    (hreferrer : ¬ IsDoubled referrer) (hdep : ¬ IsDoubled dep) :
    location (ofText g.base) referrer dep = ⟨.slash, walked (pieces g.base referrer dep)⟩ := by
  have hroot : (ofText g.base).root = .slash := root_ofText_of_slash hg hbase
  rw [location, join_ofText hroot hreferrer root_directoryOf, join_ofText rfl hdep rfl, normal]
  have hnames : (if dep.head? = some '/' then [] else
      (if referrer.head? = some '/' then [] else (ofText g.base).names) ++
        (directoryOf referrer).names) ++ (ofText dep).names =
      (pieces g.base referrer dep).filter fun n => n ≠ [] ∧ n ≠ ['.'] := by
    simp only [pieces, behind, List.filter_append, apply_ite (List.filter _), List.filter_nil]
    rfl
  simp only [hnames, walked]
  rfl

theorem slash_notMem_of_mem_behind {directory : List Text} (h : ∀ n ∈ directory, '/' ∉ n) :
    ∀ n ∈ behind directory t, '/' ∉ n := by
  intro n hn
  rw [behind] at hn
  split at hn
  · cases hn
  · exact h n hn

theorem slash_notMem_of_mem_pieces : ∀ n ∈ pieces base referrer dep, '/' ∉ n := by
  intro n hn
  rcases List.mem_append.mp hn with hn | hn
  · refine slash_notMem_of_mem_behind (fun n hn => ?_) n hn
    rcases List.mem_append.mp hn with hn | hn
    · exact slash_notMem_of_mem_behind (fun _ => Text.notMem_of_mem_splitOn) n hn
    · exact Text.notMem_of_mem_splitOn (List.dropLast_subset _ hn)
  · exact Text.notMem_of_mem_splitOn hn

theorem means_iff : Means base referrer dep l ↔ l = walked (pieces base referrer dep) :=
  leadsTo_iff slash_notMem_of_mem_pieces

/-! ## Names -/

/-- The name is the way down to the location, or the location itself. -/
theorem name_eq (hg : g.IsAbsolute) (hbase : ¬ IsDoubled g.base) (hreferrer : ¬ IsDoubled referrer)
    (hdep : ¬ IsDoubled dep) (hl : Means g.base referrer dep l) : g.name referrer dep =
      if walked (Text.splitOn '/' g.base) <+: l then
        (⟨.relative, l.drop (walked (Text.splitOn '/' g.base)).length⟩ : Path).text
      else (⟨.slash, l⟩ : Path).text := by
  have hplace : location (ofText g.base) referrer dep = ⟨.slash, l⟩ := by
    rw [location_eq hg hbase hreferrer hdep, ← means_iff.mp hl]
  have hroot : (ofText g.base).root = .slash := root_ofText_of_slash hg hbase
  have hhere : (ofText g.base).normal.names = walked (Text.splitOn '/' g.base) := by
    rw [normal, hroot]
    rfl
  obtain ⟨rest, hrest, hname⟩ | ⟨hnot, hname⟩ := name_cases hg referrer dep
  · have hbehind : l = walked (Text.splitOn '/' g.base) ++ rest := by rwa [hplace, hhere] at hrest
    rw [hname, hbehind, if_pos (List.prefix_append _ _), List.drop_left]
  · rw [hplace, hhere] at hnot
    rw [hname, hplace, if_neg hnot]

theorem isWayDown_text_iff (hl : ∀ n ∈ l, IsProperName n) :
    IsWayDown (⟨.relative, l⟩ : Path).text ↔ l ≠ [] := by
  have hclean : (⟨.relative, l⟩ : Path).IsClean := fun n hn => (hl n hn).1
  constructor
  · rintro ⟨-, hpieces⟩ rfl
    exact (hpieces ['.'] List.mem_cons_self).1.2.1 rfl
  · intro hne
    refine ⟨fun hhead => (head?_text_eq_slash_iff hclean).mp hhead rfl, ?_⟩
    have htext : (⟨.relative, l⟩ : Path).text = Text.joined ['/'] l := by
      obtain ⟨n, l, rfl⟩ := List.exists_cons_of_ne_nil hne
      rfl
    rwa [htext, Text.splitOn_joined hne fun n hn => (hl n hn).1.2.2]

theorem not_isWayDown_slash : ¬ IsWayDown (⟨.slash, l⟩ : Path).text := fun h => h.1 rfl

/-- The text of a path leads on from a directory by its names. -/
theorem leadsTo_text {directory : List Text} {p : Path} (hdirectory : ∀ n ∈ directory, '/' ∉ n)
    (hp : ∀ n ∈ p.names, IsProperName n) :
    LeadsTo (behind directory p.text ++ Text.splitOn '/' p.text)
      ((if p.root = .relative then walked directory else []) ++ p.names) := by
  have hclean : p.IsClean := fun n hn => (hp n hn).1
  have hslash : ∀ n ∈ behind directory p.text ++ Text.splitOn '/' p.text, '/' ∉ n :=
    List.forall_mem_append.mpr
      ⟨slash_notMem_of_mem_behind hdirectory, fun _ => Text.notMem_of_mem_splitOn⟩
  have hnames : (Text.splitOn '/' p.text).filter (fun n => n ≠ [] ∧ n ≠ ['.']) = p.names :=
    congrArg Path.names (ofText_text hclean)
  have hbehind : behind directory p.text = if p.root = .relative then directory else [] := by
    rw [behind, ← ite_not]
    simp only [head?_text_eq_slash_iff hclean, not_not]
  rw [leadsTo_iff hslash, walked_append, hnames,
    foldl_push_of_notMem fun hmem => (hp _ hmem).2 rfl, hbehind, apply_ite walked]
  rfl

/-- **The name leads back to the location**, seen from the working directory. -/
theorem leadsTo_name (hg : g.IsAbsolute) (hbase : ¬ IsDoubled g.base)
    (hreferrer : ¬ IsDoubled referrer) (hdep : ¬ IsDoubled dep) (hl : Means g.base referrer dep l) :
    LeadsTo (behind (Text.splitOn '/' g.base) (g.name referrer dep) ++
      Text.splitOn '/' (g.name referrer dep)) l := by
  have hbaseSlash : ∀ n ∈ Text.splitOn '/' g.base, '/' ∉ n := fun _ => Text.notMem_of_mem_splitOn
  rw [name_eq hg hbase hreferrer hdep hl]
  split
  · rename_i hunder
    obtain ⟨rest, rfl⟩ := hunder
    rw [List.drop_left]
    exact leadsTo_text hbaseSlash fun n hn => hl.2 n (List.mem_append_right _ hn)
  · exact leadsTo_text hbaseSlash hl.2

/-- **One location has one name.**

An import means one location.  Its name is the way down from the working directory exactly if the
location lies below that; it is a dot if the location is the working directory, and the location
itself if that lies elsewhere.  Seen from the working directory the name leads to the location, and
so two imports have one name exactly if they mean one location. -/
theorem name_canonical (hg : g.IsAbsolute) (hbase : ¬ IsDoubled g.base)
    (hreferrer : ¬ IsDoubled referrer) (hdep : ¬ IsDoubled dep) :
    ∃ here l, LeadsTo (Text.splitOn '/' g.base) here ∧ Means g.base referrer dep l ∧
      (IsWayDown (g.name referrer dep) ↔ ∃ rest, rest ≠ [] ∧ l = here ++ rest) ∧
      (l = here → g.name referrer dep = ['.']) ∧
      (¬ here <+: l → g.name referrer dep = '/' :: Text.joined ['/'] l) ∧
      LeadsTo (behind (Text.splitOn '/' g.base) (g.name referrer dep) ++
        Text.splitOn '/' (g.name referrer dep)) l ∧
      ∀ referrer' dep' l', ¬ IsDoubled referrer' → ¬ IsDoubled dep' →
        Means g.base referrer' dep' l' →
        (g.name referrer dep = g.name referrer' dep' ↔ l = l') := by
  have hbaseSlash : ∀ n ∈ Text.splitOn '/' g.base, '/' ∉ n := fun _ => Text.notMem_of_mem_splitOn
  have hl : Means g.base referrer dep (walked (pieces g.base referrer dep)) := means_iff.mpr rfl
  have hname := name_eq hg hbase hreferrer hdep hl
  refine ⟨_, _, (leadsTo_iff hbaseSlash).mpr rfl, hl, ?_, fun hhere => ?_, fun hnot => ?_,
    leadsTo_name hg hbase hreferrer hdep hl, fun referrer' dep' l' hreferrer' hdep' hl' => ?_⟩
  · rw [hname]
    split
    · rename_i hunder
      obtain ⟨rest, hrest⟩ := hunder
      have hproper : ∀ n ∈ rest, IsProperName n := fun n hn =>
        hl.2 n (hrest ▸ List.mem_append_right _ hn)
      rw [← hrest, List.drop_left, isWayDown_text_iff hproper]
      simp only [List.append_cancel_left_eq, exists_eq_right']
    · rename_i hnot
      refine iff_of_false not_isWayDown_slash ?_
      rintro ⟨rest, -, hrest⟩
      exact hnot ⟨rest, hrest.symm⟩
  · rw [hname, hhere, if_pos (List.prefix_refl _), List.drop_length]
    rfl
  · rw [hname, if_neg hnot]
    rfl
  · constructor
    · intro heq
      have hback := leadsTo_name hg hbase hreferrer hdep hl
      have hback' := leadsTo_name hg hbase hreferrer' hdep' hl'
      rw [← heq] at hback'
      exact hback.eq hback'
    · rintro rfl
      rw [hname, name_eq hg hbase hreferrer' hdep' hl']

/-- A working directory that is given by a roundabout path. -/
def roundabout : Ground where
  base := "/w//p/./x/.."
  here := { root := .slash }

theorem name_canonical_roundabout :
    (roundabout.IsAbsolute ∧ ¬ IsDoubled roundabout.base ∧ ¬ IsDoubled "a/../b/n.ex" ∧
        ¬ IsDoubled "..gen/x.zig" ∧ ¬ IsDoubled "/q/n.ex" ∧ ¬ IsDoubled "/w/p/b/..gen/x.zig") ∧
      IsWayDown (roundabout.name "a/../b/n.ex" "..gen/x.zig") ∧
      roundabout.name "a/../b/n.ex" "..gen/x.zig" = roundabout.name "/q/n.ex" "/w/p/b/..gen/x.zig" ∧
      roundabout.name "a/../b/n.ex" "..gen/x.zig" ≠ roundabout.name "/q/n.ex" "..gen/x.zig" ∧
      roundabout.name "/q/n.ex" "..gen/x.zig" = "/q/..gen/x.zig".toList := by
  have hg : roundabout.IsAbsolute := rfl
  have hbase : ¬ IsDoubled roundabout.base := by decide
  have hpath : ¬ IsDoubled "a/../b/n.ex" := by decide
  have hdep : ¬ IsDoubled "..gen/x.zig" := by decide
  have hpath' : ¬ IsDoubled "/q/n.ex" := by decide
  have hdep' : ¬ IsDoubled "/w/p/b/..gen/x.zig" := by decide
  have hhere : LeadsTo (Text.splitOn '/' roundabout.base) ["w", "p"] :=
    (leadsTo_iff fun _ => Text.notMem_of_mem_splitOn).mpr (by decide)
  have hinside : Means roundabout.base "a/../b/n.ex" "..gen/x.zig"
      ["w", "p", "b", "..gen", "x.zig"] := means_iff.mpr (by decide)
  have hagain : Means roundabout.base "/q/n.ex" "/w/p/b/..gen/x.zig"
      ["w", "p", "b", "..gen", "x.zig"] := means_iff.mpr (by decide)
  have houtside : Means roundabout.base "/q/n.ex" "..gen/x.zig" ["q", "..gen", "x.zig"] :=
    means_iff.mpr (by decide)
  obtain ⟨here, l, hleads, hmeans, hdown, -, -, -, hsame⟩ :=
    name_canonical hg hbase hpath hdep
  obtain rfl := hleads.eq hhere
  obtain rfl := hmeans.eq hinside
  obtain ⟨here, l, hleads, hmeans, -, -, hother, -, -⟩ := name_canonical hg hbase hpath' hdep
  obtain rfl := hleads.eq hhere
  obtain rfl := hmeans.eq houtside
  refine ⟨⟨hg, hbase, hpath, hdep, hpath', hdep'⟩, ?_, ?_, ?_, hother (by decide)⟩
  · exact hdown.mpr ⟨["b", "..gen", "x.zig"], by decide, rfl⟩
  · exact (hsame _ _ _ hpath' hdep' hagain).mpr rfl
  · exact fun h => absurd ((hsame _ _ _ hpath' hdep houtside).mp h) (by decide)

end ZigNif.Import
