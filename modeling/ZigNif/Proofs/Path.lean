import ZigNif.Path

/-!
# Proofs/Path — a path and its text determine each other

A name of a path is not empty, is not `.`, and holds no slash.  Every path that is read from a text
has such names, and joining paths and removing `..` keep them; the text of such a path reads back as
the path.  Under a root, removing `..` leaves none and changes nothing else.
-/

namespace ZigNif

namespace Text

/-! ## Splitting and joining -/

theorem splitOn_ne_nil (c : Char) (t : Text) : splitOn c t ≠ [] := by
  induction t with
  | nil => simp [splitOn]
  | cons d r _ =>
    rw [splitOn]
    split
    · simp
    · split <;> simp

theorem splitOn_cons_self (c : Char) (t : Text) : splitOn c (c :: t) = [] :: splitOn c t := by
  rw [splitOn, if_pos rfl]

/-- A separator starts a new piece, whatever the pieces before it are. -/
theorem splitOn_append_cons (c : Char) (s t : Text) :
    splitOn c (s ++ c :: t) = splitOn c s ++ splitOn c t := by
  induction s with
  | nil => simp [splitOn]
  | cons d s ih =>
    rw [List.cons_append, splitOn, splitOn]
    by_cases hd : d = c
    · rw [if_pos hd, if_pos hd, ih, List.cons_append]
    · rw [if_neg hd, if_neg hd, ih]
      obtain ⟨p, ps, hp⟩ := List.exists_cons_of_ne_nil (splitOn_ne_nil c s)
      simp only [hp, List.cons_append]

/-- Without separators, a text is one piece. -/
theorem splitOn_of_notMem {c : Char} {t : Text} (h : c ∉ t) : splitOn c t = [t] := by
  induction t with
  | nil => rfl
  | cons d r ih =>
    obtain ⟨hd, hr⟩ : c ≠ d ∧ c ∉ r := by simpa using h
    rw [splitOn, if_neg (Ne.symm hd), ih hr]

/-- No piece has a separator in it. -/
theorem notMem_of_mem_splitOn {c : Char} {t p : Text} (h : p ∈ splitOn c t) : c ∉ p := by
  induction t generalizing p with
  | nil =>
    obtain rfl : p = [] := by simpa [splitOn] using h
    simp
  | cons d r ih =>
    rw [splitOn] at h
    by_cases hd : d = c
    · rw [if_pos hd] at h
      rcases List.mem_cons.mp h with rfl | h
      · simp
      · exact ih h
    · rw [if_neg hd] at h
      obtain ⟨q, qs, hq⟩ := List.exists_cons_of_ne_nil (splitOn_ne_nil c r)
      simp only [hq] at h
      rcases List.mem_cons.mp h with rfl | h
      · have hcq : c ∉ q := ih (by simp [hq])
        simp [hcq, Ne.symm hd]
      · exact ih (by simp [hq, h])

/-- Splitting loses separators only. -/
theorem mem_iff_exists_mem_splitOn {c d : Char} {t : Text} (h : d ≠ c) :
    d ∈ t ↔ ∃ p ∈ splitOn c t, d ∈ p := by
  induction t with
  | nil => simp [splitOn]
  | cons b r ih =>
    rw [splitOn, List.mem_cons, ih]
    split
    · rename_i hb
      simp [hb, h]
    · obtain ⟨p, ps, hp⟩ := List.exists_cons_of_ne_nil (splitOn_ne_nil c r)
      simp [hp, or_assoc]

/-- But for separators, what is in a joined text is in one of its parts. -/
theorem mem_joined_iff {c d : Char} {ts : List Text} (h : d ≠ c) :
    d ∈ joined [c] ts ↔ ∃ t ∈ ts, d ∈ t := by
  match ts with
  | [] => simp [joined]
  | [t] => simp [joined]
  | t :: u :: ts =>
    have ih : d ∈ joined [c] (u :: ts) ↔ ∃ t ∈ u :: ts, d ∈ t := mem_joined_iff h
    have hjoined : joined [c] (t :: u :: ts) = t ++ [c] ++ joined [c] (u :: ts) := rfl
    rw [hjoined, List.mem_append, ih, List.mem_append, List.mem_singleton, or_iff_left h]
    simp

/-- **Splitting undoes joining** — pieces without the separator come back as they were. -/
theorem splitOn_joined {c : Char} :
    ∀ {ts : List Text}, ts ≠ [] → (∀ t ∈ ts, c ∉ t) → splitOn c (joined [c] ts) = ts
  | [], h, _ => absurd rfl h
  | [t], _, h => splitOn_of_notMem (h t (by simp))
  | t :: u :: ts, _, h => by
    have ih : splitOn c (joined [c] (u :: ts)) = u :: ts :=
      splitOn_joined (List.cons_ne_nil u ts) fun v hv => h v (List.mem_cons_of_mem _ hv)
    rw [joined, List.append_assoc, List.singleton_append, splitOn_append_cons,
      splitOn_of_notMem (h t (by simp)), ih, List.singleton_append]
    simp

end Text

namespace Path

/-! ## Names -/

/-- The name that leads back to the directory above. -/
abbrev parentName : Text := ['.', '.']

/-- A text that can be the name of a file or directory, or leads to the directory above. -/
def IsName (n : Text) : Prop := n ≠ [] ∧ n ≠ ['.'] ∧ '/' ∉ n

/-- All names of the path are names. -/
def IsClean (p : Path) : Prop := ∀ n ∈ p.names, IsName n

theorem isName_of_mem_splitOn {t n : Text}
    (h : n ∈ (Text.splitOn '/' t).filter fun n => n ≠ [] ∧ n ≠ ['.']) : IsName n := by
  obtain ⟨hmem, hne⟩ := List.mem_filter.mp h
  obtain ⟨hnil, hdot⟩ := of_decide_eq_true hne
  exact ⟨hnil, hdot, Text.notMem_of_mem_splitOn hmem⟩

/-- **Paths that are read from a text have names for names.** -/
theorem isClean_ofText (t : Text) : (ofText t).IsClean := fun _ h => isName_of_mem_splitOn h

theorem isClean_directoryOf (t : Text) : (directoryOf t).IsClean := fun n h => by
  obtain ⟨hmem, hne⟩ := List.mem_filter.mp h
  exact isName_of_mem_splitOn (List.mem_filter.mpr ⟨List.dropLast_subset _ hmem, hne⟩)

theorem isClean_parent {p : Path} (hp : p.IsClean) : p.parent.IsClean := fun n hn =>
  hp n (List.dropLast_subset _ hn)

/-- Clean paths are joined to a clean path. -/
theorem isClean_join {p q : Path} (hp : p.IsClean) (hq : q.IsClean) : (p.join q).IsClean := by
  intro n hn
  rw [join] at hn
  split at hn
  · rcases List.mem_append.mp hn with h | h
    · exact hp n h
    · exact hq n h
  · exact hq n hn

/-! ## The text of a path reads back -/

theorem slash_toList : ("/" : String).toList = ['/'] := rfl

theorem takeWhile_slash_joined {names : List Text} (h : ∀ n ∈ names, IsName n) :
    (Text.joined ['/'] names).takeWhile (· = '/') = [] := by
  match names with
  | [] => rfl
  | n :: ns =>
    obtain ⟨hne, -, hslash⟩ := h n (by simp)
    obtain ⟨c, r, rfl⟩ := List.exists_cons_of_ne_nil hne
    have hc : ¬ c = '/' := fun e => hslash (by simp [e])
    cases ns <;> simp [Text.joined, hc]

/-- Names that are joined by slashes are found between them again. -/
theorem filter_splitOn_joined {names : List Text} (h : ∀ n ∈ names, IsName n) :
    (Text.splitOn '/' (Text.joined ['/'] names)).filter (fun n => n ≠ [] ∧ n ≠ ['.'])
      = names := by
  by_cases hn : names = []
  · subst hn; rfl
  · rw [Text.splitOn_joined hn fun n hmem => (h n hmem).2.2]
    exact List.filter_eq_self.mpr fun n hmem =>
      decide_eq_true ⟨(h n hmem).1, (h n hmem).2.1⟩

/-- **The text of a path reads back as the path.** -/
theorem ofText_text {p : Path} (h : p.IsClean) : ofText p.text = p := by
  obtain ⟨root, names⟩ := p
  have hrun := takeWhile_slash_joined h
  have hnames := filter_splitOn_joined h
  cases root with
  | relative =>
    cases names with
    | nil => rfl
    | cons n ns =>
      have htext : (⟨.relative, n :: ns⟩ : Path).text = Text.joined ['/'] (n :: ns) := rfl
      rw [htext, ofText, hrun, hnames]
      rfl
  | slash =>
    have htext : (⟨.slash, names⟩ : Path).text = '/' :: Text.joined ['/'] names := rfl
    rw [htext, ofText, Text.splitOn_cons_self, List.filter_cons_of_neg (by simp), hnames,
      List.takeWhile_cons_of_pos (by simp), hrun]
    rfl
  | doubleSlash =>
    have htext : (⟨.doubleSlash, names⟩ : Path).text = '/' :: '/' :: Text.joined ['/'] names := rfl
    rw [htext, ofText, Text.splitOn_cons_self, Text.splitOn_cons_self,
      List.filter_cons_of_neg (by simp), List.filter_cons_of_neg (by simp), hnames,
      List.takeWhile_cons_of_pos (by simp), List.takeWhile_cons_of_pos (by simp), hrun]
    rfl

theorem ofText_name {n : Text} (hn : IsName n) : ofText n = ⟨.relative, [n]⟩ := by
  have hclean : (⟨.relative, [n]⟩ : Path).IsClean := fun n' hn' => List.mem_singleton.mp hn' ▸ hn
  have htext : (⟨.relative, [n]⟩ : Path).text = n := by simp [text, Root.text, Text.joined]
  rw [← htext, ofText_text hclean, htext]

/-- Put behind its directory, the last name of a path gives the path. -/
theorem join_parent {p : Path} (hp : p.IsClean) : p.parent.join (.ofText p.name) = p := by
  obtain ⟨root, names⟩ := p
  rcases List.eq_nil_or_concat names with rfl | ⟨front, last, rfl⟩
  · rfl
  · have hlast : IsName last := hp last (by simp)
    have hname : (⟨root, front.concat last⟩ : Path).name = last := by simp [name]
    rw [hname, ofText_name hlast]
    simp [join, parent]

theorem prefix_joined_concat {sep n : Text} {names : List Text} :
    Text.joined sep names <+: Text.joined sep (names ++ [n]) := by
  match names with
  | [] => exact List.nil_prefix
  | [m] =>
    have hjoined : Text.joined sep [m, n] = m ++ sep ++ n := rfl
    exact ⟨sep ++ n, by rw [List.singleton_append, hjoined, List.append_assoc]; rfl⟩
  | m :: k :: names =>
    have hjoined : Text.joined sep (m :: k :: names ++ [n]) =
        m ++ sep ++ Text.joined sep (k :: names ++ [n]) := rfl
    rw [hjoined]
    exact (List.prefix_append_right_inj _).mpr prefix_joined_concat

/-- The text of the directory of a path starts that of the path, or is that of the empty path. -/
theorem text_parent (p : Path) : p.parent.text = ['.'] ∨ p.parent.text <+: p.text := by
  obtain ⟨root, names⟩ := p
  obtain rfl | ⟨front, n, rfl⟩ := List.eq_nil_or_concat names
  · exact .inr (List.prefix_refl _)
  · rw [List.concat_eq_append, parent, List.dropLast_concat]
    have htext : ∀ root : Root, root.text ++ Text.joined ['/'] front <+:
        root.text ++ Text.joined ['/'] (front ++ [n]) := fun root =>
      (List.prefix_append_right_inj _).mpr prefix_joined_concat
    cases root with
    | relative =>
      cases front with
      | nil => exact .inl rfl
      | cons m front => exact .inr (htext .relative)
    | slash => exact .inr (htext .slash)
    | doubleSlash => exact .inr (htext .doubleSlash)

/-- Reading a path from a text loses no character but slashes and dots. -/
theorem mem_text_ofText_iff {c : Char} {t : Text} (hslash : c ≠ '/') (hdot : c ≠ '.') :
    c ∈ (ofText t).text ↔ c ∈ t := by
  have hnames : (∃ n ∈ (ofText t).names, c ∈ n) ↔ c ∈ t := by
    rw [Text.mem_iff_exists_mem_splitOn hslash]
    constructor
    · rintro ⟨n, hn, hc⟩
      exact ⟨n, (List.mem_filter.mp hn).1, hc⟩
    · rintro ⟨n, hn, hc⟩
      refine ⟨n, List.mem_filter.mpr ⟨hn, ?_⟩, hc⟩
      have hne : n ≠ [] ∧ n ≠ ['.'] := by
        refine ⟨List.ne_nil_of_mem hc, ?_⟩
        rintro rfl
        exact hdot (List.mem_singleton.mp hc)
      exact decide_eq_true hne
  rw [← hnames]
  generalize ofText t = p
  obtain ⟨root, names⟩ := p
  have hjoined : c ∈ Text.joined ['/'] names ↔ ∃ n ∈ names, c ∈ n := Text.mem_joined_iff hslash
  cases root with
  | relative =>
    cases names with
    | nil => simpa [text] using hdot
    | cons n ns => exact hjoined
  | slash =>
    have htext : (⟨.slash, names⟩ : Path).text = '/' :: Text.joined ['/'] names := rfl
    simp only [htext, List.mem_cons, hslash, false_or, hjoined]
  | doubleSlash =>
    have htext : (⟨.doubleSlash, names⟩ : Path).text = '/' :: '/' :: Text.joined ['/'] names := rfl
    simp only [htext, List.mem_cons, hslash, false_or, hjoined]

/-- A text with a character that is neither slash nor dot names something. -/
theorem names_ofText_ne_nil {c : Char} {t : Text} (hslash : c ≠ '/') (hdot : c ≠ '.')
    (hc : c ∈ t) : (ofText t).names ≠ [] := by
  intro hnames
  have htext := (mem_text_ofText_iff hslash hdot).mpr hc
  rw [text, hnames] at htext
  cases hroot : (ofText t).root with
  | relative => simp [hroot, hdot] at htext
  | slash => simp [hroot, Root.text, Text.joined, hslash] at htext
  | doubleSlash => simp [hroot, Root.text, Text.joined, hslash] at htext

/-- Only the text of a relative path starts with something else than a slash. -/
theorem head?_text_eq_slash_iff {p : Path} (h : p.IsClean) :
    p.text.head? = some '/' ↔ p.root ≠ .relative := by
  obtain ⟨root, names⟩ := p
  cases root with
  | relative =>
    cases names with
    | nil => simp [text]
    | cons n ns =>
      have hrun := takeWhile_slash_joined h
      have htext : (⟨.relative, n :: ns⟩ : Path).text = Text.joined ['/'] (n :: ns) := rfl
      simp only [htext, ne_eq, not_true_eq_false, iff_false]
      intro hhead
      obtain ⟨r, hr⟩ := List.head?_eq_some_iff.mp hhead
      rw [hr] at hrun
      simp at hrun
  | slash => simp [text, Root.text]
  | doubleSlash => simp [text, Root.text]

/-! ## Removing `..` -/

/-- A name that is no `..` is added at the end. -/
theorem push_of_ne {isRooted : Bool} {names : List Text} {n : Text} (h : n ≠ parentName) :
    push isRooted names n = names ++ [n] := by
  rw [push, if_pos h]

theorem mem_of_mem_push {isRooted : Bool} {names : List Text} {m n : Text}
    (h : m ∈ push isRooted names n) : m ∈ names ∨ m = n := by
  unfold push at h
  split at h
  · simpa using h
  · split at h
    · split at h <;> simp_all
    · split at h
      · simpa using h
      · exact Or.inl (List.dropLast_subset _ h)

theorem mem_of_mem_foldl_push {isRooted : Bool} {ns names : List Text} {m : Text}
    (h : m ∈ ns.foldl (push isRooted) names) : m ∈ names ∨ m ∈ ns := by
  induction ns generalizing names with
  | nil => exact Or.inl h
  | cons n ns ih =>
    rcases ih h with h | h
    · rcases mem_of_mem_push h with h | rfl
      · exact Or.inl h
      · exact Or.inr (by simp)
    · exact Or.inr (List.mem_cons_of_mem _ h)

/-- Without `..`, names are added one after the other. -/
theorem foldl_push_of_notMem {isRooted : Bool} {ns : List Text} (h : parentName ∉ ns)
    (names : List Text) : ns.foldl (push isRooted) names = names ++ ns := by
  induction ns generalizing names with
  | nil => simp
  | cons n ns ih =>
    obtain ⟨hn, hns⟩ : parentName ≠ n ∧ parentName ∉ ns := by simpa using h
    rw [List.foldl_cons, push_of_ne (Ne.symm hn), ih hns, List.append_assoc, List.singleton_append]

theorem isClean_normal {p : Path} (h : p.IsClean) : p.normal.IsClean := fun n hn => by
  rcases mem_of_mem_foldl_push hn with hn | hn
  · simp at hn
  · exact h n hn

/-- **A path under a root loses every `..`** — there is always a name to take back, or the root. -/
theorem parentName_notMem_normal {p : Path} (h : p.root ≠ .relative) :
    parentName ∉ p.normal.names := by
  have hstep : ∀ (ns names : List Text), parentName ∉ names →
      parentName ∉ ns.foldl (push true) names := by
    intro ns
    induction ns with
    | nil => exact fun _ h => h
    | cons n ns ih =>
      intro names hnames
      refine ih _ fun hmem => ?_
      by_cases hn : n = parentName
      · subst hn
        have hpush : push true names parentName = names.dropLast := by
          rw [push, if_neg fun h => h rfl]
          cases hlast : names.getLast? with
          | none => simp [List.getLast?_eq_none_iff.mp hlast]
          | some last =>
            have hne : ¬ last = parentName := fun e =>
              hnames (e ▸ List.mem_of_getLast? hlast)
            simp [hne]
        rw [hpush] at hmem
        exact hnames (List.dropLast_subset _ hmem)
      · rw [push_of_ne hn] at hmem
        rcases List.mem_append.mp hmem with h | h
        · exact hnames h
        · exact hn (List.mem_singleton.mp h).symm
  simpa [normal, h] using hstep p.names [] (by simp)

/-- A path without `..` is normal already. -/
theorem normal_of_notMem {p : Path} (h : parentName ∉ p.names) : p.normal = p := by
  simp only [normal, foldl_push_of_notMem h, List.nil_append]

end Path

end ZigNif
