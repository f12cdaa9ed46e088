import ZigNif.Proofs.Import.Closure

/-!
# Proofs/Import/Again — a walk over other texts

A walk over imports depends on the texts that it reads, and reads files by paths without `..` only.
So it is the same on every shelf where what it has read can be read with the same text, and, if it
was stopped, where nothing else can be read either.
-/

namespace ZigNif.Import

open ZigNif.Path

variable {s s' : Shelf} {g : Ground} {file referrer dep : Text} {deps : List Text} {w : Walk}

/-! ## Paths that are read -/

/-- The name of an imported file has its `..` resolved. -/
theorem parentName_notMem_name (hg : g.IsAbsolute) :
    parentName ∉ (ofText (g.name referrer dep)).names := by
  have hclean := isClean_location (g := g) referrer dep
  have hparent := parentName_notMem_location hg referrer dep
  obtain ⟨rest, hrest, hname⟩ | ⟨-, hname⟩ := name_cases hg referrer dep
  · have hinside : (⟨.relative, rest⟩ : Path).IsClean := fun n hn =>
      hclean n (hrest ▸ List.mem_append_right _ hn)
    rw [hname, ofText_text hinside]
    exact fun hmem => hparent (hrest ▸ List.mem_append_right _ hmem)
  · rwa [hname, ofText_text hclean]

theorem parentName_notMem_readPath (hg : g.IsAbsolute)
    (hbase : parentName ∉ (ofText g.base).names) :
    parentName ∉ (ofText (g.readPath (g.name referrer dep))).names := by
  have hname : parentName ∉ (ofText (g.name referrer dep)).names := parentName_notMem_name hg
  rcases isInside_or_isOutside hg referrer dep with hin | hout
  · obtain ⟨front, hfront, hread⟩ := exists_readPath_eq_append g
    have hnames : (ofText (front ++ '/' :: g.name referrer dep)).names =
        (ofText (front ++ ['/'])).names ++ (ofText (g.name referrer dep)).names := by
      simp [ofText, Text.splitOn_append_cons, Text.splitOn]
    rw [hread _ hin, hnames, hfront]
    exact fun hmem => (List.mem_append.mp hmem).elim hbase hname
  · rwa [readPath_of_isOutside hout]

/-! ## The same walk -/

theorem walk_of_nil (hp : w.pending = []) : walk s g w = (w, none) := by
  rw [walk]
  split
  · rfl
  · rename_i hcons
    rw [hp] at hcons
    cases hcons

/-- A walk goes on with the next file that is pending. -/
theorem walk_of_cons {rest : List (Text × List Text)} (hp : w.pending = (referrer, deps) :: rest) :
    walk s g w = match readDeps s g referrer deps { w with pending := rest } with
      | (w', some failure) => (w', some failure)
      | (w', none) => walk s g w' := by
  rw [walk]
  split
  · rename_i hnil
    rw [hp] at hnil
    cases hnil
  · rename_i referrer' deps' rest' hcons
    rw [hp] at hcons
    obtain ⟨hpair, rfl⟩ := List.cons.inj hcons
    obtain ⟨rfl, rfl⟩ := Prod.mk.inj hpair
    split <;> rename_i heq <;> rw [heq]

section Walk

variable (hgroups : s'.groups = s.groups)
  (hok : ∀ referrer dep text, s.read (g.readPath (g.name referrer dep)) = .ok text →
    s'.read (g.readPath (g.name referrer dep)) = .ok text)

include hgroups hok

/-- The imports of one file are read as on the other shelf. -/
theorem readDeps_eq (herror : (readDeps s g referrer deps w).2 ≠ none → ∀ referrer dep,
      s'.read (g.readPath (g.name referrer dep)) = s.read (g.readPath (g.name referrer dep))) :
    readDeps s' g referrer deps w = readDeps s g referrer deps w := by
  induction deps generalizing w with
  | nil => rfl
  | cons dep deps ih =>
    rw [readDeps, readDeps] at *
    by_cases hdep : g.name referrer dep ∈ w.seen
    · simp only [hdep, if_true] at herror ⊢
      exact ih herror
    · simp only [hdep, if_false] at herror ⊢
      cases hread : s.read (g.readPath (g.name referrer dep)) with
      | error fault =>
        have hread' := herror (by rw [hread]; cases fault <;> simp) referrer dep
        rw [hread', hread]
        cases fault <;> rfl
      | ok text =>
        rw [hok referrer dep text hread]
        simp only [hread, hgroups] at herror ⊢
        split
        · rfl
        · rename_i parsed hparse
          simp only [hparse] at herror
          exact ih herror

/-- **A walk on another shelf is the same if the texts that it reads are.** -/
theorem walk_eq (herror : (walk s g w).2 ≠ none → ∀ referrer dep,
      s'.read (g.readPath (g.name referrer dep)) = s.read (g.readPath (g.name referrer dep))) :
    walk s' g w = walk s g w := by
  fun_induction walk s g w with
  | case1 w hp => exact walk_of_nil hp
  | case2 w referrer deps rest hp w' failure hr =>
    rw [walk_of_cons hp, readDeps_eq hgroups hok fun _ => herror (by simp), hr]
  | case3 w referrer deps rest hp w' hr ih =>
    rw [walk_of_cons hp, readDeps_eq hgroups hok fun hne => absurd (by rw [hr]) hne, hr]
    exact ih herror

end Walk

end ZigNif.Import
