import Mathlib.Data.List.Nodup
import Mathlib.Order.Bounds.Basic
import ZigNif.Proofs.Import.Location
import ZigNif.Proofs.Source.Depth

/-!
# Proofs/Import/Closure — the walk finds the least set of files closed under imports

`readDeps` looks at the imports of one file: it takes the new files among them in order, up to the
first that cannot be read or parsed.  `Looked` says all that this does to a walk; the invariant of
the walk, `Walk.Running`, is then kept file by file and gives the result when nothing is pending.

Two invariants, because a walk may stop: `Walk.Sound` holds of every walk, `Walk.Running` only while
every file taken so far could be read and parsed.
-/

namespace ZigNif.Import

variable {s : Shelf} {g : Ground} {root : Text × List Text}

/-! ## The set of imported files -/

/-- The file of that name can be read and parsed, and imports `deps`. -/
def HasImports (s : Shelf) (g : Ground) (name : Text) (deps : List Text) : Prop :=
  ∃ text parsed, s.read (g.readPath name) = .ok text ∧ ¬ Source.Overflows s.groups text ∧
    Source.parse text = .ok parsed ∧ deps = parsed.dependencies

/-- A set of names that holds the imports of the root, a file with its imports, and the imports of
every file whose name it holds. -/
def IsClosed (s : Shelf) (g : Ground) (root : Text × List Text) (S : Set Text) : Prop :=
  (∀ dep ∈ root.2, g.name root.1 dep ∈ S) ∧
    ∀ name ∈ S, ∀ deps, HasImports s g name deps → ∀ dep ∈ deps, g.name name dep ∈ S

theorem HasImports.unique {name : Text} {deps deps' : List Text} (h : HasImports s g name deps)
    (h' : HasImports s g name deps') : deps = deps' := by
  obtain ⟨text, parsed, hread, -, hparse, rfl⟩ := h
  obtain ⟨text', parsed', hread', -, hparse', rfl⟩ := h'
  obtain rfl : text = text' := Except.ok.inj (hread.symm.trans hread')
  obtain rfl : parsed = parsed' := Except.ok.inj (hparse.symm.trans hparse')
  rfl

theorem HasImports.mem_keys {name : Text} {deps : List Text} (h : HasImports s g name deps) :
    g.readPath name ∈ s.files.keys := by
  obtain ⟨text, _, hread, -, -⟩ := h
  rw [Shelf.read] at hread
  split at hread
  · rename_i hget
    exact Table.mem_keys_of_get? hget
  · cases hread

/-! ## Looking at the imports of one file -/

/-- What looking at the imports of a file does: the files in `new` are taken, with their imports,
and then the walk stops at the file `bad` if there is one. -/
structure Looked (s : Shelf) (g : Ground) (referrer : Text) (deps : List Text) (w w' : Walk)
    (new : List (Text × List Text)) (bad : Option Text) : Prop where
  seen : w'.seen = bad.toList ++ (new.map Prod.fst).reverse ++ w.seen
  reads : w'.reads = w.reads ++ (new.map Prod.fst ++ bad.toList).map g.readPath
  pending : w'.pending = new.reverse ++ w.pending
  nodup : w.seen.Nodup → w'.seen.Nodup
  hasImports : ∀ e ∈ new, HasImports s g e.1 e.2
  isImport : ∀ n ∈ new.map Prod.fst ++ bad.toList, ∃ dep ∈ deps, n = g.name referrer dep
  mem_seen : bad = none → ∀ dep ∈ deps, g.name referrer dep ∈ w'.seen

theorem Looked.skip {referrer dep : Text} {deps : List Text} {w w' : Walk}
    {new : List (Text × List Text)} {bad : Option Text} (h : Looked s g referrer deps w w' new bad)
    (hdep : g.name referrer dep ∈ w.seen) : Looked s g referrer (dep :: deps) w w' new bad where
  seen := h.seen
  reads := h.reads
  pending := h.pending
  nodup := h.nodup
  hasImports := h.hasImports
  isImport n hn := by
    obtain ⟨d, hd, rfl⟩ := h.isImport n hn
    exact ⟨d, List.mem_cons_of_mem _ hd, rfl⟩
  mem_seen hbad d hd := by
    rcases List.mem_cons.mp hd with rfl | hd
    · rw [h.seen]
      exact List.mem_append_right _ hdep
    · exact h.mem_seen hbad d hd

/-- A new file is put in front of those that the remaining imports bring. -/
theorem Looked.take {referrer dep : Text} {deps imports : List Text} {w w₁ w' : Walk}
    {new : List (Text × List Text)} {bad : Option Text}
    (h : Looked s g referrer deps w₁ w' new bad) (hdep : g.name referrer dep ∉ w.seen)
    (himports : HasImports s g (g.name referrer dep) imports)
    (hseen : w₁.seen = g.name referrer dep :: w.seen)
    (hreads : w₁.reads = w.reads ++ [g.readPath (g.name referrer dep)])
    (hpending : w₁.pending = (g.name referrer dep, imports) :: w.pending) :
    Looked s g referrer (dep :: deps) w w' ((g.name referrer dep, imports) :: new) bad where
  seen := by simp [h.seen, hseen]
  reads := by simp [h.reads, hreads]
  pending := by simp [h.pending, hpending]
  nodup hw := h.nodup (hseen ▸ List.nodup_cons.mpr ⟨hdep, hw⟩)
  hasImports e he := by
    rcases List.mem_cons.mp he with rfl | he
    · exact himports
    · exact h.hasImports e he
  isImport n hn := by
    rcases List.mem_cons.mp hn with rfl | hn
    · exact ⟨dep, List.mem_cons_self, rfl⟩
    · obtain ⟨d, hd, rfl⟩ := h.isImport n hn
      exact ⟨d, List.mem_cons_of_mem _ hd, rfl⟩
  mem_seen hbad d hd := by
    rcases List.mem_cons.mp hd with rfl | hd
    · simp [h.seen, hseen]
    · exact h.mem_seen hbad d hd

/-- A new file that cannot be read or parsed ends the walk. -/
theorem Looked.stop {referrer dep : Text} {deps : List Text} {w w' : Walk}
    (hdep : g.name referrer dep ∉ w.seen) (hseen : w'.seen = g.name referrer dep :: w.seen)
    (hreads : w'.reads = w.reads ++ [g.readPath (g.name referrer dep)])
    (hpending : w'.pending = w.pending) :
    Looked s g referrer (dep :: deps) w w' [] (some (g.name referrer dep)) where
  seen := by simp [hseen]
  reads := by simp [hreads]
  pending := by simp [hpending]
  nodup hw := hseen ▸ List.nodup_cons.mpr ⟨hdep, hw⟩
  hasImports := by simp
  isImport n hn := ⟨dep, List.mem_cons_self, by simpa using hn⟩
  mem_seen := nofun

theorem exists_looked (referrer : Text) (deps : List Text) (w : Walk) :
    ∃ new bad, Looked s g referrer deps w (readDeps s g referrer deps w).1 new bad ∧
      ((readDeps s g referrer deps w).2 = none ↔ bad = none) := by
  induction deps generalizing w with
  | nil => exact ⟨[], none, by constructor <;> simp [readDeps], by simp [readDeps]⟩
  | cons dep deps ih =>
    rw [readDeps]
    by_cases hdep : g.name referrer dep ∈ w.seen
    · obtain ⟨new, bad, h, hbad⟩ := ih w
      simp only [hdep, if_true]
      exact ⟨new, bad, h.skip hdep, hbad⟩
    · simp only [hdep, if_false]
      split
      · exact ⟨[], _, .stop hdep rfl rfl rfl, by simp⟩
      · exact ⟨[], _, .stop hdep rfl rfl rfl, by simp⟩
      · rename_i text hread
        split
        · exact ⟨[], _, .stop hdep rfl rfl rfl, by simp⟩
        · rename_i parsed hparse
          obtain ⟨new, bad, h, hbad⟩ := ih _
          obtain ⟨hshallow, hparse⟩ := Source.parse_of_parseFileWithin hparse
          exact ⟨_, bad, h.take hdep ⟨text, parsed, hread, hshallow, hparse, rfl⟩ rfl rfl rfl, hbad⟩

theorem exists_looked_of_none {referrer : Text} {deps : List Text} {w w' : Walk}
    (hr : readDeps s g referrer deps w = (w', none)) :
    ∃ new, Looked s g referrer deps w w' new none := by
  obtain ⟨new, bad, hlooked, hbad⟩ := exists_looked (s := s) (g := g) referrer deps w
  rw [hr] at hlooked hbad
  obtain rfl : bad = none := hbad.mp rfl
  exact ⟨new, hlooked⟩

/-! ## What holds of every walk -/

/-- A file whose imports the walk has to look at: the root, or a file that was taken. -/
def IsSource (s : Shelf) (g : Ground) (root : Text × List Text) (w : Walk)
    (e : Text × List Text) : Prop :=
  e = root ∨ e.1 ∈ w.seen ∧ HasImports s g e.1 e.2

/-- What holds of a walk from `root` even after it has stopped: no file is taken or read twice, each
is in every closed set, and all but perhaps the last can be read and parsed. -/
structure Walk.Sound (s : Shelf) (g : Ground) (root : Text × List Text) (w : Walk) : Prop where
  nodup : w.seen.Nodup
  reads : w.reads = w.seen.reverse.map g.readPath
  isFileName : ∀ n ∈ w.seen, g.IsFileName n
  hasImports_tail : ∀ n ∈ w.seen.tail, ∃ deps, HasImports s g n deps
  mem_closed : ∀ S, IsClosed s g root S → ∀ n ∈ w.seen, n ∈ S

/-- What holds of a walk that goes on: all files taken can be read and parsed, and of each of them
either the imports are still to be looked at or they have been taken too. -/
structure Walk.Running (s : Shelf) (g : Ground) (root : Text × List Text) (w : Walk) : Prop
    extends Walk.Sound s g root w where
  hasImports : ∀ n ∈ w.seen, ∃ deps, HasImports s g n deps
  pending : ∀ e ∈ w.pending, IsSource s g root w e
  explored : ∀ e, IsSource s g root w e →
    e ∈ w.pending ∨ ∀ dep ∈ e.2, g.name e.1 dep ∈ w.seen

section Step

variable {w w' : Walk} {e : Text × List Text} {rest new : List (Text × List Text)}
  {bad : Option Text}

theorem IsSource.name_mem_closed (he : IsSource s g root w e) (hw : w.Sound s g root) {S : Set Text}
    (hS : IsClosed s g root S) {dep : Text} (hdep : dep ∈ e.2) : g.name e.1 dep ∈ S := by
  rcases he with rfl | ⟨hmem, himports⟩
  · exact hS.1 dep hdep
  · exact hS.2 e.1 (hw.mem_closed S hS e.1 hmem) e.2 himports dep hdep

/-- **A stopped or unstopped look keeps what holds of every walk.** -/
theorem Walk.Running.sound_of_looked (hw : w.Running s g root) (hp : w.pending = e :: rest)
    (h : Looked s g e.1 e.2 { w with pending := rest } w' new bad) : w'.Sound s g root := by
  have he : IsSource s g root w e := hw.pending e (by simp [hp])
  have hnew : ∀ n ∈ new.map Prod.fst, ∃ deps, HasImports s g n deps := fun n hn => by
    obtain ⟨f, hf, rfl⟩ := List.mem_map.mp hn
    exact ⟨f.2, h.hasImports f hf⟩
  refine ⟨h.nodup hw.nodup, ?_, fun n hn => ?_, fun n hn => ?_, fun S hS n hn => ?_⟩
  · rw [h.reads, h.seen, hw.reads]
    cases bad <;> simp
  · rw [h.seen, List.append_assoc] at hn
    rcases List.mem_append.mp hn with hn | hn
    · obtain ⟨dep, -, rfl⟩ := h.isImport n (List.mem_append_right _ hn)
      exact ⟨_, _, rfl⟩
    · rcases List.mem_append.mp hn with hn | hn
      · obtain ⟨dep, -, rfl⟩ := h.isImport n (List.mem_append_left _ (List.mem_reverse.mp hn))
        exact ⟨_, _, rfl⟩
      · exact hw.isFileName n hn
  · have hmem : n ∈ (new.map Prod.fst).reverse ++ w.seen := by
      rw [h.seen, List.append_assoc] at hn
      cases bad with
      | none => exact List.mem_of_mem_tail hn
      | some b => exact hn
    rcases List.mem_append.mp hmem with hn | hn
    · exact hnew n (List.mem_reverse.mp hn)
    · exact hw.hasImports n hn
  · have hin : ∀ n ∈ new.map Prod.fst ++ bad.toList, n ∈ S := fun n hn => by
      obtain ⟨dep, hdep, rfl⟩ := h.isImport n hn
      exact he.name_mem_closed hw.toSound hS hdep
    rw [h.seen, List.append_assoc] at hn
    rcases List.mem_append.mp hn with hn | hn
    · exact hin n (List.mem_append_right _ hn)
    · rcases List.mem_append.mp hn with hn | hn
      · exact hin n (List.mem_append_left _ (List.mem_reverse.mp hn))
      · exact hw.mem_closed S hS n hn

/-- **A look that is not stopped keeps the invariant of the walk.** -/
theorem Walk.Running.running_of_looked (hw : w.Running s g root) (hp : w.pending = e :: rest)
    (h : Looked s g e.1 e.2 { w with pending := rest } w' new none) : w'.Running s g root := by
  have hseen : w'.seen = (new.map Prod.fst).reverse ++ w.seen := h.seen
  have hpending : w'.pending = new.reverse ++ rest := h.pending
  have hsub : ∀ n ∈ w.seen, n ∈ w'.seen := fun n hn => hseen ▸ List.mem_append_right _ hn
  have hlift : ∀ f, IsSource s g root w f → IsSource s g root w' f := fun f hf =>
    hf.imp_right fun ⟨hmem, himports⟩ => ⟨hsub _ hmem, himports⟩
  refine ⟨hw.sound_of_looked hp h, fun n hn => ?_, fun f hf => ?_, fun f hf => ?_⟩
  · rcases List.mem_append.mp (hseen ▸ hn) with hn | hn
    · obtain ⟨f, hf, rfl⟩ := List.mem_map.mp (List.mem_reverse.mp hn)
      exact ⟨f.2, h.hasImports f hf⟩
    · exact hw.hasImports n hn
  · rcases List.mem_append.mp (hpending ▸ hf) with hf | hf
    · have hfst : f.1 ∈ w'.seen := by
        rw [hseen]
        exact List.mem_append_left _
          (List.mem_reverse.mpr (List.mem_map_of_mem (List.mem_reverse.mp hf)))
      exact Or.inr ⟨hfst, h.hasImports f (List.mem_reverse.mp hf)⟩
    · exact hlift f (hw.pending f (by simp [hp, hf]))
  · -- a source is new, or it was one before
    have hcases : f ∈ new ∨ IsSource s g root w f := by
      rcases hf with rfl | ⟨hmem, himports⟩
      · exact Or.inr (Or.inl rfl)
      · rcases List.mem_append.mp (hseen ▸ hmem) with hmem | hmem
        · obtain ⟨f', hf', hfst⟩ := List.mem_map.mp (List.mem_reverse.mp hmem)
          have hsnd : f'.2 = f.2 := (h.hasImports f' hf').unique (hfst ▸ himports)
          exact Or.inl (Prod.ext hfst hsnd ▸ hf')
        · exact Or.inr (Or.inr ⟨hmem, himports⟩)
    rcases hcases with hnew | hold
    · exact Or.inl (hpending ▸ List.mem_append_left _ (List.mem_reverse.mpr hnew))
    · rcases hw.explored f hold with hmem | hall
      · rcases List.mem_cons.mp (hp ▸ hmem) with rfl | hmem
        · exact Or.inr (h.mem_seen rfl)
        · exact Or.inl (hpending ▸ List.mem_append_right _ hmem)
      · exact Or.inr fun dep hdep => hsub _ (hall dep hdep)

end Step

/-- **What a whole walk keeps.** -/
theorem Walk.Running.walk {w : Walk} (hw : w.Running s g root) :
    (walk s g w).1.Sound s g root ∧
      ((walk s g w).2 = none → (walk s g w).1.Running s g root ∧ (walk s g w).1.pending = []) := by
  fun_induction Import.walk s g w with
  | case1 w hp => exact ⟨hw.toSound, fun _ => ⟨hw, hp⟩⟩
  | case2 w referrer deps rest hp w' failure hr =>
    obtain ⟨new, bad, hlooked, -⟩ :=
      exists_looked (s := s) (g := g) referrer deps { w with pending := rest }
    rw [hr] at hlooked
    exact ⟨hw.sound_of_looked hp hlooked, nofun⟩
  | case3 w referrer deps rest hp w' hr ih =>
    obtain ⟨new, hlooked⟩ := exists_looked_of_none hr
    exact ih (hw.running_of_looked hp hlooked)

theorem running_start (root : Text × List Text) :
    ({ pending := [root] } : Walk).Running s g root where
  nodup := List.nodup_nil
  reads := rfl
  isFileName := nofun
  hasImports_tail := nofun
  mem_closed := nofun
  hasImports := nofun
  pending e he := Or.inl (List.mem_singleton.mp he)
  explored e he := by
    rcases he with rfl | ⟨hmem, -⟩
    · exact Or.inl List.mem_cons_self
    · cases hmem

/-! ## The imported files -/

/-- A file that was taken is read by a path that no other file taken is read by. -/
theorem Walk.Sound.nodup_reads {w : Walk} (hw : w.Sound s g root) (hg : g.IsAbsolute) :
    w.reads.Nodup := by
  rw [hw.reads]
  refine List.Nodup.map_on (fun n hn m hm h => ?_) (List.nodup_reverse.mpr hw.nodup)
  exact readPath_inj hg (hw.isFileName n (List.mem_reverse.mp hn))
    (hw.isFileName m (List.mem_reverse.mp hm)) h

/-- All reads but perhaps the last are of files on the shelf. -/
theorem Walk.Sound.length_reads_le {w : Walk} (hw : w.Sound s g root) (hg : g.IsAbsolute) :
    w.reads.length ≤ s.files.length + 1 := by
  have htail : (w.seen.tail.map g.readPath).Nodup := by
    have hrev : (w.seen.map g.readPath).Nodup := by
      have := hw.nodup_reads hg
      rwa [hw.reads, List.map_reverse, List.nodup_reverse] at this
    exact hrev.sublist ((List.tail_sublist _).map _)
  have hsub : w.seen.tail.map g.readPath ⊆ s.files.keys := fun path hpath => by
    obtain ⟨n, hn, rfl⟩ := List.mem_map.mp hpath
    obtain ⟨deps, himports⟩ := hw.hasImports_tail n hn
    exact himports.mem_keys
  have hle : (w.seen.tail.map g.readPath).length ≤ s.files.keys.length :=
    htail.length_le_of_subset hsub
  rw [hw.reads]
  simp only [List.length_map, List.length_tail, List.length_reverse, Table.keys] at hle ⊢
  omega

theorem mem_names {w : Walk} {n : Text} : n ∈ w.names ↔ n ∈ w.seen := List.mem_mergeSort

/-- The names that a finished walk found are closed under imports. -/
theorem Walk.Running.isClosed {w : Walk} (hw : w.Running s g root) (hp : w.pending = []) :
    IsClosed s g root {n | n ∈ w.seen} := by
  have hexplored : ∀ e, IsSource s g root w e → ∀ dep ∈ e.2, g.name e.1 dep ∈ w.seen :=
    fun e he => (hw.explored e he).resolve_left (by simp [hp])
  exact ⟨hexplored root (Or.inl rfl), fun n hn deps himports =>
    hexplored (n, deps) (Or.inr ⟨hn, himports⟩)⟩

/-- **The walk finds the least set of files closed under imports, and reads each file once.**

However it ends, it reads no path twice and at most one path that no file has, so it makes at most
one more read than there are files.  If nothing stops it, the names it found are the least closed
set, every one of them is that of a file that could be read and parsed, and the paths it read are
those of these names, one for each. -/
theorem walkFrom_isLeast (s : Shelf) (hg : g.IsAbsolute) (file : Text) (parsed : Source.Parsed) :
    let run := walkFrom s g file parsed
    run.1.reads.Nodup ∧ run.1.reads.length ≤ s.files.length + 1 ∧
      (run.2 = none →
        IsLeast {S | IsClosed s g (file, parsed.dependencies) S} {n | n ∈ run.1.names} ∧
        (∀ n ∈ run.1.names, ∃ deps, HasImports s g n deps) ∧
        run.1.names.Nodup ∧ run.1.reads.Perm (run.1.names.map g.readPath)) := by
  intro run
  obtain ⟨hsound, hrunning⟩ :=
    (running_start (s := s) (g := g) (file, parsed.dependencies)).walk
  refine ⟨hsound.nodup_reads hg, hsound.length_reads_le hg, fun hnone => ?_⟩
  obtain ⟨hrun, hp⟩ := hrunning hnone
  have hperm : run.1.names.Perm run.1.seen := List.mergeSort_perm _ _
  have hset : {n | n ∈ run.1.names} = {n | n ∈ run.1.seen} := Set.ext fun n => mem_names
  refine ⟨⟨?_, fun S hS n hn => ?_⟩, fun n hn => ?_, ?_, ?_⟩
  · rw [hset]
    exact hrun.isClosed hp
  · exact hsound.mem_closed S hS n (mem_names.mp hn)
  · exact hrun.hasImports n (mem_names.mp hn)
  · exact hperm.nodup_iff.mpr hsound.nodup
  · have hreads : run.1.reads = run.1.seen.reverse.map g.readPath := hsound.reads
    rw [hreads]
    exact ((List.reverse_perm _).trans hperm.symm).map _

/-- Three files that import each other, themselves, and the root again by a detour. -/
def ringShelf : Shelf where
  files :=
    [("/w/a.zig", "@import(\"b.zig\"); @import(\"a.zig\");"),
      ("/w/b.zig", "@import(\"a.zig\"); @import(\"x/../m.zig\");"),
      ("/w/m.zig", "@import(\"a.zig\");")]
  fault _ := some "No such file or directory"

def ringGround : Ground := { base := "/w", here := {} }

theorem walkFrom_isLeast_ring :
    let run := walkFrom ringShelf ringGround "m.zig" { dependencies := ["a.zig".toList] }
    ringGround.IsAbsolute ∧ run.2.isNone ∧
      IsLeast {S | IsClosed ringShelf ringGround ("m.zig".toList, ["a.zig".toList]) S}
        {n | n ∈ [("m.zig" : Text), "b.zig", "a.zig"]} ∧
      run.1.reads = [("/w/a.zig" : Text), "/w/b.zig", "/w/m.zig"] := by
  intro run
  have hg : ringGround.IsAbsolute := rfl
  obtain ⟨hnone, hseen, hreads⟩ : run.2.isNone ∧
      run.1.seen = [("m.zig" : Text), "b.zig", "a.zig"] ∧
      run.1.reads = [("/w/a.zig" : Text), "/w/b.zig", "/w/m.zig"] := by decide +kernel
  have hset : {n | n ∈ run.1.names} = {n | n ∈ [("m.zig" : Text), "b.zig", "a.zig"]} :=
    Set.ext fun n => mem_names.trans (by rw [hseen]; rfl)
  obtain ⟨-, -, h⟩ := walkFrom_isLeast ringShelf hg "m.zig" { dependencies := ["a.zig".toList] }
  obtain ⟨hleast, -⟩ := h (Option.isNone_iff_eq_none.mp hnone)
  exact ⟨hg, hnone, hset ▸ hleast, hreads⟩

end ZigNif.Import
