import ZigNif.Proofs.Import.Stop
import ZigNif.Proofs.Source.Scan

/-!
# Proofs/Import/Reach — a walk fails if and only if it can reach a broken file

The files that are reached are those in every set that is closed under imports.  The walk takes only
such files, and unless it stops it takes all of them; it stops at the first that cannot be read or
parsed.  So in whatever order the files are taken, the walk fails exactly if one of the files that
are reached is broken, and its failure is that of an import in a file that is reached.

The failure is a build error, with two exceptions: the path of the file has a null byte, or its
groups are nested so deeply that the stack runs out.
-/

namespace ZigNif.Import

open ZigNif.Path

variable {s : Shelf} {g : Ground} {root : Text × List Text} {referrer dep name : Text}
  {deps : List Text} {w w' : Walk} {e : Failure}

/-! ## The files reached -/

/-- The files that are reached from the root: those of every closed set. -/
def reached (s : Shelf) (g : Ground) (root : Text × List Text) : Set Text :=
  {name | ∀ S, IsClosed s g root S → name ∈ S}

theorem isLeast_reached : IsLeast {S | IsClosed s g root S} (reached s g root) := by
  refine ⟨⟨fun dep hdep S hS => hS.1 dep hdep, fun name hname deps himports dep hdep S hS => ?_⟩,
    fun S hS name hname => hname S hS⟩
  exact hS.2 name (hname S hS) deps himports dep hdep

/-- A walk that has come to its end has found the files reached. -/
theorem Walk.Running.seen_eq_reached (hw : w.Running s g root) (hp : w.pending = []) :
    {n | n ∈ w.seen} = reached s g root :=
  Set.Subset.antisymm (fun n hn S hS => hw.mem_closed S hS n hn)
    fun _ hn => hn _ (hw.isClosed hp)

/-- The root or a file that is reached imports `dep`. -/
def IsEdge (s : Shelf) (g : Ground) (root : Text × List Text) (referrer dep : Text) : Prop :=
  ∃ deps, ((referrer, deps) = root ∨
    referrer ∈ reached s g root ∧ HasImports s g referrer deps) ∧ dep ∈ deps

theorem IsEdge.name_mem_reached (h : IsEdge s g root referrer dep) :
    g.name referrer dep ∈ reached s g root := by
  obtain ⟨deps, rfl | ⟨hmem, himports⟩, hdep⟩ := h
  · exact isLeast_reached.1.1 dep hdep
  · exact isLeast_reached.1.2 referrer hmem deps himports dep hdep

/-- The file of that name cannot be read, or its text cannot be parsed: the stack runs out, or the
text is faulty. -/
def IsBroken (s : Shelf) (g : Ground) (name : Text) : Prop :=
  (∃ why, s.read (g.readPath name) = .error why) ∨
    ∃ text, s.read (g.readPath name) = .ok text ∧
      (Source.Overflows s.groups text ∨ ∃ fault, Source.parse text = .error fault)

theorem isBroken_iff : IsBroken s g name ↔ ¬ ∃ deps, HasImports s g name deps := by
  constructor
  · rintro (⟨why, hread⟩ | ⟨text, hread, hbad⟩) ⟨deps, text', parsed, hread', hshallow, hparse, -⟩
    · rw [hread] at hread'
      cases hread'
    · obtain rfl := Except.ok.inj (hread.symm.trans hread')
      obtain ⟨fault, hfault⟩ := hbad.resolve_left hshallow
      rw [hparse] at hfault
      cases hfault
  · intro h
    cases hread : s.read (g.readPath name) with
    | error why => exact .inl ⟨why, hread⟩
    | ok text =>
      by_cases hdeep : Source.Overflows s.groups text
      · exact .inr ⟨text, hread, .inl hdeep⟩
      · cases hparse : Source.parse text with
        | error fault => exact .inr ⟨text, hread, .inr ⟨fault, hparse⟩⟩
        | ok parsed => exact absurd ⟨_, text, parsed, hread, hdeep, hparse, rfl⟩ h

/-! ## Imports that stop a walk -/

/-- Why an import is refused, and the failure.  The file cannot be read, for a reason that is given,
or its text is faulty: these are build errors.  The other two failures are none: no file could have
the path, so no reason is given, or the stack runs out on the text. -/
inductive IsRefused (s : Shelf) (g : Ground) (referrer dep : Text) : Failure → Prop
  | unreadable {why : Text} :
    s.read (g.readPath (g.name referrer dep)) = .error (some why) →
    IsRefused s g referrer dep
      (.build (Import.unreadable (g.name referrer dep) dep why referrer))
  | unparsed {text : Text} {fault : Source.Fault} :
    s.read (g.readPath (g.name referrer dep)) = .ok text → ¬ Source.Overflows s.groups text →
    Source.parse text = .error fault → IsRefused s g referrer dep (.build
      { reason := BuildError.parseReason
        message := fault.message
        span := { file := some (g.name referrer dep), line := some fault.position.line
                  column := some fault.position.column } })
  | null : s.read (g.readPath (g.name referrer dep)) = .error none →
    IsRefused s g referrer dep .nullByte
  | tooDeep {text : Text} :
    s.read (g.readPath (g.name referrer dep)) = .ok text → Source.Overflows s.groups text →
    IsRefused s g referrer dep (.tooDeep " in comparison")

theorem IsRefused.isBroken (h : IsRefused s g referrer dep e) :
    IsBroken s g (g.name referrer dep) := by
  cases h with
  | unreadable hread | null hread => exact .inl ⟨_, hread⟩
  | unparsed hread hshallow hparse => exact .inr ⟨_, hread, .inr ⟨_, hparse⟩⟩
  | tooDeep hread hdeep => exact .inr ⟨_, hread, .inl hdeep⟩

theorem name_ne_nil (hg : g.IsAbsolute) (referrer dep : Text) : g.name referrer dep ≠ [] := by
  have htext : ∀ p : Path, p.IsClean → p.text ≠ [] := by
    intro p hp hnil
    have hempty := ofText_text hp
    rw [hnil] at hempty
    rw [← hempty] at hnil
    exact absurd hnil (by decide)
  rcases isInside_or_isOutside hg referrer dep with ⟨q, hq, -, hname⟩ | ⟨p, hp, -, -, -, hname⟩
  · exact hname ▸ htext q hq
  · exact hname ▸ htext p hp

theorem exists_isRefused_of_readDeps (hg : g.IsAbsolute)
    (h : readDeps s g referrer deps w = (w', some e)) :
    ∃ dep ∈ deps, IsRefused s g referrer dep e := by
  obtain ⟨dep, hdep, -, ⟨hread, rfl⟩ | ⟨why, hread, rfl⟩ | ⟨text, hread, hparse⟩⟩ :=
    readDeps_stop_cases h
  · exact ⟨dep, hdep, .null hread⟩
  · exact ⟨dep, hdep, .unreadable hread⟩
  · rcases Source.parseFileWithin_eq_error_iff.mp hparse with ⟨hdeep, rfl⟩ | ⟨hshallow, b, hb, rfl⟩
    · exact ⟨dep, hdep, .tooDeep hread hdeep⟩
    · obtain ⟨fault, hfault, rfl⟩ :=
        (Source.parseFile_eq_error_iff (name_ne_nil hg referrer dep)).mp hb
      exact ⟨dep, hdep, .unparsed hread hshallow hfault⟩

/-- **A walk is stopped by an import in a file that is reached.** -/
theorem Walk.Running.exists_isRefused (hg : g.IsAbsolute) (hw : w.Running s g root)
    (h : (Import.walk s g w).2 = some e) :
    ∃ referrer dep, IsEdge s g root referrer dep ∧ IsRefused s g referrer dep e := by
  fun_induction Import.walk s g w with
  | case1 w hp => cases h
  | case2 w referrer deps rest hp w' failure hr =>
    obtain rfl : failure = e := Option.some.inj h
    obtain ⟨dep, hdep, hrefused⟩ := exists_isRefused_of_readDeps hg hr
    have hsource : IsSource s g root w (referrer, deps) := hw.pending _ (by simp [hp])
    refine ⟨referrer, dep, ⟨deps, hsource.imp_right (And.imp_left fun hmem => ?_), hdep⟩, hrefused⟩
    exact fun S hS => hw.mem_closed S hS referrer hmem
  | case3 w referrer deps rest hp w' hr ih =>
    obtain ⟨new, hlooked⟩ := exists_looked_of_none hr
    exact ih (hw.running_of_looked hp hlooked) h

/-- **A walk fails if and only if a file that it can reach is broken.**

There is a least set of names that is closed under imports, followed through files that can be read
and parsed.  The walk fails exactly if this set has a file that cannot be read or parsed.  Its
failure is then that of an import in the root or in a file of the set, and says what is wrong with
the file that the import means.  If the walk does not fail, it has found all of the set. -/
theorem walkFrom_fails_iff (s : Shelf) (hg : g.IsAbsolute) (file : Text) (parsed : Source.Parsed) :
    let run := walkFrom s g file parsed
    ∃ R, IsLeast {S | IsClosed s g (file, parsed.dependencies) S} R ∧
      ((∃ e, run.2 = some e) ↔ ∃ name ∈ R, IsBroken s g name) ∧
      (∀ e, run.2 = some e → ∃ referrer deps dep,
        ((referrer, deps) = (file, parsed.dependencies) ∨
          referrer ∈ R ∧ HasImports s g referrer deps) ∧
        dep ∈ deps ∧ g.name referrer dep ∈ R ∧ IsRefused s g referrer dep e) ∧
      (run.2 = none → {n | n ∈ run.1.names} = R) := by
  intro run
  have hstart : ({ pending := [(file, parsed.dependencies)] } : Walk).Running s g
    (file, parsed.dependencies) := running_start _
  have hfail : ∀ e, run.2 = some e → ∃ referrer dep,
      IsEdge s g (file, parsed.dependencies) referrer dep ∧ IsRefused s g referrer dep e :=
    fun e he => hstart.exists_isRefused hg he
  have hfinished : run.2 = none →
      {n | n ∈ run.1.names} = reached s g (file, parsed.dependencies) ∧
        ∀ n ∈ run.1.names, ∃ deps, HasImports s g n deps := by
    intro hnone
    obtain ⟨hrun, hp⟩ := hstart.walk.2 hnone
    have hset : {n | n ∈ run.1.names} = {n | n ∈ run.1.seen} := Set.ext fun n => mem_names
    exact ⟨hset.trans (hrun.seen_eq_reached hp), fun n hn => hrun.hasImports n (mem_names.mp hn)⟩
  refine ⟨_, isLeast_reached, ⟨?_, ?_⟩, fun e he => ?_, fun hnone => (hfinished hnone).1⟩
  · rintro ⟨e, he⟩
    obtain ⟨referrer, dep, hedge, hrefused⟩ := hfail e he
    exact ⟨_, hedge.name_mem_reached, hrefused.isBroken⟩
  · rintro ⟨name, hname, hbroken⟩
    by_contra hnone
    obtain ⟨hset, hreadable⟩ := hfinished (Option.eq_none_iff_forall_ne_some.mpr
      fun e he => hnone ⟨e, he⟩)
    rw [← hset] at hname
    exact isBroken_iff.mp hbroken (hreadable name hname)
  · obtain ⟨referrer, dep, hedge, hrefused⟩ := hfail e he
    have hmem := hedge.name_mem_reached
    obtain ⟨deps, hsource, hdep⟩ := hedge
    exact ⟨referrer, deps, dep, hsource, hdep, hmem, hrefused⟩

/-- Files in a ring, one of which imports a file that is missing and one that cannot be parsed. -/
def brokenShelf : Shelf where
  files :=
    [("/w/a.zig", "@import(\"b.zig\");"),
      ("/w/b.zig", "@import(\"a.zig\"); @import(\"c.zig\"); @import(\"none.zig\");"),
      ("/w/c.zig", "const a = \x7d;")]
  fault _ := some "No such file or directory"

/-- The missing file is reached by way of two others. -/
theorem walkFrom_fails_iff_broken : ringGround.IsAbsolute ∧ ∃ e,
    (walkFrom brokenShelf ringGround "m.zig" { dependencies := ["a.zig".toList] }).2 = some e := by
  have hg : ringGround.IsAbsolute := rfl
  obtain ⟨R, ⟨⟨hroot, hclosed⟩, -⟩, hfails, -⟩ :=
    walkFrom_fails_iff brokenShelf hg "m.zig" { dependencies := ["a.zig".toList] }
  have ha : HasImports brokenShelf ringGround "a.zig" ["b.zig".toList] :=
    ⟨"@import(\"b.zig\");".toList, ⟨[], ["b.zig".toList]⟩,
      by decide +kernel, Source.isTooDeep_iff.not.mp (by decide +kernel), by decide +kernel, rfl⟩
  have hb : HasImports brokenShelf ringGround "b.zig" [("a.zig" : Text), "c.zig", "none.zig"] :=
    ⟨"@import(\"a.zig\"); @import(\"c.zig\"); @import(\"none.zig\");".toList,
      ⟨[], [("a.zig" : Text), "c.zig", "none.zig"]⟩,
      by decide +kernel, Source.isTooDeep_iff.not.mp (by decide +kernel), by decide +kernel, rfl⟩
  have hname : ringGround.name "m.zig" "a.zig" = "a.zig".toList ∧
      ringGround.name "a.zig" "b.zig" = "b.zig".toList ∧
      ringGround.name "b.zig" "none.zig" = "none.zig".toList := by decide +kernel
  have hmem : "a.zig".toList ∈ R := hname.1 ▸ hroot _ List.mem_cons_self
  have hmem : "b.zig".toList ∈ R := hname.2.1 ▸ hclosed _ hmem _ ha _ List.mem_cons_self
  have hmem : "none.zig".toList ∈ R := hname.2.2 ▸ hclosed _ hmem _ hb _ (by decide)
  have hbroken : brokenShelf.read (ringGround.readPath "none.zig") =
      .error (some "No such file or directory".toList) := by decide +kernel
  exact ⟨hg, hfails.mpr ⟨_, hmem, .inl ⟨_, hbroken⟩⟩⟩

/-- A name with a null byte, so that no file can have its path. -/
def nullName : Text := "\x00.zig"

/-- The failure of a walk need not be a build error. -/
theorem no_buildError_of_null : ¬ ∀ s g file parsed e, g.IsAbsolute →
    (walkFrom s g file parsed).2 = some e → ∃ b, e = .build b := by
  intro hall
  have hstop : (walkFrom { files := [], fault := fun _ => none } ringGround "m.zig"
      { dependencies := [nullName] }).2 = some .nullByte := by
    rw [walkFrom, walk_of_cons rfl]
    rfl
  obtain ⟨b, hb⟩ := hall _ ringGround _ _ _ rfl hstop
  cases hb

end ZigNif.Import
