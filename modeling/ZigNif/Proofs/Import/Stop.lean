import ZigNif.Proofs.Import.Again

/-!
# Proofs/Import/Stop — why a walk over imports stops

A walk stops at the last file that it takes, and only there: all files before it could be read and
parsed.  So what is wrong with one of the files taken is what stopped the walk.  The imports of the
file that the walk starts from are looked at first, so the first of them that cannot be read stops
it.
-/

namespace ZigNif.Import

variable {s : Shelf} {g : Ground} {root : Text × List Text} {e : Failure}

/-- The error that an import cannot be read, in the file that holds it. -/
def unreadable (name dep why referrer : Text) : BuildError :=
  { reason := BuildError.dependencyReason
    message := "cannot read dependency '" ++ name ++ "' (imported as \"" ++ dep ++ "\"): " ++ why
    span := { file := some referrer } }

/-- **The imports of a file are left at the one that is taken last**: its file cannot be read, for
no reason or for one that is given, or its text cannot be parsed, as far as the stack allows. -/
theorem readDeps_stop_cases {referrer : Text} {deps : List Text} {w w' : Walk}
    (h : readDeps s g referrer deps w = (w', some e)) :
    ∃ dep ∈ deps, w'.seen.head? = some (g.name referrer dep) ∧
      (s.read (g.readPath (g.name referrer dep)) = .error none ∧ e = .nullByte ∨
      (∃ why, s.read (g.readPath (g.name referrer dep)) = .error (some why) ∧
        e = .build (unreadable (g.name referrer dep) dep why referrer)) ∨
      ∃ text, s.read (g.readPath (g.name referrer dep)) = .ok text ∧
        Source.parseFileWithin s.groups (some (g.name referrer dep)) text = .error e) := by
  induction deps generalizing w with
  | nil => cases h
  | cons dep deps ih =>
    rw [readDeps] at h
    by_cases hdep : g.name referrer dep ∈ w.seen
    · simp only [hdep, if_true] at h
      obtain ⟨d, hd, hstop⟩ := ih h
      exact ⟨d, List.mem_cons_of_mem dep hd, hstop⟩
    · simp only [hdep, if_false] at h
      split at h
      · next hread =>
        cases h
        exact ⟨dep, List.mem_cons_self, rfl, .inl ⟨hread, rfl⟩⟩
      · next why hread =>
        cases h
        exact ⟨dep, List.mem_cons_self, rfl, .inr (.inl ⟨why, hread, rfl⟩)⟩
      · next text hread =>
        split at h
        · next failure hparse =>
          cases h
          exact ⟨dep, List.mem_cons_self, rfl, .inr (.inr ⟨text, hread, hparse⟩)⟩
        · obtain ⟨d, hd, hstop⟩ := ih h
          exact ⟨d, List.mem_cons_of_mem dep hd, hstop⟩

variable {file referrer dep : Text} {deps : List Text}

/-- The file of the import cannot be read, and those of the imports before it can be read and
parsed. -/
inductive IsMissing (s : Shelf) (g : Ground) (referrer dep : Text) : List Text → Prop
  | here {deps : List Text} {why : Text}
    (hread : s.read (g.readPath (g.name referrer dep)) = .error (some why)) :
    IsMissing s g referrer dep (dep :: deps)
  | behind {before : Text} {deps : List Text}
    (hbefore : ∃ inner, HasImports s g (g.name referrer before) inner)
    (h : IsMissing s g referrer dep deps) : IsMissing s g referrer dep (before :: deps)

theorem IsMissing.mem (h : IsMissing s g referrer dep deps) : dep ∈ deps := by
  induction h with
  | here => exact List.mem_cons_self
  | behind _ _ ih => exact List.mem_cons_of_mem _ ih

/-- The first import that cannot be read stops the walk, if all files taken before it can be. -/
theorem readDeps_of_isMissing (h : IsMissing s g referrer dep deps) {w : Walk}
    (hseen : ∀ name ∈ w.seen, ∃ inner, HasImports s g name inner) :
    ∃ why, (readDeps s g referrer deps w).2 =
      some (.build (unreadable (g.name referrer dep) dep why referrer)) := by
  induction h generalizing w with
  | @here deps why hread =>
    have hnew : g.name referrer dep ∉ w.seen := fun hmem => by
      obtain ⟨_, text, _, hread', -⟩ := hseen _ hmem
      rw [hread] at hread'
      cases hread'
    rw [readDeps]
    simp only [hnew, if_false, hread]
    exact ⟨why, rfl⟩
  | @behind before deps hbefore h ih =>
    obtain ⟨inner, text, parsed, hread, hshallow, hparse, rfl⟩ := hbefore
    rw [readDeps]
    by_cases hmem : g.name referrer before ∈ w.seen
    · simp only [hmem, if_true]
      exact ih hseen
    · simp only [hmem, if_false, hread, Source.parseFileWithin_of_parse hshallow hparse]
      exact ih (List.forall_mem_cons.mpr ⟨⟨_, text, parsed, hread, hshallow, hparse, rfl⟩, hseen⟩)

theorem walkFrom_of_isMissing {parsed : Source.Parsed}
    (h : IsMissing s g file dep parsed.dependencies) :
    ∃ why, (walkFrom s g file parsed).2 =
      some (.build (unreadable (g.name file dep) dep why file)) := by
  obtain ⟨why, hstop⟩ :=
    readDeps_of_isMissing (w := { pending := [] }) h (List.forall_mem_nil _)
  refine ⟨why, ?_⟩
  rw [walkFrom, walk_of_cons rfl]
  generalize readDeps s g file parsed.dependencies _ = result at hstop
  obtain ⟨w, stop⟩ := result
  obtain rfl : stop = _ := hstop
  rfl

end ZigNif.Import
