import ZigNif.Failure
import ZigNif.Import.Location
import ZigNif.Source.Parsed

/-!
# Import/Closure — the files that a source imports, directly or through others

The files behind the imports are taken one after the other, each only once, and the imports of a
taken file are read before another file is taken.  The first file that cannot be read or parsed
stops the walk.  A walk ends because every file it takes is a readable one that it has not taken
before.
-/

namespace ZigNif.Import

/-- What imports can be read from: the texts of finitely many files, by the path they are read by,
and what is wrong with any other path.  Nothing can be said about a path with a null byte, because
no file could have it.  `groups` is how deeply groups may be nested in a file. -/
structure Shelf where
  files : Table Text
  fault : Text → Option Text
  groups : Nat := 980

/-- The text of a file, or what is wrong with its path. -/
def Shelf.read (s : Shelf) (path : Text) : Except (Option Text) Text :=
  match s.files.get? path with
  | some t => .ok t
  | none => .error (s.fault path)

/-- The directories that names are relative to: the working directory as it was given, and the
absolute one that it starts from itself. -/
structure Ground where
  base : Text
  here : Path

/-- The name of the file that an import means. -/
def Ground.name (g : Ground) (referrer dep : Text) : Text :=
  Import.name g.here (.ofText g.base) referrer dep

/-- The path that the file of a name is read by. -/
def Ground.readPath (g : Ground) (name : Text) : Text := Import.readPath g.base name

/-- How far a walk has come: the names of the files found so far, the paths that were read, the
names of the files that were read with the file that imports them, and the files whose imports are
still to be looked at, the next one first. -/
structure Walk where
  seen : List Text := []
  reads : List Text := []
  found : List (Text × Text) := []
  pending : List (Text × List Text) := []

/-- Looks at the imports of one file in order, up to the first that stops the walk. -/
def readDeps (s : Shelf) (g : Ground) (referrer : Text) :
    List Text → Walk → Walk × Option Failure
  | [], w => (w, none)
  | dep :: deps, w =>
    let name := g.name referrer dep
    if name ∈ w.seen then readDeps s g referrer deps w
    else
      let path := g.readPath name
      let w := { w with seen := name :: w.seen, reads := w.reads ++ [path] }
      match s.read path with
      | .error none => (w, some .nullByte)
      | .error (some why) => (w, some (.build
          { reason := BuildError.dependencyReason
            message := "cannot read dependency '" ++ name ++ "' (imported as \"" ++ dep ++
              "\"): " ++ why
            span := { file := some referrer } }))
      | .ok text =>
        let w := { w with found := w.found ++ [(name, referrer)] }
        match Source.parseFileWithin s.groups (some name) text with
        | .error failure => (w, some failure)
        | .ok parsed =>
          readDeps s g referrer deps { w with pending := (name, parsed.dependencies) :: w.pending }

/-! ## The walk ends -/

/-- All names that a readable file may have: its path, and what that is without the base in front
of it. -/
def readableNames (s : Shelf) (g : Ground) : List Text :=
  s.files.keys.flatMap fun path =>
    [path] ++ (Text.dropPrefix? g.base path).toList ++
      (Text.dropPrefix? (g.base ++ "/") path).toList

theorem mem_readableNames {s : Shelf} {g : Ground} {name text : Text}
    (h : s.read (g.readPath name) = .ok text) : name ∈ readableNames s g := by
  have hmem : g.readPath name ∈ s.files.keys := by
    unfold Shelf.read at h
    split at h
    · rename_i h'
      exact Table.mem_keys_of_get? h'
    · simp at h
  refine List.mem_flatMap.mpr ⟨_, hmem, ?_⟩
  unfold Ground.readPath readPath
  split
  · simp
  · split
    · rw [Text.dropPrefix?_append]; simp
    · rw [Text.dropPrefix?_append]; simp

/-- How many readable files a walk has not come to yet. -/
def unseen (s : Shelf) (g : Ground) (w : Walk) : Nat :=
  ((readableNames s g).filter fun n => n ∉ w.seen).length

theorem length_filter_cons_lt {names seen : List Text} {n : Text} (hn : n ∈ names)
    (hs : n ∉ seen) :
    (names.filter fun m => m ∉ n :: seen).length < (names.filter fun m => m ∉ seen).length := by
  induction names with
  | nil => simp at hn
  | cons m ms ih =>
    have hle : (ms.filter fun m => m ∉ n :: seen).length ≤
        (ms.filter fun m => m ∉ seen).length := by
      simp only [← List.countP_eq_length_filter]
      exact List.countP_mono_left fun m _ => by simp +contextual
    by_cases hm : m = n
    · subst hm
      simp only [List.mem_cons, true_or, not_true_eq_false, decide_false, Bool.false_eq_true,
        not_false_eq_true, List.filter_cons_of_neg, hs, decide_true, List.filter_cons_of_pos,
        List.length_cons] at hle ⊢
      omega
    · have hn' : n ∈ ms := by
        rcases List.mem_cons.mp hn with h | h
        · exact absurd h.symm hm
        · exact h
      have := ih hn'
      by_cases hms : m ∈ seen
      · simpa [hms, hm] using this
      · simpa [hms, hm] using this

/-- **Every file that is put on the list was a new readable one.** -/
theorem unseen_readDeps {s : Shelf} {g : Ground} {referrer : Text} {deps : List Text}
    {w w' : Walk} (h : readDeps s g referrer deps w = (w', none)) :
    unseen s g w' + w'.pending.length ≤ unseen s g w + w.pending.length := by
  induction deps generalizing w with
  | nil => simp only [readDeps, Prod.mk.injEq, and_true] at h; subst h; exact Nat.le_refl _
  | cons dep deps ih =>
    simp only [readDeps] at h
    split at h
    · exact ih h
    · rename_i hnew
      split at h
      · simp at h
      · simp at h
      · rename_i text hread
        split at h
        · simp at h
        · have := ih h
          have hlt := length_filter_cons_lt (mem_readableNames hread) hnew
          simp only [unseen, List.length_cons] at this hlt ⊢
          omega

/-- Takes pending files until there are none or one stops the walk. -/
def walk (s : Shelf) (g : Ground) (w : Walk) : Walk × Option Failure :=
  match _hp : w.pending with
  | [] => (w, none)
  | (referrer, deps) :: rest =>
    match _hr : readDeps s g referrer deps { w with pending := rest } with
    | (w', some failure) => (w', some failure)
    | (w', none) => walk s g w'
termination_by unseen s g w + w.pending.length
decreasing_by
  have := unseen_readDeps _hr
  simp only [unseen, _hp, List.length_cons] at this ⊢
  omega

/-- The walk from a parsed file. -/
def walkFrom (s : Shelf) (g : Ground) (file : Text) (parsed : Source.Parsed) :
    Walk × Option Failure :=
  walk s g { pending := [(file, parsed.dependencies)] }

/-- The names of all files that the walk found, in order. -/
def Walk.names (w : Walk) : List Text := Text.sorted w.seen

end ZigNif.Import
