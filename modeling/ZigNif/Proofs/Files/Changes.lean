import Mathlib.Data.Set.Basic
import Mathlib.Logic.Relation
import ZigNif.Proofs.Files.Tree
import ZigNif.Proofs.Workspace

/-!
# Proofs/Files/Changes — where files are written

Whatever is done in a workspace changes its files step by step: a directory is made, or a file is
written.  `Changes h A` leads from one workspace to another by steps that write files at locations
in `A` only, whatever they hold; so the files elsewhere stay as they were.
-/

namespace ZigNif

open Build

variable {h : Host} {A : Set Location} {w w' : Workspace} {l : Location} {p : Path}

/-- The files stay, or a directory is made, or a file is written at a location in `A`. -/
inductive Change (h : Host) (A : Set Location) (w w' : Workspace) : Prop
  | none (files : w'.files = w.files)
  | directory (p : Path) (make : w.files.makeDirectory h.here p = .ok w'.files)
  | file (p : Path) (bytes : List UInt8) (mem : p.place h.here ∈ A)
    (write : w.files.write h.here p bytes = .ok w'.files)

/-- Changes one after another. -/
def Changes (h : Host) (A : Set Location) : Workspace → Workspace → Prop :=
  Relation.ReflTransGen (Change h A)

instance : IsPreorder Workspace (Changes h A) where
  refl _ := .refl
  trans _ _ _ := .trans

/-- A change leaves the files at other locations. -/
theorem Change.bytesAt?_eq (hw : Change h A w w') (hl : l ∉ A) :
    w'.files.bytesAt? l = w.files.bytesAt? l := by
  cases hw with
  | none files => rw [files]
  | directory p make => exact FileTree.bytesAt?_of_makeDirectory make
  | file p bytes mem write =>
    rw [FileTree.bytesAt?_of_write write, if_neg]
    exact fun heq => hl (heq ▸ mem)

namespace Changes

/-- **Files at other locations stay as they were.** -/
theorem bytesAt?_eq (hw : Changes h A w w') (hl : l ∉ A) :
    w'.files.bytesAt? l = w.files.bytesAt? l := by
  induction hw with
  | refl => rfl
  | tail _ hstep ih => exact (hstep.bytesAt?_eq hl).trans ih

theorem of_files_eq (hfiles : w'.files = w.files) : Changes h A w w' := .single (.none hfiles)

end Changes

/-! ## What changes keep -/

/-- `R` relates the workspaces before and after a change: the files stay, or a directory is made at
a path in `D`, or a file is written at a location in `A`. -/
structure IsChangeRule (h : Host) (D : Path → Prop) (A : Set Location)
    (R : Workspace → Workspace → Prop) : Prop where
  same : ∀ w w', w'.files = w.files → R w w'
  directory : ∀ w p files, D p → w.files.makeDirectory h.here p = .ok files →
    R w { w with files }
  file : ∀ w p bytes files, p.place h.here ∈ A → w.files.write h.here p bytes = .ok files →
    R w { w with files }

namespace IsChangeRule

variable {D : Path → Prop} {R : Workspace → Workspace → Prop} {P : Failure → Prop}

theorem changes : IsChangeRule h D A (Changes h A) where
  same _ _ hfiles := .of_files_eq hfiles
  directory _ _ _ _ hmake := .single (.directory _ hmake)
  file _ _ _ _ hp hwrite := .single (.file _ _ hp hwrite)

/-- What does not touch the files. -/
theorem keeps_of_files_eq (hR : IsChangeRule h D A R) {α : Type} {x : Build α}
    (hfiles : (x.runIn h w).2.files = w.files) : Keeps h R (fun _ => True) x w where
  leaves := hR.same _ _ hfiles
  fails _ _ := trivial

variable [IsPreorder Workspace R]

theorem keeps_makeDirectories (hR : IsChangeRule h D A R)
    (hp : ∀ q : Path, q.root = p.root → q.names <+: p.names → D q) :
    Keeps h R (fun _ => True) (makeDirectories p) w :=
  .makeDirectories (fun q hroot hq w₁ files _ => hR.directory w₁ q files (hp q hroot hq)) trivial
    (fun _ _ => trivial) trivial

theorem keeps_writeText (hR : IsChangeRule h D A R) {text : Text} (hp : p.place h.here ∈ A) :
    Keeps h R (fun _ => True) (writeText p text) w :=
  .writeText (fun files => hR.file w p _ files hp) trivial fun _ => trivial

end IsChangeRule

end ZigNif
