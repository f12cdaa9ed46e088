import ZigNif.Proofs.Path
import ZigNif.Proofs.Table
import ZigNif.Workspace

/-!
# Proofs/Shelf — what imports are read from

The shelf of a tree of files has the texts of its readable files.  A path that is not on the shelf
has something wrong with it that can be put in words, unless it holds a null byte.
-/

namespace ZigNif.Build

open ZigNif.Path

variable {h : Host} {files : FileTree} {p : Path} {path text : Text} {e : Failure}

/-- Only a null byte is not put in words. -/
theorem readFault?_eq_none_iff (hfile : fileText h files p = .error e) :
    readFault? e = none ↔ hasNull p := by
  rw [fileText] at hfile
  split at hfile
  · rename_i hnull
    cases hfile
    exact iff_of_true rfl hnull
  · rename_i hnull
    split at hfile
    · cases hfile
      exact iff_of_false nofun hnull
    · split at hfile <;> cases hfile
      exact iff_of_false nofun hnull

/-- A path with a null byte has no other fault. -/
theorem eq_nullByte_of_fileText (hfile : fileText h files p = .error e) (hnull : hasNull p) :
    e = .nullByte := by
  rw [fileText, if_pos hnull] at hfile
  exact (Except.error.inj hfile).symm

theorem exists_read_of_fileText (hfile : fileText h files p = .ok text) :
    ∃ bytes, files.read h.here p = .ok bytes ∧
      (Utf8.decode bytes).map Text.unifyNewlines = .ok text := by
  rw [fileText] at hfile
  split at hfile
  · cases hfile
  · split at hfile
    · cases hfile
    · rename_i bytes hread
      refine ⟨bytes, hread, ?_⟩
      split at hfile
      · cases hfile
      · rename_i t hdecode
        rw [hdecode, ← Except.ok.inj hfile]
        rfl

/-- What is read from the shelf is the text of a file, by a path from the root. -/
theorem exists_fileText_of_read (hread : (shelf h files).read path = .ok text) :
    ∃ p : Path, p.root ≠ .relative ∧ path = p.text ∧ fileText h files p = .ok text := by
  rw [Import.Shelf.read] at hread
  split at hread
  · rename_i found hget
    obtain rfl : found = text := Except.ok.inj hread
    have hmem : (path, found) ∈ (shelf h files).files := Table.mem_of_get? hget
    obtain ⟨p, hp, hentry⟩ := List.mem_filterMap.mp hmem
    obtain ⟨t, htext, hentry⟩ := Option.map_eq_some_iff.mp hentry
    obtain ⟨rfl, rfl⟩ := Prod.mk.inj hentry
    obtain ⟨e, -, hp⟩ := List.mem_flatMap.mp hp
    refine ⟨p, ?_, rfl, ?_⟩
    · rcases List.mem_cons.mp hp with rfl | hp
      · exact nofun
      · rw [List.mem_singleton.mp hp]
        exact nofun
    · cases hfile : fileText h files p with
      | error e => rw [hfile] at htext; cases htext
      | ok t' => rw [hfile] at htext; rw [Option.some.inj htext]
  · cases hread

end ZigNif.Build
