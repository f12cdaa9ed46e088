import Mathlib.Data.List.Infix
import ZigNif.Text.Basic

/-!
# Proofs/Glue/Blocks — blocks of documentation in a file

A block of documentation starts with an opening line and goes up to the next closing line; an
opening line with no closing line behind it starts nothing.  A file that was put together from code
and blocks falls apart into them again exactly if no closing line is inside a block, no opening line
is in the code in front of one, and the code behind the last block has no block of its own
(`extract_assemble_eq_iff`).
-/

namespace ZigNif.Glue.Elixir

variable {ls b t z : List Text} {ps : List (List Text × List Text)}

/-- The line that opens a block of documentation. -/
def docOpening : Text := "  @doc \"\"\""

/-- The line that closes a block of documentation. -/
def docClosing : Text := "  \"\"\""

/-- What is left of a file when its blocks are taken out, and the lines inside each block. -/
structure Extract where
  left : List Text
  blocks : List (List Text)
  deriving DecidableEq, Repr

mutual

/-- The file without its blocks, and the blocks. -/
def extract : List Text → Extract
  | [] => ⟨[], []⟩
  | l :: ls =>
    if l = docOpening then match closed? ls with
      | some (block, e) => ⟨e.left, block :: e.blocks⟩
      | none => ⟨l :: ls, []⟩
    else ⟨l :: (extract ls).left, (extract ls).blocks⟩

/-- The lines up to the next closing line, and what is extracted from those behind it. -/
def closed? : List Text → Option (List Text × Extract)
  | [] => none
  | l :: ls =>
    if l = docClosing then some ([], extract ls)
    else (closed? ls).map fun r => (l :: r.1, r.2)

end

/-! ## Opening and closing -/

theorem closed?_eq_none_iff : closed? ls = none ↔ docClosing ∉ ls := by
  induction ls with
  | nil => simp [closed?]
  | cons l ls ih =>
    rw [closed?, List.mem_cons, not_or, ← ih]
    split
    case isTrue h => simp [h]
    case isFalse h => simp [Ne.symm h]

theorem closed?_append (h : docClosing ∉ b) :
    closed? (b ++ docClosing :: ls) = some (b, extract ls) := by
  induction b with
  | nil => rw [List.nil_append, closed?, if_pos rfl]
  | cons l b ih =>
    obtain ⟨hl, hb⟩ := not_or.mp (mt List.mem_cons.mpr h)
    rw [List.cons_append, closed?, if_neg (Ne.symm hl), ih hb]
    rfl

theorem extract_cons_of_ne {l : Text} (h : l ≠ docOpening) :
    extract (l :: ls) = ⟨l :: (extract ls).left, (extract ls).blocks⟩ := by
  rw [extract, if_neg h]

/-- A block that is closed is taken out. -/
theorem extract_block (h : docClosing ∉ b) : extract (docOpening :: (b ++ docClosing :: ls)) =
    ⟨(extract ls).left, b :: (extract ls).blocks⟩ := by
  rw [extract, if_pos rfl, closed?_append h]

/-- What is not closed is no block. -/
theorem extract_of_unclosed (h : docClosing ∉ ls) :
    extract (docOpening :: ls) = ⟨docOpening :: ls, []⟩ := by
  rw [extract, if_pos rfl, closed?_eq_none_iff.mpr h]

/-- Code that opens no block is left. -/
theorem extract_append (h : docOpening ∉ b) :
    extract (b ++ ls) = ⟨b ++ (extract ls).left, (extract ls).blocks⟩ := by
  induction b with
  | nil => rfl
  | cons l b ih =>
    obtain ⟨hl, hb⟩ := not_or.mp (mt List.mem_cons.mpr h)
    rw [List.cons_append, extract_cons_of_ne (Ne.symm hl), ih hb]
    rfl

/-- A file without blocks is left as it is. -/
theorem left_of_blocks_eq_nil (h : (extract ls).blocks = []) : (extract ls).left = ls := by
  induction ls with
  | nil => rfl
  | cons l ls ih =>
    by_cases hl : l = docOpening
    · subst hl
      by_cases hmem : docClosing ∈ ls
      · obtain ⟨b, rest, rfl, hb⟩ := List.eq_append_cons_of_mem hmem
        rw [extract_block hb] at h
        cases h
      · rw [extract_of_unclosed hmem]
    · rw [extract_cons_of_ne hl] at h ⊢
      rw [ih h]

/-- An opening line is left only if nothing behind it closes a block. -/
theorem exists_unclosed : ∀ ls : List Text, docOpening ∈ (extract ls).left → ∃ d e,
    (extract ls).left = d ++ docOpening :: e ∧ docOpening ∉ d ∧ docClosing ∉ e ∧
      docOpening :: e <:+ ls
  | [], h => by cases h
  | l :: ls, h => by
    by_cases hl : l = docOpening
    · subst hl
      by_cases hmem : docClosing ∈ ls
      · obtain ⟨b, rest, hls, hb⟩ := List.eq_append_cons_of_mem hmem
        rw [hls, extract_block hb] at h ⊢
        obtain ⟨d, e, hleft, hd, he, hsuffix⟩ := exists_unclosed rest h
        exact ⟨d, e, hleft, hd, he, hsuffix.trans ⟨docOpening :: (b ++ [docClosing]), by simp⟩⟩
      · rw [extract_of_unclosed hmem]
        exact ⟨[], ls, rfl, List.not_mem_nil, hmem, List.suffix_rfl⟩
    · rw [extract_cons_of_ne hl] at h ⊢
      obtain ⟨d, e, hleft, hd, he, hsuffix⟩ :=
        exists_unclosed ls ((List.mem_cons.mp h).resolve_left (Ne.symm hl))
      refine ⟨l :: d, e, congrArg (l :: ·) hleft, ?_, he, hsuffix.trans (List.suffix_cons l ls)⟩
      exact mt List.mem_cons.mp (not_or.mpr ⟨Ne.symm hl, hd⟩)
  termination_by ls => ls.length
  decreasing_by
    · rw [hls, List.length_cons, List.length_append, List.length_cons]
      omega
    · exact Nat.lt_succ_self _

/-! ## Files that are put together -/

/-- Pieces of code with a block behind each, and code behind the last block. -/
def assemble : List (List Text × List Text) → List Text → List Text
  | [], z => z
  | p :: ps, z => p.1 ++ docOpening :: (p.2 ++ docClosing :: assemble ps z)

theorem exists_assemble_eq (h : ps ≠ []) : ∃ y, assemble ps z = y ++ docClosing :: z := by
  induction ps with
  | nil => exact absurd rfl h
  | cons p ps ih =>
    by_cases hps : ps = []
    · subst hps
      exact ⟨p.1 ++ docOpening :: p.2, by simp [assemble]⟩
    · obtain ⟨y, hy⟩ := ih hps
      exact ⟨p.1 ++ docOpening :: (p.2 ++ docClosing :: y), by simp [assemble, hy]⟩

/-- Behind the last closing line there is only the last code. -/
theorem length_le_of_suffix {t : List Text} (h : ps ≠ []) (ht : t <:+ assemble ps z)
    (hclosing : docClosing ∉ t) : t.length ≤ z.length := by
  obtain ⟨y, hy⟩ := exists_assemble_eq (z := z) h
  rw [hy] at ht
  rcases List.suffix_or_suffix_of_suffix ht (List.suffix_append y _) with hs | hs
  · rcases List.suffix_cons_iff.mp hs with rfl | hs
    · exact absurd List.mem_cons_self hclosing
    · exact hs.length_le
  · exact absurd (hs.subset List.mem_cons_self) hclosing

theorem extract_assemble (h : ∀ p ∈ ps, docOpening ∉ p.1 ∧ docClosing ∉ p.2) :
    extract (assemble ps z) =
      ⟨ps.flatMap Prod.fst ++ (extract z).left, ps.map Prod.snd ++ (extract z).blocks⟩ := by
  induction ps with
  | nil => rfl
  | cons p ps ih =>
    obtain ⟨⟨hopening, hclosing⟩, hps⟩ := List.forall_mem_cons.mp h
    rw [assemble, extract_append hopening, extract_block hclosing, ih hps, List.flatMap_cons,
      List.append_assoc]
    rfl

/-- If all code is left, none in front of a block opens one: what an opening line without a closing
line leaves is too short. -/
theorem opening_notMem_of_left_eq {c rest : List Text} (hps : ps ≠ [])
    (h : (extract (assemble ps z)).left = c ++ (rest ++ z)) : docOpening ∉ c := by
  intro hmem
  obtain ⟨d, e, hleft, hd, he, hsuffix⟩ := exists_unclosed (assemble ps z)
    (by rw [h]; exact List.mem_append_left _ hmem)
  have hshort : (docOpening :: e).length ≤ z.length := by
    refine length_le_of_suffix hps hsuffix fun hclosing => ?_
    exact (List.mem_cons.mp hclosing).elim (fun h => absurd h (by decide)) he
  rw [h] at hleft
  have hlt : d.length < c.length := by
    refine Nat.lt_of_not_le fun hle => hd ?_
    have hprefix : c <+: d := List.prefix_of_prefix_length_le
      ⟨rest ++ z, hleft⟩ (List.prefix_append d _) hle
    exact hprefix.subset hmem
  have hlength := congrArg List.length hleft
  simp only [List.length_append, List.length_cons] at hlength hshort
  omega

/-- **Code and blocks fall apart again** exactly if no closing line is inside a block, no opening
line is in the code in front of one, and the code behind the last block has none of its own. -/
theorem extract_assemble_eq_iff :
    extract (assemble ps z) = ⟨ps.flatMap Prod.fst ++ z, ps.map Prod.snd⟩ ↔
      (∀ p ∈ ps, docOpening ∉ p.1 ∧ docClosing ∉ p.2) ∧ (extract z).blocks = [] := by
  constructor
  · intro h
    induction ps with
    | nil => exact ⟨nofun, congrArg Extract.blocks h⟩
    | cons p ps ih =>
      have hopening : docOpening ∉ p.1 := by
        have hleft : (extract (assemble (p :: ps) z)).left =
            p.1 ++ (ps.flatMap Prod.fst ++ z) := by
          rw [h, List.flatMap_cons, List.append_assoc]
        exact opening_notMem_of_left_eq (List.cons_ne_nil p ps) hleft
      rw [assemble, extract_append hopening, List.flatMap_cons, List.append_assoc, List.map_cons,
        Extract.mk.injEq, List.append_cancel_left_eq] at h
      obtain ⟨hleft, hblocks⟩ := h
      have hclosing : docClosing ∉ p.2 := by
        intro hmem
        obtain ⟨b, rest, hp, hb⟩ := List.eq_append_cons_of_mem hmem
        rw [hp, List.append_assoc, List.cons_append, extract_block hb] at hblocks
        have hlength := congrArg List.length (List.cons.inj hblocks).1
        rw [List.length_append, List.length_cons] at hlength
        omega
      rw [extract_block hclosing] at hleft hblocks
      obtain ⟨hps, hz⟩ := ih (Extract.mk.injEq .. ▸ ⟨hleft, (List.cons.inj hblocks).2⟩)
      exact ⟨List.forall_mem_cons.mpr ⟨⟨hopening, hclosing⟩, hps⟩, hz⟩
  · rintro ⟨hps, hz⟩
    rw [extract_assemble hps, left_of_blocks_eq_nil hz, hz, List.append_nil]

end ZigNif.Glue.Elixir
