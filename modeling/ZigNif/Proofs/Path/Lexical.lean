import Mathlib.Logic.Relation
import ZigNif.Proofs.Files.Tree

/-!
# Proofs/Path/Lexical — where the pieces of a path lead from the root

Between its slashes a path has pieces.  A piece that is empty or a dot says nothing, `..` takes back
the name before it, and at the root there is nothing to take back.  Whatever is dropped first, the
same names are left in the end, and they are the location that the pieces lead to.
-/

namespace ZigNif.Path

/-- Pieces that can be dropped without changing where the rest leads. -/
inductive Drops : List Text → List Text → Prop
  | empty (front back : List Text) {n : Text} (hn : n = [] ∨ n = ['.']) :
      Drops (front ++ n :: back) (front ++ back)
  | name (front back : List Text) {n : Text} (hn : IsProperName n) :
      Drops (front ++ n :: parentName :: back) (front ++ back)
  | root (back : List Text) : Drops (parentName :: back) back

/-- Seen from the root, the pieces lead to the location. -/
def LeadsTo (pieces : List Text) (l : Location) : Prop :=
  Relation.ReflTransGen Drops pieces l ∧ ∀ n ∈ l, IsProperName n

/-- The names among the pieces, one after another, with names taken back. -/
def walked (pieces : List Text) : Location :=
  (pieces.filter fun n => n ≠ [] ∧ n ≠ ['.']).foldl (push true) []

variable {pieces pieces' front back : List Text} {l l' : Location} {n : Text}

/-- `..` takes back the last name. -/
theorem push_parentName_append (front : List Text) (hn : IsProperName n) :
    push true (front ++ [n]) parentName = front := by
  rw [push, if_neg fun hne => hne rfl, List.getLast?_concat]
  simp only [hn.2, if_false, List.dropLast_concat]

theorem filter_cons_of_isProperName (hn : IsProperName n) :
    (n :: back).filter (fun n => n ≠ [] ∧ n ≠ ['.']) =
      n :: back.filter (fun n => n ≠ [] ∧ n ≠ ['.']) :=
  List.filter_cons_of_pos (decide_eq_true ⟨hn.1.1, hn.1.2.1⟩)

theorem filter_cons_of_empty (hn : n = [] ∨ n = ['.']) :
    (n :: back).filter (fun n => n ≠ [] ∧ n ≠ ['.']) =
      back.filter (fun n => n ≠ [] ∧ n ≠ ['.']) :=
  List.filter_cons_of_neg (by rcases hn with rfl | rfl <;> decide)

theorem filter_cons_parentName :
    (parentName :: back).filter (fun n => n ≠ [] ∧ n ≠ ['.']) =
      parentName :: back.filter (fun n => n ≠ [] ∧ n ≠ ['.']) :=
  List.filter_cons_of_pos (by decide)

/-- What is dropped from a path does not change where it leads. -/
theorem Drops.walked_eq (h : Drops pieces pieces') : walked pieces = walked pieces' := by
  cases h with
  | empty front back hn => simp only [walked, List.filter_append, filter_cons_of_empty hn]
  | name front back hn =>
    simp only [walked, List.filter_append, filter_cons_of_isProperName hn, filter_cons_parentName,
      List.foldl_append, List.foldl_cons, push_of_ne hn.2, push_parentName_append _ hn]
  | root back =>
    have hroot : push true [] parentName = [] := rfl
    rw [walked, filter_cons_parentName, List.foldl_cons, hroot, walked]

/-- A path is walked piece by piece: what follows goes on from where the first part led. -/
theorem walked_append (pieces pieces' : List Text) : walked (pieces ++ pieces') =
    (pieces'.filter fun n => n ≠ [] ∧ n ≠ ['.']).foldl (push true) (walked pieces) := by
  rw [walked, List.filter_append, List.foldl_append, walked]

/-- Names without `..` among them lead where they say. -/
theorem walked_of_isProperName (h : ∀ n ∈ l, IsProperName n) : walked l = l := by
  have hfilter : l.filter (fun n => n ≠ [] ∧ n ≠ ['.']) = l :=
    List.filter_eq_self.mpr fun n hn => decide_eq_true ⟨(h n hn).1.1, (h n hn).1.2.1⟩
  rw [walked, hfilter, foldl_push_of_notMem fun hmem => (h _ hmem).2 rfl, List.nil_append]

theorem walked_eq_of_drops (h : Relation.ReflTransGen Drops pieces pieces') :
    walked pieces = walked pieces' := by
  induction h with
  | refl => rfl
  | tail _ hstep ih => rw [ih, hstep.walked_eq]

/-- Walking on from a location drops what it does not keep. -/
theorem drops_foldl_push (hslash : ∀ n ∈ back, '/' ∉ n) (hfront : ∀ n ∈ front, IsProperName n) :
    Relation.ReflTransGen Drops (front ++ back)
        ((back.filter fun n => n ≠ [] ∧ n ≠ ['.']).foldl (push true) front) ∧
      ∀ n ∈ (back.filter fun n => n ≠ [] ∧ n ≠ ['.']).foldl (push true) front, IsProperName n := by
  induction back generalizing front with
  | nil => exact ⟨by simpa using .refl, by simpa using hfront⟩
  | cons n back ih =>
    obtain ⟨hn, hback⟩ := List.forall_mem_cons.mp hslash
    by_cases hempty : n = [] ∨ n = ['.']
    · obtain ⟨hdrops, hproper⟩ := ih hback hfront
      rw [filter_cons_of_empty hempty]
      exact ⟨.head (.empty front back hempty) hdrops, hproper⟩
    · by_cases hparent : n = parentName
      · subst hparent
        rw [filter_cons_parentName, List.foldl_cons]
        obtain rfl | ⟨front, m, rfl⟩ := List.eq_nil_or_concat front
        · obtain ⟨hdrops, hproper⟩ := ih hback hfront
          exact ⟨.head (.root back) hdrops, hproper⟩
        · rw [List.concat_eq_append] at hfront ⊢
          obtain ⟨hfront, hm⟩ := List.forall_mem_append.mp hfront
          have hm : IsProperName m := hm m List.mem_cons_self
          obtain ⟨hdrops, hproper⟩ := ih hback hfront
          rw [push_parentName_append front hm, List.append_assoc]
          exact ⟨.head (.name front back hm) hdrops, hproper⟩
      · have hname : IsProperName n := ⟨⟨(not_or.mp hempty).1, (not_or.mp hempty).2, hn⟩, hparent⟩
        have hfront' : ∀ m ∈ front ++ [n], IsProperName m :=
          List.forall_mem_append.mpr ⟨hfront, List.forall_mem_singleton.mpr hname⟩
        obtain ⟨hdrops, hproper⟩ := ih hback hfront'
        rw [List.append_assoc, List.singleton_append] at hdrops
        rw [filter_cons_of_isProperName hname, List.foldl_cons, push_of_ne hparent]
        exact ⟨hdrops, hproper⟩

theorem LeadsTo.eq_walked (h : LeadsTo pieces l) : l = walked pieces := by
  rw [walked_eq_of_drops h.1, walked_of_isProperName h.2]

/-- **Pieces lead to one location**, in whatever order they are dropped. -/
theorem LeadsTo.eq (h : LeadsTo pieces l) (h' : LeadsTo pieces l') : l = l' :=
  h.eq_walked.trans h'.eq_walked.symm

/-- **Where a path leads is found by walking it.** -/
theorem leadsTo_iff (hslash : ∀ n ∈ pieces, '/' ∉ n) : LeadsTo pieces l ↔ l = walked pieces := by
  refine ⟨LeadsTo.eq_walked, ?_⟩
  rintro rfl
  exact drops_foldl_push hslash (List.forall_mem_nil IsProperName)

end ZigNif.Path
