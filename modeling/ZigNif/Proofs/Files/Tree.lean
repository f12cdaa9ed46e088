import ZigNif.Files.Tree
import ZigNif.Proofs.Except
import ZigNif.Proofs.Path
import ZigNif.Proofs.Table

/-!
# Proofs/Files/Tree — a tree of files as a map of locations

From outside, a tree says of every location whether a directory or a file stands there, and with
which bytes (`nodeAt?`).  Writing a file and making a directory alter that at one location, and
never where a directory stands.

A tree has no links, so a path can lead to one location only, the one that its names spell
(`Path.place`): `..` takes a name back.  Whether the path leads there depends on the directories of
the tree alone.
-/

namespace ZigNif

open ZigNif.Path

/-- The location that the names of a path spell, seen from the directory `here`. -/
def Path.place (here : Location) (p : Path) : Location :=
  ((⟨.slash, here⟩ : Path).join p).normal.names

/-- A name that a file or directory can have. -/
def Path.IsProperName (n : Text) : Prop := IsName n ∧ n ≠ parentName

instance : DecidablePred Path.IsProperName := fun n =>
  inferInstanceAs (Decidable ((n ≠ [] ∧ n ≠ ['.'] ∧ '/' ∉ n) ∧ n ≠ parentName))

namespace FileTree

variable {t t' new : FileTree} {here l q r : Location} {p : Path} {name : Text}
  {bytes : List UInt8}

/-! ## Entries -/

/-- What stands at a location: a file with its bytes, or a directory. -/
def nodeAt? (t : FileTree) (q : Location) : Option (Option (List UInt8)) := (t.get? q).map bytes?

/-- The bytes of the file that stands at a location. -/
def bytesAt? (t : FileTree) (q : Location) : Option (List UInt8) := (t.nodeAt? q).join

theorem get?_append : t.get? (q ++ r) = (t.get? q).bind (·.get? r) := by
  induction q generalizing t with
  | nil => simp [get?]
  | cons name q ih =>
    cases t with
    | file bytes => simp [get?]
    | directory inside =>
      rw [List.cons_append, get?, get?, Option.bind_assoc]
      simp only [ih]

theorem nodeAt?_eq_some_none_iff :
    t.nodeAt? q = some none ↔ ∃ inside, t.get? q = some (directory inside) := by
  rw [nodeAt?, Option.map_eq_some_iff]
  constructor
  · rintro ⟨_ | inside, hget, he⟩
    · cases he
    · exact ⟨inside, hget⟩
  · rintro ⟨inside, hget⟩
    exact ⟨_, hget, rfl⟩

theorem bytesAt?_eq_some_iff : t.bytesAt? q = some bytes ↔ t.get? q = some (file bytes) := by
  rw [bytesAt?, Option.join_eq_some_iff, nodeAt?, Option.map_eq_some_iff]
  constructor
  · rintro ⟨b | inside, hget, he⟩
    · rw [hget, Option.some.inj he]
    · cases he
  · exact fun hget => ⟨_, hget, rfl⟩

/-- What stands behind a file or in a directory tells what stands in front. -/
theorem exists_directory_of_append (hr : r ≠ []) (hget : (t.get? (q ++ r)).isSome) :
    ∃ inside, t.get? q = some (directory inside) := by
  rw [get?_append] at hget
  cases hq : t.get? q with
  | none => rw [hq] at hget; cases hget
  | some e =>
    obtain ⟨name, r, rfl⟩ := List.exists_cons_of_ne_nil hr
    cases e with
    | file bytes => rw [hq] at hget; cases hget
    | directory inside => exact ⟨inside, rfl⟩

/-! ## Altering a tree -/

/-- A tree without anything in it. -/
def IsLeaf (t : FileTree) : Prop := ∀ q ≠ [], t.get? q = none

theorem isLeaf_file : (file bytes).IsLeaf
  | [], h => absurd rfl h
  | _ :: _, _ => rfl

theorem isLeaf_directory_nil : (directory []).IsLeaf
  | [], h => absurd rfl h
  | _ :: _, _ => rfl

theorem IsLeaf.nodeAt? (h : t.IsLeaf) : t.nodeAt? q = if q = [] then some t.bytes? else none := by
  split
  case isTrue hq => rw [hq]; rfl
  case isFalse hq => rw [FileTree.nodeAt?, h q hq]; rfl

/-- **Putting a leaf into a directory, where nothing or a leaf stands, alters one location.** -/
theorem nodeAt?_put_append {inside : Table FileTree} (hnew : new.IsLeaf)
    (hdir : t.get? l = some (directory inside))
    (hold : ∀ e, Table.get? inside name = some e → e.IsLeaf) :
    (t.put (l ++ [name]) new).nodeAt? q =
      if q = l ++ [name] then some new.bytes? else t.nodeAt? q := by
  induction l generalizing t q with
  | nil =>
    obtain rfl : t = directory inside := Option.some.inj hdir
    cases q with
    | nil => rfl
    | cons m q =>
      by_cases hm : name = m
      · subst hm
        have hnone : q ≠ [] → (Table.get? inside name).bind (·.get? q) = none := fun hq =>
          Option.bind_eq_none_iff.mpr fun e he => hold e he q hq
        by_cases hq : q = []
        · subst hq
          simp [put, FileTree.nodeAt?, get?, Table.get?_put]
        · simp [put, FileTree.nodeAt?, get?, Table.get?_put, hq, hnew q hq, hnone hq]
      · have hm' : ¬ m = name := Ne.symm hm
        simp [put, FileTree.nodeAt?, get?, Table.get?_put, hm, hm']
  | cons k l ih =>
    cases t with
    | file bytes => cases hdir
    | directory top =>
      obtain ⟨sub, hsub, hdir⟩ := Option.bind_eq_some_iff.mp hdir
      cases q with
      | nil => rfl
      | cons m q =>
        have ih := ih hdir (q := q)
        by_cases hm : k = m
        · subst hm
          simpa [put, FileTree.nodeAt?, get?, Table.get?_put, hsub] using ih
        · have hm' : ¬ m = k := Ne.symm hm
          simp [put, FileTree.nodeAt?, get?, Table.get?_put, hm, hm']

/-- The second tree has `e` at the location, where no directory stands in the first one, and is like
the first one everywhere else. -/
structure Alters (t t' : FileTree) (l : Location) (e : Option (List UInt8)) : Prop where
  notDirectory : t.nodeAt? l ≠ some none
  nodeAt? : ∀ q, t'.nodeAt? q = if q = l then some e else t.nodeAt? q

theorem Alters.directory {e : Option (List UInt8)} (h : t.Alters t' l e)
    (hq : t.nodeAt? q = some none) : t'.nodeAt? q = some none := by
  rw [h.nodeAt?, if_neg fun heq : q = l => h.notDirectory (heq ▸ hq), hq]

/-! ## Where paths lead -/

namespace Way

variable {way way' : Way}

/-- Every name of the way is in a directory, with what the tree has there. -/
def IsIn (t : FileTree) : Way → Prop
  | [] => True
  | (name, e) :: way => name ≠ parentName ∧
      (∃ inside, target way t = some (directory inside) ∧ e = Table.get? inside name) ∧ IsIn t way

theorem isIn_nil : IsIn t [] := trivial

theorem place_cons {e : Option FileTree} : place ((name, e) :: way) = place way ++ [name] := by
  simp [place]

/-- **What stands at the end of a way is what the tree has there.** -/
theorem IsIn.get?_place (h : way.IsIn t) : t.get? way.place = way.target t := by
  induction way with
  | nil => rfl
  | cons step way ih =>
    obtain ⟨name, e⟩ := step
    obtain ⟨-, ⟨inside, htarget, rfl⟩, hway⟩ := h
    rw [place_cons, get?_append, ih hway, htarget]
    simp [get?, target]

theorem enter_eq_ok_iff : way.enter t name = .ok way' ↔
    ∃ inside, way.target t = some (directory inside) ∧
      (name = parentName ∧ way' = way.tail ∨
        name ≠ parentName ∧ byteLength name ≤ maxNameBytes ∧
          way' = (name, Table.get? inside name) :: way) := by
  rw [enter]
  cases way.target t with
  | none => simp
  | some e =>
    cases e with
    | file bytes => simp
    | directory inside =>
      by_cases hname : name = parentName
      · simp [hname, eq_comm]
      · by_cases hlong : byteLength name > maxNameBytes
        · simp [hname, hlong, Nat.not_le.mpr hlong]
        · simp [hname, hlong, eq_comm, Nat.not_lt.mp hlong]

/-- One name leads to where it leads in the text of a path. -/
theorem IsIn.enter (h : way.IsIn t) (henter : way.enter t name = .ok way') :
    way'.IsIn t ∧ way'.place = push true way.place name := by
  obtain ⟨inside, htarget, ⟨rfl, rfl⟩ | ⟨hname, -, rfl⟩⟩ := enter_eq_ok_iff.mp henter
  · cases way with
    | nil => exact ⟨trivial, rfl⟩
    | cons step way =>
      obtain ⟨m, e⟩ := step
      refine ⟨h.2.2, ?_⟩
      rw [List.tail_cons, place_cons, push, if_neg fun hne => hne rfl]
      simp [h.1]
  · exact ⟨⟨hname, ⟨inside, htarget, rfl⟩, h⟩, by rw [place_cons, push_of_ne hname]⟩

theorem IsIn.enters {names : List Text} (h : way.IsIn t)
    (henters : names.foldlM (Way.enter t) way = .ok way') :
    way'.IsIn t ∧ way'.place = names.foldl (push true) way.place := by
  induction names generalizing way with
  | nil => cases henters; exact ⟨h, rfl⟩
  | cons name names ih =>
    obtain ⟨way₁, henter, henters⟩ := foldlM_cons_eq_ok_iff.mp henters
    obtain ⟨h₁, hplace⟩ := h.enter henter
    obtain ⟨h', hplace'⟩ := ih h₁ henters
    exact ⟨h', by rw [hplace', hplace, List.foldl_cons]⟩

/-- The same names can be entered in a tree with at least the same directories. -/
theorem exists_enters {names : List Text} {way₂ : Way} (h : way.IsIn t) (h₂ : way₂.IsIn t')
    (hplace : way₂.place = way.place)
    (hdirs : ∀ q, t.nodeAt? q = some none → t'.nodeAt? q = some none)
    (henters : names.foldlM (Way.enter t) way = .ok way') :
    ∃ way₂', names.foldlM (Way.enter t') way₂ = .ok way₂' := by
  induction names generalizing way way₂ with
  | nil => exact ⟨way₂, rfl⟩
  | cons name names ih =>
    obtain ⟨way₁, henter, henters⟩ := foldlM_cons_eq_ok_iff.mp henters
    obtain ⟨inside, htarget, hcases⟩ := enter_eq_ok_iff.mp henter
    obtain ⟨inside₂, htarget₂⟩ : ∃ inside₂, way₂.target t' = some (directory inside₂) := by
      rw [← h₂.get?_place, hplace, ← nodeAt?_eq_some_none_iff]
      exact hdirs _ (nodeAt?_eq_some_none_iff.mpr ⟨inside, by rw [h.get?_place, htarget]⟩)
    obtain ⟨way₃, henter₃⟩ : ∃ way₃, way₂.enter t' name = .ok way₃ := by
      rcases hcases with ⟨hname, -⟩ | ⟨hname, hlong, -⟩
      · exact ⟨_, enter_eq_ok_iff.mpr ⟨inside₂, htarget₂, .inl ⟨hname, rfl⟩⟩⟩
      · exact ⟨_, enter_eq_ok_iff.mpr ⟨inside₂, htarget₂, .inr ⟨hname, hlong, rfl⟩⟩⟩
    obtain ⟨h₁, hplace₁⟩ := h.enter henter
    obtain ⟨h₃, hplace₃⟩ := h₂.enter henter₃
    obtain ⟨way₂', henters₂⟩ := ih h₁ h₃ (by rw [hplace₁, hplace₃, hplace]) henters
    exact ⟨way₂', foldlM_cons_eq_ok_iff.mpr ⟨way₃, henter₃, henters₂⟩⟩

end Way

theorem place_eq_foldl :
    p.place here = ((if p.root = .relative then here else []) ++ p.names).foldl (push true) [] := by
  rw [Path.place, join]
  split
  · rfl
  · rename_i hroot
    simp [normal, hroot]

theorem parentName_notMem_place : parentName ∉ p.place here :=
  parentName_notMem_normal (by rw [join]; split <;> simp_all)

/-- A path from a root leads to the same location from everywhere. -/
theorem place_of_ne_relative {here' : Location} (hroot : p.root ≠ .relative) :
    p.place here = p.place here' := by
  rw [place_eq_foldl, place_eq_foldl, if_neg hroot, if_neg hroot]

/-- A relative path without `..` leads down. -/
theorem place_of_relative (hroot : p.root = .relative) (hnames : parentName ∉ p.names)
    (hhere : parentName ∉ here) : p.place here = here ++ p.names := by
  have hnone : parentName ∉ here ++ p.names := by simp [hhere, hnames]
  rw [place_eq_foldl, if_pos hroot, foldl_push_of_notMem hnone, List.nil_append]

/-- A relative path that is joined to another leads on from where that one leads. -/
theorem place_join_of_relative {q : Path} (hroot : q.root = .relative) :
    (p.join q).place here = q.place (p.place here) := by
  rw [place_eq_foldl (p := q), if_pos hroot, List.foldl_append,
    foldl_push_of_notMem parentName_notMem_place, List.nil_append, place_eq_foldl,
    place_eq_foldl, ← List.foldl_append, List.append_assoc, join, if_pos hroot]

/-- Names without `..` lead on from where a path leads. -/
theorem place_join {names : List Text} (hnames : parentName ∉ names) :
    (p.join { names }).place here = p.place here ++ names := by
  have hjoin : p.join { names } = { p with names := p.names ++ names } := rfl
  rw [hjoin, place_eq_foldl, place_eq_foldl, ← List.append_assoc, List.foldl_append,
    foldl_push_of_notMem hnames]

theorem follow_eq_ok_iff {way : Way} : t.follow here p = .ok way ↔
    byteLength p.text < tooManyBytes ∧
      ((if p.root = .relative then here else []) ++ p.names).foldlM (Way.enter t) [] = .ok way := by
  rw [follow]
  split
  · rename_i hlong
    simp [Nat.not_lt.mpr hlong]
  · rename_i hlong
    simp [Nat.lt_of_not_le hlong]

/-- **A path leads to the location that its names spell.** -/
theorem isIn_of_follow {way : Way} (h : t.follow here p = .ok way) :
    way.IsIn t ∧ way.place = p.place here := by
  obtain ⟨-, henters⟩ := follow_eq_ok_iff.mp h
  rw [place_eq_foldl]
  exact Way.isIn_nil.enters henters

theorem get?_place_of_follow {way : Way} (h : t.follow here p = .ok way) :
    t.get? (p.place here) = way.target t := by
  obtain ⟨hway, hplace⟩ := isIn_of_follow h
  rw [← hplace, hway.get?_place]

/-- A path that can be followed can be followed when there are more directories. -/
theorem exists_follow {way : Way} (h : t.follow here p = .ok way)
    (hdirs : ∀ q, t.nodeAt? q = some none → t'.nodeAt? q = some none) :
    ∃ way', t'.follow here p = .ok way' := by
  obtain ⟨hlong, henters⟩ := follow_eq_ok_iff.mp h
  obtain ⟨way', henters'⟩ :=
    Way.exists_enters Way.isIn_nil Way.isIn_nil rfl hdirs henters
  exact ⟨way', follow_eq_ok_iff.mpr ⟨hlong, henters'⟩⟩

/-! ## The length of a path -/

theorem length_le_byteLength (s : Text) : s.length ≤ byteLength s := by
  induction s with
  | nil => simp [byteLength, Utf8.encode]
  | cons c s ih =>
    have hc : 0 < (String.utf8EncodeChar c).length := by
      rw [String.length_utf8EncodeChar]
      exact Char.utf8Size_pos c
    simp only [byteLength, Utf8.encode, List.flatMap_cons, List.length_append,
      List.length_cons] at ih ⊢
    omega

theorem length_le_length_joined {names : List Text} (hnames : ∀ n ∈ names, n ≠ []) :
    names.length ≤ (Text.joined ['/'] names).length := by
  match names with
  | [] => simp
  | [n] =>
    exact List.length_pos_iff.mpr (hnames n List.mem_cons_self)
  | n :: m :: ns =>
    have ih : (m :: ns).length ≤ (Text.joined ['/'] (m :: ns)).length :=
      length_le_length_joined fun k hk => hnames k (List.mem_cons_of_mem _ hk)
    have hjoined : Text.joined ['/'] (n :: m :: ns) =
        n ++ ['/'] ++ Text.joined ['/'] (m :: ns) := rfl
    rw [hjoined]
    simp only [List.length_append, List.length_cons, List.length_nil] at ih ⊢
    omega

theorem length_names_le_length_text (hp : p.IsClean) : p.names.length ≤ p.text.length := by
  obtain ⟨root, names⟩ := p
  have hjoined : names.length ≤ (Text.joined ['/'] names).length :=
    length_le_length_joined fun n hn => (hp n hn).1
  cases root with
  | relative =>
    cases names with
    | nil => simp
    | cons n ns => exact hjoined
  | slash =>
    have htext : (⟨.slash, names⟩ : Path).text = '/' :: Text.joined ['/'] names := rfl
    rw [htext, List.length_cons]
    exact Nat.le_succ_of_le hjoined
  | doubleSlash =>
    have htext : (⟨.doubleSlash, names⟩ : Path).text = '/' :: '/' :: Text.joined ['/'] names := rfl
    rw [htext, List.length_cons, List.length_cons]
    exact Nat.le_succ_of_le (Nat.le_succ_of_le hjoined)

/-! ## Using a tree -/

theorem get?_of_read (h : t.read here p = .ok bytes) :
    t.get? (p.place here) = some (file bytes) := by
  obtain ⟨way, hway, h⟩ := bind_eq_ok_iff.mp h
  rw [get?_place_of_follow hway]
  split at h
  · rename_i htarget
    rw [htarget, Except.ok.inj h]
  · cases h
  · cases h

theorem get?_of_list {inside : Table FileTree} (h : t.list here p = .ok inside) :
    t.get? (p.place here) = some (directory inside) := by
  obtain ⟨way, hway, h⟩ := bind_eq_ok_iff.mp h
  rw [get?_place_of_follow hway]
  split at h
  · rename_i htarget
    rw [htarget, Except.ok.inj h]
  · cases h
  · cases h

theorem exists_list_of_isDirectory (h : t.isDirectory here p = .ok true) :
    ∃ inside, t.list here p = .ok inside := by
  rw [isDirectory] at h
  split at h
  · rename_i inside hlist
    exact ⟨inside, hlist⟩
  · cases h
  · cases h

theorem nodeAt?_of_isDirectory (h : t.isDirectory here p = .ok true) :
    t.nodeAt? (p.place here) = some none := by
  obtain ⟨inside, hlist⟩ := exists_list_of_isDirectory h
  exact nodeAt?_eq_some_none_iff.mpr ⟨inside, get?_of_list hlist⟩

/-- A directory stays one when there are more directories. -/
theorem isDirectory_of_follow (h : t.isDirectory here p = .ok true)
    (hdirs : ∀ q, t.nodeAt? q = some none → t'.nodeAt? q = some none) :
    t'.isDirectory here p = .ok true := by
  obtain ⟨inside, hlist⟩ := exists_list_of_isDirectory h
  obtain ⟨way, hway, -⟩ := bind_eq_ok_iff.mp hlist
  obtain ⟨way', hway'⟩ := exists_follow hway hdirs
  obtain ⟨inside', hget'⟩ := nodeAt?_eq_some_none_iff.mp (hdirs _ (nodeAt?_of_isDirectory h))
  have hlist' : t'.list here p = .ok inside' := by
    refine bind_eq_ok_iff.mpr ⟨way', hway', ?_⟩
    rw [← get?_place_of_follow hway', hget']
    rfl
  rw [isDirectory, hlist']

/-- What is put at the end of a way, where nothing or a file stands, alters the tree there. -/
theorem alters_put {way : Way} (hway : way.IsIn t) (hnew : new.IsLeaf)
    (hold : ∀ inside, way.target t ≠ some (directory inside)) :
    t.Alters (t.put way.place new) way.place new.bytes? := by
  have hleaf : ∀ e, way.target t = some e → e.IsLeaf := by
    rintro (bytes | inside) htarget
    · exact isLeaf_file
    · exact absurd htarget (hold inside)
  refine ⟨fun hdir => ?_, fun q => ?_⟩
  · obtain ⟨inside, hget⟩ := nodeAt?_eq_some_none_iff.mp hdir
    exact hold inside (by rw [← hway.get?_place, hget])
  · cases way with
    | nil =>
      show new.nodeAt? q = if q = [] then some new.bytes? else t.nodeAt? q
      rw [hnew.nodeAt?, (hleaf t rfl).nodeAt?]
      split <;> simp [*]
    | cons step way =>
      obtain ⟨name, e⟩ := step
      obtain ⟨-, ⟨inside, htarget, rfl⟩, hway⟩ := hway
      rw [Way.place_cons]
      exact nodeAt?_put_append hnew (by rw [hway.get?_place, htarget]) hleaf

/-- **Writing a file alters one location.** -/
theorem alters_of_write (h : t.write here p bytes = .ok t') :
    t.Alters t' (p.place here) (some bytes) := by
  obtain ⟨way, hfollow, h⟩ := bind_eq_ok_iff.mp h
  obtain ⟨hway, hplace⟩ := isIn_of_follow hfollow
  split at h
  · cases h
  · rename_i hold
    rw [← Except.ok.inj h, ← hplace]
    exact alters_put hway isLeaf_file hold

/-- **Making a directory alters one location, where nothing stood before.** -/
theorem alters_of_makeDirectory (h : t.makeDirectory here p = .ok t') :
    t.Alters t' (p.place here) none ∧ t.nodeAt? (p.place here) = none := by
  obtain ⟨way, hfollow, h⟩ := bind_eq_ok_iff.mp h
  obtain ⟨hway, hplace⟩ := isIn_of_follow hfollow
  split at h
  · rename_i htarget
    rw [← Except.ok.inj h, ← hplace, FileTree.nodeAt?, hway.get?_place, htarget]
    refine ⟨alters_put hway isLeaf_directory_nil fun inside hinside => ?_, rfl⟩
    rw [htarget] at hinside
    cases hinside
  · cases h

/-! ## What writing files and making directories does to one place -/

theorem bytesAt?_of_write (h : t.write here p bytes = .ok t') :
    t'.bytesAt? q = if q = p.place here then some bytes else t.bytesAt? q := by
  rw [bytesAt?, (alters_of_write h).nodeAt?]
  split <;> rfl

/-- Where a directory is made, no file stands before and after. -/
theorem bytesAt?_of_makeDirectory (h : t.makeDirectory here p = .ok t') :
    t'.bytesAt? q = t.bytesAt? q := by
  obtain ⟨halters, hnone⟩ := alters_of_makeDirectory h
  rw [bytesAt?, bytesAt?, halters.nodeAt?]
  split
  · rename_i hq
    rw [hq, hnone]
    rfl
  · rfl

theorem eq_of_read (h : t.read here p = .ok bytes) {b : List UInt8}
    (hb : t.bytesAt? (p.place here) = some b) :
    bytes = b := by
  rw [bytesAt?_eq_some_iff, get?_of_read h] at hb
  injection Option.some.inj hb

/-! ## Proper trees -/

/-- Whatever stands in the tree has a location that can be written as a path. -/
def IsProper (t : FileTree) : Prop := ∀ q, (t.nodeAt? q).isSome → ∀ n ∈ q, IsProperName n

theorem isProper_file : (file bytes).IsProper
  | [], _ => nofun
  | _ :: _, h => nomatch h

theorem isProper_directory {inside : Table FileTree}
    (h : ∀ e ∈ inside, IsProperName e.1 ∧ e.2.IsProper) : (directory inside).IsProper
  | [], _ => nofun
  | name :: q, hq => by
    obtain ⟨sub, hsub, hq⟩ : ∃ sub, Table.get? inside name = some sub ∧ (sub.nodeAt? q).isSome := by
      cases hsub : Table.get? inside name with
      | none => simp [FileTree.nodeAt?, get?, hsub] at hq
      | some sub => exact ⟨sub, rfl, by simpa [FileTree.nodeAt?, get?, hsub] using hq⟩
    obtain ⟨hname, hsubProper⟩ := h _ (Table.mem_of_get? hsub)
    exact List.forall_mem_cons.mpr ⟨hname, hsubProper q hq⟩

theorem IsProper.of_alters {e : Option (List UInt8)} (ht : t.IsProper) (h : t.Alters t' l e)
    (hl : ∀ n ∈ l, IsProperName n) : t'.IsProper := by
  intro q hq
  rw [h.nodeAt?] at hq
  split at hq
  · rename_i heq
    exact heq ▸ hl
  · exact ht q hq

theorem IsProper.of_mem {inside : Table FileTree} {e : Text × FileTree} (ht : t.IsProper)
    (hl : t.get? l = some (directory inside)) (he : e ∈ inside) : IsProperName e.1 := by
  have hkey : e.1 ∈ Table.keys inside := List.mem_map.mpr ⟨e, he, rfl⟩
  obtain ⟨sub, hsub⟩ : ∃ sub, Table.get? inside e.1 = some sub :=
    Option.ne_none_iff_exists'.mp (mt Table.get?_eq_none_iff.mp (not_not.mpr hkey))
  refine ht (l ++ [e.1]) ?_ e.1 (by simp)
  simp [FileTree.nodeAt?, get?_append, hl, get?, hsub]

/-- **The names that lead to something in a proper tree are those of a path.** -/
theorem IsProper.isName_of_enters {names : List Text} {way way' : Way} (ht : t.IsProper)
    (hway : way.IsIn t) (henters : names.foldlM (Way.enter t) way = .ok way')
    (htarget : (way'.target t).isSome) : ∀ n ∈ names, IsName n := by
  induction names generalizing way with
  | nil => exact nofun
  | cons name names ih =>
    obtain ⟨way₁, henter, henters⟩ := foldlM_cons_eq_ok_iff.mp henters
    obtain ⟨hway₁, hplace⟩ := hway.enter henter
    refine List.forall_mem_cons.mpr ⟨?_, ih hway₁ henters⟩
    by_cases hname : name = parentName
    · exact hname ▸ ⟨by simp, by simp, by simp⟩
    · have hsome : (way₁.target t).isSome := by
        cases names with
        | nil => cases henters; exact htarget
        | cons m names =>
          obtain ⟨way₂, henter₂, -⟩ := foldlM_cons_eq_ok_iff.mp henters
          obtain ⟨inside, htarget₁, -⟩ := Way.enter_eq_ok_iff.mp henter₂
          rw [htarget₁]
          rfl
      have hentry : (t.nodeAt? way₁.place).isSome := by
        rwa [FileTree.nodeAt?, hway₁.get?_place, Option.isSome_map]
      exact (ht _ hentry name (by rw [hplace, push_of_ne hname]; simp)).1

theorem IsProper.isClean_of_read (ht : t.IsProper) (h : t.read here p = .ok bytes) :
    p.IsClean := by
  obtain ⟨way, hway, h⟩ := bind_eq_ok_iff.mp h
  obtain ⟨-, henters⟩ := follow_eq_ok_iff.mp hway
  have htarget : (way.target t).isSome := by
    split at h
    · rename_i htarget
      rw [htarget]
      rfl
    · cases h
    · cases h
  exact fun n hn => ht.isName_of_enters Way.isIn_nil henters htarget n
    (List.mem_append_right _ hn)

theorem isProperName_place {n : Text} (hhere : ∀ n ∈ here, IsName n) (hp : p.IsClean)
    (hn : n ∈ p.place here) : IsProperName n := by
  have hclean : ((⟨.slash, here⟩ : Path).join p).IsClean := isClean_join hhere hp
  refine ⟨isClean_normal hclean n hn, fun heq => ?_⟩
  refine parentName_notMem_normal (p := (⟨.slash, here⟩ : Path).join p) ?_ (heq ▸ hn)
  rw [join]
  split
  · rintro ⟨⟩
  · assumption

end FileTree

end ZigNif
