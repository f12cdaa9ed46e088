import ZigNif.Proofs.Files.Kinds

/-!
# Proofs/Files/Below — changes below a location

What is written and made below a location does not show anywhere else: neither in what stands there,
nor in what the directories that are not below it hold.
-/

namespace ZigNif.FileTree

open ZigNif.Path

variable {t t' u new : FileTree} {here d l q r : Location} {p : Path} {name : Text}
  {bytes : List UInt8} {M : Prop}

/-! ## What directories hold -/

/-- A directory stays a directory, whatever is put below it. -/
theorem isFolder_put (hl : l ≠ []) : (t.put l new).isFolder = t.isFolder := by
  obtain ⟨name, l, rfl⟩ := List.exists_cons_of_ne_nil hl
  cases t <;> rfl

/-- A directory that does not lie below another does not show what is put into that one. -/
theorem entriesAt_put_append {inside : Table FileTree}
    (hdir : t.get? l = some (directory inside)) (hq : ¬ l <+: q) :
    (t.put (l ++ [name]) new).entriesAt q = t.entriesAt q := by
  induction l generalizing t q with
  | nil => exact absurd List.nil_prefix hq
  | cons k l ih =>
    cases t with
    | file bytes => cases hdir
    | directory top =>
      obtain ⟨sub, hsub, hdir⟩ := Option.bind_eq_some_iff.mp hdir
      have hput : (directory top).put (k :: l ++ [name]) new =
          directory (Table.put k (sub.put (l ++ [name]) new) top) := by
        rw [List.cons_append, put, hsub]
        rfl
      rw [hput]
      cases q with
      | nil =>
        have hfolder : (sub.put (l ++ [name]) new).isFolder = sub.isFolder :=
          isFolder_put (by simp)
        exact Table.map_put hsub (congrArg (k, ·) hfolder)
      | cons m q =>
        rw [entriesAt, entriesAt, get?, get?, Table.get?_put]
        by_cases hm : k = m
        · subst hm
          have ih := ih hdir (q := q) fun hprefix => hq (List.cons_prefix_cons.mpr ⟨rfl, hprefix⟩)
          rw [if_pos rfl, hsub]
          exact ih
        · rw [if_neg hm]

/-! ## Names in a directory -/

/-- No two things in one directory have the same name. -/
def HasDistinctNames (t : FileTree) : Prop := ∀ q, ((t.entriesAt q).map Prod.fst).Nodup

/-- A directory is listed under the names of its table. -/
theorem map_fst_entriesOf (inside : Table FileTree) :
    (entriesOf inside).map Prod.fst = Table.keys inside := by
  simp [entriesOf, Table.keys, Function.comp_def]

/-- What is listed one step down is listed in what stands there. -/
theorem entriesAt_cons {inside : Table FileTree} : (directory inside).entriesAt (name :: q) =
    ((Table.get? inside name).getD (directory [])).entriesAt q := by
  rw [entriesAt, entriesAt, get?]
  cases Table.get? inside name with
  | some sub => rfl
  | none => cases q <;> rfl

theorem hasDistinctNames_file : (file bytes).HasDistinctNames := fun q => by
  cases q <;> exact List.nodup_nil

/-- Names are distinct in a directory if they are on each level of it. -/
theorem hasDistinctNames_directory {inside : Table FileTree} (hkeys : (Table.keys inside).Nodup)
    (h : ∀ e ∈ inside, e.2.HasDistinctNames) : (directory inside).HasDistinctNames
  | [] => by
    change ((entriesOf inside).map Prod.fst).Nodup
    rwa [map_fst_entriesOf]
  | name :: q => by
    rw [entriesAt_cons]
    cases hsub : Table.get? inside name with
    | none => cases q <;> exact List.nodup_nil
    | some sub => exact h _ (Table.mem_of_get? hsub) q

/-- What is put under a name takes the place of what stood there, so no name comes up twice. -/
theorem HasDistinctNames.put (ht : t.HasDistinctNames) (hnew : ∀ q, new.entriesAt q = []) :
    (t.put l new).HasDistinctNames := by
  induction l generalizing t with
  | nil =>
    intro q
    rw [FileTree.put, hnew]
    exact List.nodup_nil
  | cons k l ih =>
    cases t with
    | file bytes => exact ht
    | directory inside =>
      intro q
      cases q with
      | nil =>
        have hkeys : ((entriesOf inside).map Prod.fst).Nodup := ht []
        change ((entriesOf (Table.put k _ inside)).map Prod.fst).Nodup
        rw [map_fst_entriesOf] at hkeys ⊢
        exact Table.nodup_keys_put hkeys
      | cons m q =>
        rw [FileTree.put, entriesAt_cons, Table.get?_put]
        by_cases hm : k = m
        · have hsub : ((Table.get? inside k).getD (directory [])).HasDistinctNames := fun q =>
            entriesAt_cons ▸ ht (k :: q)
          rw [if_pos hm]
          exact ih hsub q
        · rw [if_neg hm, ← entriesAt_cons]
          exact ht (m :: q)

/-- What a directory lists under a name stands under that name. -/
theorem HasDistinctNames.kindAt?_of_mem {isFolder : Bool} (ht : t.HasDistinctNames)
    (he : (name, isFolder) ∈ t.entriesAt q) : t.kindAt? (q ++ [name]) = some isFolder := by
  have hnames := ht q
  rw [entriesAt] at he hnames
  split at he
  · rename_i inside hget
    rw [hget] at hnames
    simp only [map_fst_entriesOf] at hnames
    obtain ⟨⟨key, e⟩, hmem, heq⟩ := List.mem_map.mp he
    obtain ⟨rfl, rfl⟩ := Prod.mk.inj heq
    have hsub := (Table.get?_eq_some_iff hnames).mpr hmem
    rw [kindAt?, nodeAt?, get?_append, hget]
    simp only [Option.bind_some, get?, hsub]
    cases e <;> rfl
  · cases he

theorem entriesAt_file : (file bytes).entriesAt q = [] := by
  cases q <;> rfl

theorem entriesAt_directory_nil : (directory []).entriesAt q = [] := by
  cases q <;> rfl

/-- Writing a file keeps names distinct. -/
theorem HasDistinctNames.of_write (ht : t.HasDistinctNames) (h : t.write here p bytes = .ok t') :
    t'.HasDistinctNames := by
  obtain ⟨way, -, h⟩ := bind_eq_ok_iff.mp h
  split at h
  · cases h
  · rw [← Except.ok.inj h]
    exact ht.put fun _ => entriesAt_file

/-- Making a directory keeps names distinct. -/
theorem HasDistinctNames.of_makeDirectory (ht : t.HasDistinctNames)
    (h : t.makeDirectory here p = .ok t') : t'.HasDistinctNames := by
  obtain ⟨way, -, h⟩ := bind_eq_ok_iff.mp h
  split at h
  · rw [← Except.ok.inj h]
    exact ht.put fun _ => entriesAt_directory_nil
  · cases h

/-! ## Changes below a location -/

/-- The location lies below another. -/
def IsBelow (d q : Location) : Prop := ∃ r ≠ [], q = d ++ r

/-- What is put below a location shows only in listings from that location on. -/
theorem IsBelow.entriesAt_put {way : Way} (hway : way.IsIn t) (hbelow : IsBelow d way.place)
    (hq : ¬ d <+: q) : (t.put way.place new).entriesAt q = t.entriesAt q := by
  obtain ⟨r, hr, hplace⟩ := hbelow
  cases way with
  | nil => exact absurd (List.append_eq_nil_iff.mp hplace.symm).2 hr
  | cons step way =>
    obtain ⟨name, e⟩ := step
    obtain ⟨-, ⟨inside, htarget, -⟩, hway⟩ := hway
    rw [Way.place_cons] at hplace ⊢
    have hfront : d <+: Way.place way := by
      obtain ⟨front, last, rfl⟩ := List.eq_nil_or_concat r |>.resolve_left hr
      rw [List.concat_eq_append, ← List.append_assoc] at hplace
      exact ⟨front, (List.append_inj_left' hplace rfl).symm⟩
    exact entriesAt_put_append (by rw [hway.get?_place, htarget]) fun hprefix =>
      hq (hfront.trans hprefix)

/-- The second tree comes from the first by changes below a location; files and directories stay
what they are, and directories are made only if `M`. -/
structure ChangesBelow (d : Location) (M : Prop) (t t' : FileTree) : Prop where
  nodeAt? : ∀ q, ¬ IsBelow d q → t'.nodeAt? q = t.nodeAt? q
  entriesAt : ∀ q, ¬ d <+: q → t'.entriesAt q = t.entriesAt q
  fits : t.Fits t'
  proper : t.IsProper → t'.IsProper
  distinct : t.HasDistinctNames → t'.HasDistinctNames
  directory : ¬ M → ∀ q, t'.kindAt? q = some true → t.kindAt? q = some true

instance : IsPreorder FileTree (ChangesBelow d M) where
  refl _ := ⟨fun _ _ => rfl, fun _ _ => rfl, fun _ _ => id, id, id, fun _ _ => id⟩
  trans _ _ _ h h' :=
    ⟨fun q hq => (h'.nodeAt? q hq).trans (h.nodeAt? q hq),
      fun q hq => (h'.entriesAt q hq).trans (h.entriesAt q hq),
      trans_of Fits h.fits h'.fits, h'.proper ∘ h.proper, h'.distinct ∘ h.distinct,
      fun hM q => h.directory hM q ∘ h'.directory hM q⟩

/-- Writing a file that lies below a location changes nothing else. -/
theorem changesBelow_of_write (hhere : ∀ n ∈ here, IsName n) (hp : p.IsClean)
    (hbelow : IsBelow d (p.place here)) (h : t.write here p bytes = .ok t') :
    ChangesBelow d M t t' where
  nodeAt? q hq := by
    rw [(alters_of_write h).nodeAt?, if_neg fun heq : q = _ => hq (heq ▸ hbelow)]
  entriesAt q hq := by
    obtain ⟨way, hfollow, h⟩ := bind_eq_ok_iff.mp h
    obtain ⟨hway, hplace⟩ := isIn_of_follow hfollow
    split at h
    · cases h
    · rw [← Except.ok.inj h]
      exact IsBelow.entriesAt_put hway (hplace ▸ hbelow) hq
  fits := fits_of_write h
  proper ht := ht.of_alters (alters_of_write h) fun _ => isProperName_place hhere hp
  distinct ht := ht.of_write h
  directory _ q hq := by
    rw [kindAt?_eq_true_iff, (alters_of_write h).nodeAt?] at hq
    rw [kindAt?_eq_true_iff]
    split at hq
    · cases hq
    · exact hq

/-- Making a directory that lies below a location changes nothing else. -/
theorem changesBelow_of_makeDirectory (hhere : ∀ n ∈ here, IsName n) (hp : p.IsClean)
    (hbelow : IsBelow d (p.place here)) (hM : M) (h : t.makeDirectory here p = .ok t') :
    ChangesBelow d M t t' where
  nodeAt? q hq := by
    rw [(alters_of_makeDirectory h).1.nodeAt?, if_neg fun heq : q = _ => hq (heq ▸ hbelow)]
  entriesAt q hq := by
    obtain ⟨way, hfollow, h⟩ := bind_eq_ok_iff.mp h
    obtain ⟨hway, hplace⟩ := isIn_of_follow hfollow
    split at h
    · rw [← Except.ok.inj h]
      exact IsBelow.entriesAt_put hway (hplace ▸ hbelow) hq
    · cases h
  fits := fits_of_makeDirectory h
  proper ht := ht.of_alters (alters_of_makeDirectory h).1 fun _ => isProperName_place hhere hp
  distinct ht := ht.of_makeDirectory h
  directory hno := absurd hM hno

end ZigNif.FileTree
