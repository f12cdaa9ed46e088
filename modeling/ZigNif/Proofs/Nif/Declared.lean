import ZigNif.Module
import ZigNif.Proofs.Nif.Verified

/-!
# Proofs/Nif/Declared — the normal form of the author's list

An element of the list is the wildcard, or it `Declares` a name with its options, in one of three
spellings.  `Lists` collects what the elements declare, in their order and with all repetitions.  The
normal form puts these values into a table one after another, so a name has the place of its first
declaration and the options of its last, and the wildcards only leave their mark on `auto`.
-/

namespace ZigNif

/-! ## One element -/

namespace Json

open Declaration (wildcardName)

/-- A nif may be called so. -/
def IsNifName (n : Text) : Prop := n ≠ [] ∧ n ≠ wildcardName

/-- The element declares a name with its options: the name alone, both in an array, or both in an
object, where the options may be left out. -/
inductive Declares : Json → Text → Table Json → Prop
  | bare {n : Text} (hn : IsNifName n) : Declares (.str n) n []
  | pair {n : Text} {options : Table Json} (hn : IsNifName n) :
      Declares (.arr [.str n, .obj options]) n options
  | object {fields options : Table Json} {n : Text} (hn : IsNifName n)
      (hfields : ∀ k ∈ Table.keys fields, k = "name" ∨ k = "options")
      (hname : Table.get? fields "name" = some (.str n))
      (hoptions : (Table.get? fields "options").getD (.obj []) = .obj options) :
      Declares (.obj fields) n options

/-- The element has one of the accepted shapes. -/
def IsDeclaration (v : Json) : Prop := v = .str wildcardName ∨ ∃ n options, v.Declares n options

variable {v : Json} {n : Text} {options : Table Json}

theorem Declares.isNifName (h : v.Declares n options) : IsNifName n := by
  cases h with
  | bare hn => exact hn
  | pair hn => exact hn
  | object hn => exact hn

/-- A declaration of a name is not the wildcard, whose dots are no name. -/
theorem Declares.ne_wildcard (h : v.Declares n options) : v ≠ .str wildcardName := by
  cases h with
  | bare hn => exact fun e => hn.2 (Json.str.inj e)
  | pair => exact nofun
  | object => exact nofun

end Json

namespace Declaration

open Json (IsNifName)

/-- What is declared, unless it is the wildcard. -/
def entry? : Declaration → Option (Text × Table Json)
  | wildcard => none
  | bare n => some (n, [])
  | withOptions n options => some (n, options)

variable {v name : Json} {n : Text} {options : Table Json} {a : Declaration}

theorem ofPair_of_isNifName (hn : IsNifName n) :
    ofPair (.str n) (.obj options) = .ok (withOptions n options) :=
  if_neg (not_or.mpr hn)

/-- What a pair is read as says what the pair was. -/
theorem eq_of_ofPair {fields : Json} (h : ofPair name fields = .ok a) :
    ∃ n options, IsNifName n ∧ name = .str n ∧ fields = .obj options ∧
      a = withOptions n options := by
  unfold ofPair at h
  split at h
  case h_1 n =>
    split at h
    case isTrue => cases h
    case isFalse hn =>
      split at h
      case h_1 options => exact ⟨n, options, not_or.mp hn, rfl, rfl, (Except.ok.inj h).symm⟩
      case h_2 => cases h
  case h_2 => cases h

/-- No field is unknown if each of them is the name or the options. -/
theorem unknown_eq_nil_iff {fields : Table Json} :
    ((Table.keys fields).filter fun k => k ∉ [("name" : Text), "options"]) = [] ↔
      ∀ k ∈ Table.keys fields, k = "name" ∨ k = "options" := by
  simp only [List.filter_eq_nil_iff, decide_eq_true_eq, not_not, List.mem_cons,
    List.not_mem_nil, or_false]

/-- What declares a name is read as an entry for it. -/
theorem ofJson_of_declares (h : v.Declares n options) :
    ∃ a, ofJson v = .ok a ∧ a.entry? = some (n, options) := by
  cases h with
  | bare hn => exact ⟨_, (if_neg hn.2).trans (if_neg hn.1), rfl⟩
  | pair hn => exact ⟨_, ofPair_of_isNifName hn, rfl⟩
  | object hn hfields hname hoptions =>
    refine ⟨withOptions n options, ?_, rfl⟩
    rw [ofJson, if_neg (not_not.mpr (unknown_eq_nil_iff.mpr hfields)), hname, Option.getD_some,
      hoptions, ofPair_of_isNifName hn]

/-- What is read is the wildcard or declares a name. -/
theorem eq_of_ofJson (h : ofJson v = .ok a) :
    (v = .str wildcardName ∧ a = wildcard) ∨
      ∃ n options, v.Declares n options ∧ a.entry? = some (n, options) := by
  unfold ofJson at h
  split at h
  case h_1 t =>
    split at h
    case isTrue ht => exact .inl ⟨congrArg Json.str ht, (Except.ok.inj h).symm⟩
    case isFalse hwildcard =>
      split at h
      case isTrue => cases h
      case isFalse ht =>
        obtain rfl := Except.ok.inj h
        exact .inr ⟨t, [], .bare ⟨ht, hwildcard⟩, rfl⟩
  case h_2 fields =>
    dsimp only at h
    split at h
    case isTrue => cases h
    case isFalse hfields =>
      obtain ⟨n, options, hn, hname, hoptions, rfl⟩ := eq_of_ofPair h
      refine .inr ⟨n, options, .object hn (unknown_eq_nil_iff.mp (not_not.mp hfields)) ?_ hoptions,
        rfl⟩
      -- an object without a name has the default, which is no name
      cases hget : Table.get? fields "name" with
      | none => rw [hget] at hname; cases hname
      | some v => rw [hget] at hname; exact congrArg some hname
  case h_3 =>
    obtain ⟨n, options, hn, rfl, rfl, rfl⟩ := eq_of_ofPair h
    exact .inr ⟨n, options, .pair hn, rfl⟩
  case h_4 => cases h

theorem ofJson_wildcard : ofJson (.str wildcardName) = .ok wildcard := by
  rw [ofJson, if_pos rfl]

/-- Reading succeeds on declarations only. -/
theorem exists_ofJson_eq_ok_iff : (∃ a, ofJson v = .ok a) ↔ v.IsDeclaration := by
  constructor
  · rintro ⟨a, ha⟩
    exact (eq_of_ofJson ha).imp And.left fun ⟨n, options, h, _⟩ => ⟨n, options, h⟩
  · rintro (rfl | ⟨n, options, h⟩)
    · exact ⟨wildcard, ofJson_wildcard⟩
    · obtain ⟨a, ha, -⟩ := ofJson_of_declares h
      exact ⟨a, ha⟩

theorem not_isDeclaration_of_ofJson {fault : Fault} (h : ofJson v = .error fault) :
    ¬ v.IsDeclaration := by
  intro hv
  obtain ⟨a, ha⟩ := exists_ofJson_eq_ok_iff.mpr hv
  rw [ha] at h
  cases h

end Declaration

/-! ## The list -/

namespace Declared

open Declaration (wildcardName)

/-- The names that a list of elements declares, with their options. -/
inductive Lists : List Json → List (Text × Table Json) → Prop
  | nil : Lists [] []
  | wildcard {nifs : List Json} {entries : List (Text × Table Json)} (h : Lists nifs entries) :
      Lists (.str wildcardName :: nifs) entries
  | name {v : Json} {n : Text} {options : Table Json} {nifs : List Json}
      {entries : List (Text × Table Json)} (hv : v.Declares n options) (h : Lists nifs entries) :
      Lists (v :: nifs) ((n, options) :: entries)

variable {nifs nifs' : List Json} {entries entries' : List (Text × Table Json)} {d d' : Declared}

theorem Lists.append (h : Lists nifs entries) (h' : Lists nifs' entries') :
    Lists (nifs ++ nifs') (entries ++ entries') := by
  induction h with
  | nil => exact h'
  | wildcard _ ih => exact .wildcard ih
  | name hv _ ih => exact .name hv ih

theorem Lists.isNifName (h : Lists nifs entries) : ∀ n ∈ Table.keys entries, Json.IsNifName n := by
  induction h with
  | nil => exact nofun
  | wildcard _ ih => exact ih
  | name hv _ ih => exact List.forall_mem_cons.mpr ⟨hv.isNifName, ih⟩

theorem add_of_entry? {a : Declaration} {n : Text} {options : Table Json}
    (h : a.entry? = some (n, options)) :
    d.add a = { d with entries := Table.put n options d.entries } := by
  cases a with
  | wildcard => cases h
  | bare n => cases h; rfl
  | withOptions n options => cases h; rfl

/-- One more element marks the list as automatic, or puts its options under its name. -/
theorem add_eq_ok_iff {v : Json} : d.add <$> Declaration.ofJson v = .ok d' ↔
    (v = .str wildcardName ∧ d' = { d with auto := true }) ∨
      ∃ n options, v.Declares n options ∧
        d' = { d with entries := Table.put n options d.entries } := by
  rw [map_eq_ok_iff]
  constructor
  · rintro ⟨a, ha, rfl⟩
    obtain ⟨hv, rfl⟩ | ⟨n, options, hv, hentry⟩ := Declaration.eq_of_ofJson ha
    · exact .inl ⟨hv, rfl⟩
    · exact .inr ⟨n, options, hv, add_of_entry? hentry⟩
  · rintro (⟨rfl, rfl⟩ | ⟨n, options, hv, rfl⟩)
    · exact ⟨.wildcard, Declaration.ofJson_wildcard, rfl⟩
    · obtain ⟨a, ha, hentry⟩ := Declaration.ofJson_of_declares hv
      exact ⟨a, ha, add_of_entry? hentry⟩

/-- **Reading the elements one after another puts what they declare into the table.** -/
theorem foldlM_eq_ok_iff :
    nifs.foldlM (fun d v => d.add <$> Declaration.ofJson v) d = .ok d' ↔
      ∃ entries, Lists nifs entries ∧ d'.entries = Table.putAll d.entries entries ∧
        (d'.auto ↔ d.auto ∨ .str wildcardName ∈ nifs) := by
  constructor
  · intro h
    induction nifs generalizing d with
    | nil =>
      cases h
      exact ⟨[], .nil, rfl, by simp⟩
    | cons v nifs ih =>
      obtain ⟨m, hm, h⟩ := foldlM_cons_eq_ok_iff.mp h
      obtain ⟨entries, hlists, hentries, hauto⟩ := ih h
      obtain ⟨rfl, rfl⟩ | ⟨n, options, hv, rfl⟩ := add_eq_ok_iff.mp hm
      · exact ⟨entries, .wildcard hlists, hentries, by simp [hauto]⟩
      · refine ⟨(n, options) :: entries, .name hv hlists, hentries, ?_⟩
        rw [hauto, List.mem_cons, or_iff_right hv.ne_wildcard.symm]
  · rintro ⟨entries, hlists, hentries, hauto⟩
    induction hlists generalizing d with
    | nil =>
      obtain ⟨auto, table⟩ := d
      obtain ⟨auto', table'⟩ := d'
      obtain rfl : table' = table := hentries
      obtain rfl : auto' = auto := Bool.eq_iff_iff.mpr (by simpa using hauto)
      rfl
    | wildcard _ ih =>
      refine foldlM_cons_eq_ok_iff.mpr ⟨_, add_eq_ok_iff.mpr (.inl ⟨rfl, rfl⟩), ih hentries ?_⟩
      simp [hauto]
    | name hv _ ih =>
      refine foldlM_cons_eq_ok_iff.mpr
        ⟨_, add_eq_ok_iff.mpr (.inr ⟨_, _, hv, rfl⟩), ih hentries ?_⟩
      rw [hauto, List.mem_cons, or_iff_right hv.ne_wildcard.symm]

/-- **A list is read as its entries, put into a table one after the other.** -/
theorem ofJson_eq_ok_iff : ofJson nifs = .ok d ↔
    ∃ entries, Lists nifs entries ∧ d.entries = Table.putAll [] entries ∧
      (d.auto ↔ .str wildcardName ∈ nifs) := by
  simp only [ofJson, foldlM_eq_ok_iff, Bool.false_eq_true, false_or]

theorem exists_ofJson_eq_ok_iff : (∃ d, ofJson nifs = .ok d) ↔ ∀ v ∈ nifs, v.IsDeclaration := by
  simp only [ofJson, foldlM_map, map_eq_ok_iff, ← Declaration.exists_ofJson_eq_ok_iff,
    ← exists_mapM_eq_ok_iff]
  exact ⟨fun ⟨_, as, has, _⟩ => ⟨as, has⟩, fun ⟨as, has⟩ => ⟨_, as, has, rfl⟩⟩

/-- **The list fails with the first element that is no declaration.** -/
theorem ofJson_eq_error_iff {fault : Declaration.Fault} : ofJson nifs = .error fault ↔
    ∃ before v after, nifs = before ++ v :: after ∧ (∀ u ∈ before, u.IsDeclaration) ∧
      Declaration.ofJson v = .error fault := by
  simp only [ofJson, foldlM_map, map_eq_error_iff, mapM_eq_error_iff,
    Declaration.exists_ofJson_eq_ok_iff]

/-! ## Its normal form as a list -/

/-- The declarations of a table, each a name with its options. -/
def encoded (entries : Table (Table Json)) : List Json :=
  entries.map fun e => .arr [.str e.1, .obj e.2]

/-- The wildcard, if the list is automatic. -/
def wildcards (d : Declared) : List Json := if d.auto then [.str wildcardName] else []

/-- A table, written as a list, lists its own entries. -/
theorem lists_encoded {entries : Table (Table Json)}
    (h : ∀ n ∈ Table.keys entries, Json.IsNifName n) : Lists (encoded entries) entries := by
  induction entries with
  | nil => exact .nil
  | cons e entries ih =>
    obtain ⟨hn, h⟩ := List.forall_mem_cons.mp h
    exact .name (.pair hn) (ih h)

theorem lists_wildcards : Lists d.wildcards [] := by
  unfold wildcards
  split
  · exact .wildcard .nil
  · exact .nil

theorem wildcard_notMem_encoded {entries : Table (Table Json)} :
    .str wildcardName ∉ encoded entries := by
  intro h
  obtain ⟨e, -, he⟩ := List.mem_map.mp h
  cases he

theorem wildcard_mem_wildcards : .str wildcardName ∈ d.wildcards ↔ d.auto := by
  unfold wildcards
  split <;> simp [*]

/-- **A normal list is its own normal form**, wherever the wildcard is put. -/
theorem ofJson_encoded {before after : Table (Table Json)} (h : ofJson nifs = .ok d)
    (hd : d.entries = before ++ after) :
    ofJson (encoded before ++ d.wildcards ++ encoded after) = .ok d := by
  obtain ⟨entries, hlists, hentries, -⟩ := ofJson_eq_ok_iff.mp h
  have hnames : ∀ n ∈ Table.keys (before ++ after), Json.IsNifName n := by
    intro n hn
    rw [← hd, hentries, Table.keys_putAll, List.mem_eraseDups] at hn
    exact hlists.isNifName n hn
  rw [Table.keys, List.map_append, List.forall_mem_append] at hnames
  refine ofJson_eq_ok_iff.mpr ⟨before ++ after, ?_, ?_, ?_⟩
  · have hbefore := (lists_encoded hnames.1).append (lists_wildcards (d := d))
    simpa using hbefore.append (lists_encoded hnames.2)
  · rw [← hd, Table.putAll_self (nodup_names_of_ofJson h)]
  · simp only [List.mem_append, wildcard_notMem_encoded, wildcard_mem_wildcards, false_or, or_false]

/-- **The normal form of two lists, one behind the other**, is that of the first under that of the
second. -/
theorem ofJson_append (h : ofJson nifs = .ok d) (h' : ofJson nifs' = .ok d') :
    ofJson (nifs ++ nifs') = .ok ⟨d.auto || d'.auto, Table.update d.entries d'.entries⟩ := by
  have hd := nodup_names_of_ofJson h
  obtain ⟨entries, hlists, hentries, hauto⟩ := ofJson_eq_ok_iff.mp h
  obtain ⟨entries', hlists', hentries', hauto'⟩ := ofJson_eq_ok_iff.mp h'
  refine ofJson_eq_ok_iff.mpr ⟨entries ++ entries', hlists.append hlists', ?_, ?_⟩
  · rw [Table.putAll_append, ← hentries, Table.putAll_eq_update hd, hentries']
  · rw [Bool.or_eq_true, hauto, hauto', List.mem_append]

end Declared

/-! ## The list of a module -/

namespace Options

open Declaration (wildcardName)
open Declared (Lists encoded)

variable {o : Options} {d : Declared}

theorem declared_eq_ok_iff : o.declared = .ok d ↔ Declared.ofJson o.nifs = .ok d := by
  unfold declared
  split <;> simp [*]

/-- The fault of a list is reported at the place of the module. -/
theorem declared_eq_error_iff {e : BuildError} : o.declared = .error e ↔
    ∃ fault, Declared.ofJson o.nifs = .error fault ∧ e = .config fault.message o.span := by
  unfold declared
  split <;> simp [*, eq_comm]

/-- **The normal form of the author's list.**  It exists unless an element is no declaration, and
then the first of these is complained about.  It is automatic if the wildcard is anywhere, it has
the names in the order of their first declarations, and each with the options of its last one.  So
it is the normal form of itself, and the normal form of two lists comes from theirs. -/
theorem declared_normal (o : Options) :
    ((∃ d, o.declared = .ok d) ↔ ∀ v ∈ o.nifs, v.IsDeclaration) ∧
    (∀ e, o.declared = .error e ↔
      ∃ before v after fault, o.nifs = before ++ v :: after ∧ (∀ u ∈ before, u.IsDeclaration) ∧
        ¬ v.IsDeclaration ∧ Declaration.ofJson v = .error fault ∧
        e = .config fault.message o.span) ∧
    (∀ d, o.declared = .ok d ↔
      ∃ entries, Lists o.nifs entries ∧ (d.auto ↔ .str wildcardName ∈ o.nifs) ∧
        d.names = (entries.map Prod.fst).eraseDups ∧
        ∀ n options, (n, options) ∈ d.entries ↔
          ∃ before after, entries = before ++ (n, options) :: after ∧ n ∉ Table.keys after) ∧
    (∀ d before after, o.declared = .ok d → d.entries = before ++ after →
      { o with nifs := encoded before ++ d.wildcards ++ encoded after }.declared = .ok d) ∧
    ∀ d nifs d', o.declared = .ok d → { o with nifs := nifs }.declared = .ok d' →
      { o with nifs := o.nifs ++ nifs }.declared =
        .ok ⟨d.auto || d'.auto, Table.update d.entries d'.entries⟩ := by
  simp only [declared_eq_ok_iff, declared_eq_error_iff]
  refine ⟨Declared.exists_ofJson_eq_ok_iff, fun e => ?_, fun d => ?_, fun d before after => ?_,
    fun d nifs d' => ?_⟩
  · simp only [Declared.ofJson_eq_error_iff]
    constructor
    · rintro ⟨fault, ⟨before, v, after, hnifs, hbefore, hv⟩, rfl⟩
      exact ⟨before, v, after, fault, hnifs, hbefore,
        Declaration.not_isDeclaration_of_ofJson hv, hv, rfl⟩
    · rintro ⟨before, v, after, fault, hnifs, hbefore, -, hv, rfl⟩
      exact ⟨fault, ⟨before, v, after, hnifs, hbefore, hv⟩, rfl⟩
  · simp only [Declared.ofJson_eq_ok_iff, Table.eq_putAll_iff]
    constructor
    · rintro ⟨entries, hlists, ⟨hnames, hlast⟩, hauto⟩
      exact ⟨entries, hlists, hauto, hnames, hlast⟩
    · rintro ⟨entries, hlists, hauto, hnames, hlast⟩
      exact ⟨entries, hlists, ⟨hnames, hlast⟩, hauto⟩
  · exact Declared.ofJson_encoded
  · exact Declared.ofJson_append

/-- Two names in all three spellings, each declared again behind a wildcard. -/
def repeatedOptions : Options :=
  { module := "m", file := "m.ex", env := "dev"
    nifs := [.str "f", .str "...", .arr [.str "g", .obj [("spec", .bool false)]], .str "...",
      .obj [("name", .str "f"), ("options", .obj [("concurrency", .str "threaded")])],
      .obj [("name", .str "g")]] }

def repeatedDeclared : Declared := ⟨true, [("f", [("concurrency", .str "threaded")]), ("g", [])]⟩

theorem declared_normal_repeated :
    repeatedOptions.declared = .ok repeatedDeclared ∧
      { repeatedOptions with
        nifs := [.arr [.str "f", .obj [("concurrency", .str "threaded")]], .str "...",
          .arr [.str "g", .obj []]] }.declared = .ok repeatedDeclared ∧
      { repeatedOptions with
        nifs := repeatedOptions.nifs ++ ([.str "h", .str "f"] : List Json) }.declared =
          .ok ⟨true, [("f", []), ("g", []), ("h", [])]⟩ := by
  have h : repeatedOptions.declared = .ok repeatedDeclared := by rfl
  obtain ⟨-, -, -, hencoded, happend⟩ := declared_normal repeatedOptions
  refine ⟨h, ?_, ?_⟩
  · exact hencoded _ [("f", [("concurrency", .str "threaded")])] [("g", [])] h rfl
  · exact happend _ [.str "h", .str "f"] ⟨false, [("h", []), ("f", [])]⟩ h (by rfl)

end Options

end ZigNif
