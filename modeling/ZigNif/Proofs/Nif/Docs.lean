import ZigNif.Module
import ZigNif.Proofs.Source.Documented

/-!
# Proofs/Nif/Docs — nifs with the documentation of their own functions

Where every name is declared once, a nif is documented by the declaration of its name, if that says
anything.  So the nifs of a source of documented functions get back what is written above their
functions (`withDocs_of_parse`), whatever it is and whatever is written above the others.
-/

namespace ZigNif

/-! ## Declarations of distinct names -/

namespace Nif

variable {name : Text} {d : Source.Decl} {code : List Source.Decl}

theorem docOf_of_none (h : d.doc = none) : docOf d = none := by
  rw [docOf, h]
  rfl

theorem docOf_of_some {t : Text} (h : d.doc = some t) :
    docOf d = if Text.trim t = [] then none else some (Text.trim t) := by
  rw [docOf, h]
  cases ht : Text.trim t <;> simp [ht]

theorem findDoc_cons_of_ne (h : d.name ≠ name) : findDoc name (d :: code) = findDoc name code := by
  rw [findDoc, List.filter_cons_of_neg (by simp [h])]
  rfl

theorem findDoc_cons_of_eq (h : d.name = name) :
    findDoc name (d :: code) = (docOf d).or (findDoc name code) := by
  rw [findDoc, List.filter_cons_of_pos (by simp [h]), List.findSome?_cons]
  cases docOf d <;> rfl

/-- A name without a declaration has no documentation. -/
theorem findDoc_eq_none (h : ∀ d ∈ code, d.name ≠ name) : findDoc name code = none := by
  induction code with
  | nil => rfl
  | cons d code ih =>
    obtain ⟨hd, hcode⟩ := List.forall_mem_cons.mp h
    rw [findDoc_cons_of_ne hd, ih hcode]

/-- **Among distinct names, the documentation of one is what its own declaration says.** -/
theorem findDoc_eq_docOf (hcode : (code.map Source.Decl.name).Nodup) (hd : d ∈ code) :
    findDoc d.name code = docOf d := by
  induction code with
  | nil => cases hd
  | cons d' code ih =>
    obtain ⟨hd', hcode⟩ := List.nodup_cons.mp hcode
    rcases List.mem_cons.mp hd with rfl | hd
    · have hnone : findDoc d.name code = none := findDoc_eq_none fun e he hname =>
        hd' (List.mem_map.mpr ⟨e, he, hname⟩)
      rw [findDoc_cons_of_eq rfl, hnone, Option.or_none]
    · have hne : d'.name ≠ d.name := fun hname => hd' (List.mem_map.mpr ⟨d, hd, hname.symm⟩)
      rw [findDoc_cons_of_ne hne, ih hcode hd]

end Nif

/-! ## Documented functions -/

namespace Source.Documented

variable {f : Documented} {fs : List Documented} {k : Nat}

/-- What is written above a function, if anything is. -/
def said (f : Documented) : Option Text :=
  let text := Text.trim (Text.unlines f.docs)
  if text = [] then none else some text

theorem docOf_declaration : Nif.docOf (f.declaration k) = f.said := by
  by_cases hdocs : f.docs = []
  · have hsaid : f.said = none := by
      rw [said, hdocs]
      rfl
    rw [hsaid]
    exact Nif.docOf_of_none (if_pos hdocs)
  · exact Nif.docOf_of_some (if_neg hdocs)

theorem map_name_declarations : (declarations k fs).map Decl.name = fs.map name := by
  induction fs generalizing k with
  | nil => rfl
  | cons f fs ih => exact congrArg (f.name :: ·) ih

theorem exists_declaration_mem (hf : f ∈ fs) :
    ∃ own, f.declaration own ∈ declarations k fs := by
  induction fs generalizing k with
  | nil => cases hf
  | cons f' fs ih =>
    rcases List.mem_cons.mp hf with rfl | hf
    · exact ⟨k, List.mem_cons_self⟩
    · obtain ⟨own, hown⟩ := ih (k := k + f'.lines.length) hf
      exact ⟨own, List.mem_cons_of_mem _ hown⟩

/-- Where the functions have distinct names, each is documented by what is above it. -/
theorem findDoc_declarations (hnames : (fs.map name).Nodup) (hf : f ∈ fs) :
    Nif.findDoc f.name (declarations k fs) = f.said := by
  obtain ⟨own, hown⟩ := exists_declaration_mem (k := k) hf
  rw [← map_name_declarations (k := k)] at hnames
  exact (Nif.findDoc_eq_docOf hnames hown).trans docOf_declaration

end Source.Documented

namespace Module

open Source (Documented)

/-- **The nifs of a source of documented functions get the lines above their own functions.**

Whatever the lines say, the source parses, declares its functions and nothing else, each with its
own lines, and imports nothing.  A nif that is one of the functions is then documented by the lines
above it, joined and without the white space around them, or not at all if nothing is left; and
nothing else of the module changes. -/
theorem withDocs_of_parse {fs : List Documented} (hnames : (fs.map Documented.name).Nodup)
    {ending : Text} (hending : ∀ c ∈ ending, Source.isLayoutBlank c) (file : Option Text) :
    Source.parseFile file (Documented.source fs ++ ending) =
        .ok { code := Documented.declarations 1 fs, dependencies := [] } ∧
      ∀ m : Module, m.parsed = some { code := Documented.declarations 1 fs, dependencies := [] } →
        (∀ n ∈ m.nifs, n.name ∈ fs.map Documented.name) →
        ∃ nifs, m.withDocs = { m with nifs } ∧
          List.Forall₂ (fun n n' => ∃ f ∈ fs, f.name = n.name ∧ n' = { n with doc := f.said })
            m.nifs nifs := by
  refine ⟨?_, fun m hm hnifs => ⟨_, rfl, ?_⟩⟩
  · rw [Source.parseFile, Documented.parse_source hending]
  · rw [hm, List.forall₂_map_right_iff, List.forall₂_same]
    intro n hn
    obtain ⟨f, hf, hname⟩ := List.mem_map.mp (hnifs n hn)
    have hdoc : Nif.findDoc n.name (Documented.declarations 1 fs) = f.said :=
      hname ▸ Documented.findDoc_declarations hnames hf
    exact ⟨f, hf, hname, congrArg (fun doc => { n with doc }) hdoc⟩

/-- Functions whose comments hold a slash, a brace, a quote and an import, or nothing. -/
def documentedFunctions : List Documented :=
  [⟨"add", ["/ adds \x7b", "", "@import(\"a.zig\") \" "],
      Source.isWord_of_all (c := 'a') (t := "dd") (by decide) (by decide), by decide⟩,
    ⟨"sub", [" ", "\t"], Source.isWord_of_all (c := 's') (t := "ub") (by decide) (by decide),
      by decide⟩,
    ⟨"fn", [], Source.isWord_of_all (c := 'f') (t := "n") (by decide) (by decide), by decide⟩]

/-- A module that has been parsed and exports these functions in another order. -/
def documentedModule : Module :=
  { ofOptions { module := "M", file := "m.zig", env := "dev" } {} with
    parsed := some { code := Documented.declarations 1 documentedFunctions, dependencies := [] }
    nifs := [("fn" : Text), "sub", "add"].map fun name =>
      { name, mode := .synchronous, signature := {} } }

theorem withDocs_of_parse_shuffled :
    (documentedFunctions.map Documented.name).Nodup ∧
      (∀ c ∈ ("\n" : Text), Source.isLayoutBlank c) ∧
      (∀ n ∈ documentedModule.nifs, n.name ∈ documentedFunctions.map Documented.name) ∧
      Source.parseFile (some "m.zig") (Documented.source documentedFunctions ++ "\n") =
        .ok { code := Documented.declarations 1 documentedFunctions, dependencies := [] } ∧
      (∃ nifs, documentedModule.withDocs = { documentedModule with nifs } ∧
        List.Forall₂ (fun n n' => ∃ f ∈ documentedFunctions, f.name = n.name ∧
          n' = { n with doc := f.said }) documentedModule.nifs nifs) ∧
      documentedModule.withDocs.nifs.map Nif.doc =
        [none, none, some ("/ adds \x7b\n\n@import(\"a.zig\") \"" : Text)] := by
  have hnames : (documentedFunctions.map Documented.name).Nodup := by decide
  have hending : ∀ c ∈ ("\n" : Text), Source.isLayoutBlank c :=
    List.forall_mem_singleton.mpr rfl
  have hnifs : ∀ n ∈ documentedModule.nifs, n.name ∈ documentedFunctions.map Documented.name := by
    decide
  obtain ⟨hparse, hdocs⟩ := withDocs_of_parse hnames hending (some "m.zig")
  exact ⟨hnames, hending, hnifs, hparse, hdocs documentedModule rfl hnifs, by decide +kernel⟩

end Module

end ZigNif
