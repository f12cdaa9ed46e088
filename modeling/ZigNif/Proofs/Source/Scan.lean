import ZigNif.Proofs.Source.Tree
import ZigNif.Source.Parsed

/-!
# Proofs/Source/Scan — what one node does to the statement being read

One lemma for each kind of node; the proofs about whole files use these and never unfold the scan.
A scan can only fail at a name that cannot be read, whatever statement it is in, so a file parses if
its braces are balanced and its top-level names and its imports can be read.
-/

namespace ZigNif.Source

/-- The token is a name, quoted or not. -/
def Token.IsName (tok : Token) : Prop := tok.terminal = .name ∨ tok.terminal = .quotedName

instance (tok : Token) : Decidable tok.IsName := inferInstanceAs (Decidable (_ ∨ _))

/-- A name at the top level can be read; nothing else there is read. -/
def Node.IsReadable : Node → Prop
  | .leaf tok => tok.IsName → ∃ t, nameText tok = .ok t
  | .group .. => True

theorem nameText_of_name {tok : Token} (h : tok.terminal = .name) :
    nameText tok = .ok tok.text := by
  rw [nameText, if_neg (by rw [h]; decide)]

namespace Scan

variable {s s' : Scan} {tok : Token}

/-! ## One node -/

/-- The scan at the start of the next statement. -/
def atEnd (s : Scan) : Scan := { s with statement := {} }

@[simp] theorem decls_atEnd (s : Scan) : s.atEnd.decls = s.decls := rfl

/-- A group ends a statement that declares nothing, or a function. -/
theorem step_group_of_closed {opening closing : Token} {children : List Node}
    (h : s.statement.kind = none ∨ s.statement.kind = some .fn) :
    s.step (.group opening children closing) = .ok s.atEnd := by
  rcases h with h | h <;> simp [step, h, atEnd]

/-- A group is part of a statement that declares a constant or a variable. -/
theorem step_group_of_open {opening closing : Token} {children : List Node} {kind : DeclKind}
    (h : s.statement.kind = some kind) (hkind : kind ≠ .fn) :
    s.step (.group opening children closing) = .ok s := by
  cases kind with
  | fn => exact absurd rfl hkind
  | const => simp [step, h]
  | var => simp [step, h]

theorem step_group (s : Scan) (opening closing : Token) (children : List Node) :
    s.step (.group opening children closing) = .ok s.atEnd ∨
      s.step (.group opening children closing) = .ok s := by
  cases hkind : s.statement.kind with
  | none => exact Or.inl (step_group_of_closed (Or.inl hkind))
  | some kind =>
    by_cases hfn : kind = .fn
    · exact Or.inl (step_group_of_closed (Or.inr (hfn ▸ hkind)))
    · exact Or.inr (step_group_of_open hkind hfn)

theorem step_semicolon (h : tok.terminal = .semicolon) : s.step (.leaf tok) = .ok s.atEnd := by
  simp [step, h, atEnd]

/-- The scan with more doc comments in the statement. -/
def document (s : Scan) (docs : List Text) : Scan :=
  { s with statement := { s.statement with docs := s.statement.docs ++ docs } }

@[simp] theorem decls_document (s : Scan) (docs : List Text) :
    (s.document docs).decls = s.decls := rfl

theorem document_document (s : Scan) (docs docs' : List Text) :
    (s.document docs).document docs' = s.document (docs ++ docs') := by
  simp [document]

theorem step_docComment (h : tok.terminal = .docComment) :
    s.step (.leaf tok) = .ok (if s.statement.isStarted then s else s.document [docText tok]) := by
  simp only [step, h]
  split <;> rfl

theorem step_name (h : tok.IsName) : s.step (.leaf tok) = s.name tok := by
  rcases h with h | h <;> simp [step, h]

theorem step_other (hdoc : tok.terminal ≠ .docComment) (hsemi : tok.terminal ≠ .semicolon)
    (hname : ¬ tok.IsName) :
    s.step (.leaf tok) = .ok { s with statement := { s.statement with isStarted := true } } := by
  obtain ⟨hplain, hquoted⟩ := not_or.mp hname
  cases hterm : tok.terminal <;> simp_all [step]

/-- The name declares nothing: the statement has its name already, or the last word before is no
`fn`, `const` or `var`. -/
def NamesNothing (s : Scan) : Prop :=
  s.statement.kind ≠ none ∨ s.statement.words.getLast?.bind DeclKind.ofKeyword? = none

/-- The scan with one more word in the statement. -/
def word (s : Scan) (t : Text) : Scan :=
  { s with statement := { s.statement with isStarted := true, words := s.statement.words ++ [t] } }

@[simp] theorem docs_word (s : Scan) (t : Text) :
    (s.word t).statement.docs = s.statement.docs := rfl

@[simp] theorem words_word (s : Scan) (t : Text) :
    (s.word t).statement.words = s.statement.words ++ [t] := rfl

theorem name_of_namesNothing {t : Text} (h : s.NamesNothing) (ht : nameText tok = .ok t) :
    s.name tok = .ok (s.word t) := by
  rw [name, bind_eq_ok_iff]
  refine ⟨t, ht, ?_⟩
  rcases h with h | h
  · obtain ⟨kind, hkind⟩ := Option.ne_none_iff_exists'.mp h
    simp [hkind, word, pure, Except.pure]
  · cases hkind : s.statement.kind <;> simp [h, hkind, word, pure, Except.pure]

theorem name_of_keyword {t : Text} {kind : DeclKind} (hnone : s.statement.kind = none)
    (hlast : s.statement.words.getLast?.bind DeclKind.ofKeyword? = some kind)
    (ht : nameText tok = .ok t) :
    s.name tok = .ok
      ⟨s.decls ++ [{ name := t, kind, isPub := s.statement.words.contains "pub".toList
                     doc := if s.statement.docs = [] then none
                       else some (Text.unlines s.statement.docs)
                     line := tok.position.line }],
        { s.statement with isStarted := true, kind := some kind
                           words := s.statement.words ++ [t] }⟩ := by
  rw [name, bind_eq_ok_iff]
  refine ⟨t, ht, ?_⟩
  simp only [hnone, hlast]
  rfl

/-- A name either declares something or does not. -/
theorem namesNothing_or (s : Scan) : s.NamesNothing ∨
    s.statement.kind = none ∧
      ∃ kind, s.statement.words.getLast?.bind DeclKind.ofKeyword? = some kind := by
  by_cases hkind : s.statement.kind = none
  · cases hlast : s.statement.words.getLast?.bind DeclKind.ofKeyword? with
    | none => exact Or.inl (Or.inr hlast)
    | some kind => exact Or.inr ⟨hkind, kind, rfl⟩
  · exact Or.inl (Or.inl hkind)

/-! ## Steps in general -/

theorem exists_name_eq_ok_iff : (∃ s', s.name tok = .ok s') ↔ ∃ t, nameText tok = .ok t := by
  constructor
  · rintro ⟨s', h⟩
    rw [name, bind_eq_ok_iff] at h
    obtain ⟨t, ht, -⟩ := h
    exact ⟨t, ht⟩
  · rintro ⟨t, ht⟩
    rcases s.namesNothing_or with h | ⟨hnone, kind, hlast⟩
    · exact ⟨_, name_of_namesNothing h ht⟩
    · exact ⟨_, name_of_keyword hnone hlast ht⟩

/-- **A step fails only at a name that cannot be read.** -/
theorem exists_step_eq_ok_iff (s : Scan) (n : Node) :
    (∃ s', s.step n = .ok s') ↔ n.IsReadable := by
  cases n with
  | group opening children closing =>
    exact ⟨fun _ => trivial, fun _ =>
      (s.step_group opening closing children).elim (fun h => ⟨_, h⟩) fun h => ⟨_, h⟩⟩
  | leaf tok =>
    by_cases hname : tok.IsName
    · rw [step_name hname, exists_name_eq_ok_iff]
      exact ⟨fun h _ => h, fun h => h hname⟩
    · refine ⟨fun _ h => absurd h hname, fun _ => ?_⟩
      by_cases hdoc : tok.terminal = .docComment
      · exact ⟨_, step_docComment hdoc⟩
      · by_cases hsemi : tok.terminal = .semicolon
        · exact ⟨_, step_semicolon hsemi⟩
        · exact ⟨_, step_other hdoc hsemi hname⟩

/-- The name that a step over a name token has read. -/
theorem exists_nameText_of_step (hname : tok.IsName) (h : s.step (.leaf tok) = .ok s') :
    ∃ t, nameText tok = .ok t :=
  (exists_step_eq_ok_iff s (.leaf tok)).mp ⟨s', h⟩ hname

/-- **Declarations are only added.** -/
theorem decls_prefix_of_step {n : Node} (h : s.step n = .ok s') : s.decls <+: s'.decls := by
  cases n with
  | group opening children closing =>
    rcases s.step_group opening closing children with hg | hg <;> rw [hg] at h <;> cases h <;>
      exact List.prefix_refl _
  | leaf tok =>
    by_cases hname : tok.IsName
    · obtain ⟨t, ht⟩ := exists_nameText_of_step hname h
      rw [step_name hname] at h
      rcases s.namesNothing_or with hno | ⟨hnone, kind, hlast⟩
      · rw [name_of_namesNothing hno ht] at h
        cases h
        exact List.prefix_refl _
      · rw [name_of_keyword hnone hlast ht] at h
        cases h
        exact List.prefix_append _ _
    · by_cases hdoc : tok.terminal = .docComment
      · rw [step_docComment hdoc] at h
        split at h <;> cases h <;> exact List.prefix_refl _
      · by_cases hsemi : tok.terminal = .semicolon
        · rw [step_semicolon hsemi] at h
          cases h
          exact List.prefix_refl _
        · rw [step_other hdoc hsemi hname] at h
          cases h
          exact List.prefix_refl _

theorem decls_prefix_of_foldlM {ns : List Node} (h : ns.foldlM step s = .ok s') :
    s.decls <+: s'.decls := by
  induction ns generalizing s with
  | nil => cases h; exact List.prefix_refl _
  | cons n ns ih =>
    obtain ⟨m, hm, h⟩ := foldlM_cons_eq_ok_iff.mp h
    exact (decls_prefix_of_step hm).trans (ih h)

/-- A token that ends no statement adds nothing to one that has its name. -/
theorem step_leaf_of_kind {kind : DeclKind} (hkind : s.statement.kind = some kind)
    (hsemi : tok.terminal ≠ .semicolon) (h : s.step (.leaf tok) = .ok s') :
    s'.decls = s.decls ∧ s'.statement.kind = some kind := by
  by_cases hname : tok.IsName
  · obtain ⟨t, ht⟩ := exists_nameText_of_step hname h
    rw [step_name hname, name_of_namesNothing (Or.inl (by simp [hkind])) ht] at h
    cases h
    exact ⟨rfl, hkind⟩
  · by_cases hdoc : tok.terminal = .docComment
    · rw [step_docComment hdoc] at h
      split at h <;> cases h <;> exact ⟨rfl, hkind⟩
    · rw [step_other hdoc hsemi hname] at h
      cases h
      exact ⟨rfl, hkind⟩

/-- A name that declares nothing becomes a word of the statement. -/
theorem step_leaf_of_namesNothing (hname : tok.IsName) (hno : s.NamesNothing)
    (h : s.step (.leaf tok) = .ok s') : ∃ t, nameText tok = .ok t ∧ s' = s.word t := by
  obtain ⟨t, ht⟩ := exists_nameText_of_step hname h
  rw [step_name hname, name_of_namesNothing hno ht] at h
  exact ⟨t, ht, (Except.ok.inj h).symm⟩

/-- A token that is no name and ends no statement leaves the words as they are. -/
theorem step_leaf_of_not_name (hsemi : tok.terminal ≠ .semicolon) (hname : ¬ tok.IsName)
    (h : s.step (.leaf tok) = .ok s') :
    s'.decls = s.decls ∧ s'.statement.kind = s.statement.kind ∧
      s'.statement.words = s.statement.words := by
  by_cases hdoc : tok.terminal = .docComment
  · rw [step_docComment hdoc] at h
    split at h <;> cases h <;> exact ⟨rfl, rfl, rfl⟩
  · rw [step_other hdoc hsemi hname] at h
    cases h
    exact ⟨rfl, rfl, rfl⟩

end Scan

/-! ## Whole files -/

theorem exists_declarations_eq_ok_iff {ns : List Node} :
    (∃ ds, declarations ns = .ok ds) ↔ ∀ n ∈ ns, n.IsReadable := by
  rw [← exists_foldlM_eq_ok_iff Scan.exists_step_eq_ok_iff {}]
  simp only [declarations, map_eq_ok_iff]
  exact ⟨fun ⟨_, s, hs, _⟩ => ⟨s, hs⟩, fun ⟨s, hs⟩ => ⟨_, s, hs, rfl⟩⟩

theorem exists_importTargets_eq_ok_iff {toks : List Token} :
    (∃ ts, importTargets toks = .ok ts) ↔
      ∀ tok ∈ toks, tok.terminal = .importCall → ∃ t, importTarget tok = .ok t := by
  rw [importTargets, exists_mapM_eq_ok_iff]
  simp [List.mem_filter]

/-- What parsing a source with a given tree comes to. -/
theorem parse_eq_ok_iff {t : Text} {ns : List Node} (h : forest t = .ok ns) {parsed : Parsed} :
    parse t = .ok parsed ↔ declarations ns = .ok parsed.code ∧
      ∃ targets, importTargets (Node.tokensOfList ns) = .ok targets ∧
        parsed.dependencies = Text.distinct (targets.filter isZigFile) := by
  obtain ⟨code, dependencies⟩ := parsed
  simp only [parse, h, bind_eq_ok_iff, pure, Except.pure, Except.ok.injEq, Parsed.mk.injEq]
  constructor
  · rintro ⟨_, rfl, code, hcode, targets, htargets, rfl, rfl⟩
    exact ⟨hcode, targets, htargets, rfl⟩
  · rintro ⟨hcode, targets, htargets, rfl⟩
    exact ⟨ns, rfl, code, hcode, targets, htargets, rfl, rfl⟩

/-- A source that parses has a tree. -/
theorem exists_forest_of_parse {t : Text} {parsed : Parsed} (h : parse t = .ok parsed) :
    ∃ ns, forest t = .ok ns := by
  cases hforest : forest t with
  | ok ns => exact ⟨ns, rfl⟩
  | error fault =>
    simp only [parse, hforest] at h
    cases h

/-- **A balanced source parses if and only if its top-level names and its imports can be read.** -/
theorem exists_parse_eq_ok_iff {t : Text} {ns : List Node} (h : forest t = .ok ns) :
    (∃ parsed, parse t = .ok parsed) ↔ (∀ n ∈ ns, n.IsReadable) ∧
      ∀ tok ∈ Node.tokensOfList ns, tok.terminal = .importCall → ∃ t, importTarget tok = .ok t := by
  rw [← exists_declarations_eq_ok_iff, ← exists_importTargets_eq_ok_iff]
  simp only [parse_eq_ok_iff h]
  constructor
  · rintro ⟨parsed, hcode, targets, htargets, -⟩
    exact ⟨⟨_, hcode⟩, targets, htargets⟩
  · rintro ⟨⟨ds, hcode⟩, targets, htargets⟩
    exact ⟨⟨ds, _⟩, hcode, targets, htargets, rfl⟩

/-- **The error of a named file is its fault, at the place of the fault in this file.** -/
theorem parseFile_eq_error_iff {file t : Text} (hfile : file ≠ []) {e : BuildError} :
    parseFile (some file) t = .error e ↔ ∃ fault, parse t = .error fault ∧
      e = { reason := BuildError.parseReason, message := fault.message
            span := { file := some file, line := some fault.position.line
                      column := some fault.position.column } } := by
  have hspan : ∀ p : Position, p.span (some file) =
      { file := some file, line := some p.line, column := some p.column } := by
    intro p
    cases file with
    | nil => exact absurd rfl hfile
    | cons c r => rfl
  rw [parseFile]
  cases parse t with
  | error fault => simp [hspan, eq_comm]
  | ok parsed => simp

theorem exists_parseFile_eq_ok_iff {file : Option Text} {t : Text} :
    (∃ parsed, parseFile file t = .ok parsed) ↔ ∃ parsed, parse t = .ok parsed := by
  rw [parseFile]
  cases parse t with
  | error fault => simp
  | ok parsed => simp

end ZigNif.Source
