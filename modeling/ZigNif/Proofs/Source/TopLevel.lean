import Mathlib.Data.List.Chain
import ZigNif.Proofs.Source.Scan

/-!
# Proofs/Source/TopLevel — a file of declarations, read item by item

A file of declarations is a sequence of items: functions, each with a signature and a body, and
constants and variables, each up to its semicolon.  An item is read as its own declaration, unless
it is a function whose signature holds a group of braces: the scan takes that group for the body,
and starts a new statement behind it.  If the rest of the signature has a declaring word before a name
(`error{E}![]const u8`), that name is read as a declaration of its own.  `Item.IsPlain` rules this
out, and where every item has lines of its own it is exactly what is needed.
-/

namespace ZigNif.Source

/-! ## Items -/

/-- The beginning of an item: doc comments, perhaps `pub`, a declaring word, and a name. -/
structure Head where
  docs : List Token
  pub : Option Token
  keyword : Token
  name : Token

/-- A declaration at the top level, as the tree has it. -/
inductive Item
  | function (head : Head) (signature : List Node) (opening : Token) (body : List Node)
    (closing : Token)
  | value (head : Head) (kind : DeclKind) (rest : List Node) (semicolon : Token)

namespace Head

/-- The nodes of the beginning of an item. -/
def nodes (h : Head) : List Node :=
  h.docs.map .leaf ++ (h.pub.toList.map .leaf ++ [.leaf h.keyword, .leaf h.name])

/-- The tokens are what they should be for an item of that kind. -/
structure IsProper (h : Head) (kind : DeclKind) : Prop where
  docs : ∀ tok ∈ h.docs, tok.terminal = .docComment
  pub : ∀ tok ∈ h.pub, tok.terminal = .name ∧ tok.text = "pub".toList
  keyword : h.keyword.terminal = .name ∧ h.keyword.text = kind.keyword
  name : h.name.IsName

/-- What the item declares, if its name can be read. -/
def declared (h : Head) (kind : DeclKind) : Except Fault Decl := do
  let name ← nameText h.name
  pure { name, kind, isPub := h.pub.isSome
         doc := if h.docs = [] then none else some (Text.unlines (h.docs.map docText))
         line := h.name.position.line }

end Head

/-- A word that a group of braces can follow in a type. -/
def Node.IsTypeWord : Node → Prop
  | .leaf tok => tok.terminal = .name ∧
    tok.text ∈ [("error" : Text), "struct", "union", "enum", "opaque"]
  | .group .. => False

def Node.IsGroup : Node → Prop
  | .leaf _ => False
  | .group .. => True

/-- No semicolon stands among the nodes, outside of groups. -/
def Unended (ns : List Node) : Prop := ∀ tok, .leaf tok ∈ ns → tok.terminal ≠ .semicolon

namespace Item

def head : Item → Head
  | function h .. => h
  | value h .. => h

def kind : Item → DeclKind
  | function .. => .fn
  | value _ kind .. => kind

/-- The nodes of an item. -/
def nodes : Item → List Node
  | function h signature opening body closing =>
    h.nodes ++ (signature ++ [.group opening body closing])
  | value h _ rest semicolon => h.nodes ++ (rest ++ [.leaf semicolon])

/-- The item is a declaration: its braces are balanced, it ends where it should, and every group of
a signature, but not the body, follows a word that a group can follow in a type. -/
def IsProper : Item → Prop
  | function h signature opening body closing =>
    h.IsProper .fn ∧ Node.AllBraced signature ∧ Unended signature ∧
      (.leaf h.name :: signature).IsChain (fun m n => n.IsGroup → m.IsTypeWord) ∧
      (Node.group opening body closing).IsBraced ∧
      ∀ n ∈ (.leaf h.name :: signature).getLast?, ¬ n.IsTypeWord
  | value h kind rest semicolon =>
    h.IsProper kind ∧ kind ≠ .fn ∧ Node.AllBraced rest ∧ Unended rest ∧
      semicolon.terminal = .semicolon

/-- What the item declares, if its name can be read. -/
def declared (i : Item) : Except Fault Decl := i.head.declared i.kind

end Item

/-! ## Stretches

Names that stand between the same two groups are the words of one statement to the scan. -/

/-- The name that a token spells, if it can be read. -/
def wordOf (tok : Token) : Text :=
  match nameText tok with
  | .ok t => t
  | .error _ => []

theorem wordOf_eq {tok : Token} {t : Text} (h : nameText tok = .ok t) : wordOf tok = t := by
  rw [wordOf, h]

/-- The names before the first group, and the names of each stretch behind a group. -/
def stretches : List Node → List Text × List (List Text)
  | [] => ([], [])
  | .group .. :: ns => ([], (stretches ns).1 :: (stretches ns).2)
  | .leaf tok :: ns =>
    if tok.IsName then (wordOf tok :: (stretches ns).1, (stretches ns).2) else stretches ns

/-- None of the names but the last declares: a declaring word declares the name behind it. -/
def DeclaresNothing (names : List Text) : Prop :=
  names.IsChain fun word _ => DeclKind.ofKeyword? word = none

/-- Behind a group of a function's signature, no declaring word has a name behind it. -/
def Item.IsPlain : Item → Prop
  | .function _ signature .. => ∀ names ∈ (stretches signature).2, DeclaresNothing names
  | .value .. => True

/-- `DeclaresNothing` for all stretches of the nodes, the first being that of `last` and on. -/
def IsPlainFrom (last : Option Text) (ns : List Node) : Prop :=
  DeclaresNothing (last.toList ++ (stretches ns).1) ∧
    ∀ names ∈ (stretches ns).2, DeclaresNothing names

theorem isPlainFrom_group {last : Option Text} {opening closing : Token} {children ns : List Node} :
    IsPlainFrom last (.group opening children closing :: ns) ↔ IsPlainFrom none ns := by
  have hlast : DeclaresNothing last.toList := by cases last <;> simp [DeclaresNothing]
  simp [IsPlainFrom, stretches, hlast]

theorem isPlainFrom_name {last : Option Text} {tok : Token} {ns : List Node} (h : tok.IsName) :
    IsPlainFrom last (.leaf tok :: ns) ↔
      last.bind DeclKind.ofKeyword? = none ∧ IsPlainFrom (some (wordOf tok)) ns := by
  cases last with
  | none => simp [IsPlainFrom, stretches, h]
  | some word => simp [IsPlainFrom, stretches, h, DeclaresNothing, and_assoc]

theorem isPlainFrom_other {last : Option Text} {tok : Token} {ns : List Node} (h : ¬ tok.IsName) :
    IsPlainFrom last (.leaf tok :: ns) ↔ IsPlainFrom last ns := by
  simp [IsPlainFrom, stretches, h]

namespace Scan

variable {s s' : Scan} {ns : List Node}

theorem unended_cons {n : Node} (h : Unended (n :: ns)) : Unended ns := fun tok htok =>
  h tok (List.mem_cons_of_mem _ htok)

/-! ## Nodes of a statement without a name -/

/-- **Plain nodes declare nothing**, in a statement that has no name yet. -/
theorem foldlM_of_isPlainFrom (hkind : s.statement.kind = none) (hend : Unended ns)
    (hplain : IsPlainFrom s.statement.words.getLast? ns) (h : ns.foldlM step s = .ok s') :
    s'.decls = s.decls ∧ s'.statement.kind = none := by
  induction ns generalizing s with
  | nil => cases h; exact ⟨rfl, hkind⟩
  | cons n ns ih =>
    obtain ⟨m, hm, hns⟩ := foldlM_cons_eq_ok_iff.mp h
    cases n with
    | group opening children closing =>
      rw [step_group_of_closed (Or.inl hkind)] at hm
      obtain rfl : s.atEnd = m := Except.ok.inj hm
      obtain ⟨hdecls, hnone⟩ :=
        ih (s := s.atEnd) rfl (unended_cons hend) (isPlainFrom_group.mp hplain) hns
      exact ⟨hdecls, hnone⟩
    | leaf tok =>
      have hsemi : tok.terminal ≠ .semicolon := hend tok List.mem_cons_self
      by_cases hname : tok.IsName
      · obtain ⟨hlast, hrest⟩ := (isPlainFrom_name hname).mp hplain
        obtain ⟨t, ht, rfl⟩ := step_leaf_of_namesNothing hname (Or.inr hlast) hm
        refine ih (s := s.word t) hkind (unended_cons hend) ?_ hns
        rwa [words_word, List.getLast?_concat, ← wordOf_eq ht]
      · obtain ⟨hdecls, hkind', hwords⟩ := step_leaf_of_not_name hsemi hname hm
        rw [← hdecls]
        refine ih (hkind'.trans hkind) (unended_cons hend) ?_ hns
        rw [hwords]
        exact (isPlainFrom_other hname).mp hplain

/-- **Nodes that are not plain declare something**, on the line of one of their tokens. -/
theorem foldlM_of_not_isPlainFrom (hkind : s.statement.kind = none) (hend : Unended ns)
    (hplain : ¬ IsPlainFrom s.statement.words.getLast? ns) (h : ns.foldlM step s = .ok s') :
    ∃ d, s.decls ++ [d] <+: s'.decls ∧ ∃ tok, .leaf tok ∈ ns ∧ d.line = tok.position.line := by
  induction ns generalizing s with
  | nil =>
    have hlast : DeclaresNothing s.statement.words.getLast?.toList := by
      cases s.statement.words.getLast? <;> simp [DeclaresNothing]
    exact absurd ⟨by simpa [stretches] using hlast, by simp [stretches]⟩ hplain
  | cons n ns ih =>
    obtain ⟨m, hm, hns⟩ := foldlM_cons_eq_ok_iff.mp h
    cases n with
    | group opening children closing =>
      rw [step_group_of_closed (Or.inl hkind)] at hm
      obtain rfl : s.atEnd = m := Except.ok.inj hm
      obtain ⟨d, hd, tok, htok, hline⟩ := ih (s := s.atEnd) rfl (unended_cons hend)
        (fun hp => hplain (isPlainFrom_group.mpr hp)) hns
      exact ⟨d, hd, tok, List.mem_cons_of_mem _ htok, hline⟩
    | leaf tok =>
      have hsemi : tok.terminal ≠ .semicolon := hend tok List.mem_cons_self
      by_cases hname : tok.IsName
      · cases hlast : s.statement.words.getLast?.bind DeclKind.ofKeyword? with
        | some kind =>
          -- the word before declares this name
          obtain ⟨t, ht⟩ := exists_nameText_of_step hname hm
          rw [step_name hname, name_of_keyword hkind hlast ht] at hm
          cases hm
          exact ⟨_, decls_prefix_of_foldlM hns, tok, List.mem_cons_self, rfl⟩
        | none =>
          obtain ⟨t, ht, rfl⟩ := step_leaf_of_namesNothing hname (Or.inr hlast) hm
          obtain ⟨d, hd, tok', htok', hline⟩ := ih (s := s.word t) hkind (unended_cons hend)
            (fun hp => hplain ((isPlainFrom_name hname).mpr
              ⟨hlast, by rwa [words_word, List.getLast?_concat, ← wordOf_eq ht] at hp⟩)) hns
          exact ⟨d, hd, tok', List.mem_cons_of_mem _ htok', hline⟩
      · obtain ⟨hdecls, hkind', hwords⟩ := step_leaf_of_not_name hsemi hname hm
        rw [← hdecls]
        obtain ⟨d, hd, tok', htok', hline⟩ := ih (hkind'.trans hkind) (unended_cons hend)
          (fun hp => hplain ((isPlainFrom_other hname).mpr (hwords ▸ hp))) hns
        exact ⟨d, hd, tok', List.mem_cons_of_mem _ htok', hline⟩

/-! ## Nodes of a statement that has its name -/

theorem stretches_leaf_snd (tok : Token) (ns : List Node) :
    (stretches (.leaf tok :: ns)).2 = (stretches ns).2 := by
  rw [stretches]
  split <;> rfl

theorem isPlainFrom_none_iff {opening closing : Token} {children : List Node} :
    IsPlainFrom none ns ↔
      ∀ names ∈ (stretches (.group opening children closing :: ns)).2, DeclaresNothing names := by
  simp [IsPlainFrom, stretches]

/-- A plain signature declares nothing. -/
theorem foldlM_signature (hkind : s.statement.kind = some .fn) (hend : Unended ns)
    (hplain : ∀ names ∈ (stretches ns).2, DeclaresNothing names)
    (h : ns.foldlM step s = .ok s') :
    s'.decls = s.decls ∧ (s'.statement.kind = none ∨ s'.statement.kind = some .fn) := by
  induction ns generalizing s with
  | nil => cases h; exact ⟨rfl, Or.inr hkind⟩
  | cons n ns ih =>
    obtain ⟨m, hm, hns⟩ := foldlM_cons_eq_ok_iff.mp h
    cases n with
    | group opening children closing =>
      rw [step_group_of_closed (Or.inr hkind)] at hm
      obtain rfl : s.atEnd = m := Except.ok.inj hm
      obtain ⟨hdecls, hnone⟩ := foldlM_of_isPlainFrom (s := s.atEnd) rfl (unended_cons hend)
        (isPlainFrom_none_iff.mpr hplain) hns
      exact ⟨hdecls, Or.inl hnone⟩
    | leaf tok =>
      obtain ⟨hdecls, hkind'⟩ := step_leaf_of_kind hkind (hend tok List.mem_cons_self) hm
      rw [← hdecls]
      exact ih hkind' (unended_cons hend) (stretches_leaf_snd tok ns ▸ hplain) hns

/-- A signature that is not plain declares something, on the line of one of its tokens. -/
theorem foldlM_signature_of_not_plain (hkind : s.statement.kind = some .fn) (hend : Unended ns)
    (hplain : ¬ ∀ names ∈ (stretches ns).2, DeclaresNothing names)
    (h : ns.foldlM step s = .ok s') :
    ∃ d, s.decls ++ [d] <+: s'.decls ∧ ∃ tok, .leaf tok ∈ ns ∧ d.line = tok.position.line := by
  induction ns generalizing s with
  | nil => exact absurd (by simp [stretches]) hplain
  | cons n ns ih =>
    obtain ⟨m, hm, hns⟩ := foldlM_cons_eq_ok_iff.mp h
    cases n with
    | group opening children closing =>
      rw [step_group_of_closed (Or.inr hkind)] at hm
      obtain rfl : s.atEnd = m := Except.ok.inj hm
      obtain ⟨d, hd, tok, htok, hline⟩ := foldlM_of_not_isPlainFrom (s := s.atEnd) rfl
        (unended_cons hend) (fun hp => hplain (isPlainFrom_none_iff.mp hp)) hns
      exact ⟨d, hd, tok, List.mem_cons_of_mem _ htok, hline⟩
    | leaf tok =>
      obtain ⟨hdecls, hkind'⟩ := step_leaf_of_kind hkind (hend tok List.mem_cons_self) hm
      rw [← hdecls]
      obtain ⟨d, hd, tok', htok', hline⟩ :=
        ih hkind' (unended_cons hend) (stretches_leaf_snd tok ns ▸ hplain) hns
      exact ⟨d, hd, tok', List.mem_cons_of_mem _ htok', hline⟩

/-- What follows the name of a constant or a variable declares nothing, groups included. -/
theorem foldlM_value {kind : DeclKind} (hkind : s.statement.kind = some kind) (hfn : kind ≠ .fn)
    (hend : Unended ns) (h : ns.foldlM step s = .ok s') :
    s'.decls = s.decls ∧ s'.statement.kind = some kind := by
  induction ns generalizing s with
  | nil => cases h; exact ⟨rfl, hkind⟩
  | cons n ns ih =>
    obtain ⟨m, hm, hns⟩ := foldlM_cons_eq_ok_iff.mp h
    cases n with
    | group opening children closing =>
      rw [step_group_of_open hkind hfn] at hm
      obtain rfl : s = m := Except.ok.inj hm
      exact ih hkind (unended_cons hend) hns
    | leaf tok =>
      obtain ⟨hdecls, hkind'⟩ := step_leaf_of_kind hkind (hend tok List.mem_cons_self) hm
      rw [← hdecls]
      exact ih hkind' (unended_cons hend) hns

/-! ## The beginning of an item -/

theorem foldlM_docs {docs : List Token} (hdocs : ∀ tok ∈ docs, tok.terminal = .docComment)
    (hs : s.statement.isStarted = false) :
    (docs.map Node.leaf).foldlM step s = .ok (s.document (docs.map docText)) := by
  induction docs generalizing s with
  | nil => simp [document, pure, Except.pure]
  | cons tok docs ih =>
    obtain ⟨htok, hdocs⟩ := List.forall_mem_cons.mp hdocs
    rw [List.map_cons, foldlM_cons_eq_ok_iff]
    refine ⟨_, step_docComment htok, ?_⟩
    rw [hs, if_neg Bool.false_ne_true, ih (s := s.document [docText tok]) hdocs hs,
      document_document]
    rfl

theorem ofKeyword?_keyword (kind : DeclKind) : DeclKind.ofKeyword? kind.keyword = some kind := by
  cases kind <;> decide

/-- `pub` declares nothing, and is the only word that may stand before the declaring word. -/
theorem foldlM_pub {pub : Option Token}
    (hpub : ∀ tok ∈ pub, tok.terminal = .name ∧ tok.text = "pub".toList)
    (hwords : s.statement.words = []) (h : (pub.toList.map Node.leaf).foldlM step s = .ok s') :
    s'.decls = s.decls ∧ s'.statement.kind = s.statement.kind ∧
      s'.statement.docs = s.statement.docs ∧
      s'.statement.words = pub.toList.map fun _ => "pub".toList := by
  cases pub with
  | none => cases h; exact ⟨rfl, rfl, rfl, hwords⟩
  | some tok =>
    obtain ⟨hterm, htext⟩ := hpub tok rfl
    obtain ⟨m, hm, hend⟩ := foldlM_cons_eq_ok_iff.mp h
    obtain ⟨t, ht, rfl⟩ :=
      step_leaf_of_namesNothing (Or.inl hterm) (Or.inr (by rw [hwords]; rfl)) hm
    cases hend
    obtain rfl : tok.text = t := Except.ok.inj ((nameText_of_name hterm).symm.trans ht)
    exact ⟨rfl, rfl, rfl, by rw [words_word, hwords, htext]; rfl⟩

/-- **The beginning of an item declares the item.** -/
theorem foldlM_head {head : Head} {kind : DeclKind} (hs : s.statement = {})
    (hproper : head.IsProper kind) (h : head.nodes.foldlM step s = .ok s') :
    ∃ d, head.declared kind = .ok d ∧ s'.decls = s.decls ++ [d] ∧
      s'.statement.kind = some kind := by
  obtain ⟨hdocs, hpub, ⟨hkey, hkeyText⟩, hname⟩ := hproper
  obtain ⟨m₁, hm₁, h⟩ := foldlM_append_eq_ok_iff.mp h
  rw [foldlM_docs hdocs (by rw [hs])] at hm₁
  obtain rfl := Except.ok.inj hm₁
  have hm₁ : (s.document (head.docs.map docText)).statement
      = { docs := head.docs.map docText } := by simp [document, hs]
  obtain ⟨m₂, hm₂, h⟩ := foldlM_append_eq_ok_iff.mp h
  obtain ⟨hdecls, hkind, hdocs, hwords⟩ := foldlM_pub hpub (by rw [hm₁]) hm₂
  rw [decls_document] at hdecls
  rw [hm₁] at hkind hdocs
  obtain ⟨m₃, hm₃, h⟩ := foldlM_cons_eq_ok_iff.mp h
  have hno : m₂.NamesNothing := by
    refine Or.inr ?_
    rw [hwords]
    cases head.pub with
    | none => rfl
    | some _ => exact (by decide : DeclKind.ofKeyword? "pub".toList = none)
  obtain ⟨t, ht, rfl⟩ := step_leaf_of_namesNothing (Or.inl hkey) hno hm₃
  obtain rfl : head.keyword.text = t := Except.ok.inj ((nameText_of_name hkey).symm.trans ht)
  obtain ⟨m₄, hm₄, h⟩ := foldlM_cons_eq_ok_iff.mp h
  cases h
  obtain ⟨t, ht⟩ := exists_nameText_of_step hname hm₄
  have hlast : (m₂.word head.keyword.text).statement.words.getLast?.bind DeclKind.ofKeyword?
      = some kind := by
    rw [words_word, List.getLast?_concat, hkeyText]
    exact ofKeyword?_keyword kind
  rw [step_name hname, name_of_keyword (s := m₂.word head.keyword.text) hkind hlast ht] at hm₄
  cases hm₄
  have hisPub : (m₂.statement.words ++ [head.keyword.text]).contains "pub".toList
      = head.pub.isSome := by
    rw [hwords, hkeyText]
    cases head.pub with
    | none => cases kind <;> decide
    | some _ => simp
  refine ⟨_, ?_, congrArg (· ++ _) hdecls, rfl⟩
  simp only [Head.declared, ht, words_word, docs_word, hisPub, hdocs, List.map_eq_nil_iff]
  rfl

/-! ## Items -/

/-- **A plain item is read as its own declaration**, and the statement ends with it. -/
theorem foldlM_item {i : Item} (hs : s.statement = {}) (hproper : i.IsProper) (hplain : i.IsPlain)
    (h : i.nodes.foldlM step s = .ok s') :
    ∃ d, i.declared = .ok d ∧ s'.decls = s.decls ++ [d] ∧ s'.statement = {} := by
  cases i with
  | function head signature opening body closing =>
    obtain ⟨hhead, -, hend, -⟩ := hproper
    obtain ⟨m₁, hm₁, h⟩ := foldlM_append_eq_ok_iff.mp h
    obtain ⟨d, hd, hdecls₁, hkind₁⟩ := foldlM_head hs hhead hm₁
    obtain ⟨m₂, hm₂, h⟩ := foldlM_append_eq_ok_iff.mp h
    obtain ⟨hdecls₂, hkind₂⟩ := foldlM_signature hkind₁ hend hplain hm₂
    obtain ⟨m₃, hm₃, h⟩ := foldlM_cons_eq_ok_iff.mp h
    cases h
    rw [step_group_of_closed hkind₂] at hm₃
    obtain rfl := Except.ok.inj hm₃
    exact ⟨d, hd, by rw [decls_atEnd, hdecls₂, hdecls₁], rfl⟩
  | value head kind rest semicolon =>
    obtain ⟨hhead, hfn, -, hend, hsemi⟩ := hproper
    obtain ⟨m₁, hm₁, h⟩ := foldlM_append_eq_ok_iff.mp h
    obtain ⟨d, hd, hdecls₁, hkind₁⟩ := foldlM_head hs hhead hm₁
    obtain ⟨m₂, hm₂, h⟩ := foldlM_append_eq_ok_iff.mp h
    obtain ⟨hdecls₂, -⟩ := foldlM_value hkind₁ hfn hend hm₂
    obtain ⟨m₃, hm₃, h⟩ := foldlM_cons_eq_ok_iff.mp h
    cases h
    rw [step_semicolon hsemi] at hm₃
    obtain rfl := Except.ok.inj hm₃
    exact ⟨d, hd, by rw [decls_atEnd, hdecls₂, hdecls₁], rfl⟩

/-- **An item that is not plain is read as two declarations or more**, the second on the line of one
of its tokens. -/
theorem foldlM_item_of_not_isPlain {i : Item} (hs : s.statement = {}) (hproper : i.IsProper)
    (hplain : ¬ i.IsPlain) (h : i.nodes.foldlM step s = .ok s') :
    ∃ d d', i.declared = .ok d ∧ s.decls ++ [d, d'] <+: s'.decls ∧
      ∃ tok, .leaf tok ∈ i.nodes ∧ d'.line = tok.position.line := by
  cases i with
  | function head signature opening body closing =>
    obtain ⟨hhead, -, hend, -⟩ := hproper
    obtain ⟨m₁, hm₁, h⟩ := foldlM_append_eq_ok_iff.mp h
    obtain ⟨d, hd, hdecls₁, hkind₁⟩ := foldlM_head hs hhead hm₁
    obtain ⟨m₂, hm₂, h⟩ := foldlM_append_eq_ok_iff.mp h
    obtain ⟨d', hd', tok, htok, hline⟩ := foldlM_signature_of_not_plain hkind₁ hend hplain hm₂
    refine ⟨d, d', hd, ?_, tok, ?_, hline⟩
    · rw [hdecls₁, List.append_assoc] at hd'
      exact hd'.trans (decls_prefix_of_foldlM h)
    · exact List.mem_append_right _ (List.mem_append_left _ htok)
  | value head kind rest semicolon => exact absurd trivial hplain

/-- **A file of plain items is read item by item.** -/
theorem foldlM_items {items : List Item} (hs : s.statement = {})
    (hproper : ∀ i ∈ items, i.IsProper) (hplain : ∀ i ∈ items, i.IsPlain)
    (h : (items.flatMap Item.nodes).foldlM step s = .ok s') :
    ∃ ds, items.mapM Item.declared = .ok ds ∧ s'.decls = s.decls ++ ds ∧ s'.statement = {} := by
  induction items generalizing s with
  | nil => cases h; exact ⟨[], rfl, by simp, hs⟩
  | cons i items ih =>
    obtain ⟨hi, hitems⟩ := List.forall_mem_cons.mp hproper
    obtain ⟨hpi, hpitems⟩ := List.forall_mem_cons.mp hplain
    obtain ⟨m, hm, h⟩ := foldlM_append_eq_ok_iff.mp h
    obtain ⟨d, hd, hdecls, hm⟩ := foldlM_item hs hi hpi hm
    obtain ⟨ds, hds, hdecls', hs'⟩ := ih hm hitems hpitems h
    exact ⟨d :: ds, mapM_cons_eq_ok_iff.mpr ⟨d, ds, hd, hds, rfl⟩,
      by rw [hdecls', hdecls, List.append_assoc, List.singleton_append], hs'⟩

end Scan

/-! ## Files -/

theorem Head.allBraced_nodes {h : Head} {kind : DeclKind} (hh : h.IsProper kind) :
    Node.AllBraced h.nodes := by
  obtain ⟨hdocs, hpub, ⟨hkey, -⟩, hname⟩ := hh
  simp only [Head.nodes, Node.allBraced_iff, List.forall_mem_append, List.forall_mem_map,
    List.forall_mem_cons, Node.IsBraced]
  refine ⟨fun tok htok => ?_, fun tok htok => ?_, ?_, ?_, nofun⟩
  · simp [hdocs tok htok]
  · simp [(hpub tok (Option.mem_toList.mp htok)).1]
  · simp [hkey]
  · rcases hname with h | h <;> simp [h]

theorem Item.allBraced_nodes {i : Item} (hi : i.IsProper) : Node.AllBraced i.nodes := by
  cases i with
  | function head signature opening body closing =>
    obtain ⟨hhead, hsig, -, -, hbody, -⟩ := hi
    exact Node.allBraced_append.mpr ⟨head.allBraced_nodes hhead,
      Node.allBraced_append.mpr ⟨hsig, hbody, trivial⟩⟩
  | value head kind rest semicolon =>
    obtain ⟨hhead, -, hrest, -, hsemi⟩ := hi
    have hleaf : (Node.leaf semicolon).IsBraced := by simp [Node.IsBraced, hsemi]
    exact Node.allBraced_append.mpr ⟨head.allBraced_nodes hhead,
      Node.allBraced_append.mpr ⟨hrest, hleaf, trivial⟩⟩

theorem forest_of_items {source : Text} {items : List Item} (hproper : ∀ i ∈ items, i.IsProper)
    (hstop : (lex source).stop = none)
    (htokens : (lex source).tokens = Node.tokensOfList (items.flatMap Item.nodes)) :
    forest source = .ok (items.flatMap Item.nodes) := by
  refine forest_of_tokens hstop htokens (Node.allBraced_iff.mpr fun n hn => ?_)
  obtain ⟨i, hi, hn⟩ := List.mem_flatMap.mp hn
  exact Node.allBraced_iff.mp (i.allBraced_nodes (hproper i hi)) n hn

/-- The tokens of an item, those in groups aside, stand on lines before the name of the next. -/
def OnOwnLines (items : List Item) : Prop :=
  items.Pairwise fun i j =>
    ∀ tok, .leaf tok ∈ i.nodes → tok.position.line < j.head.name.position.line

theorem Item.line_of_declared {i : Item} {d : Decl} (h : i.declared = .ok d) :
    d.line = i.head.name.position.line := by
  rw [Item.declared, Head.declared, bind_eq_ok_iff] at h
  obtain ⟨name, -, h⟩ := h
  cases h
  rfl

/-- If items with lines of their own are read as their own declarations, they are plain: the second
declaration of one that is not stands on its own lines, and so is none of the next item. -/
theorem isPlain_of_mapM_declared {items : List Item} {s s' : Scan} (hs : s.statement = {})
    (hproper : ∀ i ∈ items, i.IsProper) (hlines : OnOwnLines items)
    (h : (items.flatMap Item.nodes).foldlM Scan.step s = .ok s') {ds : List Decl}
    (hds : items.mapM Item.declared = .ok ds) (hdecls : s'.decls = s.decls ++ ds) :
    ∀ i ∈ items, i.IsPlain := by
  induction items generalizing s ds with
  | nil => exact fun _ hi => absurd hi List.not_mem_nil
  | cons i items ih =>
    obtain ⟨hi, hitems⟩ := List.forall_mem_cons.mp hproper
    obtain ⟨hline, hlines⟩ := List.pairwise_cons.mp hlines
    obtain ⟨m, hm, hrest⟩ := foldlM_append_eq_ok_iff.mp h
    obtain ⟨d, rest, hd, hitemsDs, rfl⟩ := mapM_cons_eq_ok_iff.mp hds
    by_cases hplain : i.IsPlain
    · obtain ⟨d', hd', hdecls', hm⟩ := Scan.foldlM_item hs hi hplain hm
      obtain rfl : d = d' := Except.ok.inj (hd.symm.trans hd')
      refine List.forall_mem_cons.mpr ⟨hplain, ih hm hitems hlines hrest hitemsDs ?_⟩
      rw [hdecls, hdecls', List.append_assoc, List.singleton_append]
    · exfalso
      obtain ⟨d₁, d₂, hd₁, hprefix, tok, htok, htokLine⟩ :=
        Scan.foldlM_item_of_not_isPlain hs hi hplain hm
      have hmore : [d₁, d₂] <+: d :: rest := by
        have := hprefix.trans (Scan.decls_prefix_of_foldlM hrest)
        rw [hdecls] at this
        exact (List.prefix_append_right_inj _).mp this
      obtain ⟨-, hmore⟩ := List.cons_prefix_cons.mp hmore
      cases items with
      | nil => cases hitemsDs; simp at hmore
      | cons j items =>
        obtain ⟨d', rest', hd', -, rfl⟩ := mapM_cons_eq_ok_iff.mp hitemsDs
        obtain ⟨rfl, -⟩ := List.cons_prefix_cons.mp hmore
        have hlt := hline j List.mem_cons_self tok htok
        rw [← htokLine, Item.line_of_declared hd'] at hlt
        exact Nat.lt_irrefl _ hlt

/-- **A file of declarations is read item by item if its items are plain, and only then.**

The file parses if and only if its names outside of groups and its imports can be read.  Then its
code is the declarations of its items, in order and nothing else, if all items are plain; and where
every item has lines of its own it is so only if all items are plain. -/
theorem code_of_items {source : Text} {items : List Item} (hproper : ∀ i ∈ items, i.IsProper)
    (hstop : (lex source).stop = none)
    (htokens : (lex source).tokens = Node.tokensOfList (items.flatMap Item.nodes)) :
    ((∃ parsed, parse source = .ok parsed) ↔
      (∀ n ∈ items.flatMap Item.nodes, n.IsReadable) ∧
        ∀ tok ∈ (lex source).tokens, tok.terminal = .importCall → ∃ t, importTarget tok = .ok t) ∧
    ∀ parsed, parse source = .ok parsed →
      ((∀ i ∈ items, i.IsPlain) → items.mapM Item.declared = .ok parsed.code) ∧
      (OnOwnLines items → items.mapM Item.declared = .ok parsed.code →
        ∀ i ∈ items, i.IsPlain) := by
  have hforest := forest_of_items hproper hstop htokens
  refine ⟨?_, fun parsed hparsed => ?_⟩
  · rw [htokens]
    exact exists_parse_eq_ok_iff hforest
  · obtain ⟨hcode, -⟩ := (parse_eq_ok_iff hforest).mp hparsed
    rw [declarations, map_eq_ok_iff] at hcode
    obtain ⟨s, hs, hcode⟩ := hcode
    refine ⟨fun hplain => ?_, fun hlines hds => ?_⟩
    · obtain ⟨ds, hds, hdecls, -⟩ := Scan.foldlM_items rfl hproper hplain hs
      rw [hds, ← hcode, hdecls, List.nil_append]
    · exact isPlain_of_mapM_declared rfl hproper hlines hs hds (by rw [hcode, List.nil_append])

/-- A documented function with an error set in its signature, and a constant. -/
def plainSource : Text := "/// d\npub fn a() error\x7bE\x7d!u8 \x7b\x7d\nconst b = 1;"

def plainItems : List Item :=
  [.function
      ⟨[⟨.docComment, "/// d", ⟨0, 1, 1⟩⟩], some ⟨.name, "pub", ⟨6, 2, 1⟩⟩,
        ⟨.name, "fn", ⟨10, 2, 5⟩⟩, ⟨.name, "a", ⟨13, 2, 8⟩⟩⟩
      [.leaf ⟨.other, "()", ⟨14, 2, 9⟩⟩, .leaf ⟨.name, "error", ⟨17, 2, 12⟩⟩,
        .group ⟨.leftBrace, "\x7b", ⟨22, 2, 17⟩⟩ [.leaf ⟨.name, "E", ⟨23, 2, 18⟩⟩]
          ⟨.rightBrace, "\x7d", ⟨24, 2, 19⟩⟩,
        .leaf ⟨.other, "!", ⟨25, 2, 20⟩⟩, .leaf ⟨.name, "u8", ⟨26, 2, 21⟩⟩]
      ⟨.leftBrace, "\x7b", ⟨29, 2, 24⟩⟩ [] ⟨.rightBrace, "\x7d", ⟨30, 2, 25⟩⟩,
    .value ⟨[], none, ⟨.name, "const", ⟨32, 3, 1⟩⟩, ⟨.name, "b", ⟨38, 3, 7⟩⟩⟩ .const
      [.leaf ⟨.other, "=", ⟨40, 3, 9⟩⟩, .leaf ⟨.other, "1", ⟨42, 3, 11⟩⟩]
      ⟨.semicolon, ";", ⟨43, 3, 12⟩⟩]

theorem code_of_items_plain :
    (∀ i ∈ plainItems, i.IsProper) ∧ (lex plainSource).stop = none ∧
      (lex plainSource).tokens = Node.tokensOfList (plainItems.flatMap Item.nodes) ∧
      ∃ parsed, parse plainSource = .ok parsed ∧
        plainItems.mapM Item.declared = .ok parsed.code := by
  have hproper : ∀ i ∈ plainItems, i.IsProper := by
    refine List.forall_mem_cons.mpr ⟨⟨?head, ?braced, ?unended, ?chain, ?body, ?last⟩,
      List.forall_mem_singleton.mpr ⟨?valueHead, nofun, ?rest, ?restUnended, rfl⟩⟩
    case head | valueHead => exact ⟨by simp, by simp, ⟨rfl, rfl⟩, Or.inl rfl⟩
    case chain => simp [Node.IsGroup, Node.IsTypeWord]
    case last => simp [Node.IsTypeWord]
    case braced | body | rest => simp [Node.AllBraced, Node.IsBraced]
    case unended | restUnended => simp [Unended]
  have hlex : (lex plainSource).stop = none ∧
      (lex plainSource).tokens = Node.tokensOfList (plainItems.flatMap Item.nodes) := by
    decide +kernel
  have hplain : ∀ i ∈ plainItems, i.IsPlain := by
    refine List.forall_mem_cons.mpr ⟨fun names hnames => ?_,
      List.forall_mem_singleton.mpr trivial⟩
    obtain rfl : names = [("u8" : Text)] := List.mem_singleton.mp hnames
    exact .singleton _
  have h := code_of_items hproper hlex.1 hlex.2
  have hok : (parse plainSource).toOption.isSome := by decide +kernel
  obtain ⟨parsed, hparsed⟩ : ∃ parsed, parse plainSource = .ok parsed := by
    cases hp : parse plainSource with
    | ok parsed => exact ⟨parsed, rfl⟩
    | error e => rw [hp] at hok; cases hok
  exact ⟨hproper, hlex.1, hlex.2, parsed, hparsed, (h.2 parsed hparsed).1 hplain⟩

/-- A function that is not plain: `const` in its return type declares `u8`, and its body does not
end that statement, so that the function behind it is lost. -/
def inlineSource : Text := "fn a() error\x7bE\x7d![]const u8 \x7b\x7d\nfn b() void \x7b\x7d"

def inlineItems : List Item :=
  [.function ⟨[], none, ⟨.name, "fn", ⟨0, 1, 1⟩⟩, ⟨.name, "a", ⟨3, 1, 4⟩⟩⟩
      [.leaf ⟨.other, "()", ⟨4, 1, 5⟩⟩, .leaf ⟨.name, "error", ⟨7, 1, 8⟩⟩,
        .group ⟨.leftBrace, "\x7b", ⟨12, 1, 13⟩⟩ [.leaf ⟨.name, "E", ⟨13, 1, 14⟩⟩]
          ⟨.rightBrace, "\x7d", ⟨14, 1, 15⟩⟩,
        .leaf ⟨.other, "![]", ⟨15, 1, 16⟩⟩, .leaf ⟨.name, "const", ⟨18, 1, 19⟩⟩,
        .leaf ⟨.name, "u8", ⟨24, 1, 25⟩⟩]
      ⟨.leftBrace, "\x7b", ⟨27, 1, 28⟩⟩ [] ⟨.rightBrace, "\x7d", ⟨28, 1, 29⟩⟩,
    .function ⟨[], none, ⟨.name, "fn", ⟨30, 2, 1⟩⟩, ⟨.name, "b", ⟨33, 2, 4⟩⟩⟩
      [.leaf ⟨.other, "()", ⟨34, 2, 5⟩⟩, .leaf ⟨.name, "void", ⟨37, 2, 8⟩⟩]
      ⟨.leftBrace, "\x7b", ⟨42, 2, 13⟩⟩ [] ⟨.rightBrace, "\x7d", ⟨43, 2, 14⟩⟩]

theorem code_of_inline_error_set :
    (∀ i ∈ inlineItems, i.IsProper) ∧ (lex inlineSource).stop = none ∧
      (lex inlineSource).tokens = Node.tokensOfList (inlineItems.flatMap Item.nodes) ∧
      inlineItems.mapM Item.declared =
        .ok [⟨"a", .fn, false, none, 1⟩, ⟨"b", .fn, false, none, 2⟩] ∧
      (parse inlineSource).map (·.code) =
        .ok [⟨"a", .fn, false, none, 1⟩, ⟨"u8", .const, false, none, 1⟩] := by
  refine ⟨?_, by decide +kernel, by decide +kernel, by decide +kernel, by decide +kernel⟩
  refine List.forall_mem_cons.mpr ⟨⟨?head, ?braced, ?unended, ?chain, ?body, ?last⟩,
    List.forall_mem_singleton.mpr ⟨?head', ?braced', ?unended', ?chain', ?body', ?last'⟩⟩
  case head | head' => exact ⟨by simp, by simp, ⟨rfl, rfl⟩, Or.inl rfl⟩
  case braced | braced' | body | body' => simp [Node.AllBraced, Node.IsBraced]
  case unended | unended' => simp [Unended]
  case chain | chain' => simp [Node.IsGroup, Node.IsTypeWord]
  case last | last' => simp [Node.IsTypeWord]

end ZigNif.Source
