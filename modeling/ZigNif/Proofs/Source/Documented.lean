import ZigNif.Proofs.Source.Call
import ZigNif.Proofs.Source.Level
import ZigNif.Proofs.Source.TopLevel
import ZigNif.Proofs.Source.Unread
import ZigNif.Proofs.Text.Lines

/-!
# Proofs/Source/Documented — functions under their doc comments

A line that starts with three slashes and a space is a doc comment, whatever is behind the space,
and its text is all that is behind the space.  So a source of documented functions is read as just
these functions, each with its own lines (`Documented.parse_source`).
-/

namespace ZigNif.Source

variable {s rest t : Text} {c : Char} {k : Terminal} {p : Position}

/-! ## Terminals -/

/-- A doc comment is taken if it reaches to the end of its line. -/
theorem takes_docComment (ht : '\n' ∉ t) (hhead : t.head? ≠ some '/') (hrest : EndsLine rest) :
    Terminal.docComment.Takes ("///" ++ t) rest where
  spells := by
    refine ⟨t, rfl, ht, ?_⟩
    cases t with
    | nil =>
      intro h
      exact absurd (hrest '/' h) (by decide)
    | cons c t => exact hhead
  longest s' rest' heq hs' := by
    obtain ⟨r, rfl, hr, -⟩ := hs'
    refine length_le_of_notMem heq fun c hc => ?_
    rw [hrest c hc]
    simp [hr]
  first k' s' rest' heq hs' hk' := by
    obtain ⟨c, r, rfl, hc⟩ := hs'.exists_initial
    obtain ⟨rfl, -⟩ := List.cons.inj heq
    cases k' with
    | docComment => exact absurd rfl hk'
    | comment | other => decide
    | _ => exact absurd hc (by decide)

/-- Only names start with a letter. -/
theorem eq_name_of_isInitial (h : k.isInitial c) (hc : isLetter c) : k = .name := by
  cases k with
  | name => rfl
  | other =>
    rcases Terminal.isInitial_other_iff.mp h with h | h | rfl
    · rw [Terminal.isLetter_iff] at hc
      rw [Terminal.isNumeric_iff] at h
      omega
    · exact absurd hc (Terminal.isOperator_iff.mp h).2.1
    · exact absurd hc (by decide)
  | blank =>
    exact absurd (by simp [isNameChar, hc])
      (Terminal.not_isNameChar_of_isBlank (Terminal.isBlank_of_isLayoutBlank h))
  | _ =>
    obtain rfl := beq_iff_eq.mp h
    exact absurd hc (by decide)

theorem takes_name (hs : IsWord isLetter isNameChar s) (hrest : ∀ c ∈ rest.head?, ¬ isNameChar c) :
    Terminal.name.Takes s rest := by
  obtain ⟨c, r, rfl, hc, hr⟩ := hs
  refine .of_initial ⟨c, r, rfl, hc, hr⟩ (fun s' rest' heq hs' => ?_)
    fun k hk => eq_name_of_isInitial hk hc
  refine length_le_of_notMem heq fun d hd hmem => hrest d hd ?_
  exact (hs'.of_mem hmem).elim (fun hletter => by simp [isNameChar, hletter]) id

/-- Only one terminal starts with a mark. -/
theorem eq_of_isInitial_mark {k' : Terminal} (hc : c ∈ Terminal.marks) (h : k.isInitial c)
    (h' : k'.isInitial c) : k = k' := by
  have hpriority : ∀ k : Terminal, k.isInitial c → k.priority = 0 := by
    intro k hk
    cases k with
    | importCall | docComment | comment | multilineString | quotedName | builtin =>
      obtain rfl := beq_iff_eq.mp hk
      exact absurd hc (by decide)
    | _ => rfl
  rw [← Terminal.ofInitial_priority h, ← Terminal.ofInitial_priority h', hpriority k h,
    hpriority k' h']

/-- A mark that is a terminal alone is taken. -/
theorem takes_mark (hc : c ∈ Terminal.marks) (hk : k.isInitial c)
    (hspells : ∀ s rest, k.Spells s rest ↔ s = [c]) : k.Takes [c] rest :=
  .of_initial ((hspells _ _).mpr rfl) (fun s' rest' _ hs' => by rw [(hspells s' rest').mp hs'])
    fun _ hk' => eq_of_isInitial_mark hc hk' hk

/-- A token is read with the layout behind it. -/
theorem bare_lexFrom_token {g : Text} (ht : t = s ++ g) (h : k.Takes s (g ++ rest))
    (hk : k.isLayout = false) (hg : ∀ c ∈ g, isLayoutBlank c) :
    (lexFrom p (t ++ rest)).bare = (lexFrom (p.advance t) rest).bare.after [⟨k, s, p⟩] := by
  have hblank : ∀ c ∈ g, Text.isBlank c := fun c hc => Terminal.isBlank_of_isLayoutBlank (hg c hc)
  rw [ht, List.append_assoc]
  exact (h.reads (.inl rfl) isFiller_nil hblank hk).bare hg

theorem isWord_of_all {first p : Char → Bool} (hc : first c) (ht : t.all p) :
    IsWord first p (c :: t) :=
  ⟨c, t, rfl, hc, List.all_eq_true.mp ht⟩

theorem isLayoutBlank_of_mem_space : ∀ c ∈ (" " : Text), isLayoutBlank c :=
  List.forall_mem_singleton.mpr rfl

/-- A name is read with the space behind it. -/
theorem bare_lexFrom_word (hs : IsWord isLetter isNameChar s) (ht : t = s ++ " ") :
    (lexFrom p (t ++ rest)).bare = (lexFrom (p.advance t) rest).bare.after [⟨.name, s, p⟩] :=
  bare_lexFrom_token ht (takes_name hs (by rintro _ ⟨⟩; decide)) rfl
    isLayoutBlank_of_mem_space

theorem Position.line_advance (p : Position) (t : Text) :
    (p.advance t).line = p.line + t.count '\n' := by
  induction t generalizing p with
  | nil => rfl
  | cons c t ih =>
    have hstep : p.advance (c :: t) = (p.next c).advance t := rfl
    rw [hstep, ih, Position.next]
    by_cases hc : c = '\n'
    · subst hc
      simp [Nat.add_assoc, Nat.add_comm 1]
    · simp [hc]

/-! ## Simple items -/

/-- An item that is read as its own declaration, with no name in quotes and no import. -/
structure Item.IsSimple (i : Item) : Prop where
  isProper : i.IsProper
  isPlain : i.IsPlain
  terminals : ∀ tok ∈ Node.tokensOfList i.nodes, tok.terminal ∉ [.quotedName, .importCall]

theorem Item.IsSimple.isReadable {i : Item} (h : i.IsSimple) {n : Node} (hn : n ∈ i.nodes) :
    n.IsReadable := by
  cases n with
  | group => trivial
  | leaf tok =>
    have hquoted : tok.terminal ≠ .quotedName := fun hquoted =>
      h.terminals tok (mem_tokensOfList_of_leaf hn) (by simp [hquoted])
    exact fun hname => ⟨tok.text, nameText_of_name (hname.resolve_right hquoted)⟩

theorem importTargets_of_isSimple {items : List Item} (h : ∀ i ∈ items, i.IsSimple) :
    importTargets (Node.tokensOfList (items.flatMap Item.nodes)) = .ok [] := by
  induction items with
  | nil => rfl
  | cons i items ih =>
    obtain ⟨hi, hitems⟩ := List.forall_mem_cons.mp h
    rw [List.flatMap_cons, Node.tokensOfList_append, importTargets_append_of_ne, ih hitems]
    exact fun tok htok himport => hi.terminals tok htok (by simp [himport])

/-- **A source of simple items holds their declarations and imports nothing.** -/
theorem parse_of_isSimple {items : List Item} {ds : List Decl} (h : ∀ i ∈ items, i.IsSimple)
    (hstop : (lex t).stop = none)
    (htokens : (lex t).tokens = Node.tokensOfList (items.flatMap Item.nodes))
    (hds : items.mapM Item.declared = .ok ds) : parse t = .ok { code := ds } := by
  have hforest := forest_of_items (fun i hi => (h i hi).isProper) hstop htokens
  have hread : ∀ n ∈ items.flatMap Item.nodes, n.IsReadable := fun n hn => by
    obtain ⟨i, hi, hn⟩ := List.mem_flatMap.mp hn
    exact (h i hi).isReadable hn
  obtain ⟨code, hcode⟩ := exists_declarations_eq_ok_iff.mpr hread
  refine (parse_eq_ok_iff hforest).mpr ⟨?_, [], importTargets_of_isSimple h, rfl⟩
  obtain ⟨s, hs, rfl⟩ := map_eq_ok_iff.mp hcode
  obtain ⟨ds', hds', hdecls, -⟩ := Scan.foldlM_items rfl (fun i hi => (h i hi).isProper)
    (fun i hi => (h i hi).isPlain) hs
  obtain rfl : ds' = ds := Except.ok.inj (hds'.symm.trans hds)
  rw [hcode, hdecls]
  rfl

/-! ## Functions under doc comments -/

/-- A function and the lines of its doc comment. -/
structure Documented where
  name : Text
  docs : List Text
  isName : IsWord isLetter isNameChar name
  newline_notMem : ∀ d ∈ docs, '\n' ∉ d

namespace Documented

/-- The comment that says `d`. -/
def comment (d : Text) : Text := '/' :: '/' :: '/' :: ' ' :: d

/-- The line that the comment is about. -/
def signature (f : Documented) : Text := "pub fn " ++ (f.name ++ "() void \x7b\x7d")

theorem signature_eq (f : Documented) :
    f.signature = "pub fn " ++ (f.name ++ "() void \x7b\x7d") := rfl

/-- The lines of a function, its comments first. -/
def lines (f : Documented) : List Text := f.docs.map comment ++ [f.signature]

/-- The source that has these functions, one after the other. -/
def source (fs : List Documented) : Text := Text.unlines (fs.flatMap lines)

/-- The declaration of a function whose lines start on the given one. -/
def declaration (f : Documented) (line : Nat) : Decl where
  name := f.name
  kind := .fn
  isPub := true
  doc := if f.docs = [] then none else some (Text.unlines f.docs)
  line := line + f.docs.length

/-- The declarations of functions whose lines start on the given one. -/
def declarations (line : Nat) : List Documented → List Decl
  | [] => []
  | f :: fs => f.declaration line :: declarations (line + f.lines.length) fs

/-- The item of a function whose own line starts at `p`. -/
def item (f : Documented) (docs : List Token) (p : Position) : Item :=
  let keyword := p.advance "pub "
  let name := keyword.advance "fn "
  let parameters := name.advance f.name
  let result := parameters.advance "() "
  let opening := result.advance "void "
  .function
    { docs, pub := some ⟨.name, "pub", p⟩, keyword := ⟨.name, "fn", keyword⟩
      name := ⟨.name, f.name, name⟩ }
    [.leaf ⟨.other, "()", parameters⟩, .leaf ⟨.name, "void", result⟩]
    ⟨.leftBrace, "\x7b", opening⟩ [] ⟨.rightBrace, "\x7d", opening.advance "\x7b"⟩

variable {f : Documented} {docs : List Token} {g : Text}

theorem isProper_item (hdocs : ∀ tok ∈ docs, tok.terminal = .docComment) :
    (f.item docs p).IsProper := by
  refine ⟨⟨hdocs, ?pub, ⟨rfl, rfl⟩, .inl rfl⟩, ?braced, ?unended, ?chain, ?body, ?last⟩
  case pub => rintro _ ⟨⟩; exact ⟨rfl, rfl⟩
  case braced | body => simp [Node.AllBraced, Node.IsBraced]
  case unended => simp [Unended]
  case chain => simp [Node.IsGroup]
  case last => simp [Node.IsTypeWord]

theorem isPlain_item : (f.item docs p).IsPlain := nofun

/-- The lexer reads the line of a function. -/
theorem bare_lexFrom_signature (hg : ∀ c ∈ g, isLayoutBlank c) :
    (lexFrom p (f.signature ++ g ++ rest)).bare =
      (lexFrom (p.advance (f.signature ++ g)) rest).bare.after
        (Node.tokensOfList (f.item [] p).nodes) := by
  have hsplit : f.signature ++ g = "pub " ++ ("fn " ++ (f.name ++ ("() " ++ ("void " ++
      ("\x7b" ++ ("\x7d" ++ g)))))) := by
    simp only [signature_eq, List.append_assoc]
    rfl
  have hnone : ∀ c ∈ ([] : Text), isLayoutBlank c := nofun
  have hpub : IsWord isLetter isNameChar "pub" :=
    isWord_of_all (c := 'p') (t := "ub") (by decide) (by decide)
  have hfn : IsWord isLetter isNameChar "fn" :=
    isWord_of_all (c := 'f') (t := "n") (by decide) (by decide)
  have hvoid : IsWord isLetter isNameChar "void" :=
    isWord_of_all (c := 'v') (t := "oid") (by decide) (by decide)
  have hparens : IsWord isOperator isOperator "()" :=
    isWord_of_all (c := '(') (t := ")") (by decide) (by decide)
  have hopening : ∀ rest, Terminal.leftBrace.Takes "\x7b" rest := fun _ =>
    takes_mark (by decide) rfl fun _ _ => .rfl
  have hclosing : ∀ rest, Terminal.rightBrace.Takes "\x7d" rest := fun _ =>
    takes_mark (by decide) rfl fun _ _ => .rfl
  rw [hsplit]
  simp only [List.append_assoc]
  rw [bare_lexFrom_word (t := "pub ") hpub rfl, bare_lexFrom_word (t := "fn ") hfn rfl,
    bare_lexFrom_token (List.append_nil _).symm
      (takes_name f.isName (by rintro _ ⟨⟩; decide)) rfl hnone,
    bare_lexFrom_token (t := "() ") (g := " ") rfl
      (takes_operators hparens (by rintro _ ⟨⟩; decide)) rfl isLayoutBlank_of_mem_space,
    bare_lexFrom_word (t := "void ") hvoid rfl,
    bare_lexFrom_token (List.append_nil _).symm (hopening _) rfl hnone, ← List.append_assoc,
    bare_lexFrom_token rfl (hclosing _) rfl hg]
  simp only [Lexed.after_after, Position.advance_append]
  rfl

/-- The comments of a function, each with the end of its line. -/
def comments (ds : List Text) : Text := ds.flatMap fun d => comment d ++ ['\n']

theorem comments_cons (d : Text) (ds : List Text) :
    comments (d :: ds) = comment d ++ ['\n'] ++ comments ds := List.flatMap_cons

theorem count_comments {ds : List Text} (hds : ∀ d ∈ ds, '\n' ∉ d) :
    (comments ds).count '\n' = ds.length := by
  induction ds with
  | nil => rfl
  | cons d ds ih =>
    obtain ⟨hd, hds⟩ := List.forall_mem_cons.mp hds
    have hcomment : (comment d).count '\n' = 0 :=
      List.count_eq_zero.mpr (by simp [comment, hd])
    rw [comments_cons, List.count_append, List.count_append, hcomment, ih hds,
      List.count_singleton_self, Nat.zero_add, Nat.add_comm, List.length_cons]

/-- **Every comment is read as what it says**, whatever that is. -/
theorem exists_comments {ds : List Text} (hds : ∀ d ∈ ds, '\n' ∉ d) (p : Position)
    (rest : Text) : ∃ toks : List Token,
    (∀ tok ∈ toks, tok.terminal = .docComment) ∧ toks.map docText = ds ∧
      (lexFrom p (comments ds ++ rest)).bare =
        (lexFrom (p.advance (comments ds)) rest).bare.after toks := by
  induction ds generalizing p with
  | nil => exact ⟨[], nofun, rfl, rfl⟩
  | cons d ds ih =>
    obtain ⟨hd, hds⟩ := List.forall_mem_cons.mp hds
    obtain ⟨toks, hterminals, htexts, hlex⟩ := ih hds (p.advance (comment d ++ ['\n']))
    refine ⟨⟨.docComment, comment d, p⟩ :: toks, List.forall_mem_cons.mpr ⟨rfl, hterminals⟩,
      congrArg (d :: ·) htexts, ?_⟩
    have htakes : Terminal.docComment.Takes (comment d) (['\n'] ++ (comments ds ++ rest)) :=
      takes_docComment (by simp [hd]) (by simp) (by rintro _ ⟨⟩; rfl)
    rw [comments_cons, List.append_assoc,
      bare_lexFrom_token rfl htakes rfl (List.forall_mem_singleton.mpr rfl), hlex,
      Lexed.after_after, ← Position.advance_append]
    rfl

theorem tokensOfList_item :
    Node.tokensOfList (f.item docs p).nodes = docs ++ Node.tokensOfList (f.item [] p).nodes := by
  have hleaves : Node.tokensOfList (docs.map Node.leaf) = docs := by
    induction docs with
    | nil => rfl
    | cons tok docs ih =>
      rw [List.map_cons, Node.tokensOfList, ih, Node.tokens, List.singleton_append]
  have hnodes : (f.item docs p).nodes = docs.map .leaf ++ (f.item [] p).nodes :=
    List.append_assoc _ _ _
  rw [hnodes, Node.tokensOfList_append, hleaves]

theorem isSimple_item (hdocs : ∀ tok ∈ docs, tok.terminal = .docComment) :
    (f.item docs p).IsSimple where
  isProper := isProper_item hdocs
  isPlain := isPlain_item
  terminals := by
    rw [tokensOfList_item]
    refine List.forall_mem_append.mpr ⟨fun tok htok => ?_, ?_⟩
    · rw [hdocs tok htok]
      decide
    · simp [item, Item.nodes, Head.nodes, Node.tokensOfList, Node.tokens]

theorem declared_item {line : Nat} (htexts : docs.map docText = f.docs)
    (hline : p.line = line + f.docs.length) :
    (f.item docs p).declared = .ok (f.declaration line) := by
  have hempty : docs = [] ↔ f.docs = [] := by rw [← htexts, List.map_eq_nil_iff]
  have hplace : ((p.advance "pub ").advance "fn ").line = line + f.docs.length := by
    rw [Position.line_advance, Position.line_advance, hline]
    rfl
  have hread : (f.item docs p).declared = .ok
      { name := f.name, kind := .fn, isPub := true
        doc := if docs = [] then none else some (Text.unlines (docs.map docText))
        line := ((p.advance "pub ").advance "fn ").line } := rfl
  rw [hread, hplace, htexts, if_congr hempty rfl rfl]
  rfl

/-- **The lines of a function are read as its item**, with its own comments. -/
theorem exists_item (f : Documented) (hg : ∀ c ∈ g, isLayoutBlank c) (p : Position)
    (rest : Text) : ∃ i : Item, i.IsSimple ∧
    i.declared = .ok (f.declaration p.line) ∧
    (lexFrom p (comments f.docs ++ (f.signature ++ g ++ rest))).bare =
      (lexFrom (p.advance (comments f.docs ++ (f.signature ++ g))) rest).bare.after
        (Node.tokensOfList i.nodes) := by
  obtain ⟨toks, hterminals, htexts, hlex⟩ := exists_comments f.newline_notMem p
    (f.signature ++ g ++ rest)
  refine ⟨f.item toks (p.advance (comments f.docs)), isSimple_item hterminals,
    declared_item htexts ?_, ?_⟩
  · rw [Position.line_advance, count_comments f.newline_notMem]
  · rw [hlex, bare_lexFrom_signature hg, Lexed.after_after, ← tokensOfList_item,
      ← Position.advance_append]

theorem newline_notMem_signature (f : Documented) : '\n' ∉ f.signature := by
  have hspells : Terminal.name.Spells f.name [] := f.isName
  have hname : '\n' ∉ f.name := hspells.newline_notMem nofun nofun
  rw [signature_eq, List.mem_append, List.mem_append, not_or, not_or]
  exact ⟨by decide, hname, by decide⟩

/-- What ends the last line of a function in front of others. -/
def gap : List Documented → Text
  | [] => []
  | _ :: _ => ['\n']

theorem isLayoutBlank_of_mem_gap (fs : List Documented) : ∀ c ∈ gap fs, isLayoutBlank c := by
  cases fs with
  | nil => exact nofun
  | cons f fs => exact List.forall_mem_singleton.mpr rfl

theorem source_cons (f : Documented) (fs : List Documented) :
    source (f :: fs) = comments f.docs ++ (f.signature ++ gap fs) ++ source fs := by
  have hlast : Text.unlines (f.signature :: fs.flatMap lines) =
      f.signature ++ gap fs ++ source fs := by
    cases fs with
    | nil =>
      rw [gap, List.append_nil]
      exact (List.append_nil _).symm
    | cons f' fs =>
      have hne : (f' :: fs).flatMap lines ≠ [] := by simp [lines]
      rw [Text.unlines_cons hne, List.append_assoc]
      rfl
  rw [source, List.flatMap_cons, lines, List.append_assoc, List.singleton_append,
    Text.unlines_append (List.cons_ne_nil _ _), List.flatMap_map, hlast, comments]
  simp only [List.append_assoc]

theorem declarations_advance (f : Documented) (fs : List Documented) :
    declarations (p.advance (comments f.docs ++ (f.signature ++ gap fs))).line fs =
      declarations (p.line + f.lines.length) fs := by
  cases fs with
  | nil => rfl
  | cons f' fs =>
    have hsignature : f.signature.count '\n' = 0 :=
      List.count_eq_zero.mpr f.newline_notMem_signature
    rw [Position.line_advance, List.count_append, List.count_append, hsignature,
      count_comments f.newline_notMem]
    simp [gap, lines]

/-- **A source of documented functions is read as their items.** -/
theorem exists_items {ending : Text} (hending : ∀ c ∈ ending, isLayoutBlank c)
    (fs : List Documented) : ∃ items : List Item, (∀ i ∈ items, i.IsSimple) ∧
      items.mapM Item.declared = .ok (declarations p.line fs) ∧
      (lexFrom p (source fs ++ ending)).bare =
        ⟨Node.tokensOfList (items.flatMap Item.nodes), none⟩ := by
  induction fs generalizing p with
  | nil =>
    have hsource : source [] ++ ending = ending ++ [] := (List.append_nil ending).symm
    refine ⟨[], List.forall_mem_nil _, rfl, ?_⟩
    rw [hsource, bare_lexFrom_blanks hending, lexFrom]
    rfl
  | cons f fs ih =>
    obtain ⟨i, hi, hdecl, hlex⟩ :=
      exists_item f (isLayoutBlank_of_mem_gap fs) p (source fs ++ ending)
    obtain ⟨items, hitems, hdecls, hrest⟩ :=
      ih (p := p.advance (comments f.docs ++ (f.signature ++ gap fs)))
    rw [declarations_advance] at hdecls
    refine ⟨i :: items, List.forall_mem_cons.mpr ⟨hi, hitems⟩,
      mapM_cons_eq_ok_iff.mpr ⟨_, _, hdecl, hdecls, rfl⟩, ?_⟩
    rw [source_cons, List.append_assoc, List.append_assoc, hlex, hrest, List.flatMap_cons,
      Node.tokensOfList_append]
    rfl

/-- **A source of documented functions holds just these functions**, each with its own lines, and
imports nothing. -/
theorem parse_source {ending : Text} (hending : ∀ c ∈ ending, isLayoutBlank c)
    (fs : List Documented) :
    parse (source fs ++ ending) = .ok { code := declarations 1 fs } := by
  obtain ⟨items, hitems, hds, hlex⟩ := exists_items (p := {}) hending fs
  obtain ⟨htokens, hstop⟩ := Lexed.mk.inj hlex
  exact parse_of_isSimple hitems hstop htokens hds

end Documented

end ZigNif.Source
