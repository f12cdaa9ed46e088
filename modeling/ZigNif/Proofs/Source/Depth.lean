import ZigNif.Proofs.Source.Documented
import ZigNif.Proofs.Source.Fault

/-!
# Proofs/Source/Depth — sources whose groups are nested too deeply

The look for imports follows groups into one another, and the interpreter's stack lets it do so up
to a limit.  `Overflows` says where it ends: at a group that is opened while `limit` others are open,
if nothing is wrong with the source before the look starts, nor with the imports in front of the
group.  A source with such a group is not parsed, but it is not faulty either: there is no error with
a place in it (`parseFileWithin_located`).
-/

namespace ZigNif.Source

variable {limit depth : Nat} {t : Text} {toks before front : List Token} {tok brace : Token}
  {ns : List Node} {file : Option Text} {parsed : Parsed} {e : Failure}

/-! ## How far the tokens are reached -/

theorem isOpening_tail (hopen : ∀ pre, pre <+: tok :: toks → closings pre ≤ depth + openings pre)
    {inner : Nat} (hinner : inner + closings [tok] = depth + openings [tok]) :
    ∀ pre, pre <+: toks → closings pre ≤ inner + openings pre := by
  intro pre hpre
  have hle := hopen (tok :: pre) (List.cons_prefix_cons.mpr ⟨rfl, hpre⟩)
  rw [← List.singleton_append, openings_append, closings_append] at hle
  omega

/-- The depth counts the groups that have been opened and not closed. -/
theorem depthBehind_add (hopen : closings [tok] ≤ depth + openings [tok]) :
    tok.depthBehind depth + closings [tok] = depth + openings [tok] := by
  rw [Token.depthBehind]
  split
  · next hleft => rw [openings_of_leftBrace hleft, closings_of_ne (by simp [hleft])]
  · next hright =>
    rw [openings_of_ne (by simp [hright]), closings_of_rightBrace hright] at hopen ⊢
    omega
  · next hleft hright => rw [openings_of_ne hleft, closings_of_ne hright]

/-- Where not all tokens are reached, a group comes next that is opened inside of `limit` others. -/
theorem exists_of_reached (hdepth : depth ≤ limit)
    (hopen : ∀ pre, pre <+: toks → closings pre ≤ depth + openings pre)
    (h : reached limit depth toks = (front, false)) :
    ∃ brace after, toks = front ++ brace :: after ∧ brace.terminal = .leftBrace ∧
      depth + openings front = limit + closings front := by
  induction toks generalizing depth front with
  | nil => cases h
  | cons tok toks ih =>
    by_cases hstop : tok.terminal = .leftBrace ∧ limit ≤ depth
    · rw [reached, if_pos hstop] at h
      cases h
      exact ⟨tok, toks, rfl, hstop.1, by rw [Nat.le_antisymm hdepth hstop.2]; rfl⟩
    · have hinner := depthBehind_add (hopen [tok] ⟨toks, rfl⟩)
      rw [reached, if_neg hstop] at h
      rcases hrest : reached limit (tok.depthBehind depth) toks with ⟨rest, isAll⟩
      rw [hrest, Prod.mk.injEq] at h
      obtain ⟨rfl, rfl⟩ := h
      have hle : tok.depthBehind depth ≤ limit := by
        by_cases hleft : tok.terminal = .leftBrace
        · have hlt : ¬ limit ≤ depth := fun hle => hstop ⟨hleft, hle⟩
          rw [openings_of_leftBrace hleft] at hinner
          omega
        · rw [openings_of_ne hleft] at hinner
          omega
      obtain ⟨brace, after, rfl, hbrace, hcount⟩ := ih hle (isOpening_tail hopen hinner) hrest
      refine ⟨brace, after, rfl, hbrace, ?_⟩
      rw [← List.singleton_append, openings_append, closings_append]
      omega

/-- No group that is opened inside of `limit` others is passed. -/
theorem reached_of_overflow {after : List Token}
    (hopen : ∀ pre, pre <+: before ++ brace :: after → closings pre ≤ depth + openings pre)
    (hbrace : brace.terminal = .leftBrace) (hcount : depth + openings before = limit + closings before) :
    ∃ front, reached limit depth (before ++ brace :: after) = (front, false) ∧ front <+: before := by
  induction before generalizing depth with
  | nil =>
    have hle : limit ≤ depth := Nat.le_of_eq hcount.symm
    exact ⟨[], by rw [List.nil_append, reached, if_pos ⟨hbrace, hle⟩], List.prefix_refl _⟩
  | cons tok before ih =>
    by_cases hstop : tok.terminal = .leftBrace ∧ limit ≤ depth
    · exact ⟨[], by rw [List.cons_append, reached, if_pos hstop], List.nil_prefix⟩
    · have hinner := depthBehind_add (hopen [tok] ⟨_, rfl⟩)
      rw [← List.singleton_append, openings_append, closings_append] at hcount
      obtain ⟨front, hfront, hprefix⟩ := ih (isOpening_tail hopen hinner) (by omega)
      refine ⟨tok :: front, ?_, List.cons_prefix_cons.mpr ⟨rfl, hprefix⟩⟩
      rw [List.cons_append, reached, if_neg hstop, hfront]

/-! ## Sources that are too deep -/

/-- The source has a tree, all quoted names of the top level denote texts, and a group is opened
while `limit` others are open, such that the paths of all import calls before it denote texts. -/
def Overflows (limit : Nat) (t : Text) : Prop :=
  ∃ ns before brace after, forest t = .ok ns ∧
    (∀ x raw, .leaf x ∈ ns → x.Quotes raw → ∃ s, Literal.decode raw = .ok s) ∧
    Node.tokensOfList ns = before ++ brace :: after ∧ brace.terminal = .leftBrace ∧
    openings before = limit + closings before ∧
    ∀ x ∈ before, ∀ raw, x.Imports raw → ∃ s, Literal.decode raw = .ok s

theorem isOk_eq_true_iff {ε α : Type} {x : Except ε α} : x.isOk = true ↔ ∃ a, x = .ok a := by
  cases x with
  | error e => exact iff_of_false nofun nofun
  | ok a => exact iff_of_true rfl ⟨a, rfl⟩

/-- **The stack runs out on the sources that overflow, and only on these.** -/
theorem isTooDeep_iff : isTooDeep limit t = true ↔ Overflows limit t := by
  rw [isTooDeep]
  cases hforest : forest t with
  | error fault =>
    refine iff_of_false nofun ?_
    rintro ⟨ns, -, -, -, hns, -⟩
    rw [hforest] at hns
    cases hns
  | ok ns =>
    have hbalanced := (isBalanced_tokensOfList (forest_eq_ok_iff.mp hforest).2.1).closings_le
    have hopen : ∀ pre, pre <+: Node.tokensOfList ns → closings pre ≤ 0 + openings pre :=
      fun pre hpre => by rw [Nat.zero_add]; exact hbalanced pre hpre
    simp only [Bool.and_eq_true, Bool.not_eq_true', isOk_eq_true_iff,
      exists_declarations_iff_of_forest hforest, exists_importTargets_eq_ok_iff]
    constructor
    · rintro ⟨⟨hall, hnames⟩, hpaths⟩
      obtain ⟨brace, after, htoks, hbrace, hcount⟩ :=
        exists_of_reached (Nat.zero_le _) hopen (Prod.ext rfl hall)
      refine ⟨ns, _, brace, after, hforest, hnames, htoks, hbrace, by omega, ?_⟩
      refine (forall_importTarget_iff hforest fun x hx => ?_).mp hpaths
      exact htoks ▸ List.mem_append_left _ hx
    · rintro ⟨ns', before, brace, after, hns', hnames, htoks, hbrace, hcount, hpaths⟩
      obtain rfl : ns = ns' := Except.ok.inj (hforest.symm.trans hns')
      obtain ⟨front, hreached, hfront⟩ :=
        reached_of_overflow (htoks ▸ hopen) hbrace (by rw [Nat.zero_add]; exact hcount)
      rw [htoks, hreached]
      refine ⟨⟨rfl, hnames⟩, ?_⟩
      have hsub : front ⊆ Node.tokensOfList ns := fun x hx =>
        htoks ▸ List.mem_append_left _ (hfront.subset hx)
      exact (forall_importTarget_iff hforest hsub).mpr fun x hx => hpaths x (hfront.subset hx)

/-- What has no tree does not overflow. -/
theorem not_overflows_of_shape {fault : ShapeFault} (h : parse t = .error (.shape fault)) :
    ¬ Overflows limit t := by
  rintro ⟨ns, -, -, -, hforest, -⟩
  rw [forest_eq_error_iff_faulty.mpr (parse_eq_error_iff.mp h)] at hforest
  cases hforest

theorem parseFileWithin_eq_ok_iff : parseFileWithin limit file t = .ok parsed ↔
    ¬ Overflows limit t ∧ parseFile file t = .ok parsed := by
  rw [parseFileWithin, ← isTooDeep_iff]
  split
  · rename_i hdeep
    exact iff_of_false nofun fun h => h.1 hdeep
  · rename_i hshallow
    cases parseFile file t <;> simp [Except.mapError, hshallow]

theorem parse_of_parseFile (h : parseFile file t = .ok parsed) : parse t = .ok parsed := by
  rw [parseFile] at h
  split at h
  · rename_i p hp
    rw [hp, Except.ok.inj h]
  · cases h

theorem parse_of_parseFileWithin (h : parseFileWithin limit file t = .ok parsed) :
    ¬ Overflows limit t ∧ parse t = .ok parsed :=
  (parseFileWithin_eq_ok_iff.mp h).imp_right parse_of_parseFile

theorem parseFileWithin_of_parse (hshallow : ¬ Overflows limit t) (h : parse t = .ok parsed) :
    parseFileWithin limit file t = .ok parsed :=
  parseFileWithin_eq_ok_iff.mpr ⟨hshallow, by rw [parseFile, h]⟩

/-- **A file is not parsed because the stack runs out, or else because it is faulty.** -/
theorem parseFileWithin_eq_error_iff : parseFileWithin limit file t = .error e ↔
    Overflows limit t ∧ e = .tooDeep " in comparison" ∨
    ¬ Overflows limit t ∧ ∃ b, parseFile file t = .error b ∧ e = .build b := by
  rw [parseFileWithin, ← isTooDeep_iff]
  split
  · rename_i hdeep
    simp [hdeep, eq_comm]
  · rename_i hshallow
    cases parseFile file t <;> simp [Except.mapError, hshallow, eq_comm]

/-! ## Located errors -/

/-- **A source that does not overflow parses, or has a located error.**  Of a named file it is
parsed exactly the one without a fault, and the errors are those at the places of its faults, under
the name of the file; such a place has something of the source behind it, so its line is one of the
lines of the source.  A source that overflows has another error, which has no place. -/
theorem parseFileWithin_located {file : Text} (hfile : file ≠ []) (limit : Nat) (t : Text) :
    (¬ Overflows limit t →
      (∀ e, parseFileWithin limit (some file) t = .error e ↔ ∃ fault, Faulty t fault ∧
        e = .build
          { reason := BuildError.parseReason, message := fault.message
            span := { file := some file, line := some fault.position.line
                      column := some fault.position.column } }) ∧
      ((∃ parsed, parseFileWithin limit (some file) t = .ok parsed) ↔
        ∀ fault, ¬ Faulty t fault)) ∧
    (Overflows limit t →
      parseFileWithin limit (some file) t = .error (.tooDeep " in comparison")) ∧
    ∀ fault, Faulty t fault → ∃ before rest, t = before ++ rest ∧ rest ≠ [] ∧
      fault.position = .behind before ∧
      1 ≤ fault.position.line ∧ fault.position.line ≤ 1 + t.count '\n' := by
  refine ⟨fun hshallow => ⟨fun e => ?_, ?_⟩, fun hdeep => ?_, fun fault hfault => ?_⟩
  · simp only [parseFileWithin_eq_error_iff, hshallow, false_and, false_or, not_false_eq_true,
      true_and, parseFile_eq_error_iff hfile, parse_eq_error_iff]
    constructor
    · rintro ⟨b, ⟨fault, hfault, rfl⟩, rfl⟩
      exact ⟨fault, hfault, rfl⟩
    · rintro ⟨fault, hfault, rfl⟩
      exact ⟨_, ⟨fault, hfault, rfl⟩, rfl⟩
  · simp only [parseFileWithin_eq_ok_iff, hshallow, not_false_eq_true, true_and]
    rw [exists_parseFile_eq_ok_iff]
    simp only [← parse_eq_error_iff, ← not_exists, exists_eq_error_iff, not_not]
  · exact parseFileWithin_eq_error_iff.mpr (.inl ⟨hdeep, rfl⟩)
  · obtain ⟨before, rest, htext, hrest, hposition⟩ := hfault.exists_place
    exact ⟨before, rest, htext, hrest, hposition, hfault.line_bounds⟩

/-- A group without its closing brace. -/
def openSource : Text := "a \x7b // b"

/-- The brace is the last token. -/
theorem parseFileWithin_located_open : ("a.zig" : Text) ≠ [] ∧
    parseFileWithin 980 (some "a.zig") openSource = .error (.build
      { reason := "parse", message := "cannot parse zig source: UnexpectedToken"
        span := { file := some "a.zig", line := some 1, column := some 3 } }) := by
  have hcut : Cut [] openSource
      [⟨.name, "a", ⟨0, 1, 1⟩⟩, ⟨.blank, " ", ⟨1, 1, 2⟩⟩, ⟨.leftBrace, "\x7b", ⟨2, 1, 3⟩⟩,
        ⟨.blank, " ", ⟨3, 1, 4⟩⟩, ⟨.comment, "// b", ⟨4, 1, 5⟩⟩] :=
    cut_iff.mpr (by decide +kernel)
  have hfaulty : Faulty openSource (.shape (.token ⟨2, 1, 3⟩)) :=
    @Faulty.unclosed openSource _ [⟨.name, "a", ⟨0, 1, 1⟩⟩] _ hcut
      (exists_foldlM_step_iff.mp ⟨_, rfl⟩) (by decide) rfl
  have hshallow : ¬ Overflows 980 openSource :=
    isTooDeep_iff.not.mp (by decide +kernel)
  have hfile : ("a.zig" : Text) ≠ [] := by decide
  obtain ⟨hlocated, -⟩ := parseFileWithin_located hfile 980 openSource
  exact ⟨hfile, ((hlocated hshallow).1 _).mpr ⟨_, hfaulty, rfl⟩⟩

/-! ## Groups nested into one another -/

/-- Groups with nothing in them but the next one. -/
def nestedSource : (depth : Nat) → Text
  | 0 => []
  | depth + 1 => "\x7b" ++ (nestedSource depth ++ "\x7d")

theorem exists_lexFrom_nestedSource (depth : Nat) (p : Position) (rest : Text) :
    ∃ (ns : List Node) (opening closing : List Token) (q : Position), Node.AllBraced ns ∧
      Node.tokensOfList ns = opening ++ closing ∧ opening.length = depth ∧
      (∀ x ∈ opening, x.terminal = .leftBrace) ∧ (∀ x ∈ closing, x.terminal = .rightBrace) ∧
      lexFrom p (nestedSource depth ++ rest) = (lexFrom q rest).after (opening ++ closing) := by
  induction depth generalizing p rest with
  | zero => exact ⟨[], [], [], p, trivial, rfl, rfl, nofun, nofun, rfl⟩
  | succ depth ih =>
    obtain ⟨ns, opening, closing, q, hns, htokens, hlength, hopening, hclosing, hlex⟩ :=
      ih (p.advance "\x7b") ("\x7d" ++ rest)
    have hleft : Terminal.leftBrace.Takes "\x7b" (nestedSource depth ++ ("\x7d" ++ rest)) :=
      takes_mark (by decide) rfl fun _ _ => Iff.rfl
    have hright : Terminal.rightBrace.Takes "\x7d" rest :=
      takes_mark (by decide) rfl fun _ _ => Iff.rfl
    refine ⟨[.group ⟨.leftBrace, "\x7b", p⟩ ns ⟨.rightBrace, "\x7d", q⟩],
      ⟨.leftBrace, "\x7b", p⟩ :: opening, closing ++ [⟨.rightBrace, "\x7d", q⟩],
      q.advance "\x7d", ⟨⟨rfl, hns, rfl⟩, trivial⟩, ?_, by rw [List.length_cons, hlength],
      List.forall_mem_cons.mpr ⟨rfl, hopening⟩, ?_, ?_⟩
    · simp [Node.tokensOfList, Node.tokens, htokens]
    · exact List.forall_mem_append.mpr ⟨hclosing, List.forall_mem_singleton.mpr rfl⟩
    · rw [nestedSource, List.append_assoc, List.append_assoc, lexFrom_of_takes hleft, hlex,
        lexFrom_of_takes hright]
      simp [Lexed.after, Lexed.push]

/-- **Whatever the stack, there is a source that overflows**, though nothing is wrong with it. -/
theorem overflows_nestedSource (limit : Nat) : Overflows limit (nestedSource (limit + 1)) := by
  obtain ⟨ns, opening, closing, q, hns, htokens, hlength, hopening, hclosing, hlex⟩ :=
    exists_lexFrom_nestedSource (limit + 1) {} []
  have hbraces : ∀ x ∈ opening ++ closing, x.terminal = .leftBrace ∨ x.terminal = .rightBrace :=
    List.forall_mem_append.mpr
      ⟨fun x hx => .inl (hopening x hx), fun x hx => .inr (hclosing x hx)⟩
  have hlex : lex (nestedSource (limit + 1)) = ⟨opening ++ closing, none⟩ := by
    rw [List.append_nil, lexFrom] at hlex
    rw [lex, hlex, Lexed.after, List.append_nil]
  have hforest : forest (nestedSource (limit + 1)) = .ok ns := by
    refine forest_eq_ok_iff.mpr ⟨by rw [hlex], hns, ?_⟩
    rw [htokens, hlex, Lexed.tokens, eq_comm, List.filter_eq_self]
    intro x hx
    rcases hbraces x hx with h | h <;> rw [h] <;> rfl
  obtain ⟨before, brace, rfl⟩ := List.eq_nil_or_concat' opening
    |>.resolve_left (List.ne_nil_of_length_eq_add_one hlength)
  obtain ⟨hbefore, hbrace⟩ := List.forall_mem_append.mp hopening
  refine ⟨ns, before, brace, closing, hforest, fun x raw hx hquotes => ?_, by simp [htokens],
    hbrace brace List.mem_cons_self, ?_, fun x hx raw himports => ?_⟩
  · have hmem : x ∈ Node.tokensOfList ns := mem_tokensOfList_of_leaf hx
    rcases hbraces x (htokens ▸ hmem) with h | h <;> rw [hquotes.1] at h <;> cases h
  · have hopenings : openings before = before.length :=
      List.countP_eq_length.mpr fun x hx => decide_eq_true (hbefore x hx)
    have hclosings : closings before = 0 :=
      List.countP_eq_zero.mpr fun x hx => by simp [hbefore x hx]
    rw [List.length_append, List.length_singleton] at hlength
    omega
  · have h := hbefore x hx
    rw [himports.1] at h
    cases h

/-- The error of a source that does not parse need not have a place. -/
theorem no_place_of_nested : ¬ ∀ limit file t e, file ≠ [] →
    parseFileWithin limit (some file) t = .error e → ∃ b : BuildError, e = .build b := by
  intro hall
  have herror : parseFileWithin 980 (some "a.zig") (nestedSource 981) =
      .error (.tooDeep " in comparison") :=
    parseFileWithin_eq_error_iff.mpr (.inl ⟨overflows_nestedSource 980, rfl⟩)
  obtain ⟨b, hb⟩ := hall _ _ _ _ (List.cons_ne_nil _ _) herror
  cases hb

end ZigNif.Source
