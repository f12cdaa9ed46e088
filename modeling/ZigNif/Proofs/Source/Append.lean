import ZigNif.Proofs.Source.Call
import ZigNif.Proofs.Source.Level
import ZigNif.Proofs.Text.Distinct

/-!
# Proofs/Source/Append — one source behind another

A source whose last statement has ended can be followed by another one on a new line: what holds both
is what holds the first and, further down, what holds the second.  Nothing reaches over the newline:
an import call that did so would have its first parts as the last tokens of the first source, and
none of them is a semicolon.
-/

namespace ZigNif.Source

variable {a b t e front : Text} {lexemes : List Token}

/-! ## The boundary -/

/-- Behind a terminal that is no semicolon, the last token is none if no other one is. -/
theorem Reads.exists_last {p q : Position} {k : Terminal} {s u r : Text} (h : Reads p t k s u q r)
    (hk : k ≠ .semicolon) (hr : r = [] ∨ ((lexFrom q r).stop = none →
      ∃ tok ∈ (visible (lexFrom q r).lexemes).getLast?, tok.terminal ≠ .semicolon))
    (hstop : (lexFrom p t).stop = none) :
    ∃ tok ∈ (visible (lexFrom p t).lexemes).getLast?, tok.terminal ≠ .semicolon := by
  obtain ⟨hrest, htokens⟩ := h.visible_eq hstop
  rw [htokens, List.getLast?_cons]
  rcases hr with rfl | hr
  · rw [lexFrom]
    exact ⟨_, rfl, hk⟩
  · obtain ⟨tok, htok, hne⟩ := hr hrest
    exact ⟨tok, by rw [Option.mem_def.mp htok]; rfl, hne⟩

/-- **The first parts of a call do not end with a semicolon.** -/
theorem exists_last_of_isImportCall {p : Position}
    (hcall : IsImportCall Text.isBlank (t ++ '\n' :: e)) (hstop : (lexFrom p t).stop = none) :
    ∃ tok ∈ (visible (lexFrom p t).lexemes).getLast?, tok.terminal ≠ .semicolon := by
  -- no call ends in front of the newline
  have hno : ∀ s rest', s ++ rest' = t → ¬ IsImportCall Text.isBlank s := by
    rintro s rest' rfl hs
    have heq := hs.eq_of_append hcall
      (by simp : s ++ (rest' ++ '\n' :: e) = s ++ rest' ++ '\n' :: e ++ [])
    simp at heq
  have hsame : ∀ u, IsOpened [] u u := fun u => .inl rfl
  obtain ⟨u, v, lit, w, hu, hv, hlit, hw, heq⟩ := hcall
  rcases importText_eq_cons hlit (by decide) (.inl (hlit.newline_notMem (by decide))) heq.symm with
    ⟨a, b, rfl, rfl, -⟩ | ⟨a, b, rfl, rfl, -⟩ | ⟨a, b, rfl, rfl, -⟩
  · rw [← List.append_nil a] at hstop hno ⊢
    exact (reads_builtin (hsame a) isFiller_nil (List.forall_mem_append.mp hu).1 hno
      (by rintro _ ⟨⟩)).exists_last (by decide) (.inl rfl) hstop
  · rw [← List.append_nil a] at hstop hno ⊢
    refine (reads_builtin (hsame u) isFiller_nil hu hno (by rintro _ ⟨⟩; decide)).exists_last
      (by decide) (.inr fun hstop => ?_) hstop
    exact (reads_parenthesis (hsame a) isFiller_nil (List.forall_mem_append.mp hv).1
      (by rintro _ ⟨⟩)).exists_last (by decide) (.inl rfl) hstop
  · have hquote : ∀ c ∈ (lit ++ (a ++ [])).head?, ¬ isOperator c := by
      obtain ⟨part, -, rfl⟩ := hlit
      rintro _ ⟨⟩
      decide
    rw [← List.append_nil a] at hstop hno ⊢
    refine (reads_builtin (hsame u) isFiller_nil hu hno (by rintro _ ⟨⟩; decide)).exists_last
      (by decide) (.inr fun hstop => ?_) hstop
    refine (reads_parenthesis (hsame v) isFiller_nil hv hquote).exists_last (by decide)
      (.inr fun hstop => ?_) hstop
    exact (reads_string (hsame a) isFiller_nil (List.forall_mem_append.mp hw).1
      hlit).exists_last (by decide) (.inl rfl) hstop

/-- The place, with a text and a newline put in front. -/
def Position.below (t : Text) (p : Position) : Position :=
  ⟨p.offset + (t.length + 1), p.line + (t.count '\n' + 1), p.column⟩

theorem Position.below_next {p : Position} {c : Char} :
    (p.next c).below t = (p.below t).next c := by
  rw [next, next]
  split
  · simp [below]
    omega
  · simp [below]
    omega

theorem Position.behind_newline : behind (t ++ ['\n']) = below t {} := by
  simp [behind, below]

/-- **Behind a semicolon and a newline, a text has the tokens that it has alone**, further down. -/
theorem lex_append (h : Cut [] a lexemes)
    (hlast : ∀ tok ∈ (visible lexemes).getLast?, tok.terminal = .semicolon) :
    (lex (a ++ '\n' :: b)).stop = (lex b).stop.map (Position.below a) ∧
      (lex (a ++ '\n' :: b)).tokens =
        visible lexemes ++ (lex b).tokens.map (Token.place (Position.below a)) := by
  have hcut : Cut [] (a ++ ([] ++ [])) (lexemes ++ []) := by
    rwa [List.append_nil, List.append_nil, List.append_nil]
  -- a call that starts at a lexeme would leave its first parts as the last tokens
  have hcall : ∀ ls, ls <:+ lexemes → ∀ e, e <+: b →
      ¬ IsImportCall Text.isBlank (ls.flatMap Token.text ++ ([] ++ '\n' :: e)) := by
    rintro ls ⟨ls', rfl⟩ e - hcall
    have hlex := lexFrom_eq_iff.mpr h.append_right
    obtain ⟨tok, htok, hne⟩ := exists_last_of_isImportCall hcall (by rw [hlex])
    rw [hlex] at htok
    refine hne (hlast tok ?_)
    have hsplit : visible (ls' ++ ls) = visible ls' ++ visible ls := List.filter_append ls' ls
    rw [hsplit, List.getLast?_append, Option.mem_def.mp htok]
    rfl
  have hbare := bare_lexFrom_newline hcut h.flatMap_text nofun hcall
  rw [List.nil_append, List.nil_append, bare_lexFrom_cons rfl, Position.next_behind,
    Position.behind_newline] at hbare
  have hplace : lexFrom (Position.below a {}) b = (lex b).place (Position.below a) := by
    rw [← (lexFrom (Position.below a {}) b).place_id]
    refine lexFrom_place (fun p q c h => ?_) rfl
    rw [Position.below_next, ← h]
    rfl
  rw [hplace] at hbare
  refine ⟨congrArg Lexed.stop hbare, ?_⟩
  have htokens := congrArg Lexed.lexemes hbare
  change visible _ = visible lexemes ++ visible ((lex b).lexemes.map _) at htokens
  rw [visible_place] at htokens
  exact htokens

/-! ## What both hold -/

/-- Behind tokens whose last statement has ended, tokens at other places are read as they are alone.
-/
theorem holds_append_iff {toks toks' : List Token} {f : Position → Position} {g : Nat → Nat}
    {s : Scan} {targets : List Text} {parsed : Parsed} (hf : ∀ p, (f p).line = g p.line)
    (hfold : toks.foldlM Level.step {} = some ⟨0, s⟩) (hend : s.statement = {})
    (htargets : importTargets toks = .ok targets) :
    Holds (toks ++ toks'.map (Token.place f)) parsed ↔ ∃ parsed', Holds toks' parsed' ∧ parsed =
      { code := s.decls ++ parsed'.code.map (Decl.reline g)
        dependencies := Text.distinct (targets.filter isZigFile) ++ parsed'.dependencies.filter
          (· ∉ Text.distinct (targets.filter isZigFile)) } := by
  have hlevel : (toks ++ toks'.map (Token.place f)).foldlM Level.step {} =
      (toks'.foldlM Level.step {}).map (Level.put s.decls g) := by
    have hstart : (⟨0, s⟩ : Level) = Level.put s.decls g {} := by
      obtain ⟨decls, _⟩ := s
      obtain rfl := hend
      simp [Level.put, Scan.put]
    rw [List.foldlM_append, hfold]
    change (toks'.map (Token.place f)).foldlM Level.step ⟨0, s⟩ = _
    rw [hstart, Level.foldlM_place hf]
  rw [Holds, hlevel]
  simp only [importTargets_append_eq_ok_iff, importTargets_place_eq_ok_iff, htargets,
    Except.ok.injEq]
  constructor
  · rintro ⟨s', _, hs', ⟨_, targets', rfl, htargets', rfl⟩, rfl⟩
    obtain ⟨⟨d, s₀⟩, hs₀, heq⟩ := Option.map_eq_some_iff.mp hs'
    cases heq
    refine ⟨_, ⟨s₀, targets', hs₀, htargets', rfl⟩, ?_⟩
    rw [List.filter_append, Text.distinct_append]
    rfl
  · rintro ⟨_, ⟨s₀, targets', hs₀, htargets', rfl⟩, rfl⟩
    refine ⟨s₀.put s.decls g, _, by rw [hs₀]; rfl, ⟨targets, targets', rfl, htargets', rfl⟩, ?_⟩
    rw [List.filter_append, Text.distinct_append]
    rfl

/-- The source has a tree, and the last node of it, if there is one, is a semicolon. -/
def EndsStatement (t : Text) : Prop :=
  ∃ nodes, forest t = .ok nodes ∧
    ∀ n ∈ nodes.getLast?, ∃ tok, n = .leaf tok ∧ tok.terminal = .semicolon

/-- The last token of such a source is a semicolon, and behind it a statement starts. -/
theorem EndsStatement.of_fold (h : EndsStatement t) :
    (∀ tok ∈ (lex t).tokens.getLast?, tok.terminal = .semicolon) ∧
      ∀ s, (lex t).tokens.foldlM Level.step {} = some ⟨0, s⟩ → s.statement = {} := by
  obtain ⟨nodes, hnodes, hlast⟩ := h
  obtain ⟨-, hbraced, htokens⟩ := forest_eq_ok_iff.mp hnodes
  have hfold := Level.foldlM_tokensOfList (s := {}) hbraced
  rw [htokens] at hfold
  cases hn : nodes.getLast? with
  | none =>
    obtain rfl := List.getLast?_eq_none_iff.mp hn
    rw [Node.tokensOfList] at htokens
    rw [← htokens]
    refine ⟨nofun, fun s hs => ?_⟩
    cases hs
    rfl
  | some n =>
    obtain ⟨tok, rfl, htok⟩ := hlast n hn
    obtain ⟨nodes, rfl⟩ := List.getLast?_eq_some_iff.mp hn
    refine ⟨fun last hmem => ?_, fun s hs => ?_⟩
    · rw [← htokens, Node.tokensOfList_append, List.getLast?_append] at hmem
      obtain rfl := Option.some.inj hmem
      exact htok
    · obtain ⟨s', hs', heq⟩ := Option.map_eq_some_iff.mp (hfold.symm.trans hs)
      cases heq
      obtain ⟨m, -, hm⟩ := foldlM_append_eq_ok_iff.mp (toOption_eq_some_iff.mp hs')
      obtain ⟨_, hstep, hend⟩ := foldlM_cons_eq_ok_iff.mp hm
      rw [Scan.step_semicolon htok] at hstep
      cases hstep
      cases hend
      rfl

/-- **One source behind another.**  Where the first has ended its last statement, both parse if and
only if the second does.  They hold the declarations of the first, those of the second further down,
the imports of the first, and those of the second that are new. -/
theorem parse_append {pa : Parsed} (ha : parse a = .ok pa) (hend : EndsStatement a) :
    ((∃ parsed, parse (a ++ '\n' :: b) = .ok parsed) ↔ ∃ pb, parse b = .ok pb) ∧
    ∀ pb, parse b = .ok pb → parse (a ++ '\n' :: b) = .ok
      { code := pa.code ++ pb.code.map (Decl.reline (· + (a.count '\n' + 1)))
        dependencies := pa.dependencies ++ pb.dependencies.filter (· ∉ pa.dependencies) } := by
  obtain ⟨hstop, s, targets, hfold, htargets, rfl⟩ := parse_eq_ok_iff_holds.mp ha
  obtain ⟨hlast, hstatement⟩ := hend.of_fold
  have hcut : Cut [] a (lex a).lexemes := cut_iff.mpr ⟨hstop, rfl⟩
  have htokens : (lex (a ++ '\n' :: b)).tokens =
      (lex a).tokens ++ (lex b).tokens.map (Token.place (Position.below a)) :=
    (lex_append hcut hlast).2
  have hstop' : (lex (a ++ '\n' :: b)).stop = (lex b).stop.map (Position.below a) :=
    (lex_append hcut hlast).1
  have hparse : ∀ parsed, parse (a ++ '\n' :: b) = .ok parsed ↔ ∃ pb, parse b = .ok pb ∧ parsed =
      { code := s.decls ++ pb.code.map (Decl.reline (· + (a.count '\n' + 1)))
        dependencies := Text.distinct (targets.filter isZigFile) ++ pb.dependencies.filter
          (· ∉ Text.distinct (targets.filter isZigFile)) } := by
    intro parsed
    rw [parse_eq_ok_iff_holds, hstop', htokens, holds_append_iff (g := (· + (a.count '\n' + 1)))
      (fun _ => rfl) hfold (hstatement s hfold) htargets, Option.map_eq_none_iff]
    simp only [parse_eq_ok_iff_holds]
    constructor
    · rintro ⟨hstop, pb, hpb, rfl⟩
      exact ⟨pb, ⟨hstop, hpb⟩, rfl⟩
    · rintro ⟨pb, ⟨hstop, hpb⟩, rfl⟩
      exact ⟨hstop, pb, hpb, rfl⟩
  refine ⟨⟨fun ⟨parsed, h⟩ => ?_, fun ⟨pb, h⟩ => ⟨_, (hparse _).mpr ⟨pb, h, rfl⟩⟩⟩,
    fun pb h => (hparse _).mpr ⟨pb, h, rfl⟩⟩
  obtain ⟨pb, hpb, -⟩ := (hparse parsed).mp h
  exact ⟨pb, hpb⟩

/-- A source that ends with the beginning of an import call in a comment. -/
def importingSource : Text := "const a = @import(\"a.zig\");\n// @import("

/-- A source that starts with the end of one, and imports two files. -/
def importedSource : Text := "\"c.zig\");\nconst b = @import(\"b.zig\") ++ @import(\"a.zig\");"

/-- The newline between them ends the comment. -/
theorem parse_append_importing : parse (importingSource ++ '\n' :: importedSource) =
    .ok ⟨[⟨"a", .const, false, none, 1⟩, ⟨"b", .const, false, none, 4⟩], ["a.zig", "b.zig"]⟩ := by
  have ha : parse importingSource = .ok ⟨[⟨"a", .const, false, none, 1⟩], ["a.zig"]⟩ := by
    decide +kernel
  have hb : parse importedSource = .ok ⟨[⟨"b", .const, false, none, 2⟩], ["b.zig", "a.zig"]⟩ := by
    decide +kernel
  have hforest : forest importingSource = .ok
      [.leaf ⟨.name, "const", ⟨0, 1, 1⟩⟩, .leaf ⟨.name, "a", ⟨6, 1, 7⟩⟩,
        .leaf ⟨.other, "=", ⟨8, 1, 9⟩⟩, .leaf ⟨.importCall, "@import(\"a.zig\")", ⟨10, 1, 11⟩⟩,
        .leaf ⟨.semicolon, ";", ⟨26, 1, 27⟩⟩] :=
    forest_of_tokens (by decide +kernel) (by decide +kernel) (by simp [Node.AllBraced, Node.IsBraced])
  have hend : EndsStatement importingSource := ⟨_, hforest, by rintro _ ⟨⟩; exact ⟨_, rfl, rfl⟩⟩
  refine ((parse_append ha hend).2 _ hb).trans ?_
  decide +kernel

end ZigNif.Source
