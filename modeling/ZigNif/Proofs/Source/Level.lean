import ZigNif.Proofs.Source.Balance
import ZigNif.Proofs.Source.Scan

/-!
# Proofs/Source/Level — parsing token by token

Parsing needs no tree: it is enough to count the groups that are open.  A token outside of groups is
one step of the scan, and so is the brace that closes a group there; tokens in groups are skipped.

Only the lines of names are read, and nothing that is mute, but for the fact that it stands there.
-/

namespace ZigNif.Source

/-! ## Steps -/

/-- How many groups are open, and the scan of what is outside of groups. -/
structure Level where
  depth : Nat := 0
  scan : Scan := {}

/-- The scan behind a group. -/
def Scan.behindGroup (s : Scan) : Scan :=
  if s.statement.kind = none ∨ s.statement.kind = some .fn then s.atEnd else s

theorem Scan.step_group_eq (s : Scan) (opening closing : Token) (children : List Node) :
    s.step (.group opening children closing) = .ok s.behindGroup := by
  rw [behindGroup]
  split
  case isTrue h => exact step_group_of_closed h
  case isFalse h =>
    obtain ⟨hnone, hfn⟩ := not_or.mp h
    obtain ⟨kind, hkind⟩ := Option.ne_none_iff_exists'.mp hnone
    exact step_group_of_open hkind fun h => hfn (h ▸ hkind)

namespace Level

/-- Reads one token. -/
def step (l : Level) (tok : Token) : Option Level :=
  match tok.terminal, l.depth with
  | .leftBrace, d => some ⟨d + 1, l.scan⟩
  | .rightBrace, 0 => none
  | .rightBrace, 1 => some ⟨0, l.scan.behindGroup⟩
  | .rightBrace, d + 2 => some ⟨d + 1, l.scan⟩
  | _, 0 => (l.scan.step (.leaf tok)).toOption.map (⟨0, ·⟩)
  | _, d + 1 => some ⟨d + 1, l.scan⟩

variable {l l' : Level} {tok : Token} {toks : List Token} {s : Scan} {d : Nat} {ns : List Node}

theorem step_leftBrace (h : tok.terminal = .leftBrace) : l.step tok = some ⟨l.depth + 1, l.scan⟩ := by
  rw [step, h]

/-- The brace that leads back to the top level ends a group there. -/
theorem step_rightBrace_one (h : tok.terminal = .rightBrace) :
    step ⟨1, s⟩ tok = some ⟨0, s.behindGroup⟩ := by
  rw [step, h]

theorem step_rightBrace_deep (h : tok.terminal = .rightBrace) :
    step ⟨d + 2, s⟩ tok = some ⟨d + 1, s⟩ := by
  rw [step, h]

theorem step_leaf (hleft : tok.terminal ≠ .leftBrace) (hright : tok.terminal ≠ .rightBrace) :
    step ⟨0, s⟩ tok = (s.step (.leaf tok)).toOption.map (⟨0, ·⟩) := by
  unfold step
  split <;> first | contradiction | rfl

/-- Inside of groups, nothing is read for declarations. -/
theorem step_inside (hleft : tok.terminal ≠ .leftBrace) (hright : tok.terminal ≠ .rightBrace) :
    step ⟨d + 1, s⟩ tok = some ⟨d + 1, s⟩ := by
  unfold step
  split <;> first | contradiction | simp_all

/-! ## Reading the tokens of a tree -/

mutual

/-- A group inside of a group leaves everything as it is. -/
theorem foldlM_tokens_inside (d : Nat) (s : Scan) :
    ∀ n : Node, n.IsBraced → n.tokens.foldlM step ⟨d + 1, s⟩ = some ⟨d + 1, s⟩
  | .leaf tok, h => by
    rw [Node.tokens, List.foldlM_cons, step_inside h.1 h.2]
    rfl
  | .group opening children closing, h => by
    obtain ⟨hopening, hchildren, hclosing⟩ := h
    rw [Node.tokens, List.cons_append, List.foldlM_cons, step_leftBrace hopening]
    change (Node.tokensOfList children ++ [closing]).foldlM step ⟨d + 2, s⟩ = _
    rw [List.foldlM_append, foldlM_tokensOfList_inside (d + 1) s children hchildren]
    change [closing].foldlM step ⟨d + 2, s⟩ = _
    rw [List.foldlM_cons, step_rightBrace_deep hclosing]
    rfl

/-- **Tokens in groups are skipped.** -/
theorem foldlM_tokensOfList_inside (d : Nat) (s : Scan) :
    ∀ ns : List Node, Node.AllBraced ns →
      (Node.tokensOfList ns).foldlM step ⟨d + 1, s⟩ = some ⟨d + 1, s⟩
  | [], _ => by rw [Node.tokensOfList]; rfl
  | n :: ns, h => by
    rw [Node.tokensOfList, List.foldlM_append, foldlM_tokens_inside d s n h.1]
    exact foldlM_tokensOfList_inside d s ns h.2

end

/-- **The tokens of a node are read like the node.** -/
theorem foldlM_tokens {n : Node} (h : n.IsBraced) :
    n.tokens.foldlM step ⟨0, s⟩ = (s.step n).toOption.map (⟨0, ·⟩) := by
  cases n with
  | leaf tok =>
    rw [Node.tokens, List.foldlM_cons, step_leaf h.1 h.2]
    cases s.step (.leaf tok) <;> rfl
  | group opening children closing =>
    obtain ⟨hopening, hchildren, hclosing⟩ := h
    rw [Node.tokens, List.cons_append, List.foldlM_cons, step_leftBrace hopening,
      Scan.step_group_eq]
    change (Node.tokensOfList children ++ [closing]).foldlM step ⟨1, s⟩ = _
    rw [List.foldlM_append, foldlM_tokensOfList_inside 0 s children hchildren]
    change [closing].foldlM step ⟨1, s⟩ = _
    rw [List.foldlM_cons, step_rightBrace_one hclosing]
    rfl

/-- **Reading the tokens of a tree is reading the tree.** -/
theorem foldlM_tokensOfList (h : Node.AllBraced ns) :
    (Node.tokensOfList ns).foldlM step ⟨0, s⟩ = (ns.foldlM Scan.step s).toOption.map (⟨0, ·⟩) := by
  induction ns generalizing s with
  | nil => rw [Node.tokensOfList]; rfl
  | cons n ns ih =>
    rw [Node.tokensOfList, List.foldlM_append, foldlM_tokens h.1, List.foldlM_cons]
    cases s.step n with
    | error fault => rfl
    | ok m => exact ih h.2

/-! ## Balance -/

/-- The depth counts the groups that have been opened and not closed. -/
theorem depth_step (h : l.step tok = some l') :
    l'.depth + closings [tok] = l.depth + openings [tok] := by
  obtain ⟨d, s⟩ := l
  by_cases hleft : tok.terminal = .leftBrace
  · rw [step_leftBrace hleft] at h
    cases h
    rw [openings_of_leftBrace hleft, closings_of_ne (by simp [hleft])]
  · rw [openings_of_ne hleft]
    by_cases hright : tok.terminal = .rightBrace
    · rw [closings_of_rightBrace hright]
      match d with
      | 0 => simp [step, hright] at h
      | 1 =>
        rw [step_rightBrace_one hright] at h
        cases h
        rfl
      | d + 2 =>
        rw [step_rightBrace_deep hright] at h
        cases h
        rfl
    · rw [closings_of_ne hright]
      cases d with
      | zero =>
        rw [step_leaf hleft hright] at h
        obtain ⟨s', -, rfl⟩ := Option.map_eq_some_iff.mp h
        rfl
      | succ d =>
        rw [step_inside hleft hright] at h
        cases h
        rfl

/-- **As many groups are open as have been opened and not closed.** -/
theorem depth_foldlM (h : toks.foldlM step l = some l') :
    l'.depth + closings toks = l.depth + openings toks := by
  induction toks generalizing l with
  | nil => cases h; rfl
  | cons tok toks ih =>
    rw [List.foldlM_cons] at h
    obtain ⟨m, hm, h⟩ := Option.bind_eq_some_iff.mp h
    have hstep := depth_step hm
    have hrest := ih h
    rw [← List.singleton_append, openings_append, closings_append]
    omega

/-- Tokens that lead from the top level to the top level are balanced. -/
theorem isBalanced_of_foldlM (h : toks.foldlM step {} = some ⟨0, s⟩) : IsBalanced toks where
  closings_le := by
    rintro pre ⟨post, rfl⟩
    rw [List.foldlM_append] at h
    obtain ⟨m, hm, -⟩ := Option.bind_eq_some_iff.mp h
    have hdepth : m.depth + closings pre = 0 + openings pre := depth_foldlM hm
    omega
  closings_eq := by
    have hdepth : 0 + closings toks = 0 + openings toks := depth_foldlM h
    omega

end Level

/-! ## Parsing -/

/-- The tokens are those of a file that holds `parsed`. -/
def Holds (toks : List Token) (parsed : Parsed) : Prop :=
  ∃ s targets, toks.foldlM Level.step {} = some ⟨0, s⟩ ∧ importTargets toks = .ok targets ∧
    parsed = ⟨s.decls, Text.distinct (targets.filter isZigFile)⟩

/-- The levels go through the tokens of a tree as the scan goes through its nodes. -/
theorem foldlM_tokens_iff {t : Text} {ns : List Node} (hns : forest t = .ok ns) {s : Scan} :
    (lex t).tokens.foldlM Level.step {} = some ⟨0, s⟩ ↔ ns.foldlM Scan.step {} = .ok s := by
  obtain ⟨-, hbraced, htokens⟩ := forest_eq_ok_iff.mp hns
  rw [← htokens, ← toOption_eq_some_iff]
  have hlevel := Level.foldlM_tokensOfList (s := {}) hbraced
  constructor
  · intro h
    obtain ⟨s', hs', heq⟩ := Option.map_eq_some_iff.mp (hlevel.symm.trans h)
    cases heq
    exact hs'
  · intro h
    exact hlevel.trans (by rw [h]; rfl)

/-- What a source holds can be read off its tokens, without its tree. -/
theorem parse_eq_ok_iff_of_forest {t : Text} {ns : List Node} {parsed : Parsed}
    (hns : forest t = .ok ns) : parse t = .ok parsed ↔ Holds (lex t).tokens parsed := by
  rw [parse_eq_ok_iff hns, (forest_eq_ok_iff.mp hns).2.2]
  obtain ⟨code, dependencies⟩ := parsed
  simp only [declarations, map_eq_ok_iff, Holds, foldlM_tokens_iff hns, Parsed.mk.injEq]
  constructor
  · rintro ⟨⟨s, hs, rfl⟩, targets, htargets, rfl⟩
    exact ⟨s, targets, hs, htargets, rfl, rfl⟩
  · rintro ⟨s, targets, hs, htargets, rfl, rfl⟩
    exact ⟨⟨s, hs, rfl⟩, targets, htargets, rfl⟩

/-- **A source is parsed token by token.** -/
theorem parse_eq_ok_iff_holds {t : Text} {parsed : Parsed} :
    parse t = .ok parsed ↔ (lex t).stop = none ∧ Holds (lex t).tokens parsed := by
  constructor
  · intro h
    obtain ⟨ns, hforest⟩ := exists_forest_of_parse h
    exact ⟨(forest_eq_ok_iff.mp hforest).1, (parse_eq_ok_iff_of_forest hforest).mp h⟩
  · rintro ⟨hstop, s, targets, hfold, hrest⟩
    obtain ⟨ns, hns⟩ := exists_forest_iff.mpr ⟨hstop, Level.isBalanced_of_foldlM hfold⟩
    exact (parse_eq_ok_iff_of_forest hns).mpr ⟨s, targets, hfold, hrest⟩

/-! ## Tokens at other places

Of the place of a token only the line counts, and that only for a name. -/

/-- The declaration on another line. -/
def Decl.reline (g : Nat → Nat) (d : Decl) : Decl := { d with line := g d.line }

/-- The scan behind more declarations, its own ones on other lines. -/
def Scan.put (pre : List Decl) (g : Nat → Nat) (s : Scan) : Scan :=
  ⟨pre ++ s.decls.map (Decl.reline g), s.statement⟩

/-- `Scan.put` for what is outside of groups. -/
def Level.put (pre : List Decl) (g : Nat → Nat) (l : Level) : Level := ⟨l.depth, l.scan.put pre g⟩

section Place

variable {f : Position → Position} {g : Nat → Nat} {pre : List Decl} {tok : Token}
  {toks : List Token}

theorem toOption_decodeIn_place (raw : Text) :
    (decodeIn (tok.place f) raw).toOption = (decodeIn tok raw).toOption := by
  rw [decodeIn, decodeIn]
  cases Literal.decode raw <;> rfl

theorem toOption_nameText_place :
    (nameText (tok.place f)).toOption = (nameText tok).toOption := by
  change (if tok.terminal = .quotedName then decodeIn (tok.place f) ((tok.text.drop 2).dropLast)
    else .ok tok.text).toOption = _
  rw [nameText]
  split
  · exact toOption_decodeIn_place _
  · rfl

theorem toOption_importTarget_place :
    (importTarget (tok.place f)).toOption = (importTarget tok).toOption := by
  have htext : (tok.place f).text = tok.text := rfl
  rw [importTarget, importTarget, htext]
  cases firstQuoted? tok.text with
  | none => rfl
  | some raw => exact toOption_decodeIn_place raw

namespace Scan

variable {s : Scan}

theorem toOption_name_place (hf : ∀ p, (f p).line = g p.line) :
    ((s.put pre g).name (tok.place f)).toOption = (s.name tok).toOption.map (put pre g) := by
  have hname : (nameText (tok.place f)).toOption = (nameText tok).toOption :=
    toOption_nameText_place
  cases h : nameText tok with
  | error fault =>
    rw [h] at hname
    cases h' : nameText (tok.place f) with
    | error fault' => simp [name, h, h', bind, Except.bind, Except.toOption]
    | ok t =>
      rw [h'] at hname
      cases hname
  | ok t =>
    have h' : nameText (tok.place f) = .ok t := toOption_eq_some_iff.mp (by rw [hname, h]; rfl)
    rcases s.namesNothing_or with hno | ⟨hnone, kind, hlast⟩
    · have hno' : (s.put pre g).NamesNothing := hno
      rw [name_of_namesNothing hno h, name_of_namesNothing hno' h']
      rfl
    · have hlast' : (s.put pre g).statement.words.getLast?.bind DeclKind.ofKeyword? = some kind :=
        hlast
      have hnone' : (s.put pre g).statement.kind = none := hnone
      rw [name_of_keyword hnone hlast h, name_of_keyword hnone' hlast' h']
      have hline : (tok.place f).position.line = g tok.position.line := hf tok.position
      simp only [put, Except.toOption, Option.map_some, List.map_append, List.map_cons, List.map_nil,
        List.append_assoc, Decl.reline, hline]
      rfl

theorem toOption_step_place (hf : ∀ p, (f p).line = g p.line) :
    ((s.put pre g).step (.leaf (tok.place f))).toOption =
      (s.step (.leaf tok)).toOption.map (put pre g) := by
  by_cases hname : tok.IsName
  · have hname' : (tok.place f).IsName := hname
    rw [step_name hname, step_name hname', toOption_name_place hf]
  · have hname' : ¬ (tok.place f).IsName := hname
    by_cases hdoc : tok.terminal = .docComment
    · have hdoc' : (tok.place f).terminal = .docComment := hdoc
      rw [step_docComment hdoc, step_docComment hdoc']
      change some _ = some _
      rw [apply_ite (put pre g)]
      rfl
    · by_cases hsemi : tok.terminal = .semicolon
      · have hsemi' : (tok.place f).terminal = .semicolon := hsemi
        rw [step_semicolon hsemi, step_semicolon hsemi']
        rfl
      · have hdoc' : (tok.place f).terminal ≠ .docComment := hdoc
        have hsemi' : (tok.place f).terminal ≠ .semicolon := hsemi
        rw [step_other hdoc hsemi hname, step_other hdoc' hsemi' hname']
        rfl

theorem behindGroup_put : (s.put pre g).behindGroup = s.behindGroup.put pre g := by
  rw [behindGroup, behindGroup, apply_ite (put pre g)]
  rfl

end Scan

namespace Level

variable {l : Level}

/-- Where a token stands does not matter to what is read, but for its line. -/
theorem step_place (hf : ∀ p, (f p).line = g p.line) :
    (l.put pre g).step (tok.place f) = (l.step tok).map (put pre g) := by
  obtain ⟨d, s⟩ := l
  change step ⟨d, s.put pre g⟩ (tok.place f) = _
  by_cases hleft : tok.terminal = .leftBrace
  · have hleft' : (tok.place f).terminal = .leftBrace := hleft
    rw [step_leftBrace hleft, step_leftBrace hleft']
    rfl
  · have hleft' : (tok.place f).terminal ≠ .leftBrace := hleft
    by_cases hright : tok.terminal = .rightBrace
    · have hright' : (tok.place f).terminal = .rightBrace := hright
      match d with
      | 0 => simp [step, hright, hright']
      | 1 =>
        rw [step_rightBrace_one hright, step_rightBrace_one hright', Scan.behindGroup_put]
        rfl
      | d + 2 =>
        rw [step_rightBrace_deep hright, step_rightBrace_deep hright']
        rfl
    · have hright' : (tok.place f).terminal ≠ .rightBrace := hright
      cases d with
      | zero =>
        rw [step_leaf hleft hright, step_leaf hleft' hright', Scan.toOption_step_place hf,
          Option.map_map, Option.map_map]
        rfl
      | succ d =>
        rw [step_inside hleft hright, step_inside hleft' hright']
        rfl

/-- **Tokens at other places are read alike.** -/
theorem foldlM_place (hf : ∀ p, (f p).line = g p.line) :
    (toks.map (Token.place f)).foldlM step (l.put pre g) = (toks.foldlM step l).map (put pre g) := by
  induction toks generalizing l with
  | nil => rfl
  | cons tok toks ih =>
    rw [List.map_cons, List.foldlM_cons, List.foldlM_cons, step_place hf]
    cases l.step tok with
    | none => rfl
    | some m => exact ih

end Level

end Place

/-! ## Imports -/

/-- Imports are found in order. -/
theorem importTargets_append_eq_ok_iff {xs ys : List Token} {ts : List Text} :
    importTargets (xs ++ ys) = .ok ts ↔
      ∃ as bs, importTargets xs = .ok as ∧ importTargets ys = .ok bs ∧ ts = as ++ bs := by
  simp only [importTargets, List.filter_append, List.mapM_append, bind_eq_ok_iff]
  constructor
  · rintro ⟨as, has, bs, hbs, h⟩
    exact ⟨as, bs, has, hbs, (Except.ok.inj h).symm⟩
  · rintro ⟨as, bs, has, hbs, rfl⟩
    exact ⟨as, has, bs, hbs, rfl⟩

theorem importTargets_cons_eq_ok_iff {tok : Token} {toks : List Token} {ts : List Text}
    (h : tok.terminal = .importCall) : importTargets (tok :: toks) = .ok ts ↔
      ∃ t ts', importTarget tok = .ok t ∧ importTargets toks = .ok ts' ∧ ts = t :: ts' := by
  rw [importTargets, List.filter_cons_of_pos (by simp [h]), mapM_cons_eq_ok_iff]
  rfl

theorem importTargets_cons_of_ne {tok : Token} {toks : List Token}
    (h : tok.terminal ≠ .importCall) : importTargets (tok :: toks) = importTargets toks := by
  rw [importTargets, List.filter_cons_of_neg (by simp [h])]
  rfl

theorem importTargets_append_of_ne {xs ys : List Token}
    (h : ∀ tok ∈ xs, tok.terminal ≠ .importCall) : importTargets (xs ++ ys) = importTargets ys := by
  induction xs with
  | nil => rfl
  | cons tok xs ih =>
    obtain ⟨htok, hxs⟩ := List.forall_mem_cons.mp h
    rw [List.cons_append, importTargets_cons_of_ne htok, ih hxs]

/-- Layout imports nothing. -/
theorem importTargets_visible {lexemes : List Token} :
    importTargets (visible lexemes) = importTargets lexemes := by
  rw [importTargets, visible, List.filter_filter]
  refine congrArg (List.mapM importTarget) (List.filter_congr fun l _ => ?_)
  cases l.terminal <;> rfl

theorem importTargets_place_eq_ok_iff {f : Position → Position} {toks : List Token}
    {ts : List Text} :
    importTargets (toks.map (Token.place f)) = .ok ts ↔ importTargets toks = .ok ts := by
  induction toks generalizing ts with
  | nil => rfl
  | cons tok toks ih =>
    rw [List.map_cons]
    by_cases h : tok.terminal = .importCall
    · have h' : (tok.place f).terminal = .importCall := h
      simp only [importTargets_cons_eq_ok_iff h, importTargets_cons_eq_ok_iff h', ih,
        ← toOption_eq_some_iff (x := importTarget _), toOption_importTarget_place]
    · have h' : (tok.place f).terminal ≠ .importCall := h
      rw [importTargets_cons_of_ne h, importTargets_cons_of_ne h', ih]

/-! ## Mute tokens -/

/-- The terminals whose texts are not read at the top level. -/
def Terminal.mute : List Terminal := [importCall, multilineString, builtin, string, char, other]

namespace Level

variable {l : Level} {tok : Token} {toks : List Token}

/-- The level with the statement started, if no group is open. -/
def started : Level → Level
  | ⟨0, s⟩ => ⟨0, { s with statement := { s.statement with isStarted := true } }⟩
  | l => l

theorem started_started : l.started.started = l.started := by
  obtain ⟨d, s⟩ := l
  cases d <;> rfl

/-- Tokens that say nothing start a statement, and do no more. -/
theorem step_mute (h : tok.terminal ∈ Terminal.mute) : l.step tok = some l.started := by
  have hnone : ∀ k ∈ Terminal.mute, k ≠ .leftBrace ∧ k ≠ .rightBrace ∧ k ≠ .docComment ∧
      k ≠ .semicolon ∧ ¬ (k = .name ∨ k = .quotedName) := by
    decide
  obtain ⟨hleft, hright, hdoc, hsemi, hname⟩ := hnone _ h
  obtain ⟨d, s⟩ := l
  cases d with
  | zero =>
    rw [step_leaf hleft hright, Scan.step_other hdoc hsemi hname]
    rfl
  | succ d => exact step_inside hleft hright

/-- **Mute tokens only start the statement.** -/
theorem foldlM_mute (hne : toks ≠ []) (h : ∀ tok ∈ toks, tok.terminal ∈ Terminal.mute) :
    toks.foldlM step l = some l.started := by
  induction toks generalizing l with
  | nil => exact absurd rfl hne
  | cons tok toks ih =>
    obtain ⟨htok, htoks⟩ := List.forall_mem_cons.mp h
    rw [List.foldlM_cons, step_mute htok]
    change toks.foldlM step l.started = _
    by_cases hnil : toks = []
    · subst hnil
      rfl
    · rw [ih hnil htoks, started_started]

/-- Mute tokens are read like other ones in their place. -/
theorem foldlM_replace {pre post : List Token} {toks' : List Token} (hne : toks ≠ [])
    (h : ∀ tok ∈ toks, tok.terminal ∈ Terminal.mute) (hne' : toks' ≠ [])
    (h' : ∀ tok ∈ toks', tok.terminal ∈ Terminal.mute) :
    (pre ++ (toks ++ post)).foldlM step l = (pre ++ (toks' ++ post)).foldlM step l := by
  simp only [List.foldlM_append, foldlM_mute hne h, foldlM_mute hne' h']

end Level

end ZigNif.Source
