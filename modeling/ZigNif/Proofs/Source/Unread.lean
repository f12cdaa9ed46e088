import ZigNif.Proofs.Source.Balance
import ZigNif.Proofs.Source.Scan

/-!
# Proofs/Source/Unread — names and imports that cannot be read

A quoted name and the path of an import call are literals between quotes, and reading them fails
exactly when their escapes denote no text (`nameText_eq_error_iff`, `importTarget_eq_error_iff`).
The first of them that fails is the fault of the list that it stands in.
-/

namespace ZigNif.Source

variable {rest t raw : Text} {toks : List Token} {tok : Token} {ns : List Node} {fault : Fault}

/-! ## Literals in tokens -/

/-- The token is a quoted name with the given text between its quotes. -/
def Token.Quotes (tok : Token) (raw : Text) : Prop :=
  tok.terminal = .quotedName ∧ tok.text = '@' :: '"' :: (raw ++ ['"'])

/-- The token is an import call whose path literal has the given text between its quotes. -/
def Token.Imports (tok : Token) (raw : Text) : Prop :=
  tok.terminal = .importCall ∧ ∃ u v w, (∀ c ∈ u, Text.isBlank c) ∧ (∀ c ∈ v, Text.isBlank c) ∧
    IsQuotedPart '"' raw ∧ tok.text = importText u v ('"' :: (raw ++ ['"'])) w

/-- A literal that denotes no text is a fault of the token that it stands in. -/
theorem decodeIn_eq_error_iff : decodeIn tok raw = .error fault ↔
    ∃ e, Literal.decode raw = .error e ∧ fault = .literal tok e := by
  rw [decodeIn]
  cases Literal.decode raw with
  | error e => simp [eq_comm]
  | ok t => simp

/-- The token does not matter to what a literal denotes. -/
theorem decodeIn_eq_ok_iff {s : Text} : decodeIn tok raw = .ok s ↔ Literal.decode raw = .ok s := by
  rw [decodeIn]
  cases Literal.decode raw with
  | error e => simp
  | ok t => simp

theorem exists_decodeIn_eq_ok_iff :
    (∃ s, decodeIn tok raw = .ok s) ↔ ∃ s, Literal.decode raw = .ok s :=
  exists_congr fun _ => decodeIn_eq_ok_iff

/-- The name that a quoted name spells is what stands between its quotes, decoded. -/
theorem Token.Quotes.nameText_eq (h : tok.Quotes raw) : nameText tok = decodeIn tok raw := by
  rw [nameText, if_pos h.1, h.2, List.drop_succ_cons, List.drop_succ_cons, List.drop_zero,
    List.dropLast_concat]

/-! ## The search for a path

The path of an import call is searched in its text by a pattern of its own: the first literal,
which here may reach past its line. -/

/-- The inside of a literal that may reach past its line: characters that are no quote and no
backslash, and backslashes, each with a character of its line behind it. -/
inductive IsPathPart : Text → Prop
  | nil : IsPathPart []
  | escape {c : Char} {r : Text} : c ≠ '\n' → IsPathPart r → IsPathPart ('\\' :: c :: r)
  | plain {c : Char} {r : Text} : c ≠ '"' → c ≠ '\\' → IsPathPart r → IsPathPart (c :: r)

/-- A literal that stays on its line is one that may reach past it. -/
theorem IsQuotedPart.isPathPart {part : Text} (h : IsQuotedPart '"' part) : IsPathPart part := by
  induction h with
  | nil => exact .nil
  | escape hc _ ih => exact .escape hc ih
  | plain hquote hslash _ _ ih => exact .plain hquote hslash ih

/-- The search ends at the first quote that no backslash stands before. -/
theorem quotedPart_append {part : Text} (h : IsPathPart part) :
    quotedPart (part ++ '"' :: rest) = some part := by
  induction h with
  | nil => rfl
  | @escape c r hc _ ih =>
    rw [List.cons_append, List.cons_append, quotedPart, if_neg hc, ih]
    rfl
  | @plain c r hquote hslash _ ih =>
    rw [List.cons_append, quotedPart, if_neg hslash, ih]
    · rfl
    · exact hquote
    · exact fun _ _ h _ => hslash h

/-- **What is read up to the closing quote is the inside of a literal.** -/
theorem quotedPart_eq_some_iff {part : Text} : quotedPart t = some part ↔
    IsPathPart part ∧ ∃ rest, t = part ++ '"' :: rest := by
  constructor
  · intro h
    induction t using quotedPart.induct generalizing part with
    | case1 => cases h
    | case2 r =>
      obtain rfl := Option.some.inj h
      exact ⟨.nil, r, rfl⟩
    | case3 r => simp [quotedPart] at h
    | case4 c r hc ih =>
      rw [quotedPart, if_neg hc] at h
      obtain ⟨p, hp, rfl⟩ := Option.map_eq_some_iff.mp h
      obtain ⟨hpart, rest, rfl⟩ := ih hp
      exact ⟨.escape hc hpart, rest, rfl⟩
    | case5 r hquote hlast =>
      -- a backslash that is the last character escapes nothing
      rw [quotedPart, if_pos rfl] at h
      · cases h
      · exact hquote
      · exact hlast
    | case6 c r hquote hescape hslash ih =>
      rw [quotedPart, if_neg hslash] at h
      · obtain ⟨p, hp, rfl⟩ := Option.map_eq_some_iff.mp h
        obtain ⟨hpart, rest, rfl⟩ := ih hp
        exact ⟨.plain hquote hslash hpart, rest, rfl⟩
      · exact hquote
      · exact hescape
  · rintro ⟨hpart, rest, rfl⟩
    exact quotedPart_append hpart

/-- The search passes over all that has no quote in it. -/
theorem firstQuoted?_append {s : Text} (h : '"' ∉ s) :
    firstQuoted? (s ++ rest) = firstQuoted? rest := by
  induction s with
  | nil => rfl
  | cons c s ih =>
    rw [List.mem_cons, not_or] at h
    rw [List.cons_append, firstQuoted?, if_neg (Ne.symm h.1), ih h.2]
    rfl

theorem quote_notMem_of_isBlank {s : Text} (h : ∀ c ∈ s, Text.isBlank c) : '"' ∉ s :=
  fun hmem => absurd (h '"' hmem) (by decide)

/-- **The first literal in a call is its path.** -/
theorem Token.Imports.firstQuoted?_eq (h : tok.Imports raw) : firstQuoted? tok.text = some raw := by
  obtain ⟨-, u, v, w, hu, hv, hraw, htext⟩ := h
  rw [htext, importText_eq, firstQuoted?_append (by decide),
    firstQuoted?_append (quote_notMem_of_isBlank hu), firstQuoted?_append (by decide),
    firstQuoted?_append (quote_notMem_of_isBlank hv), List.cons_append, firstQuoted?, if_pos rfl,
    List.append_assoc, List.singleton_append, quotedPart_append hraw.isPathPart]
  rfl

/-- The target of an import call is its path, decoded. -/
theorem Token.Imports.importTarget_eq (h : tok.Imports raw) :
    importTarget tok = decodeIn tok raw := by
  rw [importTarget, h.firstQuoted?_eq]

/-! ## The literals of a source -/

/-- Quoted names that were cut from a source have their quotes. -/
theorem exists_quotes_of_spells (h : tok.terminal.Spells tok.text rest)
    (hname : tok.terminal = .quotedName) : ∃ raw, tok.Quotes raw := by
  rw [hname] at h
  obtain ⟨lit, htext, raw, -, rfl⟩ := h
  exact ⟨raw, hname, htext⟩

/-- Import calls that were cut from a source have a path in quotes. -/
theorem exists_imports_of_spells (h : tok.terminal.Spells tok.text rest)
    (hcall : tok.terminal = .importCall) : ∃ raw, tok.Imports raw := by
  rw [hcall] at h
  obtain ⟨u, v, lit, w, hu, hv, ⟨raw, hraw, rfl⟩, -, htext⟩ := h
  exact ⟨raw, hcall, u, v, w, hu, hv, hraw, htext⟩

/-- Every token in the tree of a source was cut from it, so its text is what its terminal spells. -/
theorem spells_of_forest (h : forest t = .ok ns) (htok : tok ∈ Node.tokensOfList ns) :
    ∃ rest, tok.terminal.Spells tok.text rest := by
  obtain ⟨hstop, htokens⟩ := tokens_of_forest h
  have hcut : Cut [] t (lex t).lexemes := cut_iff.mpr ⟨hstop, rfl⟩
  obtain ⟨rest, htakes⟩ := hcut.exists_takes (List.mem_filter.mp (htokens ▸ htok)).1
  exact ⟨rest, htakes.spells⟩

theorem mem_tokensOfList_of_leaf (h : .leaf tok ∈ ns) : tok ∈ Node.tokensOfList ns := by
  obtain ⟨before, after, rfl⟩ := List.append_of_mem h
  simp [Node.tokensOfList_append, Node.tokensOfList, Node.tokens]

/-! ## Names and imports that cannot be read -/

/-- **A name cannot be read if and only if it is quoted and denotes no text.** -/
theorem nameText_eq_error_iff (h : tok.terminal.Spells tok.text rest) :
    nameText tok = .error fault ↔
      ∃ raw e, tok.Quotes raw ∧ Literal.decode raw = .error e ∧ fault = .literal tok e := by
  constructor
  · intro hfault
    have hname : tok.terminal = .quotedName := by
      by_contra hne
      rw [nameText, if_neg hne] at hfault
      cases hfault
    obtain ⟨raw, hraw⟩ := exists_quotes_of_spells h hname
    obtain ⟨e, he⟩ := decodeIn_eq_error_iff.mp (hraw.nameText_eq ▸ hfault)
    exact ⟨raw, e, hraw, he⟩
  · rintro ⟨raw, e, hraw, he⟩
    rw [hraw.nameText_eq, decodeIn_eq_error_iff]
    exact ⟨e, he⟩

/-- A token stands in the way of a scan only if it is a quoted name that denotes no text. -/
theorem isReadable_leaf_iff (h : tok.terminal.Spells tok.text rest) :
    (Node.leaf tok).IsReadable ↔ ∀ raw, tok.Quotes raw → ∃ s, Literal.decode raw = .ok s := by
  constructor
  · intro hread raw hraw
    have hname := hread (.inr hraw.1)
    rwa [hraw.nameText_eq, exists_decodeIn_eq_ok_iff] at hname
  · rintro hdecode (hname | hname)
    · exact ⟨_, nameText_of_name hname⟩
    · obtain ⟨raw, hraw⟩ := exists_quotes_of_spells h hname
      rw [hraw.nameText_eq, exists_decodeIn_eq_ok_iff]
      exact hdecode raw hraw

/-- **An import call cannot be read if and only if its path denotes no text.** -/
theorem importTarget_eq_error_iff (h : tok.terminal.Spells tok.text rest)
    (hcall : tok.terminal = .importCall) : importTarget tok = .error fault ↔
      ∃ raw e, tok.Imports raw ∧ Literal.decode raw = .error e ∧ fault = .literal tok e := by
  constructor
  · intro hfault
    obtain ⟨raw, hraw⟩ := exists_imports_of_spells h hcall
    obtain ⟨e, he⟩ := decodeIn_eq_error_iff.mp (hraw.importTarget_eq ▸ hfault)
    exact ⟨raw, e, hraw, he⟩
  · rintro ⟨raw, e, hraw, he⟩
    rw [hraw.importTarget_eq, decodeIn_eq_error_iff]
    exact ⟨e, he⟩

/-- A token has a target, if it is a call at all, just when the path in it denotes a text. -/
theorem exists_importTarget_eq_ok_iff (h : tok.terminal.Spells tok.text rest) :
    (tok.terminal = .importCall → ∃ target, importTarget tok = .ok target) ↔
      ∀ raw, tok.Imports raw → ∃ s, Literal.decode raw = .ok s := by
  constructor
  · intro hread raw hraw
    have htarget := hread hraw.1
    rwa [hraw.importTarget_eq, exists_decodeIn_eq_ok_iff] at htarget
  · intro hdecode hcall
    obtain ⟨raw, hraw⟩ := exists_imports_of_spells h hcall
    rw [hraw.importTarget_eq, exists_decodeIn_eq_ok_iff]
    exact hdecode raw hraw

/-- **A step fails with the fault of the name that it reads.** -/
theorem Scan.step_eq_error_iff {s : Scan} {n : Node} : s.step n = .error fault ↔
    ∃ tok, n = .leaf tok ∧ nameText tok = .error fault := by
  constructor
  · intro h
    have hfail : ¬ n.IsReadable := by
      rw [← exists_step_eq_ok_iff s n]
      rintro ⟨s', hs'⟩
      rw [h] at hs'
      cases hs'
    cases n with
    | group opening children closing => exact absurd trivial hfail
    | leaf tok =>
      obtain ⟨hname, hnone⟩ := Classical.not_imp.mp hfail
      cases htext : nameText tok with
      | ok name => exact absurd ⟨name, htext⟩ hnone
      | error e =>
        rw [step_name hname, Scan.name, htext] at h
        obtain rfl : e = fault := Except.error.inj h
        exact ⟨tok, rfl, htext⟩
  · rintro ⟨tok, rfl, htext⟩
    have hname : tok.IsName := by
      by_contra hne
      rw [nameText, if_neg (not_or.mp hne).2] at htext
      cases htext
    rw [step_name hname, Scan.name, htext]
    rfl

/-- The first name on the top level that cannot be read is the fault of all declarations. -/
theorem declarations_eq_error_iff : declarations ns = .error fault ↔
    ∃ before tok after, ns = before ++ .leaf tok :: after ∧ (∀ n ∈ before, n.IsReadable) ∧
      nameText tok = .error fault := by
  rw [declarations, map_eq_error_iff, foldlM_eq_error_iff]
  simp only [Scan.step_eq_error_iff, ← exists_foldlM_eq_ok_iff Scan.exists_step_eq_ok_iff {}]
  constructor
  · rintro ⟨before, _, after, m, hsplit, hbefore, tok, rfl, htok⟩
    exact ⟨before, tok, after, hsplit, ⟨m, hbefore⟩, htok⟩
  · rintro ⟨before, tok, after, hsplit, ⟨m, hbefore⟩, htok⟩
    exact ⟨before, _, after, m, hsplit, hbefore, tok, rfl, htok⟩

/-- The first import call that cannot be read is the fault of all imports. -/
theorem importTargets_eq_error_iff : importTargets toks = .error fault ↔
    ∃ before tok after, toks = before ++ tok :: after ∧
      (∀ x ∈ before, x.terminal = .importCall → ∃ target, importTarget x = .ok target) ∧
      tok.terminal = .importCall ∧ importTarget tok = .error fault := by
  rw [importTargets, mapM_eq_error_iff]
  constructor
  · rintro ⟨l, tok, l', hsplit, hl, htok⟩
    obtain ⟨l₁, l₂, rfl, rfl, hl₂⟩ := List.filter_eq_append_iff.mp hsplit
    obtain ⟨l₃, l₄, rfl, hl₃, hcall, -⟩ := List.filter_eq_cons_iff.mp hl₂
    refine ⟨l₁ ++ l₃, tok, l₄, by simp, fun x hx hx' => ?_, by simpa using hcall, htok⟩
    rcases List.mem_append.mp hx with hx | hx
    · exact hl x (List.mem_filter.mpr ⟨hx, by simpa using hx'⟩)
    · exact absurd (by simpa using hx') (hl₃ x hx)
  · rintro ⟨before, tok, after, rfl, hbefore, hcall, htok⟩
    refine ⟨before.filter fun x => x.terminal = .importCall, tok,
      after.filter fun x => x.terminal = .importCall, ?_, fun x hx => ?_, htok⟩
    · rw [List.filter_append, List.filter_cons_of_pos (by simpa using hcall)]
    · obtain ⟨hx, hx'⟩ := List.mem_filter.mp hx
      exact hbefore x hx (by simpa using hx')

end ZigNif.Source
