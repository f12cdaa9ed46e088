import ZigNif.Proofs.Source.Token
import ZigNif.Proofs.Source.Tree

/-!
# Proofs/Source/Lexer — the tokens tile the source

What the lexer leaves out is layout: runs of layout characters, and comments that are not doc
comments.  `Tiles` says that tokens and layout take turns until the text ends, each token at the
place behind all that is in front of it; this place counts the newlines of literals and layout alike
(`Position.behind`).

The tree of a source has the same tokens as the source, in the same order, so the tokens of an
accepted source tile it.
-/

namespace ZigNif.Source

/-! ## Places -/

namespace Position

/-- The place behind a text: its newlines give the line, and what is behind the last of them gives
the column. -/
def behind (t : Text) : Position where
  offset := t.length
  line := 1 + t.count '\n'
  column := 1 + (t.reverse.takeWhile (· ≠ '\n')).length

theorem next_behind (t : Text) (c : Char) : (behind t).next c = behind (t ++ [c]) := by
  by_cases hc : c = '\n'
  · subst hc
    simp [behind, next, Nat.add_assoc]
  · simp [behind, next, hc, Nat.add_assoc, Nat.add_comm 1]

theorem advance_behind (front t : Text) : (behind front).advance t = behind (front ++ t) := by
  induction t generalizing front with
  | nil => rw [List.append_nil]; rfl
  | cons c r ih =>
    have hstep : (behind front).advance (c :: r) = (behind (front ++ [c])).advance r := by
      rw [← next_behind]; rfl
    rw [hstep, ih, List.append_assoc, List.singleton_append]

end Position

/-! ## Layout -/

/-- A run of spaces, tabs, form feeds, returns and newlines. -/
def IsBlankRun (s : Text) : Prop := s ≠ [] ∧ ∀ c ∈ s, c ∈ [' ', '\t', '\x0c', '\r', '\n']

/-- A doc comment starts with three slashes, but not with four. -/
def IsDocComment (s : Text) : Prop := ∃ r, s = "///" ++ r ∧ r.head? ≠ some '/'

/-- Two slashes and more of the same line, but no doc comment. -/
def IsPlainComment (s : Text) : Prop := (∃ r, s = "//" ++ r ∧ '\n' ∉ r) ∧ ¬ IsDocComment s

/-- The text goes on with a newline, if it goes on at all. -/
def EndsLine (t : Text) : Prop := ∀ c ∈ t.head?, c = '\n'

/-- What stands between tokens, in front of `rest`: runs of layout characters, and comments that
reach to the ends of their lines. -/
inductive IsLayout (rest : Text) : Text → Prop
  | nil : IsLayout rest []
  | blanks {s gap : Text} : IsBlankRun s → IsLayout rest gap → IsLayout rest (s ++ gap)
  | comment {s gap : Text} : IsPlainComment s → EndsLine (gap ++ rest) → IsLayout rest gap →
    IsLayout rest (s ++ gap)

namespace Terminal

variable {k : Terminal} {t : Text} {n : Nat}

theorem isBlankRun_of_match? (h : blank.match? t = some n) : IsBlankRun (t.take n) := by
  cases t with
  | nil => cases h
  | cons c r =>
    change (if isLayoutBlank c then some (runLength isLayoutBlank r + 1) else none) = _ at h
    split at h
    case isFalse => cases h
    case isTrue hc =>
      obtain rfl := Option.some.inj h
      have hrun : ∀ d ∈ c :: r.takeWhile isLayoutBlank, isLayoutBlank d :=
        List.forall_mem_cons.mpr ⟨hc, fun d hd => List.mem_takeWhile_imp hd⟩
      rw [List.take_succ_cons, take_runLength]
      refine ⟨List.cons_ne_nil _ _, fun d hd => ?_⟩
      simpa [isLayoutBlank, or_assoc] using hrun d hd

/-- A comment takes the rest of its line. -/
theorem isPlainComment_of_first? (h : first? t = some (comment, n)) :
    IsPlainComment (t.take n) ∧ EndsLine (t.drop n) := by
  obtain ⟨r, k, rfl, hk, rfl⟩ := afterMark_eq_some_iff.mp (match?_of_first? h)
  obtain rfl : runLength (· != '\n') r = k := Option.some.inj hk
  rw [List.take_length_add_append, take_runLength, List.drop_length_add_append, drop_runLength]
  refine ⟨⟨⟨_, rfl, fun hc => ?_⟩, ?_⟩, fun c hc => ?_⟩
  · simpa using List.mem_takeWhile_imp hc
  · rintro ⟨r', hr', hhead⟩
    obtain ⟨s, rfl⟩ : ∃ s, r = '/' :: s := by
      cases r with
      | nil => cases hr'
      | cons c s =>
        by_cases hc : c = '/'
        · exact ⟨s, by rw [hc]⟩
        · rw [List.takeWhile_cons] at hr'
          split at hr'
          · exact absurd (List.cons.inj (List.append_cancel_left hr')).1 hc
          · cases hr'
    obtain rfl : s.takeWhile (· != '\n') = r' := by simpa using hr'
    refine docComment_ne_none (fun hs => hhead ?_) (docComment_eq_none_of_first? h)
    obtain ⟨s', rfl⟩ := List.head?_eq_some_iff.mp hs
    rfl
  · have hhead := List.head?_dropWhile_not (· != '\n') r
    rw [Option.mem_def.mp hc] at hhead
    simpa using hhead

/-- **What the lexer leaves out is layout.** -/
theorem isLayout_of_first? {rest : Text} (h : first? (t ++ rest) = some (k, t.length))
    (hk : k.isLayout) : IsBlankRun t ∨ IsPlainComment t ∧ EndsLine rest := by
  cases k with
  | comment =>
    have hcomment := isPlainComment_of_first? h
    rw [List.take_left, List.drop_left] at hcomment
    exact .inr hcomment
  | blank =>
    have hblank := isBlankRun_of_match? (match?_of_first? h)
    rw [List.take_left] at hblank
    exact .inl hblank
  | _ => cases hk

end Terminal

/-! ## Tiles -/

/-- The token stands behind `front` and before `rest`, where the first terminal in order of priority
that matches is that of the token, and it matches the text of the token. -/
structure Token.Stands (tok : Token) (front rest : Text) : Prop where
  position : tok.position = .behind front
  text_ne : tok.text ≠ []
  first : Terminal.first? (tok.text ++ rest) = some (tok.terminal, tok.text.length)
  isLayout : tok.terminal.isLayout = false

/-- Behind `front`, the text is made of the tokens in their order, with layout before, between and
behind them. -/
inductive Tiles : (front : Text) → (tokens : List Token) → (text : Text) → Prop
  | nil {front gap : Text} : IsLayout [] gap → Tiles front [] gap
  | cons {front gap rest : Text} {tok : Token} {toks : List Token} :
    IsLayout (tok.text ++ rest) gap → tok.Stands (front ++ gap) rest →
    Tiles (front ++ gap ++ tok.text) toks rest →
    Tiles front (tok :: toks) (gap ++ (tok.text ++ rest))

variable {front s t : Text} {toks : List Token} {tok : Token}

/-- More layout in front. -/
theorem Tiles.layout (h : Tiles (front ++ s) toks t)
    (hs : IsBlankRun s ∨ IsPlainComment s ∧ EndsLine t) : Tiles front toks (s ++ t) := by
  have hgap : ∀ {gap rest : Text}, t = gap ++ rest → IsLayout rest gap →
      IsLayout rest (s ++ gap) := by
    rintro gap rest rfl hlayout
    rcases hs with hs | ⟨hs, hend⟩
    · exact .blanks hs hlayout
    · exact .comment hs hend hlayout
  cases h with
  | nil hlayout => exact .nil (hgap (List.append_nil t).symm hlayout)
  | cons hlayout hstands htail =>
    rw [← List.append_assoc]
    rw [List.append_assoc front] at hstands htail
    exact .cons (hgap rfl hlayout) hstands htail

/-- One lexeme: a lexer that does not stop takes the first terminal that matches, and goes on behind
its match. -/
theorem exists_lexeme {p : Position} (ht : t ≠ []) (hstop : (lexFrom p t).stop = none) :
    ∃ k text rest, t = text ++ rest ∧ text ≠ [] ∧
      Terminal.first? (text ++ rest) = some (k, text.length) ∧
      lexFrom p t = (lexFrom (p.advance text) rest).push ⟨k, text, p⟩ := by
  obtain ⟨c, r, rfl⟩ := List.exists_cons_of_ne_nil ht
  rw [lexFrom] at hstop ⊢
  split at hstop
  case h_1 k n hfirst =>
    have hsplit : (c :: r).take (n + 1) ++ r.drop n = c :: r :=
      List.take_append_drop (n + 1) (c :: r)
    have hlength : ((c :: r).take (n + 1)).length = n + 1 :=
      List.length_take_of_le (k.isWithin_match? _ _ (Terminal.match?_of_first? hfirst))
    exact ⟨k, (c :: r).take (n + 1), r.drop n, hsplit.symm, List.cons_ne_nil _ _,
      by rw [hsplit, hlength, hfirst], rfl⟩
  case h_2 => cases hstop

/-- **The lexer cuts a text into tiles.**  The induction is on the text that is left: a lexeme that
is layout goes into the gap in front of the next token. -/
theorem tiles_lexFrom (hstop : (lexFrom (.behind front) t).stop = none) :
    Tiles front (lexFrom (.behind front) t).tokens t := by
  induction hlength : t.length using Nat.strong_induction_on generalizing front t with
  | _ n ih =>
    by_cases ht : t = []
    · subst ht
      rw [lexFrom]
      exact .nil .nil
    · obtain ⟨k, text, rest, rfl, hne, hfirst, hlex⟩ := exists_lexeme ht hstop
      rw [hlex, Position.advance_behind] at hstop ⊢
      have hless : rest.length < n := by
        have := List.length_pos_iff.mpr hne
        rw [List.length_append] at hlength
        omega
      have htail : Tiles (front ++ text) (lexFrom (.behind (front ++ text)) rest).tokens rest :=
        ih rest.length hless hstop rfl
      cases hk : k.isLayout with
      | true =>
        rw [Lexed.tokens, Lexed.push, List.filter_cons_of_neg (by simp [hk])]
        exact htail.layout (Terminal.isLayout_of_first? hfirst hk)
      | false =>
        rw [Lexed.tokens, Lexed.push, List.filter_cons_of_pos (by simp [hk])]
        have hstands : Token.Stands ⟨k, text, .behind front⟩ (front ++ []) rest :=
          ⟨by rw [List.append_nil], hne, hfirst, hk⟩
        exact .cons .nil hstands (by rwa [List.append_nil])

/-! ## The tokens of a source -/

theorem Tiles.exists_stands (h : Tiles front toks t) (htok : tok ∈ toks) :
    ∃ before rest, front ++ t = before ++ tok.text ++ rest ∧ front.length ≤ before.length ∧
      tok.Stands before rest := by
  induction h with
  | nil hgap => cases htok
  | @cons front gap rest tok' toks hgap hstands htail ih =>
    rcases List.mem_cons.mp htok with rfl | htok
    · exact ⟨front ++ gap, rest, by simp, by simp, hstands⟩
    · obtain ⟨before, rest', hsplit, hlength, hstands'⟩ := ih htok
      refine ⟨before, rest', ?_, le_trans (by simp) hlength, hstands'⟩
      rw [← hsplit]
      simp

/-- **Tiles do not overlap**, so their offsets ascend. -/
theorem Tiles.pairwise_offset (h : Tiles front toks t) :
    toks.Pairwise fun a b => a.position.offset < b.position.offset := by
  induction h with
  | nil hgap => exact .nil
  | cons hgap hstands htail ih =>
    refine List.pairwise_cons.mpr ⟨fun b hb => ?_, ih⟩
    obtain ⟨before, rest, -, hlength, hb⟩ := htail.exists_stands hb
    have hpos := List.length_pos_iff.mpr hstands.text_ne
    rw [hstands.position, hb.position]
    simp only [Position.behind]
    rw [List.length_append] at hlength
    omega

/-- **The tokens of a source tile it.**

Read from left to right, group by group, the tokens of the tree have ascending offsets.  Each of
them is the text of the source at its offset; its line is one more than the newlines in front of it,
and its column is one more than the characters since the last of them.  What is in front of them,
between them and behind them is layout. -/
theorem tokens_tile {t : Text} {nodes : List Node} (h : forest t = .ok nodes) :
    let tokens := Node.tokensOfList nodes
    Tiles [] tokens t ∧
      (tokens.Pairwise fun a b => a.position.offset < b.position.offset) ∧
      ∀ tok ∈ tokens, ∃ before rest, t = before ++ tok.text ++ rest ∧ tok.text ≠ [] ∧
        tok.position.offset = before.length ∧
        tok.position.line = 1 + before.count '\n' ∧
        tok.position.column = 1 + (before.reverse.takeWhile (· ≠ '\n')).length := by
  obtain ⟨hstop, htokens⟩ := tokens_of_forest h
  have htiles : Tiles [] (Node.tokensOfList nodes) t := by
    rw [htokens]
    exact tiles_lexFrom hstop
  refine ⟨htiles, htiles.pairwise_offset, fun tok htok => ?_⟩
  obtain ⟨before, rest, hsplit, -, hstands⟩ := htiles.exists_stands htok
  rw [hstands.position]
  exact ⟨before, rest, hsplit, hstands.text_ne, rfl, rfl, rfl⟩

/-- A comment, an import over three lines, and a group. -/
def spreadSource : Text :=
  "//// c\nconst a = @import(\n\"x.zig\"\n); // d\ntest \x7b\t\"s\" \x7d"

/-- The semicolon stands in the last line of the import. -/
theorem tokens_tile_spread :
    ∃ nodes, forest spreadSource = .ok nodes ∧ Tiles [] (Node.tokensOfList nodes) spreadSource ∧
      ∃ before rest, spreadSource = before ++ [';'] ++ rest ∧ before.length = 35 ∧
        1 + before.count '\n' = 4 ∧ 1 + (before.reverse.takeWhile (· ≠ '\n')).length = 2 := by
  have hok : (forest spreadSource).toOption.isSome := by decide +kernel
  obtain ⟨nodes, hsome⟩ := Option.isSome_iff_exists.mp hok
  have hnodes : forest spreadSource = .ok nodes := toOption_eq_some_iff.mp hsome
  have hsemicolon : ⟨.semicolon, [';'], ⟨35, 4, 2⟩⟩ ∈ Node.tokensOfList nodes := by
    rw [(tokens_of_forest hnodes).2]
    decide +kernel
  obtain ⟨htiles, -, hplaces⟩ := tokens_tile hnodes
  obtain ⟨before, rest, hsplit, -, hoffset, hline, hcolumn⟩ := hplaces _ hsemicolon
  exact ⟨nodes, hnodes, htiles, before, rest, hsplit, hoffset.symm, hline.symm, hcolumn.symm⟩

end ZigNif.Source
