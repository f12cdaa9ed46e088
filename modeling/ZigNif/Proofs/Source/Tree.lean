import ZigNif.Proofs.Except
import ZigNif.Source.Tree

/-!
# Proofs/Source/Tree — a balanced sequence of tokens has its own tree

A list of nodes whose groups stand between a left and a right brace, and whose leaves are no braces,
is the tree of its tokens: reading them adds exactly these nodes, at any depth.  Conversely, the tree
of a source has the tokens of the source, in their order.
-/

namespace ZigNif.Source

mutual

/-- Groups stand between braces, and no other token is a brace. -/
def Node.IsBraced : Node → Prop
  | .leaf tok => tok.terminal ≠ .leftBrace ∧ tok.terminal ≠ .rightBrace
  | .group opening children closing =>
    opening.terminal = .leftBrace ∧ Node.AllBraced children ∧ closing.terminal = .rightBrace

/-- `Node.IsBraced` for all nodes of a list. -/
def Node.AllBraced : List Node → Prop
  | [] => True
  | n :: ns => n.IsBraced ∧ Node.AllBraced ns

end

theorem Node.allBraced_iff {ns : List Node} : Node.AllBraced ns ↔ ∀ n ∈ ns, n.IsBraced := by
  induction ns with
  | nil => simp [Node.AllBraced]
  | cons n ns ih => simp [Node.AllBraced, ih]

theorem Node.allBraced_append {ms ns : List Node} :
    Node.AllBraced (ms ++ ns) ↔ Node.AllBraced ms ∧ Node.AllBraced ns := by
  simp only [Node.allBraced_iff, List.forall_mem_append]

/-! ## Reading the tokens of a tree -/

/-- The nesting with nodes added at the innermost level. -/
def Nesting.add (s : Nesting) (ns : List Node) : Nesting := { s with nodes := s.nodes ++ ns }

theorem Nesting.add_add (s : Nesting) (ms ns : List Node) :
    (s.add ms).add ns = s.add (ms ++ ns) := by
  simp [Nesting.add]

theorem Nesting.step_leaf {s : Nesting} {tok : Token} (hleft : tok.terminal ≠ .leftBrace)
    (hright : tok.terminal ≠ .rightBrace) : s.step tok = .ok (s.add [.leaf tok]) := by
  unfold Nesting.step
  split <;> first | contradiction | rfl

theorem Nesting.step_leftBrace {s : Nesting} {tok : Token} (h : tok.terminal = .leftBrace) :
    s.step tok = .ok { nodes := [], stack := ⟨tok, s.nodes⟩ :: s.stack } := by
  unfold Nesting.step
  rw [h]

theorem Nesting.step_rightBrace {tok : Token} (h : tok.terminal = .rightBrace) (ns : List Node)
    (g : OpenGroup) (stack : List OpenGroup) :
    Nesting.step { nodes := ns, stack := g :: stack } tok
      = .ok { nodes := g.before ++ [.group g.opening ns tok], stack } := by
  unfold Nesting.step
  rw [h]

mutual

/-- **Reading the tokens of a node adds the node.** -/
theorem Nesting.foldlM_tokens (s : Nesting) :
    ∀ n : Node, n.IsBraced → n.tokens.foldlM Nesting.step s = .ok (s.add [n])
  | .leaf tok, h => by
    rw [Node.tokens, foldlM_cons_eq_ok_iff]
    exact ⟨_, Nesting.step_leaf h.1 h.2, rfl⟩
  | .group opening children closing, h => by
    obtain ⟨hopen, hchildren, hclose⟩ := h
    rw [Node.tokens, List.cons_append, foldlM_cons_eq_ok_iff]
    refine ⟨_, Nesting.step_leftBrace hopen, ?_⟩
    rw [foldlM_append_eq_ok_iff]
    refine ⟨_, Nesting.foldlM_tokensOfList _ children hchildren, ?_⟩
    rw [foldlM_cons_eq_ok_iff]
    exact ⟨_, Nesting.step_rightBrace hclose _ _ _, rfl⟩

/-- **Reading the tokens of a list of nodes adds the nodes.** -/
theorem Nesting.foldlM_tokensOfList (s : Nesting) :
    ∀ ns : List Node, Node.AllBraced ns →
      (Node.tokensOfList ns).foldlM Nesting.step s = .ok (s.add ns)
  | [], _ => by simp [Node.tokensOfList, Nesting.add, pure, Except.pure]
  | n :: ns, h => by
    rw [Node.tokensOfList, foldlM_append_eq_ok_iff]
    refine ⟨_, Nesting.foldlM_tokens s n h.1, ?_⟩
    rw [Nesting.foldlM_tokensOfList (s.add [n]) ns h.2, Nesting.add_add, List.singleton_append]

end

/-- **A source whose tokens are those of a tree has that tree.** -/
theorem forest_of_tokens {t : Text} {ns : List Node} (hstop : (lex t).stop = none)
    (htokens : (lex t).tokens = Node.tokensOfList ns) (hns : Node.AllBraced ns) :
    forest t = .ok ns := by
  have hfold : (lex t).tokens.foldlM Nesting.step {} = .ok { nodes := ns } := by
    rw [htokens, Nesting.foldlM_tokensOfList _ ns hns]
    rfl
  rw [forest, bind_eq_ok_iff]
  refine ⟨_, hfold, ?_⟩
  rw [hstop]

/-! ## The tokens of the tree of a source -/

theorem Node.tokensOfList_append (ms ns : List Node) :
    Node.tokensOfList (ms ++ ns) = Node.tokensOfList ms ++ Node.tokensOfList ns := by
  induction ms with
  | nil => simp [Node.tokensOfList]
  | cons m ms ih => simp [Node.tokensOfList, ih]

namespace Nesting

variable {s s' : Nesting} {tok : Token} {toks : List Token}

/-- The tokens in front of the innermost level, and those on it: every open group has come after
what is before it. -/
def tokens (s : Nesting) : List Token :=
  s.stack.reverse.flatMap (fun g => Node.tokensOfList g.before ++ [g.opening]) ++
    Node.tokensOfList s.nodes

theorem tokens_step (h : s.step tok = .ok s') : s'.tokens = s.tokens ++ [tok] := by
  unfold step at h
  split at h
  · cases h
    simp [tokens, Node.tokensOfList]
  · cases h
  · rename_i g stack _ hstack
    cases h
    simp [tokens, hstack, Node.tokensOfList_append, Node.tokensOfList, Node.tokens]
  · cases h
    simp [tokens, Node.tokensOfList_append, Node.tokensOfList, Node.tokens]

/-- **Reading tokens loses none of them.** -/
theorem tokens_foldlM (h : toks.foldlM step s = .ok s') : s'.tokens = s.tokens ++ toks := by
  induction toks generalizing s with
  | nil => cases h; exact (List.append_nil _).symm
  | cons tok toks ih =>
    obtain ⟨m, hm, h⟩ := foldlM_cons_eq_ok_iff.mp h
    rw [ih h, tokens_step hm, List.append_assoc, List.singleton_append]

end Nesting

/-- **The tree of a source has the tokens of the source.**  The lexer reads all of it. -/
theorem tokens_of_forest {t : Text} {ns : List Node} (h : forest t = .ok ns) :
    (lex t).stop = none ∧ Node.tokensOfList ns = (lex t).tokens := by
  rw [forest, bind_eq_ok_iff] at h
  obtain ⟨s, hs, h⟩ := h
  have htokens : s.tokens = (lex t).tokens := Nesting.tokens_foldlM hs
  split at h
  · cases h
  · cases h
  · rename_i hstop hopen
    cases h
    cases hstack : s.stack with
    | nil =>
      refine ⟨hstop, ?_⟩
      rw [← htokens, Nesting.tokens, hstack]
      rfl
    | cons g stack =>
      -- a group that is still open has a token, which this case excludes
      have hopening : g.opening ∈ s.tokens := by simp [Nesting.tokens, hstack]
      obtain ⟨tok, htok⟩ := Option.ne_none_iff_exists'.mp
        (mt List.getLast?_eq_none_iff.mp (List.ne_nil_of_mem hopening))
      exact (hopen g stack tok hstack (htokens ▸ htok)).elim

end ZigNif.Source
