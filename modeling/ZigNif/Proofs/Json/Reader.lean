import ZigNif.Json.Reader
import ZigNif.Proofs.Json.Strings

/-!
# Proofs/Json/Reader — reading a text lexeme by lexeme

Reading is a fold over the lexemes of a text.  `run` reads on from any state, so that each rule says
what one lexeme at the front of a text does, whatever follows it.
-/

namespace ZigNif.Json

variable {p : Progress} {c : Char} {s t r : Text}

/-- Reads a text from a state on. -/
def run (p : Progress) (t : Text) : Except Fault Progress := (lex t).foldlM step p

theorem parse_eq (h : t.head? ≠ some '\ufeff') :
    parse t = run ⟨.value false, []⟩ t >>= finish := by
  rw [parse, if_neg h]
  rfl

theorem run_nil (p : Progress) : run p [] = .ok p := by
  rw [run, lex]
  rfl

/-- Blanks between lexemes are passed over. -/
theorem run_space (h : isSpace c) (p : Progress) (t : Text) : run p (c :: t) = run p t := by
  rw [run, lex, if_pos h]
  rfl

theorem run_spaces (h : ∀ c ∈ s, isSpace c) (p : Progress) (t : Text) :
    run p (s ++ t) = run p t := by
  induction s with
  | nil => rfl
  | cons c s ih =>
    obtain ⟨hc, hs⟩ := List.forall_mem_cons.mp h
    rw [List.cons_append, run_space hc, ih hs]

/-- The lexeme at the front of a text is read, and then what follows it. -/
theorem run_cons {lexeme : Lexeme} (hspace : isSpace c = false)
    (hlexeme : firstLexeme c t = (lexeme, r)) (p : Progress) :
    run p (c :: t) = step p ⟨lexeme, c :: t⟩ >>= fun p => run p r := by
  rw [run, lex, hspace, if_neg Bool.false_ne_true, List.foldlM_cons, hlexeme]
  rfl

/-! ## Strings -/

theorem firstLexeme_string {us : List Nat} (h : ReadsAs t us r) :
    firstLexeme '"' t = (.string (ofUnits us), r) := by
  rw [firstLexeme]
  simp only [h 1]

/-- **A written string is one lexeme.** -/
theorem run_writeString (p : Progress) (s r : Text) : run p (writeString s ++ r) =
    step p ⟨.string s, writeString s ++ r⟩ >>= fun p => run p r := by
  rw [writeString_append]
  refine run_cons rfl ?_ p
  rw [firstLexeme_string (readsAs_flatMap_escapedChar s r), ofUnits_flatMap_units]

end ZigNif.Json
