import Mathlib.Data.List.Forall2
import ZigNif.Proofs.Source.Fault
import ZigNif.Proofs.Text.Distinct

/-!
# Proofs/Source/Imports — the paths of import calls, and the imports of a source

The lexer cuts an import call out of the source, and the path is then searched in its text again,
by a pattern of its own (`firstQuoted?_eq_some_iff`).  In a call both find the same literal, so the
search never fails.

The imports of a source are then what its calls denote, wherever they stand: the names of Zig files
among their targets, each at its first occurrence.
-/

namespace ZigNif.Source

variable {t raw rest : Text} {tok : Token} {parsed : Parsed}

/-! ## The first literal of a text -/

/-- In the text stands `raw` between quotes, and no such literal starts before it. -/
def FindsPath (t raw : Text) : Prop :=
  ∃ front rest, t = front ++ '"' :: (raw ++ '"' :: rest) ∧ IsPathPart raw ∧
    ∀ front' raw' rest', t = front' ++ '"' :: (raw' ++ '"' :: rest') → IsPathPart raw' →
      front.length ≤ front'.length

/-- The place of a literal is the start of the text, or it is a place in the rest. -/
theorem findsPath_cons_iff {c : Char} : FindsPath (c :: t) raw ↔
    (c = '"' ∧ quotedPart t = some raw) ∨
      (¬ (c = '"' ∧ ∃ raw', quotedPart t = some raw') ∧ FindsPath t raw) := by
  constructor
  · rintro ⟨front, rest, heq, hraw, hfirst⟩
    cases front with
    | nil =>
      obtain ⟨rfl, rfl⟩ := List.cons.inj heq
      exact .inl ⟨rfl, quotedPart_append hraw⟩
    | cons d front =>
      obtain ⟨rfl, rfl⟩ := List.cons.inj heq
      refine .inr ⟨?_, front, rest, rfl, hraw, fun front' raw' rest' heq' hraw' => ?_⟩
      · rintro ⟨rfl, raw', hraw'⟩
        obtain ⟨hpart, rest', hrest'⟩ := quotedPart_eq_some_iff.mp hraw'
        exact absurd (hfirst [] raw' rest' (congrArg ('"' :: ·) hrest') hpart)
          (Nat.not_succ_le_zero _)
      · have hle := hfirst (c :: front') raw' rest' (congrArg (c :: ·) heq') hraw'
        exact Nat.le_of_succ_le_succ hle
  · rintro (⟨rfl, hraw⟩ | ⟨hnone, front, rest, rfl, hraw, hfirst⟩)
    · obtain ⟨hpart, rest, rfl⟩ := quotedPart_eq_some_iff.mp hraw
      exact ⟨[], rest, rfl, hpart, fun _ _ _ _ _ => Nat.zero_le _⟩
    · refine ⟨c :: front, rest, rfl, hraw, fun front' raw' rest' heq hraw' => ?_⟩
      cases front' with
      | nil =>
        obtain ⟨rfl, htail⟩ := List.cons.inj heq
        exact absurd ⟨rfl, raw', quotedPart_eq_some_iff.mpr ⟨hraw', rest', htail⟩⟩ hnone
      | cons d front' =>
        obtain ⟨-, heq⟩ := List.cons.inj heq
        exact Nat.succ_le_succ (hfirst front' raw' rest' heq hraw')

/-- **The search finds the first literal of the text**, if there is one. -/
theorem firstQuoted?_eq_some_iff : firstQuoted? t = some raw ↔ FindsPath t raw := by
  induction t with
  | nil => simp [firstQuoted?, FindsPath]
  | cons c t ih =>
    rw [findsPath_cons_iff, ← ih, firstQuoted?]
    by_cases hc : c = '"'
    · rw [if_pos hc]
      cases quotedPart t with
      | none => simp [hc]
      | some part => simp [hc]
    · simp [hc]

/-! ## Calls -/

/-- A call has one path only. -/
theorem Token.Imports.iff_eq (h : tok.Imports raw) (raw' : Text) :
    tok.Imports raw' ↔ raw' = raw := by
  constructor
  · exact fun h' => Option.some.inj (h'.firstQuoted?_eq.symm.trans h.firstQuoted?_eq)
  · rintro rfl
    exact h

/-- What the lexer takes for a call is one. -/
theorem exists_imports_of_match? (hcall : tok.terminal = .importCall)
    (h : tok.terminal.match? (tok.text ++ rest) = some tok.text.length) :
    ∃ raw, tok.Imports raw :=
  exists_imports_of_spells (Terminal.match?_eq_some_iff.mp h).1 hcall

/-- The search for the path of a call does not fail: all that can be wrong is an escape. -/
theorem parse_ne_importCall : parse t ≠ .error (.importCall tok) := by
  rw [Ne, parse_eq_error_iff]
  exact nofun

/-! ## The imports of a source -/

/-- **The targets of a source that parses are what its calls denote**, at whatever depth. -/
theorem forall₂_of_importTargets {ns : List Node} {targets : List Text} (h : forest t = .ok ns)
    (htargets : importTargets (Node.tokensOfList ns) = .ok targets) :
    List.Forall₂ (fun tok target => ∃ raw, tok.Imports raw ∧ Literal.decode raw = .ok target)
      ((lex t).tokens.filter fun tok => tok.terminal = .importCall) targets := by
  obtain ⟨-, htokens⟩ := tokens_of_forest h
  rw [importTargets, mapM_eq_ok_iff_forall₂, htokens] at htargets
  have himports : ∀ tok ∈ (lex t).tokens.filter fun tok => tok.terminal = .importCall,
      ∃ raw, tok.Imports raw := by
    intro tok htok
    obtain ⟨hmem, hcall⟩ := List.mem_filter.mp htok
    obtain ⟨rest, hspells⟩ := spells_of_forest h (htokens ▸ hmem)
    exact exists_imports_of_spells hspells (of_decide_eq_true hcall)
  refine ((List.forall₂_and_left _ _).mpr ⟨himports, htargets⟩).imp fun tok target hread => ?_
  obtain ⟨⟨raw, hraw⟩, htarget⟩ := hread
  refine ⟨raw, hraw, ?_⟩
  rw [hraw.importTarget_eq] at htarget
  exact decodeIn_eq_ok_iff.mp htarget

/-- **The imports of a source that parses are the names of Zig files among the targets**, each once,
in the order of their first occurrences. -/
theorem dependencies_of_parse (h : parse t = .ok parsed) : ∃ targets : List Text,
    List.Forall₂ (fun tok target => ∃ raw, tok.Imports raw ∧ Literal.decode raw = .ok target)
      ((lex t).tokens.filter fun tok => tok.terminal = .importCall) targets ∧
    parsed.dependencies.Nodup ∧
    (∀ dep, dep ∈ parsed.dependencies ↔ dep ∈ targets ∧ ".zig".toList <:+ dep) ∧
    parsed.dependencies.Pairwise fun dep dep' => targets.idxOf dep < targets.idxOf dep' := by
  obtain ⟨ns, hforest⟩ := exists_forest_of_parse h
  obtain ⟨-, targets, htargets, hdependencies⟩ := (parse_eq_ok_iff hforest).mp h
  have hmem : ∀ dep, dep ∈ parsed.dependencies ↔ dep ∈ targets ∧ isZigFile dep := by
    intro dep
    rw [hdependencies, Text.mem_distinct, List.mem_filter]
  have hfirst := @Text.pairwise_idxOf_distinct (targets.filter isZigFile)
  rw [← hdependencies] at hfirst
  refine ⟨targets, forall₂_of_importTargets hforest htargets, ?_, fun dep => ?_, ?_⟩
  · rw [hdependencies]
    exact Text.nodup_distinct _
  · rw [hmem, isZigFile, List.isSuffixOf_iff_suffix]
  · -- the filter does not change which of two names of Zig files comes first
    exact hfirst.imp_of_mem fun hdep hdep' =>
      Text.idxOf_lt_of_filter ((hmem _).mp hdep).2 ((hmem _).mp hdep').2

/-- **The lexer and the search agree on the path of a call, and a source imports what its calls
denote.**  Every text that the lexer takes for an import call has just one path, which is the first
literal that the search finds; so no call is malformed.  If the source parses, every call in it,
wherever it stands, denotes a target, and the imports are the targets with names of Zig files, each
once and in the order of their first occurrences. -/
theorem imports_of_calls (t : Text) :
    (∀ (tok : Token) (rest : Text), tok.terminal = .importCall →
      tok.terminal.match? (tok.text ++ rest) = some tok.text.length → ∃ raw,
        (∀ raw', tok.Imports raw' ↔ raw' = raw) ∧ (∀ raw', FindsPath tok.text raw' ↔ raw' = raw) ∧
        firstQuoted? tok.text = some raw) ∧
    (∀ tok, parse t ≠ .error (.importCall tok)) ∧
    ∀ parsed, parse t = .ok parsed → ∃ targets : List Text,
      List.Forall₂ (fun tok target => ∃ raw, tok.Imports raw ∧ Literal.decode raw = .ok target)
        ((lex t).tokens.filter fun tok => tok.terminal = .importCall) targets ∧
      parsed.dependencies.Nodup ∧
      (∀ dep, dep ∈ parsed.dependencies ↔ dep ∈ targets ∧ ".zig".toList <:+ dep) ∧
      parsed.dependencies.Pairwise fun dep dep' => targets.idxOf dep < targets.idxOf dep' := by
  refine ⟨fun tok rest hcall hmatch => ?_, fun tok => parse_ne_importCall,
    fun parsed => dependencies_of_parse⟩
  obtain ⟨raw, hraw⟩ := exists_imports_of_match? hcall hmatch
  refine ⟨raw, hraw.iff_eq, fun raw' => ?_, hraw.firstQuoted?_eq⟩
  rw [← firstQuoted?_eq_some_iff, hraw.firstQuoted?_eq, Option.some.injEq, eq_comm]

/-- A call with white space between its parts and an escape in its path. -/
def escapedCall : Text := "@import ( \"x\\x2ezig\" )"

/-- The call in braces, before calls of another file, of the same file again, and of a package. -/
def nestedCalls : Text :=
  "\x7b _ = " ++ escapedCall ++ "; \x7d @import(\"y.zig\") @import(\"x.zig\") @import(\"std\")"

/-- The file with the escape in its name is imported first, and once. -/
theorem imports_of_calls_nested :
    Terminal.importCall.match? (escapedCall ++ ";") = some escapedCall.length ∧
    parse nestedCalls = .ok { dependencies := ["x.zig", "y.zig"] } ∧
    (∀ raw, (⟨.importCall, escapedCall, {}⟩ : Token).Imports raw ↔ raw = "x\\x2ezig".toList) ∧
    ∃ targets : List Text,
      List.Forall₂ (fun tok target => ∃ raw, tok.Imports raw ∧ Literal.decode raw = .ok target)
        ((lex nestedCalls).tokens.filter fun tok => tok.terminal = .importCall) targets ∧
      targets.idxOf ("x.zig" : Text) < targets.idxOf ("y.zig" : Text) := by
  have hmatch : Terminal.importCall.match? (escapedCall ++ ";") = some escapedCall.length := by
    decide +kernel
  have hparse : parse nestedCalls = .ok { dependencies := ["x.zig", "y.zig"] } := by
    decide +kernel
  obtain ⟨hcalls, -, himports⟩ := imports_of_calls nestedCalls
  obtain ⟨raw, hraw, -, hfirst⟩ := hcalls ⟨.importCall, escapedCall, {}⟩ ";" rfl hmatch
  obtain ⟨targets, htargets, -, -, hordered⟩ := himports _ hparse
  have hpath : some raw = some "x\\x2ezig".toList := hfirst.symm.trans (by decide +kernel)
  refine ⟨hmatch, hparse, Option.some.inj hpath ▸ hraw, targets, htargets, ?_⟩
  exact (List.pairwise_cons.mp hordered).1 _ (List.mem_singleton.mpr rfl)

end ZigNif.Source
