import ZigNif.CommandLine.Run
import ZigNif.Proofs.Except

/-!
# Proofs/CommandLine/Words — the words of a build

A word that does not start with a dash is an operand or a value, and an option is read by its own
name.  So a build may be asked for with its options in any order, before the config file or after
it; of an option that is repeated, the last value counts.
-/

namespace ZigNif.CommandLine

variable {α : Type} {g : Grammar α} {p : Progress α} {names line : List Text} {word : Text}
  {item : Item} {rest : List Item} {given : Given}

/-! ## Sorting words -/

theorem classify_of_head? (hword : word.head? ≠ some '-') :
    classify names word = .ok (.plain word) := by
  rw [classify]
  rintro c r rfl
  exact hword rfl

theorem ne_dashes_of_head? (hword : word.head? ≠ some '-') : word ≠ ['-', '-'] := by
  rintro rfl
  exact hword rfl

theorem itemize_cons (hne : word ≠ ['-', '-']) (hitem : classify names word = .ok item)
    (hline : itemize names line = .ok rest) :
    itemize names (word :: line) = .ok (item :: rest) := by
  rw [itemize, if_neg hne, hitem, hline]
  rfl

/-- Words that are sorted one by one are handed on as they are. -/
theorem exists_itemize (hline : ∀ word ∈ line, word ≠ ['-', '-'] ∧
    ∃ item, classify names word = .ok item ∧ item.word = word) :
    ∃ items, itemize names line = .ok items ∧ items.map Item.word = line := by
  induction line with
  | nil => exact ⟨[], rfl, rfl⟩
  | cons word line ih =>
    obtain ⟨⟨hne, item, hitem, hword⟩, hrest⟩ := List.forall_mem_cons.mp hline
    obtain ⟨items, hitems, hwords⟩ := ih hrest
    exact ⟨item :: items, itemize_cons hne hitem hitems, by rw [List.map_cons, hword, hwords]⟩

/-! ## Carrying out items -/

namespace Grammar

theorem scan_nil : g.scan p [] = .ok p := by rw [scan]

/-- A single operand is used as soon as it comes, if `--` does not follow. -/
theorem scan_operand {set : Text → α → α} (hg : g.operands = .one set)
    (hp : p.hasOperands = false) (hword : word ≠ ['-', '-']) (hrest : rest.head? ≠ some .dashes) :
    g.scan p (.plain word :: rest) =
      g.scan { p with settings := set word p.settings, hasOperands := true } rest := by
  have hone : [word].erase ['-', '-'] = [word] :=
    List.erase_of_not_mem (by simpa using Ne.symm hword)
  rw [scan]
  · simp only [hp, Bool.false_eq_true, if_false, Operands.restLength?, Operands.moreLength, hg,
      if_neg hrest, List.take_zero, List.map_cons, List.map_nil, Item.word, Operands.apply, hone,
      List.drop_zero, List.append_nil, bind, Except.bind]
  · simp
  · simp

theorem scan_value {set : Option Text → α → α} {w : Text}
    (huses : g.uses given = .ok { waiting := some set }) :
    g.scan p (.option w given :: .plain word :: rest) =
      g.scan { p with settings := set (some word) p.settings } rest := by
  rw [scan, huses]
  rfl

theorem scan_flag {set : α → α} (huses : g.uses given = .ok { changes := [fun a => .ok (set a)] }) :
    g.scan p (.option word given :: rest) =
      g.scan { p with settings := set p.settings } rest := by
  rw [scan, huses]
  rfl

/-- A command takes all words after its name. -/
theorem scan_command {run : Text → List Text → α → Except Exit (α × List Text)} {a : α}
    {unknown : List Text} (hg : g.operands = .command run) (hp : p.hasOperands = false)
    (hrun : run word (rest.map Item.word) p.settings = .ok (a, unknown)) :
    g.scan p (.plain word :: rest) =
      .ok { settings := a, unknown := p.unknown ++ unknown, hasOperands := true } := by
  rw [scan]
  · simp only [hp, Bool.false_eq_true, if_false, Operands.restLength?, Operands.moreLength, hg,
      List.take_length, List.map_cons, Item.word, Operands.apply, hrun, List.drop_length, bind,
      Except.bind, scan_nil]
  · simp
  · simp

theorem parse_eq_ok {a : α} {q : Progress α} (hitems : itemize g.options.keys line = .ok rest)
    (hscan : g.scan { settings := a } rest = .ok q) (hq : q.hasOperands = true) :
    g.parse a line = .ok (q.settings, q.unknown) := by
  simp only [parse, hitems, hscan, bind, Except.bind, hq, if_true]
  rfl

end Grammar

/-! ## The options of a build -/

/-- An option of a build as it stands on a command line. -/
inductive BuildOption
  | out (path : Text)
  | zig (exe : Text)
  | stagingRoot (root : Text)
  | json

namespace BuildOption

/-- The words of the option. -/
def words : BuildOption → List Text
  | out path => ["--out", path]
  | zig exe => ["--zig", exe]
  | stagingRoot root => ["--staging-root", root]
  | json => ["--json"]

/-- What the option makes of a request. -/
def apply (r : BuildRequest) : BuildOption → BuildRequest
  | out path => { r with out := .file (.ofText path) }
  | zig exe => { r with zig := some exe }
  | stagingRoot root => { r with stagingRoot := some root }
  | json => { r with isJson := true }

/-- The value of the option does not look like an option itself. -/
def IsPlain : BuildOption → Prop
  | out value | zig value | stagingRoot value => value.head? ≠ some '-'
  | json => True

/-- The items of the option. -/
def items : BuildOption → List Item
  | out path => [.option "--out" { name := "--out" }, .plain path]
  | zig exe => [.option "--zig" { name := "--zig" }, .plain exe]
  | stagingRoot root => [.option "--staging-root" { name := "--staging-root" }, .plain root]
  | json => [.option "--json" { name := "--json" }]

theorem itemize_append {o : BuildOption} (ho : o.IsPlain)
    (hline : itemize buildGrammar.options.keys line = .ok rest) :
    itemize buildGrammar.options.keys (o.words ++ line) = .ok (o.items ++ rest) := by
  cases o with
  | out value | zig value | stagingRoot value =>
    exact itemize_cons (by decide) rfl
      (itemize_cons (ne_dashes_of_head? ho) (classify_of_head? ho) hline)
  | json => exact itemize_cons (by decide) rfl hline

theorem itemize_flatMap_append {options : List BuildOption} (hoptions : ∀ o ∈ options, o.IsPlain)
    (hline : itemize buildGrammar.options.keys line = .ok rest) :
    itemize buildGrammar.options.keys (options.flatMap words ++ line) =
      .ok (options.flatMap items ++ rest) := by
  induction options with
  | nil => exact hline
  | cons o options ih =>
    obtain ⟨ho, hoptions⟩ := List.forall_mem_cons.mp hoptions
    simpa only [List.flatMap_cons, List.append_assoc] using itemize_append ho (ih hoptions)

theorem scan_append {o : BuildOption} {p : Progress BuildRequest} :
    buildGrammar.scan p (o.items ++ rest) =
      buildGrammar.scan { p with settings := apply p.settings o } rest := by
  cases o with
  | out | zig | stagingRoot => exact Eq.trans (Grammar.scan_value rfl) rfl
  | json => exact Eq.trans (Grammar.scan_flag rfl) rfl

theorem scan_flatMap_append {options : List BuildOption} {p : Progress BuildRequest} :
    buildGrammar.scan p (options.flatMap items ++ rest) =
      buildGrammar.scan { p with settings := options.foldl apply p.settings } rest := by
  induction options generalizing p with
  | nil => rfl
  | cons o options ih => rw [List.flatMap_cons, List.append_assoc, scan_append, ih, List.foldl_cons]

theorem head?_flatMap_items {options : List BuildOption} :
    (options.flatMap items).head? ≠ some .dashes := by
  cases options with
  | nil => exact nofun
  | cons o options => cases o <;> exact nofun

/-- No option changes the config file. -/
theorem foldl_apply_config {options : List BuildOption} {r : BuildRequest} {config : Path} :
    options.foldl apply { r with config } = { options.foldl apply r with config } :=
  List.foldl_hom (fun s : BuildRequest => { s with config }) fun _ o => by cases o <;> rfl

theorem parse_words {before after : List BuildOption} {config : Text}
    (hconfig : config.head? ≠ some '-') (hplain : ∀ o ∈ before ++ after, o.IsPlain) :
    buildGrammar.parse {} (before.flatMap words ++ config :: after.flatMap words) =
      .ok ((before ++ after).foldl apply { config := .ofText config }, []) := by
  obtain ⟨hbefore, hafter⟩ := List.forall_mem_append.mp hplain
  have hitems : itemize buildGrammar.options.keys
      (before.flatMap words ++ config :: after.flatMap words) =
        .ok (before.flatMap items ++ .plain config :: after.flatMap items) := by
    refine itemize_flatMap_append hbefore
      (itemize_cons (ne_dashes_of_head? hconfig) (classify_of_head? hconfig) ?_)
    have hnil : itemize buildGrammar.options.keys [] = .ok [] := rfl
    simpa only [List.append_nil] using itemize_flatMap_append hafter hnil
  have hscan : buildGrammar.scan { settings := {} }
      (before.flatMap items ++ .plain config :: after.flatMap items) =
        .ok { settings := (before ++ after).foldl apply { config := .ofText config }
              hasOperands := true } := by
    rw [scan_flatMap_append, Grammar.scan_operand rfl rfl (ne_dashes_of_head? hconfig)
      head?_flatMap_items, ← List.append_nil (after.flatMap items), scan_flatMap_append,
      Grammar.scan_nil, List.foldl_append, @foldl_apply_config before {} (.ofText config)]
  exact Grammar.parse_eq_ok hitems hscan rfl

/-- The words of an option mean nothing before the name of the command. -/
theorem exists_classify {o : BuildOption} (ho : o.IsPlain) (hword : word ∈ o.words) :
    word ≠ ['-', '-'] ∧ ∃ item, classify grammar.options.keys word = .ok item ∧ item.word = word := by
  cases o with
  | out value | zig value | stagingRoot value =>
    obtain rfl | rfl := List.mem_pair.mp hword
    · exact ⟨by decide, _, rfl, rfl⟩
    · exact ⟨ne_dashes_of_head? ho, _, classify_of_head? ho, rfl⟩
  | json =>
    obtain rfl := List.mem_singleton.mp hword
    exact ⟨by decide, _, rfl, rfl⟩

end BuildOption

/-- **The command line of a build**: its options may stand on either side of the config file, in any
order. -/
theorem ofWords_build {before after : List BuildOption} {config : Text}
    (hconfig : config.head? ≠ some '-') (hplain : ∀ o ∈ before ++ after, o.IsPlain) :
    Invocation.ofWords ("build" ::
        (before.flatMap BuildOption.words ++ config :: after.flatMap BuildOption.words)) =
      .ok { request := .build
              ((before ++ after).foldl BuildOption.apply { config := .ofText config }) } := by
  have hparse := BuildOption.parse_words hconfig hplain
  have hsorted : ∀ word ∈ before.flatMap BuildOption.words ++ config ::
      after.flatMap BuildOption.words, word ≠ ['-', '-'] ∧
        ∃ item, classify grammar.options.keys word = .ok item ∧ item.word = word := by
    intro word hword
    rw [List.mem_append, List.mem_cons, or_left_comm, ← List.mem_append,
      ← List.flatMap_append] at hword
    rcases hword with rfl | hword
    · exact ⟨ne_dashes_of_head? hconfig, _, classify_of_head? hconfig, rfl⟩
    · obtain ⟨o, ho, hword⟩ := List.mem_flatMap.mp hword
      exact BuildOption.exists_classify (hplain o ho) hword
  -- the name of the command comes first, and the command gets all other words as they are
  obtain ⟨items, hitems, hwords⟩ := exists_itemize hsorted
  have hscan := @Grammar.scan_command _ grammar { settings := {} } "build" items _ _ _ rfl rfl
    (by rw [hwords, Request.ofCommand, if_pos rfl, hparse]; rfl)
  rw [Invocation.ofWords, Grammar.parse_eq_ok (itemize_cons (by decide) rfl hitems) hscan rfl]
  rfl

end ZigNif.CommandLine
