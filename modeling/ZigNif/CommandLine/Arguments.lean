import ZigNif.Table
import ZigNif.Text.Digit

/-!
# CommandLine/Arguments — words of a command line as options and operands

A grammar names the options of a command and says what its operands are.  Options and operands may
be mixed, long names may be cut short as long as only one name starts that way, and after `--`
every word is an operand.  Words that fit nowhere are handed back.
-/

namespace ZigNif.CommandLine

/-- Why a command line is not carried out: it asks for help, or it is not understood. -/
inductive Exit
  | help
  | misuse
  deriving DecidableEq, Repr

/-! ## Grammars -/

/-- What an option does: it asks for help, changes the settings, or changes them by a value.  A
value may be left out by attaching `--` in its place. -/
inductive Effect (α : Type)
  | help
  | flag (set : α → α)
  | value (set : Option Text → α → α)

/-- What the operands are: one word, one or more words, or the name of a command with all words
after it.  A command hands back the words that it does not know. -/
inductive Operands (α : Type)
  | one (set : Text → α → α)
  | many (set : List Text → α → α)
  | command (run : Text → List Text → α → Except Exit (α × List Text))

/-- The options of a command, each name with its effect, and the operands. -/
structure Grammar (α : Type) where
  options : Table (Effect α)
  operands : Operands α

/-! ## Sorting words -/

/-- An option as it is given: its name and the text attached to it, by an equals sign or
directly. -/
structure Given where
  name : Text
  attached : Option Text := none
  deriving DecidableEq, Repr

/-- A word of the command line: the first `--`, a plain word, an option, or a word that looks like
an option but is none. -/
inductive Item
  | dashes
  | plain (word : Text)
  | option (word : Text) (given : Given)
  | unknown (word : Text)
  deriving DecidableEq, Repr

namespace Item

/-- The word as it was given. -/
def word : Item → Text
  | dashes => "--"
  | plain word => word
  | option word _ => word
  | unknown word => word

/-- Whether the item can be part of several operands. -/
def isOperand : Item → Bool
  | dashes | plain _ => true
  | _ => false

end Item

/-- The text before the first equals sign, and the text after it, if there is one. -/
def splitEquals (word : Text) : Text × Option Text :=
  match word.dropWhile (· ≠ '=') with
  | [] => (word, none)
  | _ :: value => (word.takeWhile (· ≠ '='), some value)

/-- The options that a word with two dashes may mean: those whose names start with it. -/
def longCandidates (names : List Text) (word : Text) : List Given :=
  let (start, value) := splitEquals word
  (names.filter start.isPrefixOf).map fun name => { name, attached := value }

/-- The options that a word with one dash may mean: the option of its first letter with the rest
attached, and those whose names start with the word. -/
def shortCandidates (names : List Text) (word : Text) : List Given :=
  names.filterMap fun name =>
    if name = word.take 2 then some { name, attached := some (word.drop 2) }
    else if word.isPrefixOf name then some { name }
    else none

/-- Whether the text is a number without a sign; a newline at its end does not count. -/
def isUnsigned (t : Text) : Bool :=
  let t := if t.getLast? = some '\n' then t.dropLast else t
  match t.dropWhile Text.isDigit with
  | [] => t ≠ []
  | '.' :: fraction => fraction ≠ [] && fraction.all Text.isDigit
  | _ => false

/-- Sorts a word that stands before any `--`.  A number with a minus sign and a word with a space
in it are plain, unless they are options. -/
def classify (names : List Text) (word : Text) : Except Exit Item :=
  match word with
  | '-' :: c :: r =>
    if word ∈ names then .ok (.option word { name := word })
    else
      let candidates := match splitEquals word with
        | (name, some value) =>
          if name ∈ names then [{ name, attached := some value }]
          else if c = '-' then longCandidates names word
          else shortCandidates names word
        | _ => if c = '-' then longCandidates names word else shortCandidates names word
      match candidates with
      | [given] => .ok (.option word given)
      | _ :: _ :: _ => .error .misuse
      | [] =>
        if isUnsigned (c :: r) || ' ' ∈ word then .ok (.plain word) else .ok (.unknown word)
  | _ => .ok (.plain word)

/-- Sorts the words of a command line. -/
def itemize (names : List Text) : List Text → Except Exit (List Item)
  | [] => .ok []
  | word :: words =>
    if word = ['-', '-'] then .ok (.dashes :: words.map .plain)
    else do
      let item ← classify names word
      let items ← itemize names words
      pure (item :: items)

/-! ## Options -/

/-- What an option comes to: changes of the settings, and a change that waits for the next word. -/
structure Uses (α : Type) where
  changes : List (α → Except Exit α) := []
  waiting : Option (Option Text → α → α) := none

/-- An option that nothing is attached to. -/
def Effect.alone {α : Type} : Effect α → Uses α
  | help => { changes := [fun _ => .error .help] }
  | flag set => { changes := [fun a => .ok (set a)] }
  | value set => { waiting := some set }

namespace Grammar

variable {α : Type}

/-- An option with a text attached.  A value is the whole text; otherwise the letters of the text
are options too, if the name of the option is itself one letter. -/
def attached (g : Grammar α) : Effect α → (isShort : Bool) → Text → Except Exit (Uses α)
  | .value set, _, t =>
    .ok { changes := [fun a => .ok (set (if t = ['-', '-'] then none else some t) a)] }
  | _, _, [] => .error .misuse
  | effect, isShort, c :: r =>
    if !isShort then .error .misuse
    else match g.options.get? ['-', c] with
      | none => .error .misuse
      | some next => do
        let uses ← if r = [] then pure next.alone else g.attached next true r
        pure { uses with changes := effect.alone.changes ++ uses.changes }

/-- What a given option comes to. -/
def uses (g : Grammar α) (given : Given) : Except Exit (Uses α) :=
  match g.options.get? given.name, given.attached with
  | none, _ => .error .misuse
  | some effect, none => .ok effect.alone
  | some effect, some t => g.attached effect (given.name.getD 1 '-' ≠ '-') t

end Grammar

/-! ## Operands -/

namespace Operands

variable {α : Type}

/-- How many items after the first word of the operands belong to them too. -/
def moreLength : Operands α → List Item → Nat
  | one _, items => if items.head? = some .dashes then 1 else 0
  | many _, items => (items.takeWhile Item.isOperand).length
  | command _, items => items.length

/-- How many items after the first one belong to the operands, if they start with it. -/
def restLength? (o : Operands α) (first : Item) (rest : List Item) : Option Nat :=
  match first, rest with
  | .plain _, _ => some (o.moreLength rest)
  | .dashes, .plain _ :: more => some (o.moreLength more + 1)
  | _, _ => none

/-- Uses the words of the operands; the first `--` among them only separates. -/
def apply (o : Operands α) (words : List Text) (settings : α) : Except Exit (α × List Text) :=
  match o with
  | one set => match words.erase ['-', '-'] with
    | [word] => .ok (set word settings, [])
    | _ => .error .misuse
  | many set => .ok (set (words.erase ['-', '-']) settings, [])
  | command run => match words with
    | name :: arguments => run name arguments settings
    | [] => .error .misuse

end Operands

/-! ## Whole command lines -/

/-- How far a command line has been carried out. -/
structure Progress (α : Type) where
  settings : α
  unknown : List Text := []
  hasOperands : Bool := false

namespace Grammar

variable {α : Type}

/-- Carries out the changes of an option. -/
def change (p : Progress α) (uses : Uses α) (last : α → α) : Except Exit (Progress α) := do
  let settings ← uses.changes.foldlM (fun a f => f a) p.settings
  pure { p with settings := last settings }

/-- Carries out the items of a command line. -/
def scan (g : Grammar α) (p : Progress α) (items : List Item) : Except Exit (Progress α) :=
  match items with
  | [] => .ok p
  | .unknown word :: rest => g.scan { p with unknown := p.unknown ++ [word] } rest
  | .option _ given :: rest => do
    let uses ← g.uses given
    match uses.waiting, _h : rest with
    | none, _ => g.scan (← change p uses id) rest
    | some set, .plain word :: more => g.scan (← change p uses (set (some word))) more
    | some _, _ => throw .misuse
  | first :: rest =>
    match if p.hasOperands then none else g.operands.restLength? first rest with
    | none => g.scan { p with unknown := p.unknown ++ [first.word] } rest
    | some n => do
      let words := (first :: rest.take n).map Item.word
      let (settings, unknown) ← g.operands.apply words p.settings
      g.scan { settings, unknown := p.unknown ++ unknown, hasOperands := true } (rest.drop n)
termination_by items.length
decreasing_by
  all_goals simp_all only [List.length_cons, List.length_drop]
  all_goals omega

/-- The settings that a command line comes to from `start`, and the words it does not know. -/
def parse (g : Grammar α) (start : α) (words : List Text) : Except Exit (α × List Text) := do
  let items ← itemize g.options.keys words
  let p ← g.scan { settings := start } items
  if p.hasOperands then pure (p.settings, p.unknown) else throw .misuse

end Grammar

end ZigNif.CommandLine
