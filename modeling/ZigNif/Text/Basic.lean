/-!
# Text/Basic — text as a list of characters

Source text, names, paths and messages are all lists of characters, so that every function on them
is a recursion on the list and every law about them an induction.  A string literal stands for its
list of characters wherever a `Text` is expected.
-/

namespace ZigNif

/-- A text is the list of its Unicode scalar values, and positions in it count these. -/
abbrev Text := List Char

instance : Coe String Text := ⟨String.toList⟩

instance : LawfulBEq Text := inferInstance

/-- What is said of every character of a text is decided character by character. -/
instance {p : Char → Prop} [DecidablePred p] (t : Text) : Decidable (∀ c ∈ t, p c) :=
  List.decidableBAll p t

namespace Text

/-! ## Joining -/

/-- The texts of a list in order, with `sep` between neighbours. -/
def joined (sep : Text) : List Text → Text
  | [] => []
  | [t] => t
  | t :: ts => t ++ sep ++ joined sep ts

/-- The texts of a list as lines, each but the last ended by a newline. -/
def unlines (ts : List Text) : Text := joined ['\n'] ts

/-! ## Order

Names are listed in the order of their code points, which is the lexicographic order of lists. -/

/-- Whether a text comes no later than another. -/
def upTo : Text → Text → Bool
  | [], _ => true
  | _ :: _, [] => false
  | a :: as, b :: bs => a.toNat < b.toNat || (a == b && upTo as bs)

/-- The texts in ascending order, equal ones kept. -/
def sorted (ts : List Text) : List Text := ts.mergeSort upTo

/-- The first occurrence of every text, in order. -/
def distinct (ts : List Text) : List Text :=
  ts.foldl (fun seen t => if t ∈ seen then seen else seen ++ [t]) []

/-! ## Cutting -/

/-- The text split at every `c`; there is one piece more than there are `c`s. -/
def splitOn (c : Char) : Text → List Text
  | [] => [[]]
  | d :: r =>
    if d = c then [] :: splitOn c r
    else match splitOn c r with
      | [] => [[d]]
      | p :: ps => (d :: p) :: ps

/-- What follows `mark`, if the text starts with it. -/
def dropPrefix? (mark t : Text) : Option Text :=
  if mark.isPrefixOf t then some (t.drop mark.length) else none

@[simp] theorem dropPrefix?_append (mark t : Text) : dropPrefix? mark (mark ++ t) = some t := by
  have : mark.isPrefixOf (mark ++ t) = true := List.isPrefixOf_iff_prefix.mpr ⟨t, rfl⟩
  simp [dropPrefix?, this]

/-- What follows the first occurrence of `mark`, if there is one. -/
def after? (mark : Text) : Text → Option Text
  | [] => if mark = [] then some [] else none
  | c :: r => if mark.isPrefixOf (c :: r) then some ((c :: r).drop mark.length) else after? mark r

/-- The text without the longest run of `p` characters at its end. -/
def dropEndWhile (p : Char → Bool) (t : Text) : Text := (t.reverse.dropWhile p).reverse

/-! ## Numerals -/

/-- The decimal numeral of a natural number. -/
def ofNat (n : Nat) : Text := Nat.toDigits 10 n

/-- The decimal numeral of an integer, with a minus sign in front of a negative one. -/
def ofInt : Int → Text
  | .ofNat n => ofNat n
  | .negSucc n => '-' :: ofNat (n + 1)

/-- The lower-case hexadecimal numeral of `n`, filled with zeros to at least `width` digits. -/
def hex (width n : Nat) : Text :=
  let digits := Nat.toDigits 16 n
  List.replicate (width - digits.length) '0' ++ digits

/-- The value of a hexadecimal digit of either case. -/
def hexValue? (c : Char) : Option Nat :=
  if '0' ≤ c ∧ c ≤ '9' then some (c.toNat - '0'.toNat)
  else if 'a' ≤ c ∧ c ≤ 'f' then some (c.toNat - 'a'.toNat + 10)
  else if 'A' ≤ c ∧ c ≤ 'F' then some (c.toNat - 'A'.toNat + 10)
  else none

/-- The value of a run of hexadecimal digits, if all characters are such digits. -/
def hexNumeral? (t : Text) : Option Nat :=
  t.foldlM (fun n c => (hexValue? c).map (16 * n + ·)) 0

end Text

end ZigNif
