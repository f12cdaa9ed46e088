import ZigNif.Nif.Basic
import ZigNif.Source.Parsed

/-!
# Nif/Docs — documentation from doc comments

A nif is documented by the first declaration of its name whose doc comment says anything.
-/

namespace ZigNif.Nif

/-- What the doc comment of a declaration says, if it says anything. -/
def docOf (d : Source.Decl) : Option Text :=
  match d.doc.map Text.trim with
  | some [] => none
  | doc => doc

/-- The documentation of a name among the declarations of a file. -/
def findDoc (name : Text) (code : List Source.Decl) : Option Text :=
  (code.filter fun d => d.name = name).findSome? docOf

/-- The nif with the documentation that the declarations have for it. -/
def withDoc (code : List Source.Decl) (n : Nif) : Nif := { n with doc := findDoc n.name code }

end ZigNif.Nif
