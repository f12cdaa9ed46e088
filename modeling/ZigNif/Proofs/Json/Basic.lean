import ZigNif.Json.Basic
import ZigNif.Text.Digit

/-!
# Proofs/Json/Basic — the parts of a value

A value is built from the items of its arrays and the fields of its objects.  What holds of a value
if it holds of these holds of every value (`induction`), and what is demanded of numbers and objects
anywhere in a value is demanded of its parts (`IsIn`).
-/

namespace ZigNif.Json

/-- Induction over a value, with what holds of all items of an array and of all fields of an
object. -/
@[elab_as_elim]
theorem induction {p : Json → Prop} (null : p .null) (bool : ∀ b, p (.bool b))
    (int : ∀ n, p (.int n)) (float : ∀ x, p (.float x)) (str : ∀ t, p (.str t))
    (arr : ∀ items, (∀ v ∈ items, p v) → p (.arr items))
    (obj : ∀ fields : Table Json, (∀ f ∈ fields, p f.2) → p (.obj fields)) (v : Json) : p v :=
  @Json.rec p (fun items => ∀ v ∈ items, p v) (fun fields => ∀ f ∈ fields, p f.2)
    (fun f => p f.2) null bool int float str arr obj
    (List.forall_mem_nil _) (fun _ _ hv hvs => List.forall_mem_cons.mpr ⟨hv, hvs⟩)
    (List.forall_mem_nil _) (fun _ _ hf hfs => List.forall_mem_cons.mpr ⟨hf, hfs⟩)
    (fun _ _ hv => hv) v

/-- The first value is the second one, or occurs in it. -/
inductive IsIn (u : Json) : Json → Prop
  | self : IsIn u u
  | item {items : List Json} {v : Json} (mem : v ∈ items) (h : IsIn u v) : IsIn u (.arr items)
  | field {fields : Table Json} {f : Text × Json} (mem : f ∈ fields) (h : IsIn u f.2) :
    IsIn u (.obj fields)

/-- The value is read back when it is written: no numeral in it is too long, no object in it has a key
twice, and no number in it has a fraction. -/
inductive IsReadable : Json → Prop
  | null : IsReadable .null
  | bool (b : Bool) : IsReadable (.bool b)
  | int {n : Int} (short : Text.isWritable n) : IsReadable (.int n)
  | str (t : Text) : IsReadable (.str t)
  | arr {items : List Json} (each : ∀ v ∈ items, IsReadable v) : IsReadable (.arr items)
  | obj {fields : Table Json} (nodup : fields.keys.Nodup) (each : ∀ f ∈ fields, IsReadable f.2) :
    IsReadable (.obj fields)

end ZigNif.Json
