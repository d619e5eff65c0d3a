import IonCircuit.Json.Parse

/-! Reading plain data from JSON values. -/
namespace IonCircuit.Json

def bool? : Json → Option Bool
  | .bool b => some b
  | _ => none

def float? : Json → Option Float
  | .num n => n.toFloat?
  | _ => none

def count? : Json → Option Nat
  | .num n => n.toCount?
  | _ => none

def list? {β : Type} (item? : Json → Option β) : Json → Option (List β)
  | .arr items => items.mapM item?
  | _ => none

/-- The only value given under a name: absent if there is none, refused if there are
more. -/
def single? (fields : List (Text × Json)) (name : String) : Option (Option Json) :=
  match fields.filter fun (k, _) => k == some name with
  | [] => some none
  | [(_, j)] => some (some j)
  | _ => none

/-- The values of a record with the given field names: an object, whose other fields are
ignored, or an array of values in the order of the names. -/
def record? (names : List String) : Json → Option (List (Option Json))
  | .obj fields =>
    if fields.all fun (k, _) => k.isSome then names.mapM (single? fields) else none
  | .arr items =>
    if items.length ≤ names.length then
      some (names.zipIdx.map fun (_, position) => items[position]?)
    else none
  | _ => none

/-- The name and the value of an object with exactly one field. -/
def variant? : Json → Option (String × Json)
  | .obj [(some k, j)] => some (k, j)
  | _ => none

end IonCircuit.Json
