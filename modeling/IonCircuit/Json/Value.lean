import IonCircuit.Json.Token

/-! JSON values and their compact text. -/
namespace IonCircuit

inductive Json where
  | null
  | bool (b : Bool)
  | num (n : Json.Number)
  | str (s : Json.Text)
  | arr (items : List Json)
  /-- Fields in the order of the text; a name may occur more than once. -/
  | obj (fields : List (Json.Text × Json))

namespace Json

mutual

/-- The tokens of the compact text. -/
def tokens : Json → List Token
  | .null => [.null]
  | .bool b => [.bool b]
  | .num n => [.num n]
  | .str s => [.str s]
  | .arr [] => [.openArray, .closeArray]
  | .arr (j :: rest) => .openArray :: tokens j ++ moreItems rest ++ [.closeArray]
  | .obj [] => [.openObject, .closeObject]
  | .obj ((k, j) :: rest) =>
    .openObject :: .str k :: .colon :: tokens j ++ moreFields rest ++ [.closeObject]

/-- Each further item follows a comma. -/
def moreItems : List Json → List Token
  | [] => []
  | j :: rest => .comma :: tokens j ++ moreItems rest

/-- Each further field follows a comma. -/
def moreFields : List (Text × Json) → List Token
  | [] => []
  | (k, j) :: rest => .comma :: .str k :: .colon :: tokens j ++ moreFields rest

end

/-- The compact text, without blanks. -/
def render (j : Json) : String := String.ofList (j.tokens.flatMap Token.chars)

def ofNat (n : Nat) : Json := .num (.ofNat n)

/-- A double without a number is written as null. -/
def ofFloat (x : Float) : Json :=
  match Number.ofFloat? x with
  | some n => .num n
  | none => .null

/-- An object with these field names. -/
def ofFields (fields : List (String × Json)) : Json := .obj (fields.map fun (k, j) => (some k, j))

end Json
end IonCircuit
