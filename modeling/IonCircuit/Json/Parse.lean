import IonCircuit.Json.Value

/-! Reading JSON values. The reader takes one token at a time and keeps the open
containers on a stack, so nesting has no limit. -/
namespace IonCircuit.Json

/-- A container that waits for the value of its next item; members are kept latest
first. -/
inductive Frame where
  | items (done : List Json)
  | fields (done : List (Text × Json)) (name : Text)

/-- What may come next, with the containers around it. -/
inductive Reader where
  | value (around : List Frame)
  | firstItem (around : List Frame)
  | afterItem (done : List Json) (around : List Frame)
  | firstField (around : List Frame)
  | field (done : List (Text × Json)) (around : List Frame)
  | colon (done : List (Text × Json)) (name : Text) (around : List Frame)
  | afterField (done : List (Text × Json)) (around : List Frame)
  | complete (j : Json)

namespace Reader

/-- A value has ended and goes into the innermost container. -/
def close (j : Json) : List Frame → Reader
  | [] => .complete j
  | .items done :: around => .afterItem (j :: done) around
  | .fields done name :: around => .afterField ((name, j) :: done) around

/-- Takes the first token of a value. -/
def startValue? (around : List Frame) : Token → Option Reader
  | .null => some (close .null around)
  | .bool b => some (close (.bool b) around)
  | .num n => some (close (.num n) around)
  | .str s => some (close (.str s) around)
  | .openArray => some (.firstItem around)
  | .openObject => some (.firstField around)
  | .closeArray | .closeObject | .comma | .colon => none

def step? : Reader → Token → Option Reader
  | .value around, t => startValue? around t
  | .firstItem around, .closeArray => some (close (.arr []) around)
  | .firstItem around, t => startValue? (.items [] :: around) t
  | .afterItem done around, .comma => some (.value (.items done :: around))
  | .afterItem done around, .closeArray => some (close (.arr done.reverse) around)
  | .firstField around, .closeObject => some (close (.obj []) around)
  | .firstField around, .str k => some (.colon [] k around)
  | .field done around, .str k => some (.colon done k around)
  | .colon done k around, .colon => some (.value (.fields done k :: around))
  | .afterField done around, .comma => some (.field done around)
  | .afterField done around, .closeObject => some (close (.obj done.reverse) around)
  | _, _ => none

def result? : Reader → Option Json
  | .complete j => some j
  | _ => none

end Reader

def ofTokens? (tokens : List Token) : Option Json :=
  (tokens.foldlM Reader.step? (.value [])).bind Reader.result?

/-- The value that a text denotes, if it is exactly one. -/
def parse? (text : String) : Option Json := (scan? text.toList).bind ofTokens?

end IonCircuit.Json
