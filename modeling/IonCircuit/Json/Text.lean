/-! JSON strings and their escapes. -/
namespace IonCircuit.Json

/-- The text of a string, absent when an escape in it names half of a surrogate pair, for
which no character stands. -/
abbrev Text := Option String

namespace Text

def hexValue? (c : Char) : Option Nat :=
  if '0' ≤ c ∧ c ≤ '9' then some (c.toNat - '0'.toNat)
  else if 'a' ≤ c ∧ c ≤ 'f' then some (c.toNat - 'a'.toNat + 10)
  else if 'A' ≤ c ∧ c ≤ 'F' then some (c.toNat - 'A'.toNat + 10)
  else none

/-- The character that a letter after a backslash stands for. -/
def escaped? : Char → Option Char
  | '"' => some '"'
  | '\\' => some '\\'
  | '/' => some '/'
  | 'b' => some '\x08'
  | 'f' => some '\x0c'
  | 'n' => some '\n'
  | 'r' => some '\r'
  | 't' => some '\t'
  | _ => none

/-- The code units that the inside of a string denotes: one for each character and each
escape. Control characters must be escaped. -/
def units? : List Char → Option (List Nat)
  | [] => some []
  | '\\' :: 'u' :: a :: b :: c :: d :: rest => do
    let unit := 16 * (16 * (16 * (← hexValue? a) + (← hexValue? b)) + (← hexValue? c)) +
      (← hexValue? d)
    return unit :: (← units? rest)
  | '\\' :: e :: rest => do return (← escaped? e).toNat :: (← units? rest)
  | c :: rest => if c.toNat < 0x20 ∨ c = '\\' then none else (units? rest).map (c.toNat :: ·)

def isHigh (u : Nat) : Bool := 0xD800 ≤ u && u < 0xDC00

def isLow (u : Nat) : Bool := 0xDC00 ≤ u && u < 0xE000

/-- The characters of code units, a high and a low surrogate making one together. -/
def characters? : List Nat → Option (List Char)
  | [] => some []
  | u :: v :: rest =>
    if isHigh u && isLow v then
      (characters? rest).map (Char.ofNat (0x10000 + (u - 0xD800) * 0x400 + (v - 0xDC00)) :: ·)
    else if isHigh u || isLow u then none
    else (characters? (v :: rest)).map (Char.ofNat u :: ·)
  | [u] => if isHigh u || isLow u then none else some [Char.ofNat u]

/-- Reads the inside of a string. -/
def decode? (inside : List Char) : Option Text :=
  (units? inside).map fun units => (characters? units).map String.ofList

def hexDigit (n : Nat) : Char :=
  if n < 10 then Char.ofNat ('0'.toNat + n) else Char.ofNat ('a'.toNat + (n - 10))

/-- Quotes, backslashes and control characters are escaped. -/
def encodeChar (c : Char) : List Char :=
  if c = '"' ∨ c = '\\' then ['\\', c]
  else if c.toNat < 0x20 then
    ['\\', 'u', '0', '0', hexDigit (c.toNat / 16), hexDigit (c.toNat % 16)]
  else [c]

/-- The inside of a written string. -/
def encode : Text → List Char
  | some s => s.toList.flatMap encodeChar
  | none => ['\\', 'u', 'd', '8', '0', '0']

end Text
end IonCircuit.Json
