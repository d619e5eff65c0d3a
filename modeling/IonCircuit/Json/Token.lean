import IonCircuit.Json.Number
import IonCircuit.Json.Text

/-! The tokens of JSON text. A scanner takes the text one character at a time. -/
namespace IonCircuit.Json

inductive Token where
  | openArray | closeArray | openObject | closeObject | comma | colon
  | null
  | bool (b : Bool)
  | num (n : Number)
  | str (s : Text)
  deriving DecidableEq

namespace Token

def punctuation? : Char → Option Token
  | '[' => some .openArray
  | ']' => some .closeArray
  | '\x7b' => some .openObject
  | '\x7d' => some .closeObject
  | ',' => some .comma
  | ':' => some .colon
  | _ => none

/-- A bare word is a literal name or a number. -/
def ofWord? (word : List Char) : Option Token :=
  if word = ['n', 'u', 'l', 'l'] then some .null
  else if word = ['t', 'r', 'u', 'e'] then some (.bool true)
  else if word = ['f', 'a', 'l', 's', 'e'] then some (.bool false)
  else (Number.ofChars? word).map .num

def chars : Token → List Char
  | .openArray => ['[']
  | .closeArray => [']']
  | .openObject => ['\x7b']
  | .closeObject => ['\x7d']
  | .comma => [',']
  | .colon => [':']
  | .null => ['n', 'u', 'l', 'l']
  | .bool true => ['t', 'r', 'u', 'e']
  | .bool false => ['f', 'a', 'l', 's', 'e']
  | .num n => n.chars
  | .str s => '"' :: s.encode ++ ['"']

/-- Only these four characters may stand between tokens. -/
def isBlank (c : Char) : Bool := c == ' ' || c == '\t' || c == '\n' || c == '\r'

/-- Whether a character ends a bare word. -/
def endsWord (c : Char) : Bool := isBlank c || c == '"' || (punctuation? c).isSome

end Token

/-- Where the scanner stands; characters read so far are kept latest first. -/
inductive Scanner.Mode where
  | between
  | word (read : List Char)
  | inside (read : List Char)
  /-- Inside a string, right after a backslash. -/
  | escape (read : List Char)

/-- The tokens found so far, latest first, and where the scanner stands. -/
structure Scanner where
  tokens : List Token
  mode : Scanner.Mode

namespace Scanner

def initial : Scanner := ⟨[], .between⟩

/-- Ends a bare word. -/
def endWord? (tokens : List Token) (read : List Char) : Option (List Token) :=
  (Token.ofWord? read.reverse).map (· :: tokens)

/-- Takes the first character of a token, or a blank. -/
def start (tokens : List Token) (c : Char) : Scanner :=
  match Token.punctuation? c with
  | some t => ⟨t :: tokens, .between⟩
  | none =>
    if Token.isBlank c then ⟨tokens, .between⟩
    else if c = '"' then ⟨tokens, .inside []⟩
    else ⟨tokens, .word [c]⟩

def step? (s : Scanner) (c : Char) : Option Scanner :=
  match s.mode with
  | .between => some (start s.tokens c)
  | .word read =>
    if Token.endsWord c then (endWord? s.tokens read).map (start · c)
    else some ⟨s.tokens, .word (c :: read)⟩
  | .inside read =>
    if c = '"' then (Text.decode? read.reverse).map fun t => ⟨.str t :: s.tokens, .between⟩
    else if c = '\\' then some ⟨s.tokens, .escape (c :: read)⟩
    else some ⟨s.tokens, .inside (c :: read)⟩
  | .escape read => some ⟨s.tokens, .inside (c :: read)⟩

/-- The tokens when the text ends here. -/
def finish? (s : Scanner) : Option (List Token) :=
  match s.mode with
  | .between => some s.tokens.reverse
  | .word read => (endWord? s.tokens read).map List.reverse
  | .inside _ | .escape _ => none

end Scanner

/-- The tokens of a text. -/
def scan? (text : List Char) : Option (List Token) :=
  (text.foldlM Scanner.step? .initial).bind Scanner.finish?

end IonCircuit.Json
