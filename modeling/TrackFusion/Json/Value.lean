/-!
# JSON values

* `Json.Value`: a JSON document. Numbers are kept as they are written.
* `Value.compact`, `Value.pretty`: its text on one line, and on lines indented by two blanks.
-/

namespace TrackFusion.Json

/-- A JSON document. The members of an object stand in the order of the text. -/
inductive Value where
  | null
  | bool (b : Bool)
  | num (literal : String)
  | str (s : String)
  | arr (items : List Value)
  | obj (members : List (String × Value))
  deriving Inhabited

/-- Lower-case hexadecimal digit. -/
def hexDigit (n : Nat) : Char := (Nat.toDigits 16 n).headD '0'

/-- How a character is written inside a string. -/
def escape (c : Char) : List Char :=
  if c = '"' then ['\\', '"']
  else if c = '\\' then ['\\', '\\']
  else if c = '\x08' then ['\\', 'b']
  else if c = '\x0c' then ['\\', 'f']
  else if c = '\n' then ['\\', 'n']
  else if c = '\r' then ['\\', 'r']
  else if c = '\t' then ['\\', 't']
  else if c.toNat < 32 then ['\\', 'u', '0', '0', hexDigit (c.toNat / 16), hexDigit (c.toNat % 16)]
  else [c]

/-- A string with its quotes. -/
def quote (s : String) : String :=
  "\"" ++ String.ofList (s.toList.flatMap escape) ++ "\""

namespace Value

mutual

/-- Text without any white space. -/
def compact : Value → String
  | .null => "null"
  | .bool b => if b then "true" else "false"
  | .num literal => literal
  | .str s => quote s
  | .arr items => "[" ++ compactItems items ++ "]"
  | .obj members => "\x7b" ++ compactMembers members ++ "\x7d"

def compactItems : List Value → String
  | [] => ""
  | [v] => v.compact
  | v :: vs => v.compact ++ "," ++ compactItems vs

def compactMembers : List (String × Value) → String
  | [] => ""
  | [(k, v)] => quote k ++ ":" ++ v.compact
  | (k, v) :: vs => quote k ++ ":" ++ v.compact ++ "," ++ compactMembers vs

end

/-- A line break and the indentation of a nesting level. -/
def newline (depth : Nat) : String := "\n" ++ String.ofList (List.replicate (2 * depth) ' ')

mutual

/-- Text with every item and every member on a line of its own, at nesting level `depth`. -/
def prettyAt (depth : Nat) : Value → String
  | .null => "null"
  | .bool b => if b then "true" else "false"
  | .num literal => literal
  | .str s => quote s
  | .arr [] => "[]"
  | .arr items => "[" ++ prettyItems (depth + 1) items ++ newline depth ++ "]"
  | .obj [] => "\x7b\x7d"
  | .obj members => "\x7b" ++ prettyMembers (depth + 1) members ++ newline depth ++ "\x7d"

def prettyItems (depth : Nat) : List Value → String
  | [] => ""
  | [v] => newline depth ++ v.prettyAt depth
  | v :: vs => newline depth ++ v.prettyAt depth ++ "," ++ prettyItems depth vs

def prettyMembers (depth : Nat) : List (String × Value) → String
  | [] => ""
  | [(k, v)] => newline depth ++ quote k ++ ": " ++ v.prettyAt depth
  | (k, v) :: vs =>
    newline depth ++ quote k ++ ": " ++ v.prettyAt depth ++ "," ++ prettyMembers depth vs

end

def pretty (v : Value) : String := v.prettyAt 0

/-- The first member of that name. -/
def get? (v : Value) (key : String) : Option Value :=
  match v with
  | .obj members => members.lookup key
  | _ => none

end Value

end TrackFusion.Json
