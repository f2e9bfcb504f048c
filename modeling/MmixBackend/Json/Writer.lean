import MmixBackend.Json.Basic

/-!
# Writing JSON

Two layouts: everything on one line without blanks, and one item or member a line, indented by
two blanks, with a blank after the colon.  Members come in the order they are stored in.  Text
stays as it is apart from quotes, backslashes and control characters.  A value of which nothing
is kept is written as null.
-/

namespace MmixBackend.Json

def quoteChar (c : Char) : List Char :=
  if c = '"' ∨ c = '\\' then ['\\', c]
  else if c = '\n' then ['\\', 'n']
  else if c = '\r' then ['\\', 'r']
  else if c = '\t' then ['\\', 't']
  else if c = Char.ofNat 8 then ['\\', 'b']
  else if c = Char.ofNat 12 then ['\\', 'f']
  else if c.toNat < 0x20 then
    ['\\', 'u', '0', '0', Nat.digitChar (c.toNat / 16), Nat.digitChar (c.toNat % 16)]
  else [c]

def quote (s : String) : String :=
  "\"" ++ String.ofList (s.toList.flatMap quoteChar) ++ "\""

mutual

def compact : Json → String
  | .null | .unusable => "null"
  | .bool b => if b then "true" else "false"
  | .int n => toString n
  | .str s => quote s
  | .arr vs => "[" ++ String.intercalate "," (compactItems vs) ++ "]"
  | .obj ms => "\x7b" ++ String.intercalate "," (compactMembers ms) ++ "\x7d"

def compactItems : List Json → List String
  | [] => []
  | v :: vs => v.compact :: compactItems vs

def compactMembers : List (String × Json) → List String
  | [] => []
  | (k, v) :: ms => (quote k ++ ":" ++ v.compact) :: compactMembers ms

end

/-- A bracketed list, one entry a line; an empty one stays on its line. -/
def bracketed (left right : String) (margin : String) (entries : List String) : String :=
  if entries.isEmpty then left ++ right
  else
    left ++ "\n" ++ String.intercalate ",\n" (entries.map (margin ++ "  " ++ ·)) ++ "\n" ++
      margin ++ right

mutual

/-- A value over several lines, its first line left where it stands. -/
def pretty (margin : String) : Json → String
  | .arr vs => bracketed "[" "]" margin (prettyItems (margin ++ "  ") vs)
  | .obj ms => bracketed "\x7b" "\x7d" margin (prettyMembers (margin ++ "  ") ms)
  | .null | .unusable => "null"
  | .bool b => if b then "true" else "false"
  | .int n => toString n
  | .str s => quote s

def prettyItems (margin : String) : List Json → List String
  | [] => []
  | v :: vs => v.pretty margin :: prettyItems margin vs

def prettyMembers (margin : String) : List (String × Json) → List String
  | [] => []
  | (k, v) :: ms => (quote k ++ ": " ++ v.pretty margin) :: prettyMembers margin ms

end

end MmixBackend.Json
