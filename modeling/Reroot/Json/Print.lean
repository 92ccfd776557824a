import Reroot.Text.Basic

namespace Reroot.Json

inductive Value where
  | number (n : Nat)
  | text (s : String)
  | list (xs : List Value)
  | record (fields : List (String × Value))

def hexDigit (n : Nat) : Char :=
  Nat.digitChar n

def escapeChar (c : Char) : String :=
  if c == '"' then "\\\""
  else if c == '\\' then "\\\\"
  else if c == '\n' then "\\n"
  else if c == '\r' then "\\r"
  else if c == '\t' then "\\t"
  else if c == '\x08' then "\\b"
  else if c == '\x0c' then "\\f"
  else if c.toNat < 32 then
    "\\u00" ++ String.ofList [hexDigit (c.toNat / 16), hexDigit (c.toNat % 16)]
  else String.singleton c

def quoted (s : String) : String :=
  "\"" ++ String.join (s.toList.map escapeChar) ++ "\""

def newline (level : Nat) : String :=
  "\n" ++ String.ofList (List.replicate (2 * level) ' ')

def bracketed (opening closing : String) (level : Nat) (items : List String) : String :=
  if items.isEmpty then opening ++ closing
  else
    opening ++ String.intercalate "," (items.map fun i => newline (level + 1) ++ i)
      ++ newline level ++ closing

namespace Value

mutual

def pretty (level : Nat) : Value → String
  | number n => toString n
  | text s => quoted s
  | list xs => bracketed "[" "]" level (prettyItems (level + 1) xs)
  | record fields => bracketed "\x7b" "\x7d" level (prettyFields (level + 1) fields)

def prettyItems (level : Nat) : List Value → List String
  | [] => []
  | x :: xs => pretty level x :: prettyItems level xs

def prettyFields (level : Nat) : List (String × Value) → List String
  | [] => []
  | (name, x) :: fields => (quoted name ++ ": " ++ pretty level x) :: prettyFields level fields

end

end Value

end Reroot.Json
