import Reroot.Text.Basic

namespace Reroot.Toml.Printer

def isControl (c : Char) : Bool :=
  (c.toNat < 32 && c != '\t' && c != '\n') || c.toNat == 127

def longestRun (x : Char) : Nat → List Char → Nat
  | n, [] => n
  | n, c :: cs => if c == x then longestRun x (n + 1) cs else max n (longestRun x 0 cs)

def hexDigit (n : Nat) : Char :=
  (Nat.digitChar n).toUpper

def escapeChar (c : Char) : String :=
  if c == '\x08' then "\\b"
  else if c == '\t' then "\\t"
  else if c == '\n' then "\\n"
  else if c == '\x0c' then "\\f"
  else if c == '\r' then "\\r"
  else if c == '"' then "\\\""
  else if c == '\\' then "\\\\"
  else if c.toNat < 32 || c.toNat == 127 then
    "\\u00" ++ String.ofList [hexDigit (c.toNat / 16), hexDigit (c.toNat % 16)]
  else String.singleton c

def escapeLines : Nat → List Char → String
  | _, [] => ""
  | n, '"' :: cs => if n = 2 then "\\\"" ++ escapeLines 0 cs else "\"" ++ escapeLines (n + 1) cs
  | _, '\n' :: cs => "\n" ++ escapeLines 0 cs
  | _, c :: cs => escapeChar c ++ escapeLines 0 cs

inductive Quotes where
  | basic
  | literal
  | basicLines
  | literalLines
  deriving DecidableEq, Repr

def quotesFor (s : String) : Quotes :=
  let cs := s.toList
  let controls := cs.any isControl
  let escapes := controls || cs.contains '\\'
  let newlines := cs.contains '\n'
  if !escapes && !cs.contains '"' && !newlines then .basic
  else if !controls && !cs.contains '\'' && !newlines then .literal
  else if !escapes && longestRun '"' 0 cs < 3 then .basicLines
  else if !controls && longestRun '\'' 0 cs < 3 then .literalLines
  else if newlines then .basicLines
  else .basic

def quoted (s : String) : String :=
  let opening := if s.toList.contains '\n' then "\n" else ""
  match quotesFor s with
  | .basic => "\"" ++ String.join (s.toList.map escapeChar) ++ "\""
  | .literal => "'" ++ s ++ "'"
  | .basicLines => "\"\"\"" ++ opening ++ escapeLines 0 s.toList ++ "\"\"\""
  | .literalLines => "'''" ++ opening ++ s ++ "'''"

def list : List String → String
  | [] => "[]"
  | [s] => "[" ++ quoted s ++ "]"
  | ss => "[\n" ++ String.join (ss.map fun s => "    " ++ quoted s ++ ",\n") ++ "]"

end Reroot.Toml.Printer
