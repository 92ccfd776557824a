import Reroot.Double

namespace Reroot.Toml

abbrev Skip := List Char → Option (List Char)

namespace Scalar

def digitRun (p : Char → Bool) : List Char → List Char × List Char
  | '_' :: c :: rest =>
    if p c then (c :: (digitRun p rest).1, (digitRun p rest).2) else ([], '_' :: c :: rest)
  | c :: rest => if p c then (c :: (digitRun p rest).1, (digitRun p rest).2) else ([], c :: rest)
  | [] => ([], [])

def digits? (p : Char → Bool) : List Char → Option (List Char × List Char)
  | c :: rest => if p c then some (c :: (digitRun p rest).1, (digitRun p rest).2) else none
  | [] => none

def digitValue (c : Char) : Nat :=
  if c.isDigit then c.toNat - '0'.toNat
  else if 'a' ≤ c then c.toNat - 'a'.toNat + 10
  else c.toNat - 'A'.toNat + 10

def number (base : Nat) (digits : List Char) : Nat :=
  digits.foldl (fun n c => n * base + digitValue c) 0

def isHexDigit (c : Char) : Bool :=
  c.isDigit || ('a' ≤ c && c ≤ 'f') || ('A' ≤ c && c ≤ 'F')

def sign : List Char → Bool × List Char
  | '-' :: rest => (true, rest)
  | '+' :: rest => (false, rest)
  | rest => (false, rest)

def decimal? : List Char → Option (List Char × List Char)
  | '0' :: rest => some (['0'], rest)
  | cs => digits? Char.isDigit cs

def based? (base : Nat) (p : Char → Bool) (cs : List Char) : Option (List Char) :=
  match digits? p cs with
  | some (ds, rest) => if number base ds < Nat.pow 2 63 then some rest else none
  | none => none

def integer? : Skip
  | '0' :: 'x' :: rest => based? 16 isHexDigit rest
  | '0' :: 'o' :: rest => based? 8 (fun c => '0' ≤ c && c ≤ '7') rest
  | '0' :: 'b' :: rest => based? 2 (fun c => c == '0' || c == '1') rest
  | cs =>
    match decimal? (sign cs).2 with
    | some (ds, rest) =>
      let limit := if (sign cs).1 then Nat.pow 2 63 else Nat.pow 2 63 - 1
      if number 10 ds ≤ limit then some rest else none
    | none => none

def exponent? : List Char → Option (Int × List Char)
  | e :: rest =>
    if e == 'e' || e == 'E' then
      match digits? Char.isDigit (sign rest).2 with
      | some (ds, rest') =>
        some (if (sign rest).1 then -(number 10 ds : Int) else number 10 ds, rest')
      | none => none
    else none
  | [] => none

def fraction? : List Char → Option (List Char × List Char)
  | '.' :: rest => digits? Char.isDigit rest
  | _ => none

def decimalFloat? (cs : List Char) : Option (List Char) :=
  match decimal? (sign cs).2 with
  | none => none
  | some (whole, rest) =>
    let finish (ds fraction : List Char) (e : Int) (rest : List Char) : Option (List Char) :=
      let isInfinite := Double.isInfinite (number 10 (ds ++ fraction)) (e - fraction.length)
      if !(sign cs).1 && isInfinite then none else some rest
    match exponent? rest with
    | some (e, rest) => finish whole [] e rest
    | none =>
      match fraction? rest with
      | none => none
      | some (fraction, rest) =>
        match exponent? rest with
        | some (e, rest) => finish whole fraction e rest
        | none => finish whole fraction 0 rest

def word? (word : String) (cs : List Char) : Option (List Char) :=
  if word.toList.isPrefixOf cs then some (cs.drop word.length) else none

def float? (cs : List Char) : Option (List Char) :=
  (decimalFloat? cs).or ((word? "inf" (sign cs).2).or (word? "nan" (sign cs).2))

def fixed? (width : Nat) (cs : List Char) : Option (Nat × List Char) :=
  let ds := cs.take width
  if ds.length = width && ds.all Char.isDigit then some (number 10 ds, cs.drop width) else none

def two? (lo hi : Nat) (cs : List Char) : Option (Nat × List Char) :=
  match fixed? 2 cs with
  | some (n, rest) => if lo ≤ n && n ≤ hi then some (n, rest) else none
  | none => none

def char? (c : Char) : Skip
  | d :: rest => if d == c then some rest else none
  | [] => none

def daysIn (year month : Nat) : Nat :=
  if month = 2 then
    if year % 4 = 0 && (year % 100 ≠ 0 || year % 400 = 0) then 29 else 28
  else if [4, 6, 9, 11].contains month then 30
  else 31

def date? (cs : List Char) : Option (List Char) := do
  let (year, cs) ← fixed? 4 cs
  let cs ← char? '-' cs
  let (month, cs) ← two? 1 12 cs
  let cs ← char? '-' cs
  let (day, cs) ← two? 1 31 cs
  if day ≤ daysIn year month then some cs else none

def secondFraction : List Char → List Char
  | '.' :: d :: rest => if d.isDigit then rest.dropWhile Char.isDigit else '.' :: d :: rest
  | cs => cs

def time? (cs : List Char) : Option (List Char) := do
  let (_, cs) ← two? 0 23 cs
  let cs ← char? ':' cs
  let (_, cs) ← two? 0 59 cs
  let cs ← char? ':' cs
  let (_, cs) ← two? 0 60 cs
  some (secondFraction cs)

def offset? (cs : List Char) : Option (List Char) :=
  match cs with
  | 'Z' :: rest => some rest
  | 'z' :: rest => some rest
  | c :: rest =>
    if c == '+' || c == '-' then do
      let (_, cs) ← two? 0 23 rest
      let cs ← char? ':' cs
      let (_, cs) ← two? 0 59 cs
      some cs
    else none
  | [] => none

def timeOfDay (cs : List Char) : List Char :=
  match cs with
  | c :: rest =>
    if c == 'T' || c == 't' || c == ' ' then
      match time? rest with
      | some rest' => (offset? rest').getD rest'
      | none => cs
    else cs
  | [] => []

def dateTime? (cs : List Char) : Option (List Char) :=
  match date? cs with
  | some rest => some (timeOfDay rest)
  | none => time? cs

def numeric? (cs : List Char) : Option (List Char) :=
  (dateTime? cs).or ((float? cs).or (integer? cs))

def scalar? (cs : List Char) : Option (List Char) :=
  match cs with
  | [] => none
  | c :: _ =>
    if c == '+' || c == '-' || c.isDigit then numeric? cs
    else if c == 't' then word? "true" cs
    else if c == 'f' then word? "false" cs
    else if c == 'i' then word? "inf" cs
    else if c == 'n' then word? "nan" cs
    else none

end Scalar

end Reroot.Toml
