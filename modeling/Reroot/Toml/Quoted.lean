import Reroot.Toml.Scalar

namespace Reroot.Toml.Quoted

def isPlain (c : Char) : Bool :=
  c == '\t' || (' ' ≤ c && c.toNat ≠ 127)

def escaped? (c : Char) : Option Char :=
  if c == 'b' then some '\x08'
  else if c == 't' then some '\t'
  else if c == 'n' then some '\n'
  else if c == 'f' then some '\x0c'
  else if c == 'r' then some '\r'
  else if c == '"' then some '"'
  else if c == '\\' then some '\\'
  else none

def coded? (digits : List Char) : Option Char :=
  if digits.all Scalar.isHexDigit then
    let n := Scalar.number 16 digits
    if n.isValidChar then some (Char.ofNat n) else none
  else none

abbrev Reading := Option (List Char × List Char)

def Reading.cons (c : Char) : Reading → Reading
  | some (cs, rest) => some (c :: cs, rest)
  | none => none

def Reading.cons? (c? : Option Char) (r : Reading) : Reading :=
  match c? with
  | some c => r.cons c
  | none => none

def basic : List Char → Reading
  | [] => none
  | '"' :: rest => some ([], rest)
  | '\\' :: 'u' :: a :: b :: c :: d :: rest => (basic rest).cons? (coded? [a, b, c, d])
  | '\\' :: 'U' :: a :: b :: c :: d :: e :: f :: g :: h :: rest =>
    (basic rest).cons? (coded? [a, b, c, d, e, f, g, h])
  | '\\' :: c :: rest => (basic rest).cons? (escaped? c)
  | c :: rest => if isPlain c && c != '\\' then (basic rest).cons c else none

def closing (quote : Char) : List Char → List Char × List Char
  | a :: b :: rest =>
    if a == quote && b == quote then ([quote, quote], rest)
    else if a == quote then ([quote], b :: rest)
    else ([], a :: b :: rest)
  | [a] => if a == quote then ([quote], []) else ([], [a])
  | [] => ([], [])

inductive Fold where
  | none
  | toLineEnd
  | toText
  deriving DecidableEq, Repr

def basicLines : Fold → List Char → Reading
  | _, [] => none
  | .toLineEnd, '\n' :: rest => basicLines .toText rest
  | .toLineEnd, '\r' :: '\n' :: rest => basicLines .toText rest
  | .toLineEnd, c :: rest => if c == ' ' || c == '\t' then basicLines .toLineEnd rest else none
  | .toText, '\n' :: rest => basicLines .toText rest
  | .toText, '\r' :: '\n' :: rest => basicLines .toText rest
  | .toText, ' ' :: rest => basicLines .toText rest
  | .toText, '\t' :: rest => basicLines .toText rest
  | _, '"' :: '"' :: '"' :: rest => some (closing '"' rest)
  | _, '\n' :: rest => (basicLines .none rest).cons '\n'
  | _, '\r' :: '\n' :: rest => (basicLines .none rest).cons '\n'
  | _, '\\' :: '\n' :: rest => basicLines .toText rest
  | _, '\\' :: '\r' :: '\n' :: rest => basicLines .toText rest
  | _, '\\' :: ' ' :: rest => basicLines .toLineEnd rest
  | _, '\\' :: '\t' :: rest => basicLines .toLineEnd rest
  | _, '\\' :: 'u' :: a :: b :: c :: d :: rest =>
    (basicLines .none rest).cons? (coded? [a, b, c, d])
  | _, '\\' :: 'U' :: a :: b :: c :: d :: e :: f :: g :: h :: rest =>
    (basicLines .none rest).cons? (coded? [a, b, c, d, e, f, g, h])
  | _, '\\' :: c :: rest => (basicLines .none rest).cons? (escaped? c)
  | _, c :: rest => if isPlain c && c != '\\' then (basicLines .none rest).cons c else none

def literal : List Char → Reading
  | [] => none
  | '\'' :: rest => some ([], rest)
  | c :: rest => if isPlain c then (literal rest).cons c else none

def literalLines : List Char → Reading
  | [] => none
  | '\'' :: '\'' :: '\'' :: rest => some (closing '\'' rest)
  | '\n' :: rest => (literalLines rest).cons '\n'
  | '\r' :: '\n' :: rest => (literalLines rest).cons '\n'
  | c :: rest => if isPlain c then (literalLines rest).cons c else none

def dropNewline : List Char → List Char
  | '\n' :: rest => rest
  | '\r' :: '\n' :: rest => rest
  | cs => cs

def read : List Char → Reading
  | '"' :: '"' :: '"' :: rest => basicLines .none (dropNewline rest)
  | '"' :: rest => basic rest
  | '\'' :: '\'' :: '\'' :: rest => literalLines (dropNewline rest)
  | '\'' :: rest => literal rest
  | _ => none

end Reroot.Toml.Quoted
