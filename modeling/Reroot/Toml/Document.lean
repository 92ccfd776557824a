import Reroot.Toml.Item
import Reroot.Toml.Quoted

namespace Reroot.Toml

abbrev Reader (α : Type) := List Char → Option (α × List Char)

namespace Document

def isBlank (c : Char) : Bool :=
  c == ' ' || c == '\t'

def skipBlanks (cs : List Char) : List Char :=
  cs.dropWhile isBlank

def newline? : Skip
  | '\n' :: rest => some rest
  | '\r' :: '\n' :: rest => some rest
  | _ => none

def skipComment : List Char → List Char
  | '#' :: rest => rest.dropWhile Quoted.isPlain
  | cs => cs

def lineEnd? : Skip
  | [] => some []
  | cs => newline? cs

def endOfLine? (cs : List Char) : Option (List Char) :=
  lineEnd? (skipComment (skipBlanks cs))

def spaceLoop : Nat → Skip
  | 0, cs => some cs
  | n + 1, cs =>
    match skipBlanks cs with
    | '#' :: rest => (newline? (skipComment ('#' :: rest))).bind (spaceLoop n)
    | '\n' :: rest => spaceLoop n rest
    | '\r' :: rest => (newline? ('\r' :: rest)).bind (spaceLoop n)
    | rest => some rest

def space? (cs : List Char) : Option (List Char) :=
  spaceLoop (cs.length + 1) cs

def isBareKey (c : Char) : Bool :=
  c.isAlphanum || c == '-' || c == '_'

def segment : Reader String
  | '"' :: rest => (Quoted.basic rest).map fun r => (String.ofList r.1, r.2)
  | '\'' :: rest => (Quoted.literal rest).map fun r => (String.ofList r.1, r.2)
  | cs =>
    match cs.takeWhile isBareKey with
    | [] => none
    | name => some (String.ofList name, cs.dropWhile isBareKey)

def segments : Nat → Reader (List String)
  | 0, _ => none
  | n + 1, cs =>
    match segment (skipBlanks cs) with
    | none => none
    | some (name, rest) =>
      match skipBlanks rest with
      | '.' :: rest' => (segments n rest').map fun r => (name :: r.1, r.2)
      | rest' => some ([name], rest')

def depthLimit : Nat := 80

def key (cs : List Char) : Option ((List String × String) × List Char) :=
  match segments (depthLimit - 1) cs with
  | none => none
  | some (names, rest) => names.getLast?.map fun last => ((names.dropLast, last), rest)

def pair (value : Reader Item) (cs : List Char) : Option (Fields.Pair × List Char) := do
  let ((path, name), cs) ← key cs
  let cs ← Scalar.char? '=' cs
  let (x, cs) ← value (skipBlanks cs)
  some (⟨path, name, x⟩, cs)

def items (value : Reader Item) : Nat → Reader (List Item)
  | 0, _ => none
  | n + 1, cs => do
    match ← space? cs with
    | ']' :: rest => some ([], rest)
    | cs =>
      let (x, cs) ← value cs
      match ← space? cs with
      | ',' :: rest => (items value n rest).map fun r => (x :: r.1, r.2)
      | ']' :: rest => some ([x], rest)
      | _ => none

def pairs (value : Reader Item) : Nat → Reader (List Fields.Pair)
  | 0, _ => none
  | n + 1, cs => do
    let (p, cs) ← pair value cs
    match skipBlanks cs with
    | ',' :: rest => (pairs value n rest).map fun r => (p :: r.1, r.2)
    | '\x7d' :: rest => some ([p], rest)
    | _ => none

def array (value : Reader Item) (cs : List Char) : Option (Item × List Char) :=
  (items value (cs.length + 1) cs).map fun r => (.array r.1, r.2)

def inlineTable (value : Reader Item) (cs : List Char) : Option (Item × List Char) :=
  match skipBlanks cs with
  | '\x7d' :: rest => some (.table .inline [], rest)
  | _ => do
    let (ps, rest) ← pairs value (cs.length + 1) cs
    let fields ← Fields.addPairs .inline ps []
    some (.table .inline fields, rest)

def valueWith (inner : Option (Reader Item)) (cs : List Char) : Option (Item × List Char) :=
  match cs with
  | '"' :: _ => (Quoted.read cs).map fun r => (.text (String.ofList r.1), r.2)
  | '\'' :: _ => (Quoted.read cs).map fun r => (.text (String.ofList r.1), r.2)
  | '[' :: rest => inner.bind fun value => array value rest
  | '\x7b' :: rest => inner.bind fun value => inlineTable value rest
  | _ =>
    (Scalar.scalar? cs).map fun rest =>
      (.plain (String.ofList (cs.take (cs.length - rest.length))), rest)

def value : Nat → Reader Item
  | 0 => valueWith none
  | n + 1 => valueWith (some (value n))

def header (cs : List Char) : Option (Line × List Char) :=
  match cs with
  | '[' :: '[' :: rest => do
    let ((path, name), cs) ← key rest
    let cs ← Scalar.char? ']' cs
    let cs ← Scalar.char? ']' cs
    some (.headers path name, cs)
  | _ => do
    let ((path, name), cs) ← key (cs.drop 1)
    let cs ← Scalar.char? ']' cs
    some (.header path name, cs)

def line (cs : List Char) : Option (Line × List Char) := do
  let (l, cs) ←
    if cs.head? = some '[' then header cs
    else (pair (value (depthLimit - 1)) cs).map fun r => (.pair r.1, r.2)
  some (l, ← endOfLine? cs)

def lines : Nat → List Char → Option (List Line)
  | 0, _ => none
  | n + 1, cs =>
    match skipBlanks cs with
    | [] => some []
    | '#' :: rest => (endOfLine? ('#' :: rest)).bind (lines n)
    | '\n' :: rest => lines n rest
    | '\r' :: rest => (newline? ('\r' :: rest)).bind (lines n)
    | cs =>
      match line cs with
      | none => none
      | some (l, rest) => (lines n rest).map (l :: ·)

def skipMark : List Char → List Char
  | '\uFEFF' :: rest => rest
  | cs => cs

def parse? (text : String) : Option Fields :=
  let cs := skipMark text.toList
  (lines (cs.length + 1) cs).bind Fields.ofLines?

end Document

end Reroot.Toml
