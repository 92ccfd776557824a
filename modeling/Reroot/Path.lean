import Reroot.Text.Basic

namespace Reroot

structure Path where
  text : String
  deriving DecidableEq, Repr

namespace Path

inductive Part where
  | root
  | here
  | up
  | name (s : String)
  deriving DecidableEq, Repr

def Part.rank : Part → Nat
  | .root => 0
  | .here => 1
  | .up => 2
  | .name _ => 3

def Part.text : Part → String
  | .root => "/"
  | .here => "."
  | .up => ".."
  | .name s => s

def Part.lt (a b : Part) : Bool :=
  match a, b with
  | .name s, .name t => s < t
  | _, _ => a.rank < b.rank

def isAbsolute (p : Path) : Bool :=
  p.text.toList.head? == some '/'

def pieces (p : Path) : List String :=
  (Text.split '/' p.text).filter (!·.isEmpty)

def isSlashed (p : Path) : Bool :=
  p.text.toList.getLast? == some '/'

def bare (p : Path) : Path :=
  match p.text.toList.reverse.dropWhile (· == '/') with
  | [] => p
  | cs => ⟨String.ofList cs.reverse⟩

def isNamed (p : Path) : Bool :=
  match p.pieces.getLast? with
  | none => false
  | some s => s != "." && s != ".."

def parts (p : Path) : List Part :=
  let named := (p.pieces.filter (· != ".")).map fun s => if s == ".." then Part.up else .name s
  if p.isAbsolute then .root :: named
  else if p.pieces.head? == some "." then .here :: named
  else named

def ofParts : List Part → Path
  | .root :: ps => ⟨"/" ++ String.intercalate "/" (ps.map Part.text)⟩
  | ps => ⟨String.intercalate "/" (ps.map Part.text)⟩

def ofNames (names : List String) : Path :=
  ⟨String.intercalate "/" names⟩

def slashed (p : Path) : String :=
  String.intercalate "/" (p.parts.filterMap fun
    | .name s => some s
    | _ => none)

def samePlace (a b : Path) : Bool :=
  a.parts == b.parts

def partsLe : List Part → List Part → Bool
  | [], _ => true
  | _ :: _, [] => false
  | a :: as, b :: bs => if a.lt b then true else if b.lt a then false else partsLe as bs

def le (a b : Path) : Bool :=
  partsLe a.parts b.parts

def fileName? (p : Path) : Option String :=
  match p.parts.getLast? with
  | some (.name s) => some s
  | _ => none

def extension? (p : Path) : Option String :=
  match p.fileName? with
  | none => none
  | some name =>
    match Text.split '.' name with
    | [_] => none
    | ["", _] => none
    | pieces => pieces.getLast?

def parent? (p : Path) : Option Path :=
  match p.parts.getLast? with
  | none => none
  | some .root => none
  | some _ => some (ofParts p.parts.dropLast)

def join (base p : Path) : Path :=
  if p.isAbsolute || base.text.isEmpty then p
  else if base.isSlashed then ⟨base.text ++ p.text⟩
  else ⟨base.text ++ "/" ++ p.text⟩

def withExtension (p : Path) (extension : String) : Path :=
  match p.fileName? with
  | none => p
  | some name =>
    let stem :=
      match p.extension? with
      | some e => String.ofList (name.toList.take (name.length - e.length - 1))
      | none => name
    let file := if extension.isEmpty then stem else stem ++ "." ++ extension
    ofParts (p.parts.dropLast ++ [.name file])

end Path

end Reroot
