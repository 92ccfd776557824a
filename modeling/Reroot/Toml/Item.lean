
namespace Reroot.Toml

inductive Style where
  | header
  | opened
  | dotted
  | inline
  deriving DecidableEq, Repr

inductive Item where
  | text (s : String)
  | plain (s : String)
  | array (items : List Item)
  | tables (tables : List (List (String × Item)))
  | table (style : Style) (fields : List (String × Item))

abbrev Fields := List (String × Item)

namespace Fields

def get? (fields : Fields) (key : String) : Option Item :=
  (fields.find? fun f => f.1 == key).map (·.2)

def put (key : String) (x : Item) : Fields → Fields
  | [] => [(key, x)]
  | f :: fs => if f.1 == key then (key, x) :: fs else f :: put key x fs

def alter (style : Style) (f : Style → Fields → Option Fields) :
    List String → Style → Fields → Option Fields
  | [], here, fields => f here fields
  | k :: ks, _, fields =>
    match get? fields k with
    | none => (alter style f ks style []).map fun fs => put k (.table style fs) fields
    | some (.table there fs) =>
      if there = .inline || (style = .dotted && there = .header) then none
      else (alter style f ks there fs).map fun fs' => put k (.table there fs') fields
    | some (.tables ts) =>
      match ts.getLast? with
      | none => none
      | some fs =>
        (alter style f ks .header fs).map fun fs' => put k (.tables (ts.dropLast ++ [fs'])) fields
    | some _ => none

structure Pair where
  path : List String
  key : String
  value : Item

def addPair (p : Pair) (here : Style) (fields : Fields) : Option Fields :=
  alter .dotted (fun style fs =>
    if (style == .dotted) == p.path.isEmpty then none
    else if (get? fs p.key).isSome then none
    else some (fs ++ [(p.key, p.value)])) p.path here fields

def addPairs (here : Style) : List Pair → Fields → Option Fields
  | [], fields => some fields
  | p :: ps, fields => (addPair p here fields).bind (addPairs here ps)

def addTable (path : List String) (key : String) (pairs : List Pair) (root : Fields) :
    Option Fields :=
  alter .opened (fun _ fields =>
    match get? fields key with
    | none => (addPairs .header pairs []).map fun fs => put key (.table .header fs) fields
    | some (.table .opened fs₀) =>
      (addPairs .header pairs fs₀).map fun fs => put key (.table .header fs) fields
    | some _ => none) path .header root

def addToTables (path : List String) (key : String) (pairs : List Pair) (root : Fields) :
    Option Fields :=
  alter .opened (fun _ fields =>
    match get? fields key with
    | none => (addPairs .header pairs []).map fun fs => put key (.tables [fs]) fields
    | some (.tables ts) =>
      (addPairs .header pairs []).map fun fs => put key (.tables (ts ++ [fs])) fields
    | some _ => none) path .header root

end Fields

inductive Line where
  | pair (p : Fields.Pair)
  | header (path : List String) (key : String)
  | headers (path : List String) (key : String)

namespace Line

def leading : List Line → List Fields.Pair × List Line
  | pair p :: rest => (p :: (leading rest).1, (leading rest).2)
  | rest => ([], rest)

def addAll : Nat → List Line → Fields → Option Fields
  | 0, lines, root => if lines.isEmpty then some root else none
  | n + 1, lines, root =>
    match lines with
    | [] => some root
    | header path key :: rest =>
      (Fields.addTable path key (leading rest).1 root).bind (addAll n (leading rest).2)
    | headers path key :: rest =>
      (Fields.addToTables path key (leading rest).1 root).bind (addAll n (leading rest).2)
    | pair p :: rest => (Fields.addPair p .header root).bind (addAll n rest)

end Line

def Fields.ofLines? (lines : List Line) : Option Fields :=
  Line.addAll lines.length lines []

end Reroot.Toml
