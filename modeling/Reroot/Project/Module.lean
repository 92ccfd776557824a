import Reroot.Name
import Reroot.Path

namespace Reroot

structure Layout where
  marker : String
  extension : String
  deriving DecidableEq, Repr

def Layout.standard : Layout :=
  ⟨"__init__.py", "py"⟩

def Layout.isSource (l : Layout) (p : Path) : Bool :=
  p.extension? == some l.extension

structure Module where
  identifier : String
  path : Path
  deriving DecidableEq, Repr

namespace Module

def names? : List Path.Part → Option (List String)
  | [] => some []
  | .name s :: ps => (names? ps).map (s :: ·)
  | .here :: ps => names? ps
  | _ :: _ => none

def stem? (name extension : String) : Option String :=
  let suffix := '.' :: extension.toList
  if suffix.isSuffixOf name.toList then
    some (String.ofList (name.toList.take (name.length - suffix.length)))
  else none

def segments? (l : Layout) (p : Path) : Option (List String) := do
  let names ← names? p.parts
  let file ← names.getLast?
  if file = l.marker then return names.dropLast
  return names.dropLast ++ [← stem? file l.extension]

def ofRelative? (l : Layout) (p : Path) : Option Module :=
  if l.isSource p then
    match segments? l p with
    | some [] => none
    | some segments => some ⟨dotted segments, p⟩
    | none => none
  else none

def topLevel (m : Module) : String :=
  (segmentsOf m.identifier).headD m.identifier

def isRootFile (m : Module) : Bool :=
  m.path.parts.length == 1

end Module

structure TopLevelModule where
  name : String
  path : Path
  isPackage : Bool
  deriving DecidableEq, Repr

end Reroot
