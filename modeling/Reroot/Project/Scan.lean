import Reroot.Files.Tree
import Reroot.Glob
import Reroot.Project.Module

namespace Reroot

namespace Scan

def skippedNames : List String :=
  ["__pycache__", "node_modules", "venv", "site-packages"]

def isSkipped (name : String) : Bool :=
  name.toList.head? == some '.' || skippedNames.contains name

mutual

def files : Entry → List String → List (List String)
  | .file _, names => [names]
  | .link _, _ => []
  | .dir es, names => filesIn es names

def filesIn : List (String × Entry) → List String → List (List String)
  | [], _ => []
  | (name, e) :: es, names =>
    (if e.isDir && isSkipped name then [] else files e (names ++ [name])) ++ filesIn es names

end

structure Failure where
  path : Path
  cause : OsError
  deriving DecidableEq, Repr

def Failure.message (f : Failure) : String :=
  "IO error for operation on " ++ f.path.text ++ ": " ++ f.cause.message

def filesBelow (t : FileTree) (root : Path) : Except Failure (List (List String)) :=
  match t.entry? root false with
  | .error e => .error ⟨root, e⟩
  | .ok (.dir es) => .ok (filesIn es [])
  | .ok (.file _) => .ok []
  | .ok (.link _) =>
    match t.entry? root true with
    | .error e => .error ⟨root, e⟩
    | .ok (.dir es) => .ok (filesIn es [])
    | .ok _ => .ok []

def modules (t : FileTree) (root : Path) (l : Layout) (excludes : List Glob) :
    Except Failure (List Module) :=
  match filesBelow t root with
  | .error f => .error f
  | .ok files =>
    let kept := files.filter fun names => !Glob.anyCovers excludes (String.intercalate "/" names)
    .ok (kept.filterMap fun names => Module.ofRelative? l (Path.ofNames names))

end Scan

end Reroot
