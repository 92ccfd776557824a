import Reroot.Analyzer
import Reroot.Project.Snapshot

namespace Reroot

inductive Transformation where
  | renameExternal (oldName newName scope : String)
  | convertToPackage (directory : Path)
  | moveModule (module : TopLevelModule) (destination : String)
  deriving DecidableEq, Repr

namespace Transformation

def label : Transformation → String
  | renameExternal oldName newName scope =>
    "Rename module <" ++ oldName ++ "> to <" ++ newName ++ "> in files matching " ++ scope
  | convertToPackage directory => "Convert directory " ++ directory.slashed ++ " to a package"
  | moveModule m destination =>
    "Move module <" ++ m.name ++ "> to <" ++ destination ++ "." ++ m.name ++ ">"

def renamed? : Transformation → Option (String × String)
  | renameExternal oldName newName _ => some (oldName, newName)
  | convertToPackage _ => none
  | moveModule m destination => some (m.name, destination ++ "." ++ m.name)

def changes (a : Analyzer) (t : FileTree) (s : Snapshot) :
    Transformation → Except Error ChangeSet
  | renameExternal oldName newName scope =>
    match Glob.parse scope with
    | .error fault => .error (.glob scope fault)
    | .ok glob => a.planRename t s oldName newName (s.inScope [glob])
  | convertToPackage directory => a.planConversion t s [directory]
  | moveModule m destination => a.planMove t s m destination

end Transformation

structure RenameRequest where
  oldName : String
  newName : String
  scope : String
  deriving DecidableEq, Repr

def RenameRequest.ofFlat : List String → List RenameRequest
  | oldName :: newName :: scope :: rest => ⟨oldName, newName, scope⟩ :: ofFlat rest
  | _ => []

namespace Plan

def renames (requests : List RenameRequest) : List Transformation :=
  requests.map fun r => .renameExternal r.oldName r.newName r.scope

def packageDirectories (package : QualifiedName) : List Path :=
  (List.range package.length).map fun n => Path.ofNames (package.segments.take (n + 1))

def directories (t : FileTree) (s : Snapshot) (package : QualifiedName) : List Path :=
  Snapshot.sortedPaths (s.directoriesMissingMarker t
    ++ (packageDirectories package).filter fun d => !s.hasMarker t d)

def modulesToMove (s : Snapshot) (package : QualifiedName) : List TopLevelModule :=
  (s.topLevelModules.filter fun m => m.name != package.first).filter fun m =>
    !s.isExcluded m.path

end Plan

def plan (t : FileTree) (s : Snapshot) (packageName : String) (requests : List RenameRequest) :
    Except Error (List Transformation) :=
  match QualifiedName.parse packageName with
  | .error e => .error (.invalidName e)
  | .ok package =>
    .ok (Plan.renames requests
      ++ (Plan.directories t s package).map .convertToPackage
      ++ (Plan.modulesToMove s package).map fun m => .moveModule m package.text)

end Reroot
