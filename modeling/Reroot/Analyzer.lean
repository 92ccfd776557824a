import Reroot.Change.Basic
import Reroot.Project.Snapshot

namespace Reroot

namespace Snapshot

def unmarked (s : Snapshot) (t : FileTree) (directories : List Path) : List Path :=
  sortedPaths (directories.filter fun d => !s.hasMarker t d)

def planConversion (s : Snapshot) (t : FileTree) (directories : List Path) : ChangeSet :=
  let missing := s.unmarked t directories
  { description :=
      "Convert " ++ toString missing.length ++ " director"
        ++ (if missing.length = 1 then "y" else "ies") ++ " to packages: "
        ++ String.intercalate ", " (missing.map Path.slashed)
    changes := missing.map fun d => .create (d.join ⟨s.layout.marker⟩) "" }

end Snapshot

structure Analyzer where
  planRename : FileTree → Snapshot → String → String → List Module → Except Error ChangeSet
  planMove : FileTree → Snapshot → TopLevelModule → String → Except Error ChangeSet
  importedNames? : String → Option (List String)
  planConversion : FileTree → Snapshot → List Path → Except Error ChangeSet :=
    fun t s directories => .ok (s.planConversion t directories)

end Reroot
