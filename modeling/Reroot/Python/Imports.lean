import Reroot.Python.Site

namespace Reroot.Python

def Node.importItems (n : Node) : List Node :=
  (n.parts .name).filterMap fun item =>
    match item.kind with
    | .aliasedImport => item.part? .name
    | _ => some item

def Node.fromTarget? (n : Node) : Option Node :=
  (n.part? .moduleName).filter fun m => m.kind == .dottedName

def Node.moduleTargets (n : Node) : List Node :=
  match n.kind with
  | .importStatement => n.importItems
  | .importFromStatement => n.fromTarget?.toList
  | _ => []

def Node.importedNames (root : Node) (source : List Char) : List String :=
  (root.preorder.flatMap Node.moduleTargets).map fun n => String.intercalate "." (n.segments source)

def importedNames? (source : String) : Option (List String) :=
  (parse? source).map fun root => root.importedNames source.toList

end Reroot.Python
