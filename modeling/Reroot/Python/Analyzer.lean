import Reroot.Analyzer
import Reroot.Python.Imports
import Reroot.Python.Rename

namespace Reroot.Python

def planEdit? (t : FileTree) (s : Snapshot) (old new : QualifiedName) (m : Module) :
    Except Error (Option Change) :=
  match s.readSource t m with
  | .error e => .error (.parse m.path.slashed (.unreadable e))
  | .ok source =>
    match renameModule source old new with
    | .error e => .error (.planning (.rename m.path.slashed e))
    | .ok none => .ok none
    | .ok (some r) => .ok (some (.edit m.path r.replacements source r.content))

def planEdits (t : FileTree) (s : Snapshot) (old new : QualifiedName) :
    List Module → Except Error (List Change)
  | [] => .ok []
  | m :: ms =>
    match planEdit? t s old new m with
    | .error e => .error e
    | .ok change? =>
      match planEdits t s old new ms with
      | .error e => .error e
      | .ok changes => .ok (change?.toList ++ changes)

def parseName (name : String) : Except Error QualifiedName :=
  (QualifiedName.parse name).mapError .invalidName

def planRename (t : FileTree) (s : Snapshot) (oldName newName : String) (scope : List Module) :
    Except Error ChangeSet := do
  let old ← parseName oldName
  let new ← parseName newName
  return ⟨"Rename module <" ++ old.text ++ "> to <" ++ new.text ++ ">",
    ← planEdits t s old new scope⟩

def moveTarget (destination : QualifiedName) (m : TopLevelModule) : Path :=
  (Path.ofNames destination.segments).join m.path

def moveFault? (t : FileTree) (s : Snapshot) (m : TopLevelModule) (destination : QualifiedName) :
    Option PlanningFault :=
  let target := moveTarget destination m
  if m.path.parts.length ≠ 1 then some (.notTopLevel m.path)
  else if destination.first = m.name then some (.ownPackage m.name destination.text)
  else if !t.isPresent (s.absolute m.path) then some (.absent m.name m.path)
  else if t.isPresent (s.absolute target) then some (.occupied target)
  else none

def planMove (t : FileTree) (s : Snapshot) (m : TopLevelModule) (destinationName : String) :
    Except Error ChangeSet := do
  let destination ← parseName destinationName
  let old ← parseName m.name
  let new ← (destination.child m.name).mapError .invalidName
  match moveFault? t s m destination with
  | some fault => .error (.planning fault)
  | none =>
    let edits ← planEdits t s old new s.modules
    return ⟨"Move module <" ++ old.text ++ "> to <" ++ new.text ++ ">",
      edits ++ [.move m.path (moveTarget destination m)]⟩

def analyzer : Analyzer where
  planRename := planRename
  planMove := planMove
  importedNames? := importedNames?

end Reroot.Python
