import Reroot.Project.Scan
import Reroot.Error

namespace Reroot

abbrev SearchPath := List Path

def sortedNames (names : List String) : List String :=
  (names.mergeSort (fun a b => a ≤ b)).eraseReps

def SearchPath.resolves (roots : SearchPath) (t : FileTree) (l : Layout) (name : String) : Bool :=
  let relative := (segmentsOf name).foldl (fun p s => p.join ⟨s⟩) (Path.mk "")
  roots.any fun root =>
    let base := root.join relative
    t.isDir base || t.isFile (base.withExtension l.extension)

structure Snapshot where
  root : Path
  layout : Layout
  excludes : List Glob
  modules : List Module

namespace Snapshot

def capture (t : FileTree) (root : Path) (l : Layout) (excludes : List Glob) :
    Except Error Snapshot :=
  match Scan.modules t root l excludes with
  | .ok ms => .ok ⟨root, l, excludes, ms⟩
  | .error f => .error (.io (.stated f.message))

def refresh (s : Snapshot) (t : FileTree) : Except Error Snapshot :=
  capture t s.root s.layout s.excludes

def module? (s : Snapshot) (identifier : String) : Option Module :=
  s.modules.find? fun m => m.identifier == identifier

def absolute (s : Snapshot) (p : Path) : Path :=
  s.root.join p

def readSource (s : Snapshot) (t : FileTree) (m : Module) : Except IoError String :=
  t.readText (s.absolute m.path)

def isExcluded (s : Snapshot) (p : Path) : Bool :=
  Glob.anyCovers s.excludes p.slashed

def inScope (s : Snapshot) (scope : List Glob) : List Module :=
  s.modules.filter fun m => Glob.anyCovers scope m.path.slashed

def topLevelNames (s : Snapshot) : List String :=
  sortedNames (s.modules.map Module.topLevel)

def topLevelModules (s : Snapshot) : List TopLevelModule :=
  s.topLevelNames.filterMap fun name =>
    match s.modules.find? fun m => m.topLevel == name with
    | none => none
    | some m => some ⟨name, Path.ofParts (m.path.parts.take 1), !m.isRootFile⟩

def directoriesAbove (names : List String) : List Path :=
  (List.range names.length).tail.map fun n => Path.ofNames (names.take n)

def sortedPaths (ps : List Path) : List Path :=
  let sorted := ps.mergeSort Path.le
  sorted.eraseRepsBy Path.samePlace

def hasMarker (s : Snapshot) (t : FileTree) (dir : Path) : Bool :=
  t.isFile ((s.absolute dir).join ⟨s.layout.marker⟩)

def directoriesMissingMarker (s : Snapshot) (t : FileTree) : List Path :=
  (sortedPaths (s.modules.flatMap fun m => directoriesAbove m.path.pieces)).filter fun d =>
    !s.hasMarker t d

def duplicates (s : Snapshot) : List (String × List Path) :=
  (sortedNames (s.modules.map (·.identifier))).filterMap fun identifier =>
    let paths := (s.modules.filter fun m => m.identifier == identifier).map (·.path)
    if 1 < paths.length then some (identifier, paths) else none

def holds (s : Snapshot) (name : String) : Bool :=
  s.modules.any fun m =>
    m.identifier == name || (name.toList ++ ['.']).isPrefixOf m.identifier.toList

def resolves (s : Snapshot) (t : FileTree) (search : SearchPath) (name : String) : Bool :=
  s.holds name || search.resolves t s.layout name

end Snapshot

end Reroot
