import Reroot.Analyzer

namespace Reroot

structure Survey where
  topLevel : List String
  imports : List String
  duplicates : Nat
  deriving DecidableEq, Repr

namespace Survey

def importsOf (a : Analyzer) (t : FileTree) (s : Snapshot) (m : Module) : List String :=
  match s.readSource t m with
  | .error _ => []
  | .ok source => (a.importedNames? source).getD []

def capture (a : Analyzer) (t : FileTree) (s : Snapshot) : Survey where
  topLevel := s.topLevelNames
  imports := s.modules.flatMap (importsOf a t s)
  duplicates := s.duplicates.length

def dangling (v : Survey) (t : FileTree) (s : Snapshot) (search : SearchPath)
    (watched : List String) : List String :=
  (v.imports.filter fun name => watched.contains ((segmentsOf name).headD "")).filter fun name =>
    !s.resolves t search name

end Survey

def carry (renamed? : Option (String × String)) (name : String) : String :=
  match renamed? with
  | none => name
  | some (old, new) =>
    if name = old || (old.toList ++ ['.']).isPrefixOf name.toList then
      new ++ String.ofList (name.toList.drop old.length)
    else name

structure Surveyed where
  snapshot : Snapshot
  survey : Survey

def freshlyDangling (t : FileTree) (search : SearchPath) (renamed? : Option (String × String))
    (before after : Surveyed) : List String :=
  let watched := before.survey.topLevel ++ after.survey.topLevel
  let known := (before.survey.dangling t before.snapshot search watched).map (carry renamed?)
  (after.survey.dangling t after.snapshot search watched).filter fun name => !known.contains name

def checkConsistency (t : FileTree) (search : SearchPath) (renamed? : Option (String × String))
    (before after : Surveyed) : Except Error Unit :=
  if before.survey.duplicates < after.survey.duplicates then
    .error (.validation (.duplicates after.snapshot.duplicates))
  else
    match sortedNames (freshlyDangling t search renamed? before after) with
    | [] => .ok ()
    | names => .error (.validation (.unresolved names))

def checkMoved (t : FileTree) (s : Snapshot) (m : TopLevelModule) : Except Error Unit :=
  if t.isPresent (s.absolute m.path) then .error (.breach (.stillThere m.path m.name))
  else .ok ()

end Reroot
