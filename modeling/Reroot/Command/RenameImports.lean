import Reroot.Command.Console
import Reroot.Python.Analyzer

namespace Reroot.Command.RenameImports

structure Options where
  root : Path
  replacements : List (String × String)
  excludes : List String

def everyFile : String := "**"

def planned (o : Options) : List Transformation :=
  o.replacements.map fun r => .renameExternal r.1 r.2 everyFile

def runner : Runner :=
  ⟨Python.analyzer, .keepGoing, [], true⟩

def run (o : Options) : ConsoleM Report := do
  let excludes ← ofExcept (parseGlobs o.excludes)
  let snapshot ← ofExcept (Snapshot.capture (← get).tree o.root .standard excludes)
  return Report.ofRun (← carryOut runner none snapshot (planned o))

def pairs : List String → List (String × String)
  | old :: new :: rest => (old, new) :: pairs rest
  | _ => []

def interface : Interface where
  positional := []
  options := [
    .single "path" .path,
    ⟨"replace", none, 2, .text, true⟩,
    ⟨"exclude-glob", some 'e', 1, .text, true⟩,
    .flag "verbose" (some 'v')]
  required := ["path", "replace"]
  conflicts := []

def options (f : Found) : Options where
  root := ⟨(f.values "path").headD ""⟩
  replacements := pairs (f.values "replace")
  excludes := f.values "exclude-glob"

def summary (r : Report) : String :=
  "[OK] " ++ toString r.successes.length ++ " rename(s) applied, " ++ toString r.failures.length
    ++ " failed\n"

def command (args : List String) (t : FileTree) : Finish :=
  match interface.read args with
  | .error e => refused e "python-import-rewrite" t
  | .ok f =>
    let o := options f
    match run o ⟨t, "", []⟩ with
    | .error e c =>
      ⟨1, "", c.told ++ failureText ("Failed to rewrite imports under " ++ o.root.text) e, c⟩
    | .ok r c =>
      let text := r.text false (.ofFlags (f.has "verbose") false) false
      ⟨r.exitCode, if text.isEmpty then "" else text ++ "\n", c.told ++ summary r, c⟩

def places (args : List String) : List Path :=
  match interface.read args with
  | .error _ => []
  | .ok f => [(options f).root]

end Reroot.Command.RenameImports
