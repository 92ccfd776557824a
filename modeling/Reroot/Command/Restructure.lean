import Reroot.Command.Console
import Reroot.Config
import Reroot.Python.Analyzer

namespace Reroot.Command.Restructure

structure Options where
  root : Path
  package : String
  renames : List RenameRequest
  config : Config
  verbosity : Verbosity
  catching : Bool
  machineOutput : Bool

def Options.isChatty (o : Options) : Bool :=
  o.verbosity != .quiet && !o.machineOutput

def summary (r : Report) (total : Nat) : String :=
  if r.failures.isEmpty then "[OK] " ++ toString r.successes.length ++ " patch(es) applied"
  else
    "[X] " ++ toString r.failures.length ++ " of " ++ toString total
      ++ " transformation(s) failed"

def run (o : Options) : ConsoleM Report := do
  let excludes ← ofExcept (parseGlobs o.config.excludes)
  let snapshot ← ofExcept (Snapshot.capture (← get).tree o.root o.config.layout excludes)
  let plan ← ofExcept (plan (← get).tree snapshot o.package o.renames)
  if o.isChatty then
    tell ("[>] Restructuring " ++ o.root.text ++ " under <" ++ o.package ++ "> ("
      ++ toString plan.length ++ " transformation(s))")
  let runner : Runner :=
    ⟨Python.analyzer, o.config.mode, o.config.searchPath.map Path.mk, o.catching⟩
  let operator? := if o.config.mode = .interactive then some Operator.unreachable else none
  let report := Report.ofRun (← carryOut runner operator? snapshot plan)
  if o.isChatty then tell (summary report plan.length)
  return report

structure Arguments where
  root : String
  package : String
  renames : List String
  excludes : List String
  mode : Option FailureMode
  verbose : Bool
  quiet : Bool
  dontCatch : Bool
  searchPath : List String
  json : Bool
  config : Option String
  deriving DecidableEq, Repr

def interface : Interface where
  positional := [.single "repo_root" .path]
  options := [
    .single "prefix" .text,
    ⟨"rename-external", none, 3, .text, true⟩,
    ⟨"exclude-glob", some 'e', 1, .text, true⟩,
    .single "mode" .mode,
    .flag "verbose" (some 'v'),
    .flag "quiet" (some 'q'),
    .flag "dont-catch" none,
    ⟨"search-path", none, 1, .path, true⟩,
    .flag "json" none,
    .single "config" .path]
  required := ["repo_root", "prefix"]
  conflicts := [("verbose", "quiet")]

def Arguments.ofFound (f : Found) : Arguments where
  root := (f.values "repo_root").headD ""
  package := (f.values "prefix").headD ""
  renames := f.values "rename-external"
  excludes := f.values "exclude-glob"
  mode := (f.values "mode").head?.bind FailureMode.ofText?
  verbose := f.has "verbose"
  quiet := f.has "quiet"
  dontCatch := f.has "dont-catch"
  searchPath := f.values "search-path"
  json := f.has "json"
  config := (f.values "config").head?

def Arguments.read (args : List String) : Except UsageError Arguments :=
  (interface.read args).map .ofFound

namespace Arguments

def verbosity (a : Arguments) : Verbosity :=
  .ofFlags a.verbose a.quiet

def options (a : Arguments) (config : Config) : Options where
  root := ⟨a.root⟩
  package := a.package
  renames := RenameRequest.ofFlat a.renames
  config := config.merge a.mode a.excludes a.searchPath
  verbosity := a.verbosity
  catching := !a.dontCatch
  machineOutput := a.json

def complaint (a : Arguments) (e : Error) : String :=
  match a.verbosity with
  | .quiet => ""
  | .normal => "[X] " ++ e.message ++ "\n"
  | .verbose => "[X] " ++ e.message ++ "\n" ++ e.detail ++ "\n"

def output (a : Arguments) (o : Options) (r : Report) : String :=
  if a.json then r.json.pretty 0 ++ "\n"
  else
    let text := r.text false a.verbosity (o.config.mode == .interactive)
    if text.isEmpty then "" else text ++ "\n"

end Arguments

def command (args : List String) (user : Option Path) (t : FileTree) : Finish :=
  match Arguments.read args with
  | .error e => refused e "prefix-modules" t
  | .ok a =>
    match Config.discover t (a.config.map Path.mk) ⟨a.root⟩ user with
    | .error e => ⟨1, "", failureText "Failed to load configuration" e, ⟨t, "", []⟩⟩
    | .ok config =>
      let o := a.options config
      match run o ⟨t, "", []⟩ with
      | .ok r c => ⟨r.exitCode, a.output o r, c.told, c⟩
      | .error e c =>
        let last := if a.dontCatch then failureText "Transformation failed" e else a.complaint e
        ⟨1, "", c.told ++ last, c⟩

def places (args : List String) (user : Option Path) (t : FileTree) : List Path :=
  match Arguments.read args with
  | .error _ => []
  | .ok a =>
    let settings := (a.config.map Path.mk).toList ++ user.toList
    match Config.discover t (a.config.map Path.mk) ⟨a.root⟩ user with
    | .error _ => ⟨a.root⟩ :: settings
    | .ok config => ⟨a.root⟩ :: settings ++ (a.options config).config.searchPath.map Path.mk

end Reroot.Command.Restructure
