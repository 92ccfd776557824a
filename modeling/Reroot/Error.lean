import Reroot.Name
import Reroot.Glob
import Reroot.Files.Tree
import Reroot.Json.Fault
import Reroot.Text.Quoted
import Reroot.Python.Rename

namespace Reroot

inductive PlanningFault where
  | notTopLevel (path : Path)
  | ownPackage (name destination : String)
  | absent (name : String) (path : Path)
  | occupied (target : Path)
  | rename (path : String) (cause : Python.RenameError)
  | stated (text : String)
  deriving DecidableEq, Repr

def PlanningFault.message : PlanningFault → String
  | .notTopLevel path => path.text ++ " is not a top-level module"
  | .ownPackage name destination =>
    "cannot move <" ++ name ++ "> into its own package <" ++ destination ++ ">"
  | .absent name path => "module <" ++ name ++ "> not found at " ++ path.text
  | .occupied target => "destination " ++ target.text ++ " already exists"
  | .rename path cause => path ++ ": " ++ cause.message
  | .stated text => text

inductive ApplyFault where
  | differs (path : Path)
  | unreadable (path : Path) (cause : IoError)
  | modified (path : Path)
  | sourceAbsent (path : Path)
  | targetPresent (path : Path)
  | stated (text : String)
  deriving DecidableEq, Repr

def ApplyFault.message : ApplyFault → String
  | .differs path => path.slashed ++ " already exists with different content"
  | .unreadable path cause => "cannot read " ++ path.slashed ++ ": " ++ cause.message
  | .modified path => path.slashed ++ " was modified after the change was planned"
  | .sourceAbsent path => "move source " ++ path.slashed ++ " does not exist"
  | .targetPresent path => "move target " ++ path.slashed ++ " already exists"
  | .stated text => text

inductive CheckFault where
  | duplicates (groups : List (String × List Path))
  | unresolved (names : List String)
  | stated (text : String)
  deriving DecidableEq, Repr

def CheckFault.message : CheckFault → String
  | .duplicates groups =>
    "duplicate module identifiers: "
      ++ String.intercalate "; " (groups.map fun g =>
        g.1 ++ " (" ++ String.intercalate ", " (g.2.map Path.text) ++ ")")
  | .unresolved names =>
    "unresolved import(s) after applying: " ++ String.intercalate ", " names
  | .stated text => text

inductive BreachFault where
  | stillThere (path : Path) (name : String)
  | stated (text : String)
  deriving DecidableEq, Repr

def BreachFault.message : BreachFault → String
  | .stillThere path name => path.text ++ " still exists after moving module <" ++ name ++ ">"
  | .stated text => text

inductive ConfigFault where
  | noOperator
  | unreadable (path : Path)
  | stated (text : String)
  deriving DecidableEq, Repr

def ConfigFault.message : ConfigFault → String
  | .noOperator => "interactive mode requires an operator"
  | .unreadable path => path.text ++ ": not a document of settings"
  | .stated text => text

inductive ParseFault where
  | unreadable (cause : IoError)
  | stated (text : String)
  deriving DecidableEq, Repr

def ParseFault.message : ParseFault → String
  | .unreadable cause => "IO error: " ++ cause.message
  | .stated text => text

inductive Error where
  | planning (fault : PlanningFault)
  | apply (fault : ApplyFault)
  | validation (fault : CheckFault)
  | breach (fault : BreachFault)
  | userAbort (remaining : Nat)
  | config (fault : ConfigFault)
  | invalidName (fault : NameError)
  | parse (path : String) (fault : ParseFault)
  | glob (pattern : String) (fault : Glob.Fault)
  | io (cause : IoError)
  | json (fault : Json.Fault)
  deriving DecidableEq, Repr

inductive ErrorKind where
  | planning | apply | validation | userAbort | other
  deriving DecidableEq, Repr

def ErrorKind.text : ErrorKind → String
  | .planning => "PlanningError"
  | .apply => "ApplyError"
  | .validation => "ValidationError"
  | .userAbort => "UserAbort"
  | .other => "Error"

namespace Error

def kind : Error → ErrorKind
  | planning _ | invalidName _ | parse .. => .planning
  | apply _ | io _ => .apply
  | validation _ | breach _ => .validation
  | userAbort _ => .userAbort
  | config _ | glob .. | json _ => .other

def message : Error → String
  | planning f => "Planning failed: " ++ f.message
  | apply f => "Apply failed: " ++ f.message
  | validation f => "Validation failed: " ++ f.message
  | breach f => "Invariant breach: " ++ f.message
  | userAbort n => "User quit with " ++ toString n ++ " transformation(s) left unapplied"
  | config f => "Configuration error: " ++ f.message
  | invalidName f => "Invalid qualified name: " ++ f.message
  | parse path f => "Failed to parse " ++ path ++ ": " ++ f.message
  | glob pattern f => "Invalid glob pattern '" ++ pattern ++ "': " ++ f.message
  | io cause => "IO error: " ++ cause.message
  | json f => "JSON serialization/deserialization error: " ++ f.message

def record (name : String) (fields : List (String × String)) : String :=
  name ++ " \x7b " ++ String.intercalate ", " (fields.map fun f => f.1 ++ ": " ++ f.2) ++ " \x7d"

def ioRecord : IoError → String
  | .os cause =>
    record "Os" [("code", toString cause.code), ("kind", cause.className),
      ("message", Text.quoted cause.text)]
  | .notText =>
    record "Error" [("kind", "InvalidData"), ("message", Text.quoted IoError.notText.message)]
  | .noTerminal =>
    record "Custom" [("kind", "Other"),
      ("error", "IO(" ++ record "Custom" [("kind", "NotConnected"),
        ("error", Text.quoted "not a terminal")] ++ ")")]
  | .stated text => record "Custom" [("kind", "Other"), ("error", Text.quoted text)]

def term : Error → String
  | planning f => "Planning(" ++ Text.quoted f.message ++ ")"
  | apply f => "Apply(" ++ Text.quoted f.message ++ ")"
  | validation f => "Validation(" ++ Text.quoted f.message ++ ")"
  | breach f => "InvariantBreach(" ++ Text.quoted f.message ++ ")"
  | userAbort n => record "UserAbort" [("remaining", toString n)]
  | config f => "Config(" ++ Text.quoted f.message ++ ")"
  | invalidName f => "InvalidName(" ++ Text.quoted f.message ++ ")"
  | parse path f =>
    record "Parse" [("path", Text.quoted path), ("message", Text.quoted f.message)]
  | glob pattern f =>
    record "Glob" [("pattern", Text.quoted pattern), ("message", Text.quoted f.message)]
  | io cause => "Io(" ++ ioRecord cause ++ ")"
  | json f =>
    "Json(Error(" ++ Text.quoted f.flaw.message ++ ", line: " ++ toString f.line ++ ", column: "
      ++ toString f.column ++ "))"

def causes : Error → List String
  | io .noTerminal => [IoError.noTerminal.message, "not a terminal"]
  | io cause => [cause.message]
  | json f => [f.message]
  | _ => []

def detail (e : Error) : String :=
  e.term ++ String.join (e.causes.map fun c => "\n  caused by: " ++ c)

end Error

end Reroot
