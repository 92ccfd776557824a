import Reroot.Run.Outcome
import Reroot.Toml.Document
import Reroot.Toml.Printer

namespace Reroot

structure Config where
  mode : FailureMode
  excludes : List String
  layout : Layout
  searchPath : List String
  deriving DecidableEq, Repr

namespace Config

def standard : Config :=
  ⟨.firstError, [], .standard, []⟩

def projectFile : Path := ⟨".prefix-modules.toml"⟩

def text? : Toml.Item → Option String
  | .text s => some s
  | _ => none

def texts? : Toml.Item → Option (List String)
  | .array items => items.mapM text?
  | _ => none

def isEmptyItem : Toml.Item → Bool
  | .array [] => true
  | .tables [] => true
  | .table _ [] => true
  | _ => false

def mode? : Toml.Item → Option FailureMode
  | .text s => FailureMode.ofText? s
  | .table _ [(name, x)] => if isEmptyItem x then FailureMode.ofText? name else none
  | _ => none

def setting? {α : Type} (fields : Toml.Fields) (name : String) (standard : α)
    (read : Toml.Item → Option α) : Option α :=
  match Toml.Fields.get? fields name with
  | none => some standard
  | some x => read x

def ofFields? (fields : Toml.Fields) : Option Config := do
  let mode ← setting? fields "mode" standard.mode mode?
  let excludes ← setting? fields "exclude_globs" standard.excludes texts?
  let marker ← setting? fields "package_marker" standard.layout.marker text?
  let extension ← setting? fields "source_extension" standard.layout.extension text?
  let searchPath ← setting? fields "search_path" standard.searchPath texts?
  return ⟨mode, excludes, ⟨marker, extension⟩, searchPath⟩

def ofText? (text : String) : Option Config :=
  (Toml.Document.parse? text).bind ofFields?

def load (t : FileTree) (p : Path) : Except Error Config :=
  match t.readText p with
  | .error e => .error (.io e)
  | .ok text =>
    match ofText? text with
    | some c => .ok c
    | none => .error (.config (.unreadable p))

def discover (t : FileTree) (named : Option Path) (root : Path) (user : Option Path) :
    Except Error Config :=
  match named with
  | some p => load t p
  | none =>
    if t.isPresent (root.join projectFile) then load t (root.join projectFile)
    else
      match user with
      | some p => if t.isPresent p then load t p else .ok standard
      | none => .ok standard

def merge (c : Config) (mode : Option FailureMode) (excludes searchPath : List String) : Config :=
  { c with
    mode := mode.getD c.mode
    excludes := c.excludes ++ excludes
    searchPath := c.searchPath ++ searchPath }

def toToml (c : Config) : String :=
  String.join [
    "mode = ", Toml.Printer.quoted c.mode.text, "\n",
    "exclude_globs = ", Toml.Printer.list c.excludes, "\n",
    "package_marker = ", Toml.Printer.quoted c.layout.marker, "\n",
    "source_extension = ", Toml.Printer.quoted c.layout.extension, "\n",
    "search_path = ", Toml.Printer.list c.searchPath, "\n"]

end Config

end Reroot
