import Reroot.Command.Restructure
import Reroot.Command.RenameImports

namespace Reroot.Main

partial def load (d : IO.FS.DirEntry) : IO Entry := do
  match (← d.path.symlinkMetadata).type with
  | .dir =>
    let mut entries : Entry.Listing := []
    for e in ← d.path.readDir do
      entries := Entry.insert e.fileName (← load e) entries
    return .dir entries
  | .symlink => return .link (← IO.FS.realPath d.path).toString
  | _ => return .file (← IO.FS.readBinFile d.path)

def namesOf (workdir : List String) (p : Path) : List String :=
  p.pieces.foldl (fun names s =>
    if s = "." then names else if s = ".." then names.dropLast else names ++ [s])
    (if p.isAbsolute then [] else workdir)

def loadInto (t : FileTree) (p : Path) : IO FileTree := do
  let names := namesOf t.workdir p
  try
    let entry ← load ⟨"/" ++ String.intercalate "/" names.dropLast, names.getLastD "."⟩
    return t.setTop (t.top.put names entry)
  catch _ => return t

def perform : Change → IO Unit
  | .create path content => do
    if let some parent := path.parent? then IO.FS.createDirAll parent.text
    IO.FS.writeFile path.text content
  | .edit path _ _ updated => IO.FS.writeFile path.text updated
  | .move source target => do
    if let some parent := target.parent? then IO.FS.createDirAll parent.text
    IO.FS.rename source.text target.text

def userSettings : IO (Option Path) := do
  let base? ← match ← IO.getEnv "XDG_CONFIG_HOME" with
    | some dir => pure (some (Path.mk dir))
    | none => pure ((← IO.getEnv "HOME").map fun dir => (Path.mk dir).join ⟨".config"⟩)
  return base?.map fun base => base.join ⟨"prefix-modules/config.toml"⟩

end Reroot.Main

open Reroot Reroot.Main Reroot.Command in
def main (args : List String) : IO UInt32 := do
  let user ← userSettings
  let workdir := (Reroot.Path.mk (← IO.currentDir).toString).pieces
  let empty : FileTree := ⟨.dir [], workdir⟩
  let finish ←
    if (← IO.appPath).fileName == some "python-import-rewrite" then do
      let t ← (RenameImports.places args).foldlM loadInto empty
      pure (RenameImports.command args t)
    else do
      let t ← (Restructure.places args user empty).foldlM loadInto empty
      let t ← (Restructure.places args user t).foldlM loadInto empty
      pure (Restructure.command args user t)
  finish.console.made.forM perform
  IO.print finish.output
  IO.eprint finish.messages
  return finish.exitCode.toUInt32
