import Reroot.Path

/-!
File trees as values: directories of named entries, in the order of their names, down to files and
symbolic links.
-/

namespace Reroot

inductive Entry where
  | file (bytes : ByteArray)
  | link (target : String)
  | dir (entries : List (String × Entry))

namespace Entry

abbrev Listing := List (String × Entry)

def find? (name : String) (es : Listing) : Option Entry :=
  (es.find? fun e => e.1 == name).map (·.2)

def insert (name : String) (x : Entry) : Listing → Listing
  | [] => [(name, x)]
  | e :: es =>
    if e.1 == name then (name, x) :: es
    else if name < e.1 then (name, x) :: e :: es
    else e :: insert name x es

def erase (name : String) (es : Listing) : Listing :=
  es.filter fun e => e.1 != name

def isDir : Entry → Bool
  | dir _ => true
  | _ => false

def isFile : Entry → Bool
  | file _ => true
  | _ => false

def at? : Entry → List String → Option Entry
  | e, [] => some e
  | dir es, n :: ns =>
    match find? n es with
    | some e => e.at? ns
    | none => none
  | _, _ :: _ => none

def put : Entry → List String → Entry → Entry
  | _, [], x => x
  | dir es, n :: ns, x => dir (insert n (((find? n es).getD (dir [])).put ns x) es)
  | e, _ :: _, _ => e

def remove : Entry → List String → Entry
  | e, [] => e
  | dir es, [n] => dir (erase n es)
  | dir es, n :: ns =>
    match find? n es with
    | some e => dir (insert n (e.remove ns) es)
    | none => dir es
  | e, _ :: _ => e

end Entry

inductive OsError where
  | notFound
  | alreadyExists
  | notDirectory
  | isDirectory
  | invalidArgument
  | nameTooLong
  | notEmpty
  | tooManyLinks
  | busy
  deriving DecidableEq, Repr

namespace OsError

def code : OsError → Nat
  | notFound => 2
  | busy => 16
  | alreadyExists => 17
  | notDirectory => 20
  | isDirectory => 21
  | invalidArgument => 22
  | nameTooLong => 36
  | notEmpty => 39
  | tooManyLinks => 40

def text : OsError → String
  | notFound => "No such file or directory"
  | busy => "Device or resource busy"
  | alreadyExists => "File exists"
  | notDirectory => "Not a directory"
  | isDirectory => "Is a directory"
  | invalidArgument => "Invalid argument"
  | nameTooLong => "File name too long"
  | notEmpty => "Directory not empty"
  | tooManyLinks => "Too many levels of symbolic links"

def className : OsError → String
  | notFound => "NotFound"
  | busy => "ResourceBusy"
  | alreadyExists => "AlreadyExists"
  | notDirectory => "NotADirectory"
  | isDirectory => "IsADirectory"
  | invalidArgument => "InvalidInput"
  | nameTooLong => "InvalidFilename"
  | notEmpty => "DirectoryNotEmpty"
  | tooManyLinks => "FilesystemLoop"

def message (e : OsError) : String :=
  e.text ++ " (os error " ++ toString e.code ++ ")"

end OsError

inductive IoError where
  | os (cause : OsError)
  | notText
  | noTerminal
  | stated (text : String)
  deriving DecidableEq, Repr

def IoError.message : IoError → String
  | .os cause => cause.message
  | .notText => "stream did not contain valid UTF-8"
  | .noTerminal => "IO error: not a terminal"
  | .stated text => text

structure FileTree where
  top : Entry
  workdir : List String

namespace FileTree

structure Place where
  names : List String
  entry : Option Entry

def steps (text : String) : List String :=
  if (Path.mk text).isSlashed then (Path.mk text).pieces ++ ["."] else (Path.mk text).pieces

/-- Follows the steps from a directory. Links on the way are handed to `onLink`; one at the end is
followed only if asked. -/
def resolveWith (top : Entry) (follow : Bool)
    (onLink : List String → List String → Except OsError Place) :
    List String → List String → Except OsError Place
  | here, [] => .ok ⟨here, top.at? here⟩
  | here, s :: rest =>
    match top.at? here with
    | none => .error .notFound
    | some (.file _) => .error .notDirectory
    | some (.link _) => .error .notDirectory
    | some (.dir es) =>
      if s == "." then resolveWith top follow onLink here rest
      else if s == ".." then resolveWith top follow onLink here.dropLast rest
      else if 255 < s.utf8ByteSize then .error .nameTooLong
      else
        match Entry.find? s es with
        | none => if rest.isEmpty then .ok ⟨here ++ [s], none⟩ else .error .notFound
        | some (.link target) =>
          if rest.isEmpty && !follow then .ok ⟨here ++ [s], some (.link target)⟩
          else
            onLink (if (Path.mk target).isAbsolute then [] else here) (steps target ++ rest)
        | some _ => resolveWith top follow onLink (here ++ [s]) rest

def resolveSteps (top : Entry) (follow : Bool) :
    Nat → List String → List String → Except OsError Place
  | 0 => resolveWith top follow fun _ _ => .error .tooManyLinks
  | n + 1 => resolveWith top follow (resolveSteps top follow n)

def resolve (t : FileTree) (p : Path) (follow : Bool) : Except OsError Place :=
  if p.text.isEmpty then .error .notFound
  else resolveSteps t.top follow 40 (if p.isAbsolute then [] else t.workdir) (steps p.text)

def entry? (t : FileTree) (p : Path) (follow : Bool) : Except OsError Entry :=
  match t.resolve p follow with
  | .ok ⟨_, some e⟩ => .ok e
  | .ok ⟨_, none⟩ => .error .notFound
  | .error e => .error e

def isPresent (t : FileTree) (p : Path) : Bool :=
  (t.entry? p true).toOption.isSome

def isFile (t : FileTree) (p : Path) : Bool :=
  (t.entry? p true).toOption.any Entry.isFile

def isDir (t : FileTree) (p : Path) : Bool :=
  (t.entry? p true).toOption.any Entry.isDir

def readText (t : FileTree) (p : Path) : Except IoError String :=
  match t.entry? p true with
  | .error e => .error (.os e)
  | .ok (.file bytes) =>
    match String.fromUTF8? bytes with
    | some s => .ok s
    | none => .error .notText
  | .ok _ => .error (.os .isDirectory)

end FileTree

abbrev FileM := EStateM IoError FileTree

namespace FileTree

def setTop (t : FileTree) (top : Entry) : FileTree :=
  { t with top := top }

def orThrow {α : Type} : Except OsError α → FileM α
  | .ok a => pure a
  | .error e => throw (.os e)

def writeBytes (p : Path) (bytes : ByteArray) : FileM Unit := do
  let t ← get
  let place ← orThrow (t.resolve p.bare !p.isSlashed)
  if p.isSlashed then throw (.os .isDirectory)
  match place.entry with
  | some (.dir _) => throw (.os .isDirectory)
  | _ => set (t.setTop (t.top.put place.names (.file bytes)))

def writeText (p : Path) (text : String) : FileM Unit :=
  writeBytes p text.toUTF8

def makeLink (p : Path) (target : String) : FileM Unit := do
  let t ← get
  let place ← orThrow (t.resolve p false)
  match place.entry with
  | some _ => throw (.os .alreadyExists)
  | none => set (t.setTop (t.top.put place.names (.link target)))

def removeAll (p : Path) : FileM Unit := do
  let t ← get
  let place ← orThrow (t.resolve p false)
  match place.entry with
  | some _ => set (t.setTop (t.top.remove place.names))
  | none => throw (.os .notFound)

def makeDir (p : Path) : FileM Unit := do
  let t ← get
  let place ← orThrow (t.resolve p.bare false)
  match place.entry with
  | some _ => throw (.os .alreadyExists)
  | none => set (t.setTop (t.top.put place.names (.dir [])))

def makeDirsLoop : Nat → Path → FileM Unit
  | 0, p => if p.text.isEmpty then pure () else makeDir p
  | fuel + 1, p => do
    if p.text.isEmpty then return
    let again (e : IoError) : FileM Unit := do
      if (← get).isDir p then pure () else throw e
    try makeDir p
    catch
      | .os .notFound =>
        match p.parent? with
        | some parent =>
          makeDirsLoop fuel parent
          try makeDir p catch e => again e
        | none => throw (.stated "failed to create whole tree")
      | e => again e

def makeDirs (p : Path) : FileM Unit :=
  makeDirsLoop p.parts.length p

def fits : Entry → Option Entry → Except OsError Unit
  | .dir _, some (.dir (_ :: _)) => .error .notEmpty
  | .dir _, some (.dir []) => .ok ()
  | .dir _, some _ => .error .notDirectory
  | _, some (.dir _) => .error .isDirectory
  | _, _ => .ok ()

def renamed (t : FileTree) (source target : Path) (a b : Place) : Except OsError FileTree :=
  if !source.isNamed || !target.isNamed then .error .busy
  else
    match a.entry with
    | none => .error .notFound
    | some e =>
      if !e.isDir && (source.isSlashed || target.isSlashed) then .error .notDirectory
      else if a.names = b.names then .ok t
      else if a.names.isPrefixOf b.names then .error .invalidArgument
      else if b.names.isPrefixOf a.names then .error .notEmpty
      else
        match fits e b.entry with
        | .error cause => .error cause
        | .ok () => .ok (t.setTop ((t.top.remove a.names).put b.names e))

def rename (source target : Path) : FileM Unit := do
  let t ← get
  let a ← orThrow (t.resolve source.bare false)
  let b ← orThrow (t.resolve target.bare false)
  set (← orThrow (t.renamed source target a b))

end FileTree

end Reroot
