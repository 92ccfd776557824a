import Reroot.Command.Arguments
import Reroot.Report

namespace Reroot.Command

structure Console where
  tree : FileTree
  told : String
  made : List Change

abbrev ConsoleM := EStateM Error Console

def tell (line : String) : ConsoleM Unit :=
  modify fun c => { c with told := c.told ++ line ++ "\n" }

def ofExcept {α : Type} : Except Error α → ConsoleM α
  | .ok a => pure a
  | .error e => throw e

def shown : Event → String
  | .offered changes _ => "\n[>] Planned patch:\n" ++ changes.render ++ "\n"
  | .reported description e _ =>
    "\n[X] " ++ description ++ "\n    (" ++ e.kind.text ++ ") " ++ e.message ++ "\n"
  | .detailed text => text ++ "\n"
  | .planning .. => ""
  | .writing .. => ""

def made (root : Path) : Event → List Change
  | .writing changes t => (changes.made root t).map (Change.below root)
  | _ => []

def carryOut (r : Runner) (operator? : Option Operator) (s : Snapshot)
    (plan : List Transformation) : ConsoleM Run := fun c =>
  let after (session : Session) : Console :=
    { tree := session.tree
      told := c.told ++ String.join (session.journal.map shown)
      made := c.made ++ session.journal.flatMap (made s.root) }
  match r.run operator? c.tree s plan with
  | .ok run session => .ok run (after session)
  | .error e session => .error e (after session)

def parseGlobs (patterns : List String) : Except Error (List Glob) :=
  (Glob.parseAll patterns).mapError fun e => .glob e.1 e.2

structure Finish where
  exitCode : Nat
  output : String
  messages : String
  console : Console

def causeLines (number? : Option Nat) (cause : String) : String :=
  match Text.split '\n' cause, number? with
  | [], _ => ""
  | l :: ls, none => "    " ++ l ++ String.join (ls.map fun l => "\n    " ++ l)
  | l :: ls, some n =>
    Text.padLeft 5 (toString n) ++ ": " ++ l ++ String.join (ls.map fun l => "\n       " ++ l)

def failureText (tried : String) (e : Error) : String :=
  let causes :=
    match e.causes with
    | [] => [causeLines none e.message]
    | cs => (e.message :: cs).mapIdx fun n c => causeLines (some n) c
  "Error: " ++ tried ++ "\n\nCaused by:" ++ String.join (causes.map ("\n" ++ ·)) ++ "\n"

def refused (e : UsageError) (name : String) (t : FileTree) : Finish :=
  match e with
  | .helpAsked => ⟨0, "Usage: " ++ name ++ " [OPTIONS]\n", "", ⟨t, "", []⟩⟩
  | .versionAsked => ⟨0, name ++ " 0.2.0\n", "", ⟨t, "", []⟩⟩
  | _ => ⟨2, "", "error: see " ++ name ++ " --help\n", ⟨t, "", []⟩⟩

end Reroot.Command
