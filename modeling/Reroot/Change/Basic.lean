import Reroot.Error

namespace Reroot

inductive Change where
  | create (path : Path) (content : String)
  | edit (path : Path) (replacements : Nat) (expected updated : String)
  | move (source target : Path)
  deriving DecidableEq, Repr

structure ChangeSet where
  description : String
  changes : List Change
  deriving DecidableEq, Repr

namespace Change

def isCreate : Change → Bool
  | create .. => true
  | _ => false

def isEdit : Change → Bool
  | edit .. => true
  | _ => false

def isMove : Change → Bool
  | move .. => true
  | _ => false

def summary : Change → String
  | create path _ => "create " ++ path.slashed
  | edit path n _ _ => "edit " ++ path.slashed ++ " (" ++ toString n ++ " replacement(s))"
  | move source target => "move " ++ source.slashed ++ " -> " ++ target.slashed

def pairs : Nat → List String → List String → String
  | n, a :: as, b :: bs =>
    let number := Text.padLeft 4 (toString n)
    (if a = b then ""
      else "\n    " ++ number ++ " - " ++ a ++ "\n    " ++ number ++ " + " ++ b)
      ++ pairs (n + 1) as bs
  | _, _, _ => ""

def lineDiff (before after : String) : String :=
  let old := Text.lines before
  let new := Text.lines after
  if old.length = new.length then pairs 1 old new
  else
    "\n      (" ++ toString old.length ++ " lines -> " ++ toString new.length ++ " lines)"

def render : Change → String
  | c@(edit _ _ expected updated) => "\n  " ++ c.summary ++ lineDiff expected updated
  | c => "\n  " ++ c.summary

end Change

def ChangeSet.render (cs : ChangeSet) : String :=
  cs.description ++ String.join (cs.changes.map Change.render)

end Reroot
