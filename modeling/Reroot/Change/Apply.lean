import Reroot.Change.Basic

namespace Reroot

abbrev TreeM := EStateM Error FileTree

namespace TreeM

def ofFile {α : Type} (x : FileM α) : TreeM α := fun t =>
  match x t with
  | .ok a t' => .ok a t'
  | .error e t' => .error (.io e) t'

def ofExcept {α : Type} : Except Error α → TreeM α
  | .ok a => pure a
  | .error e => throw e

end TreeM

namespace Change

def check (t : FileTree) (root : Path) : Change → Except Error Unit
  | create path content =>
    if t.isPresent (root.join path) then
      match t.readText (root.join path) with
      | .error e => .error (.io e)
      | .ok text => if text = content then .ok () else .error (.apply (.differs path))
    else .ok ()
  | edit path _ expected _ =>
    match t.readText (root.join path) with
    | .error e => .error (.apply (.unreadable path e))
    | .ok text => if text = expected then .ok () else .error (.apply (.modified path))
  | move source target =>
    if !t.isPresent (root.join source) then .error (.apply (.sourceAbsent source))
    else if t.isPresent (root.join target) then .error (.apply (.targetPresent target))
    else .ok ()

def checkAll (t : FileTree) (root : Path) : List Change → Except Error Unit
  | [] => .ok ()
  | c :: cs =>
    match c.check t root with
    | .ok () => checkAll t root cs
    | .error e => .error e

def makeParents (p : Path) : FileM Unit :=
  match p.parent? with
  | some parent => FileTree.makeDirs parent
  | none => pure ()

def perform (root : Path) : Change → FileM Nat
  | create path content => do
    if (← get).isPresent (root.join path) then return 0
    makeParents (root.join path)
    FileTree.writeText (root.join path) content
    return 1
  | edit path _ _ updated => do
    FileTree.writeText (root.join path) updated
    return 1
  | move source target => do
    makeParents (root.join target)
    FileTree.rename (root.join source) (root.join target)
    return 1

def performAll (root : Path) : List Change → FileM Nat
  | [] => pure 0
  | c :: cs => do
    let n ← c.perform root
    return n + (← performAll root cs)

def made (root : Path) : List Change → FileTree → List Change
  | [], _ => []
  | c :: cs, t =>
    match c.perform root t with
    | .error _ _ => []
    | .ok 0 t' => made root cs t'
    | .ok _ t' => c :: made root cs t'

def below (root : Path) : Change → Change
  | create path content => create (root.join path) content
  | edit path n expected updated => edit (root.join path) n expected updated
  | move source target => move (root.join source) (root.join target)

end Change

namespace ChangeSet

def ordered (cs : ChangeSet) : List Change :=
  cs.changes.filter Change.isCreate ++ cs.changes.filter Change.isEdit
    ++ cs.changes.filter Change.isMove

def apply (root : Path) (cs : ChangeSet) : TreeM Nat := do
  TreeM.ofExcept (Change.checkAll (← get) root cs.changes)
  TreeM.ofFile (Change.performAll root cs.ordered)

def made (root : Path) (cs : ChangeSet) (t : FileTree) : List Change :=
  match Change.checkAll t root cs.changes with
  | .error _ => []
  | .ok () => Change.made root cs.ordered t

end ChangeSet

end Reroot
