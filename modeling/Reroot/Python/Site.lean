import Reroot.Python.Parse
import Reroot.Text.Basic

namespace Reroot.Python

abbrev Address := List Nat

structure Site where
  node : Node
  address : Address
  above : List Node
  deriving DecidableEq

namespace Site

def root (n : Node) : Site :=
  ⟨n, [], []⟩

def kind (s : Site) : Kind :=
  s.node.kind

def child (s : Site) (i : Nat) (n : Node) : Site :=
  ⟨n, i :: s.address, s.node :: s.above⟩

def part? (s : Site) (r : Role) : Option Site :=
  match s.node.children.zipIdx.find? (fun p => p.1.role == some r) with
  | some (n, i) => some (s.child i n)
  | none => none

def parts (s : Site) (r : Role) : List Site :=
  (s.node.children.zipIdx.filter fun p => p.1.role == some r).map fun p => s.child p.2 p.1

def namedChildren (s : Site) : List Site :=
  (s.node.children.zipIdx.filter fun p => p.1.isNamed).map fun p => s.child p.2 p.1

def climb : Address → List Node → List Site
  | _ :: address, n :: above => ⟨n, address, above⟩ :: climb address above
  | _, _ => []

def ancestors (s : Site) : List Site :=
  climb s.address s.above

def ancestorsBelow (s : Site) (container : Address) : List Site :=
  s.ancestors.takeWhile fun a => a.address != container

def parent? (s : Site) : Option Site :=
  s.ancestors.head?

def isPart (s : Site) (r : Role) : Bool :=
  match s.address, s.above with
  | i :: _, p :: _ => p.children.findIdx? (fun c => c.role == some r) == some i
  | _, _ => false

def previous? (s : Site) : Option Node :=
  match s.address, s.above with
  | (i + 1) :: _, p :: _ => p.children[i]?
  | _, _ => none

end Site

def Node.text (n : Node) (source : List Char) : String :=
  String.ofList (Text.between n.start n.stop source)

def Node.line (n : Node) (source : List Char) : Nat :=
  Text.lineAt n.start source

def Node.segments (n : Node) (source : List Char) : List String :=
  if n.kind == .identifier then [n.text source]
  else (n.namedChildren.filter (·.kind == .identifier)).map (·.text source)

end Reroot.Python
