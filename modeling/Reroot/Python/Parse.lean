import Reroot.Python.Grammar

namespace Reroot.Python

mutual

def Node.weave : Node → List Node → Node
  | .mk r k s cs, extras => .mk r k s (weaveAll cs extras)

def weaveAll : List Node → List Node → List Node
  | [], extras => extras
  | c :: cs, extras =>
    extras.takeWhile (fun e => e.start < c.start)
      ++ c.weave ((extras.dropWhile fun e => e.start < c.start).takeWhile fun e => e.start < c.stop)
      :: weaveAll cs (extras.dropWhile fun e => e.start < c.stop)

end

def readingFuel (length : Nat) : Nat :=
  2000 + 400 * length

def parse? (source : String) : Option Node :=
  let text := source.toList
  let fuel := readingFuel text.length
  match (Gram.call Rule.module).read Rule.phrase fuel .token [] (.ofText text) with
  | some ([root], c) =>
    some (.mk root.role root.kind ⟨0, Text.byteWidth text⟩ (weaveAll root.children c.extras.reverse))
  | _ => none

end Reroot.Python
