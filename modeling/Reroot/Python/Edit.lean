import Reroot.Python.Node
import Reroot.Text.Basic

namespace Reroot.Python

structure Edit where
  span : Span
  text : String
  deriving DecidableEq, Repr

namespace Edit

def apply (e : Edit) (text : List Char) : List Char :=
  Text.takeBytes e.span.start text ++ e.text.toList ++ Text.dropBytes e.span.stop text

def dropRepeats : List Edit → List Edit
  | [] => []
  | [e] => [e]
  | e :: f :: es => if e = f then dropRepeats (f :: es) else e :: dropRepeats (f :: es)

def overlap? : List Edit → Option (Edit × Edit)
  | e :: f :: es => if e.span.start < f.span.stop then some (f, e) else overlap? (f :: es)
  | _ => none

def ordered (es : List Edit) : List Edit :=
  dropRepeats (es.mergeSort fun a b => b.span.start ≤ a.span.start)

def splice (es : List Edit) (text : List Char) : Except (Edit × Edit) (List Char × Nat) :=
  let es := ordered es
  match overlap? es with
  | some pair => .error pair
  | none => .ok (es.foldl (fun text e => e.apply text) text, es.length)

end Edit

end Reroot.Python
