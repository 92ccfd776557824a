import Reroot.Run.Outcome

namespace Reroot

inductive Decision where
  | apply
  | skip
  | quit
  deriving DecidableEq, Repr

inductive ErrorDecision where
  | retry
  | verbose
  | next
  | quit
  deriving DecidableEq, Repr

structure Operator where
  decisions : List Decision
  errorDecisions : List ErrorDecision
  whileDeciding : List (FileTree → FileTree)
  whileFailing : List (FileTree → FileTree)
  atEnd : Option Error

namespace Operator

def scripted (decisions : List Decision) (errorDecisions : List ErrorDecision) : Operator :=
  ⟨decisions, errorDecisions, [], [], none⟩

def unreachable : Operator :=
  ⟨[], [], [], [], some (.io .noTerminal)⟩

def decision (o : Operator) : Except Error Decision :=
  match o.decisions, o.atEnd with
  | d :: _, _ => .ok d
  | [], none => .ok .quit
  | [], some e => .error e

def afterDecision (o : Operator) : Operator :=
  { o with decisions := o.decisions.tail, whileDeciding := o.whileDeciding.tail }

def errorDecision (o : Operator) : Except Error ErrorDecision :=
  match o.errorDecisions, o.atEnd with
  | d :: _, _ => .ok d
  | [], none => .ok .quit
  | [], some e => .error e

def afterErrorDecision (o : Operator) : Operator :=
  { o with errorDecisions := o.errorDecisions.tail, whileFailing := o.whileFailing.tail }

end Operator

end Reroot
