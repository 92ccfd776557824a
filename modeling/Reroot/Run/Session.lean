import Reroot.Change.Apply
import Reroot.Run.Operator

namespace Reroot

inductive Event where
  | planning (transformation : Transformation) (tree : FileTree) (snapshot : Snapshot)
  | offered (changes : ChangeSet) (answer? : Option Decision)
  | writing (changes : ChangeSet) (tree : FileTree)
  | reported (description : String) (error : Error) (answer? : Option ErrorDecision)
  | detailed (text : String)

structure Session where
  tree : FileTree
  snapshot : Snapshot
  operator : Operator
  journal : List Event

abbrev SessionM := EStateM Error Session

namespace Session

def note (e : Event) (s : Session) : Session :=
  { s with journal := s.journal ++ [e] }

def confirm (changes : ChangeSet) : SessionM Decision := fun s =>
  let s' :=
    { s with
      tree := s.operator.whileDeciding.headD id s.tree
      operator := s.operator.afterDecision
      journal := s.journal ++ [.offered changes s.operator.decision.toOption] }
  match s.operator.decision with
  | .ok d => .ok d s'
  | .error e => .error e s'

def askOnce (description : String) (e : Error) : SessionM ErrorDecision := fun s =>
  let s' :=
    { s with
      tree := s.operator.whileFailing.headD id s.tree
      operator := s.operator.afterErrorDecision
      journal := s.journal ++ [.reported description e s.operator.errorDecision.toOption] }
  match s.operator.errorDecision with
  | .ok d => .ok d s'
  | .error e' => .error e' s'

inductive Settlement where
  | retry
  | onward (o : Onward)
  deriving DecidableEq, Repr

def settleLoop (description : String) (e : Error) : Nat → SessionM Settlement
  | 0, s => .ok (.onward .quit) s
  | n + 1, s =>
    match askOnce description e s with
    | .error e' s' => .error e' s'
    | .ok .retry s' => .ok .retry s'
    | .ok .next s' => .ok (.onward .next) s'
    | .ok .quit s' => .ok (.onward .quit) s'
    | .ok .verbose s' =>
      settleLoop description e n (s'.note (.detailed (description ++ "\n" ++ e.detail)))

def settle (description : String) (e : Error) : SessionM Settlement := fun s =>
  settleLoop description e (s.operator.errorDecisions.length + 1) s

def refresh : SessionM Unit := fun s =>
  match s.snapshot.refresh s.tree with
  | .ok snapshot => .ok () { s with snapshot := snapshot }
  | .error e => .error e s

def work {α : Type} (x : TreeM α) : SessionM (Except Error α) := fun s =>
  match x s.tree with
  | .ok a t => .ok (.ok a) { s with tree := t }
  | .error e t => .ok (.error e) { s with tree := t }

end Session

end Reroot
