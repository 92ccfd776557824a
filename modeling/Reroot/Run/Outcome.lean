import Reroot.Plan

namespace Reroot

inductive FailureMode where
  | firstError
  | keepGoing
  | interactive
  deriving DecidableEq, Repr

namespace FailureMode

def text : FailureMode → String
  | firstError => "first-error"
  | keepGoing => "keep-going"
  | interactive => "interactive"

def ofText? (s : String) : Option FailureMode :=
  [firstError, keepGoing, interactive].find? fun m => m.text == s

end FailureMode

inductive Onward where
  | next
  | quit
  deriving DecidableEq, Repr

inductive Stage where
  | rejected
  | fatal
  deriving DecidableEq, Repr

inductive Outcome where
  | applied (description : String)
  | skipped (description : String)
  | quit (description : String)
  | failed (description : String) (stage : Stage) (error : Error) (onward : Onward)
  deriving DecidableEq, Repr

namespace Outcome

def description : Outcome → String
  | applied d => d
  | skipped d => d
  | quit d => d
  | failed d _ _ _ => d

def onward : Outcome → Onward
  | applied _ => .next
  | skipped _ => .next
  | quit _ => .quit
  | failed _ _ _ o => o

def error? : Outcome → Option Error
  | failed _ _ e _ => some e
  | _ => none

def isApplied : Outcome → Bool
  | applied _ => true
  | _ => false

def isSkipped : Outcome → Bool
  | skipped _ => true
  | _ => false

def isFailed (o : Outcome) : Bool :=
  o.error?.isSome

def stateName : Outcome → String
  | applied _ => "applied"
  | skipped _ => "skipped"
  | quit _ => "awaiting_decision"
  | failed _ .rejected _ _ => "rejected"
  | failed _ .fatal _ _ => "fatal"

end Outcome

end Reroot
