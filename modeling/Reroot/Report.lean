import Reroot.Json.Print
import Reroot.Run.Basic

namespace Reroot

inductive Verbosity where
  | quiet
  | normal
  | verbose
  deriving DecidableEq, Repr

def Verbosity.ofFlags (verbose quiet : Bool) : Verbosity :=
  if quiet then .quiet else if verbose then .verbose else .normal

structure Failure where
  description : String
  kind : ErrorKind
  error : String
  detail : String
  deriving DecidableEq, Repr

structure Report where
  successes : List String
  failures : List Failure
  skipped : List String
  aborted : Option Nat
  deriving DecidableEq, Repr

inductive Ink where
  | bold
  | red
  | green
  | yellow
  deriving DecidableEq, Repr

def Ink.code : Ink → String
  | .bold => "1"
  | .red => "31"
  | .green => "32"
  | .yellow => "33"

def Ink.paint (colored : Bool) (ink : Ink) (text : String) : String :=
  if colored then "\x1b[" ++ ink.code ++ "m" ++ text ++ "\x1b[0m" else text

def Outcome.failure? (o : Outcome) : Option Failure :=
  o.error?.map fun e => ⟨o.description, e.kind, e.message, e.detail⟩

namespace Report

def ofOutcomes (outcomes : List Outcome) (aborted : Option Nat) : Report where
  successes := (outcomes.filter Outcome.isApplied).map Outcome.description
  failures := outcomes.filterMap Outcome.failure?
  skipped := (outcomes.filter Outcome.isSkipped).map Outcome.description
  aborted := aborted

def ofRun (r : Run) : Report :=
  ofOutcomes r.outcomes r.aborted

def exitCode (r : Report) : Nat :=
  if r.aborted.isSome || r.failures.isEmpty then 0 else 1

def validationFailures (r : Report) : Nat :=
  (r.failures.filter fun f => f.kind == .validation).length

def successLines (colored : Bool) (description : String) : List String :=
  [Ink.green.paint colored "Successfully applied the patch:", "    " ++ description]

def failureLines (colored : Bool) (v : Verbosity) (f : Failure) : List String :=
  [Ink.red.paint colored "Failed to apply the patch:", "    " ++ f.description,
    "The error was: (" ++ f.kind.text ++ ") " ++ if v = .verbose then f.detail else f.error]

def patchLines (r : Report) (colored : Bool) (v : Verbosity) (interactive : Bool) : List String :=
  if interactive then []
  else r.successes.flatMap (successLines colored) ++ r.failures.flatMap (failureLines colored v)

def totalLines (r : Report) (colored : Bool) : List String :=
  if r.failures.isEmpty then []
  else
    ("Observed the total of " ++ Ink.bold.paint colored (toString r.failures.length) ++ " failures")
      :: if r.validationFailures = 0 then []
        else [Ink.yellow.paint colored "[!]" ++ " " ++ toString r.validationFailures
          ++ " of them left the tree inconsistent"]

def abortLines (r : Report) (colored : Bool) : List String :=
  match r.aborted with
  | none => []
  | some n => [Ink.yellow.paint colored "[!]" ++ " " ++ (Error.userAbort n).message]

def text (r : Report) (colored : Bool) (v : Verbosity) (interactive : Bool) : String :=
  if v = .quiet then ""
  else
    String.intercalate "\n"
      (r.patchLines colored v interactive ++ r.totalLines colored ++ r.abortLines colored)

def failureJson (f : Failure) : Json.Value :=
  .record [("description", .text f.description), ("kind", .text f.kind.text),
    ("error", .text f.error)]

def json (r : Report) : Json.Value :=
  .record ([("successes", .list (r.successes.map .text)),
      ("failures", .list (r.failures.map failureJson)),
      ("skipped", .list (r.skipped.map .text))]
    ++ (r.aborted.toList.map fun n => ("aborted", .number n))
    ++ [("exit_code", .number r.exitCode)])

end Report

end Reroot
