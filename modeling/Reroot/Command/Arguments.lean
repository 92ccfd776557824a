import Reroot.Run.Outcome

namespace Reroot.Command

inductive UsageError where
  | missingRequired
  | unknownArgument
  | invalidValue
  | conflict
  | wrongNumberOfValues
  | tooManyValues
  | helpAsked
  | versionAsked
  deriving DecidableEq, Repr

inductive ValueKind where
  | text
  | path
  | mode
  deriving DecidableEq, Repr

def ValueKind.accepts : ValueKind → String → Bool
  | .text, _ => true
  | .path, s => !s.isEmpty
  | .mode, s => (FailureMode.ofText? s).isSome

structure Argument where
  name : String
  letter : Option Char
  values : Nat
  kind : ValueKind
  repeatable : Bool
  deriving DecidableEq, Repr

namespace Argument

def flag (name : String) (letter : Option Char) : Argument :=
  ⟨name, letter, 0, .text, false⟩

def single (name : String) (kind : ValueKind) : Argument :=
  ⟨name, none, 1, kind, false⟩

def help : Argument := flag "help" (some 'h')

def version : Argument := flag "version" (some 'V')

end Argument

structure Interface where
  positional : List Argument
  options : List Argument
  required : List String
  conflicts : List (String × String)

abbrev Found := List (String × List String)

namespace Found

def has (f : Found) (name : String) : Bool :=
  f.any fun a => a.1 == name

def values (f : Found) (name : String) : List String :=
  (f.filter fun a => a.1 == name).flatMap (·.2)

end Found

structure Progress where
  found : Found
  pending : Option (Argument × List String)
  isOpen : Bool
  positional : List Argument
  trailing : Bool

namespace Progress

def accept (p : Progress) (a : Argument) (vs : List String) : Except UsageError Progress :=
  if a.values ≠ 0 && vs.isEmpty then .error .invalidValue
  else if vs.length ≠ a.values then .error .wrongNumberOfValues
  else if a = .help then .error .helpAsked
  else if a = .version then .error .versionAsked
  else if !a.repeatable && p.found.has a.name then .error .conflict
  else if !vs.all a.kind.accepts then .error .invalidValue
  else .ok { p with found := p.found ++ [(a.name, vs)], pending := none, isOpen := false }

def settle (p : Progress) : Except UsageError Progress :=
  match p.pending with
  | none => .ok p
  | some (a, vs) => p.accept a vs

def complete (p : Progress) (a : Argument) (vs : List String) : Except UsageError Progress :=
  p.settle.bind fun p => p.accept a vs

def begin (p : Progress) (a : Argument) (vs : List String) : Except UsageError Progress :=
  p.settle.map fun p => { p with pending := some (a, vs), isOpen := vs.length < a.values }

def splitLong (cs : List Char) : String × Option String :=
  let name := String.ofList (cs.takeWhile (· != '='))
  match cs.dropWhile (· != '=') with
  | [] => (name, none)
  | _ :: value => (name, some (String.ofList value))

def long (options : List Argument) (p : Progress) (cs : List Char) :
    Except UsageError Progress :=
  let (name, value?) := splitLong cs
  match options.find? fun a => a.name == name with
  | none => .error .unknownArgument
  | some a =>
    match value? with
    | none => if a.values = 0 then p.complete a [] else p.begin a []
    | some v => if a.values = 0 then .error .tooManyValues else p.complete a [v]

def letters (options : List Argument) (p : Progress) : List Char → Except UsageError Progress
  | [] => .ok p
  | c :: cs =>
    match options.find? fun a => a.letter == some c with
    | none => .error .unknownArgument
    | some a =>
      if a.values = 0 then (p.complete a []).bind fun p => letters options p cs
      else
        match cs with
        | [] => p.begin a []
        | '=' :: v => p.complete a [String.ofList v]
        | v => p.complete a [String.ofList v]

def byPosition (p : Progress) (word : String) : Except UsageError Progress :=
  match p.positional with
  | [] => .error .unknownArgument
  | a :: as => (p.begin a [word]).map fun p => { p with positional := as }

def plain (p : Progress) (word : String) : Except UsageError Progress :=
  match p.isOpen, p.pending with
  | true, some (a, vs) =>
    .ok { p with pending := some (a, vs ++ [word]), isOpen := vs.length + 1 < a.values }
  | _, _ => p.byPosition word

def word (options : List Argument) (p : Progress) (w : String) : Except UsageError Progress :=
  if p.trailing then p.byPosition w
  else
    match w.toList with
    | ['-', '-'] => .ok { p with trailing := true }
    | '-' :: '-' :: cs => long options p cs
    | ['-'] => p.plain w
    | '-' :: cs => letters options p cs
    | _ => p.plain w

def words (options : List Argument) : List String → Progress → Except UsageError Progress
  | [], p => p.settle
  | w :: ws, p => (word options p w).bind (words options ws)

end Progress

def Interface.read (i : Interface) (args : List String) : Except UsageError Found :=
  match Progress.words (i.options ++ [.help, .version]) args ⟨[], none, false, i.positional, false⟩
  with
  | .error e => .error e
  | .ok p =>
    if i.conflicts.any fun c => p.found.has c.1 && p.found.has c.2 then .error .conflict
    else if i.required.all p.found.has then .ok p.found
    else .error .missingRequired

end Reroot.Command
