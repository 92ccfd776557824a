import Reroot.Name
import Reroot.Python.Scope
import Reroot.Python.Imports
import Reroot.Python.Edit

/-!
Renaming a module in one source text. The import statements that name the module are edited, and
every attribute chain that starts at a name bound by such an import where it is used. A use that
cannot be decided, or that another binding would capture after the renaming, is an error.
-/

namespace Reroot.Python

inductive RenameError where
  | unreadable
  | shadowed (root : String) (line : Nat) (atModule : Bool) (new : String)
  | captured (line : Nat) (root : String) (bound : Nat) (new : String)
  | dottedGlobal (line : Nat) (old new : String)
  | enclosingRebound (line : Nat) (root : String)
  | undecided (line : Nat) (root : String)
  | overlapping (first second : Span)
  deriving DecidableEq, Repr

namespace RenameError

def message : RenameError → String
  | unreadable => "syntax error"
  | shadowed root line atModule new =>
    "'" ++ root ++ "' is already bound at line " ++ toString line ++ " in "
      ++ (if atModule then "module scope" else "a local scope")
      ++ "; renaming to '" ++ new ++ "' would shadow it"
  | captured line root bound new =>
    "line " ++ toString line ++ ": '" ++ root ++ "' would resolve to the name bound at line "
      ++ toString bound ++ " instead of the module '" ++ new ++ "'"
  | dottedGlobal line old new =>
    "line " ++ toString line ++ ": '" ++ old ++ "' is rebound through a global declaration"
      ++ " and cannot become the dotted name '" ++ new ++ "'"
  | enclosingRebound line root =>
    "line " ++ toString line ++ ": '" ++ root ++ "' is both imported and rebound in an enclosing"
      ++ " scope; cannot tell which one is meant here"
  | undecided line root =>
    "line " ++ toString line ++ ": '" ++ root ++ "' may refer to either the imported module"
      ++ " or a rebinding; cannot tell which"
  | overlapping a b =>
    "overlapping edits at bytes " ++ toString a.start ++ ".." ++ toString a.stop ++ " and "
      ++ toString b.start ++ ".." ++ toString b.stop

end RenameError

def dottedEdit? (old new : QualifiedName) (source : List Char) (n : Node) : Option Edit :=
  let segments := n.segments source
  if old.isPrefixOf segments then some ⟨n.span, old.replace new segments⟩ else none

def Node.importTargets (n : Node) : List Node :=
  (n.parts .name).filterMap fun item =>
    match item.kind with
    | .dottedName => some item
    | .aliasedImport => item.part? .name
    | _ => none

def importLine (new : QualifiedName) (bound : String) : String :=
  let suffix := if new.last = bound then "" else " as " ++ bound
  match new.parent? with
  | some parent => "from " ++ parent ++ " import " ++ new.last ++ suffix
  | none => "import " ++ new.last ++ suffix

def Node.importedAs (item : Node) (source : List Char) : Option String × Option String :=
  match item.kind with
  | .aliasedImport =>
    ((item.part? .name).map (·.text source), (item.part? .asName).map (·.text source))
  | _ => (some (item.text source), none)

def statementSeparator (source : List Char) (start : Nat) : String :=
  let before := Text.takeBytes start source
  let indentation := (before.reverse.takeWhile (· != '\n')).reverse
  if indentation.all Text.isSpace then "\n" ++ String.ofList indentation else "; "

def splitEdit? (old new : QualifiedName) (source : List Char) (parent : String) (n : Node) :
    Option Edit :=
  let items := n.parts .name
  let isMoved (item : Node) : Bool := (item.importedAs source).1 == some old.last
  let kept := (items.filter fun item => !isMoved item).map (·.text source)
  let moved := (items.filter isMoved).map fun item =>
    importLine new ((item.importedAs source).2.getD old.last)
  if moved.isEmpty then none
  else
    let head := if kept.isEmpty then []
      else ["from " ++ parent ++ " import " ++ String.intercalate ", " kept]
    some ⟨n.span, String.intercalate (statementSeparator source n.start) (head ++ moved)⟩

def importEdits (old new : QualifiedName) (source : List Char) (n : Node) : List Edit :=
  match n.kind with
  | .importStatement => n.importTargets.filterMap (dottedEdit? old new source)
  | .importFromStatement =>
    match n.fromTarget? with
    | none => []
    | some target =>
      match dottedEdit? old new source target with
      | some e => [e]
      | none =>
        match old.parent? with
        | some parent =>
          if parent = String.intercalate "." (target.segments source) then
            (splitEdit? old new source parent n).toList
          else []
        | none => []
  | _ => []

def Binding.importsModule (old : QualifiedName) (b : Binding) : Bool :=
  b.imported.any old.isPrefixOf

def chainAbove (source : List Char) : Nat → Site → List Site → List String → Nat → List String × Nat
  | _, _, [], segments, stop => (segments, stop)
  | limit, s, p :: above, segments, stop =>
    if segments.length < limit && p.kind == .attribute && s.isPart .object then
      match p.node.part? .attribute with
      | some a => chainAbove source limit p above (segments ++ [a.text source]) a.stop
      | none => (segments, stop)
    else (segments, stop)

def attributeChain (source : List Char) (limit : Nat) (s : Site) : List String × Nat :=
  chainAbove source limit s s.ancestors [s.node.text source] s.node.stop

/-- Whether an import and whether anything else may be what a load sees. A binding that certainly
ran before the load hides those before it; inside a loop, later bindings may come first. -/
def reaching (bindings : List Binding) (site : Site) (container : Address) : Bool × Bool :=
  let position := site.node.start
  let around := site.ancestorsBelow container
  let enclosing := around.map Site.landmark
  let loopEnd :=
    (around.filter fun a => a.kind == .forStatement || a.kind == .whileStatement).getLast?.map
      (·.node.stop)
  let isCertain (b : Binding) : Bool := b.guard.all enclosing.contains
  let floor := ((bindings.filter fun b => b.effective ≤ position && isCertain b).map
    (·.effective)).foldl max 0
  let seen := bindings.filter fun b =>
    (floor ≤ b.effective && b.effective ≤ position)
      || loopEnd.any fun stop => position < b.effective && b.effective ≤ stop
  (seen.any Binding.isImport, seen.any fun b => !b.isImport)

def refersToImport (t : ScopeTable) (source : List Char) (old : QualifiedName) (owner : Nat)
    (u : Use) : Except RenameError Bool :=
  match t.scopes[owner]? with
  | none => .ok false
  | some scope =>
    let bindings := scope.bindingsOf old.first
    if !bindings.any (Binding.importsModule old) then .ok false
    else if bindings.all Binding.isImport then .ok true
    else if u.scope ≠ owner then .error (.enclosingRebound (u.site.node.line source) old.first)
    else if u.kind ≠ .load then .ok false
    else
      match reaching bindings u.site scope.container.address with
      | (true, true) => .error (.undecided (u.site.node.line source) old.first)
      | (isImport, _) => .ok isImport

def clash? (scope : Scope) (name : String) : Option Binding :=
  (scope.bindingsOf name).find? fun b => !b.isImport

def checkImportScopes (old new : QualifiedName) : List Scope → Nat → Except RenameError Unit
  | [], _ => .ok ()
  | scope :: scopes, index =>
    if (scope.bindingsOf old.first).any (Binding.importsModule old) then
      match clash? scope new.first with
      | some clash =>
        .error (.shadowed new.first clash.line (index == ScopeTable.moduleScope) new.text)
      | none => checkImportScopes old new scopes (index + 1)
    else checkImportScopes old new scopes (index + 1)

def checkNewRoot (t : ScopeTable) (source : List Char) (new : QualifiedName) (u : Use) :
    Except RenameError Unit :=
  match t.scopes[t.resolve u.scope new.first]? with
  | none => .ok ()
  | some scope =>
    match clash? scope new.first with
    | some clash => .error (.captured (u.site.node.line source) new.first clash.line new.text)
    | none => .ok ()

def useEdit (t : ScopeTable) (source : List Char) (old new : QualifiedName) (u : Use) :
    Except RenameError (Option Edit) :=
  if u.name ≠ old.first then .ok none
  else
    let owner := t.resolve u.scope u.name
    match u.kind with
    | .load => do
      let chain := attributeChain source old.length u.site
      if !old.isPrefixOf chain.1 then return none
      if !(← refersToImport t source old owner u) then return none
      checkNewRoot t source new u
      return some ⟨⟨u.site.node.start, chain.2⟩, new.text⟩
    | .store | .globalDecl => do
      if 1 < old.length then return none
      if !(← refersToImport t source old owner u) then return none
      if 1 < new.length then
        throw (.dottedGlobal (u.site.node.line source) old.text new.text)
      checkNewRoot t source new u
      return some ⟨u.site.node.span, new.text⟩

def useEdits (t : ScopeTable) (source : List Char) (old new : QualifiedName) :
    List Use → Except RenameError (List Edit)
  | [] => .ok []
  | u :: us => do
    let e ← useEdit t source old new u
    let es ← useEdits t source old new us
    return e.toList ++ es

def renameEdits (root : Node) (source : List Char) (old new : QualifiedName) :
    Except RenameError (List Edit) := do
  let t := ScopeTable.build root source
  checkImportScopes old new t.scopes 0
  let uses ← useEdits t source old new t.uses
  return root.preorder.flatMap (importEdits old new source) ++ uses

structure Renamed where
  content : String
  replacements : Nat
  deriving DecidableEq, Repr

def renameTree (root : Node) (source : List Char) (old new : QualifiedName) :
    Except RenameError (Option Renamed) := do
  let edits ← renameEdits root source old new
  if edits.isEmpty then return none
  match Edit.splice edits source with
  | .ok (text, n) => return some ⟨String.ofList text, n⟩
  | .error (a, b) => throw (.overlapping a.span b.span)

def renameModule (source : String) (old new : QualifiedName) :
    Except RenameError (Option Renamed) :=
  let text := source.toList
  if !Text.occursIn old.first.toList text then .ok none
  else
    match parse? source with
    | none => .error .unreadable
    | some root => renameTree root text old new

end Reroot.Python
