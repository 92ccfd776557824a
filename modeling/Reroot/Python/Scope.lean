import Reroot.Python.Site

/-!
Lexical scopes of one source text: the module, functions and lambdas, class bodies and
comprehensions, what each of them binds, and every use of a name with the scope it stands in.

A binding keeps where it takes effect in the order of the text, and the innermost branch, loop or
handler that may keep it from running.
-/

namespace Reroot.Python

inductive ScopeKind where
  | module | function | classBody | comprehension
  deriving DecidableEq, Repr

structure Landmark where
  address : Address
  kind : Kind
  start : Nat
  deriving DecidableEq, Repr

structure Binding where
  imported : Option (List String)
  line : Nat
  effective : Nat
  guard : Option Landmark
  deriving DecidableEq, Repr

def Binding.isImport (b : Binding) : Bool :=
  b.imported.isSome

structure Scope where
  kind : ScopeKind
  parent : Option Nat
  container : Landmark
  bindings : List (String × Binding)
  globals : List String
  nonlocals : List String

namespace Scope

def bindingsOf (s : Scope) (name : String) : List Binding :=
  s.bindings.filterMap fun p => if p.1 == name then some p.2 else none

def binds (s : Scope) (name : String) : Bool :=
  s.bindings.any fun p => p.1 == name

end Scope

inductive UseKind where
  | load | store | globalDecl
  deriving DecidableEq, Repr

structure Use where
  name : String
  scope : Nat
  kind : UseKind
  site : Site
  deriving DecidableEq

structure ScopeTable where
  scopes : List Scope
  uses : List Use

def Site.landmark (s : Site) : Landmark :=
  ⟨s.address, s.kind, s.node.start⟩

def Kind.isSimpleStatement (k : Kind) : Bool :=
  [Kind.expressionStatement, .importStatement, .importFromStatement, .futureImportStatement,
    .deleteStatement].contains k

def Site.isGuard (s : Site) (container : Address) : Bool :=
  match s.kind with
  | .block =>
    match s.parent? with
    | some p => p.address != container && p.kind != .withStatement
    | none => true
  | .exceptClause | .forStatement | .whileStatement | .caseClause | .conditionalExpression
  | .booleanOperator => true
  | _ => false

def Site.isStoreIn : Site → List Site → Bool
  | _, [] => false
  | s, p :: above =>
    match p.kind with
    | .patternList | .tuplePattern | .listPattern | .listSplatPattern | .tuple | .listDisplay
    | .listSplat | .parenthesizedExpression | .expressionList => isStoreIn p above
    | .assignment | .augmentedAssignment | .forStatement | .forInClause => s.isPart .left
    | .namedExpression => s.isPart .name
    | .asPatternTarget | .deleteStatement => true
    | .exceptClause =>
      s.previous?.any fun n => n.kind == .mark "as" || n.kind == .mark ","
    | _ => false

def Site.isStore (s : Site) : Bool :=
  s.isStoreIn s.ancestors

namespace ScopeTable

def pushScope (t : ScopeTable) (kind : ScopeKind) (parent : Nat) (container : Site) : ScopeTable :=
  { t with scopes := t.scopes ++ [⟨kind, some parent, container.landmark, [], [], []⟩] }

def modifyScope (t : ScopeTable) (i : Nat) (f : Scope → Scope) : ScopeTable :=
  { t with scopes := t.scopes.modify i f }

def bind (t : ScopeTable) (source : List Char) (scope : Nat) (name : String)
    (imported : Option (List String)) (site : Site) : ScopeTable :=
  t.modifyScope scope fun s =>
    let around := site.ancestorsBelow s.container.address
    let guard := (around.find? fun a => a.isGuard s.container.address).map Site.landmark
    let effective :=
      match around.find? fun a => a.kind.isSimpleStatement with
      | some statement => statement.node.stop
      | none => site.node.stop
    let binding : Binding := ⟨imported, site.node.line source, effective, guard⟩
    { s with bindings := s.bindings ++ [(name, binding)] }

def bindText (t : ScopeTable) (source : List Char) (scope : Nat) (site : Site) : ScopeTable :=
  t.bind source scope (site.node.text source) none site

def record (t : ScopeTable) (source : List Char) (scope : Nat) (kind : UseKind) (site : Site) :
    ScopeTable :=
  { t with uses := t.uses ++ [⟨site.node.text source, scope, kind, site⟩] }

def bindImport (source : List Char) (scope : Nat) (t : ScopeTable) (item : Site) : ScopeTable :=
  match item.kind with
  | .dottedName =>
    match item.node.segments source with
    | first :: rest => t.bind source scope first (some (first :: rest)) item
    | [] => t
  | .aliasedImport =>
    match item.part? .asName with
    | some bound => t.bindText source scope bound
    | none => t
  | _ => t

def bindFromImport (source : List Char) (scope : Nat) (t : ScopeTable) (item : Site) : ScopeTable :=
  match item.kind with
  | .aliasedImport =>
    match item.part? .asName with
    | some bound => t.bindText source scope bound
    | none => t
  | _ => t.bindText source scope item

def declareGlobal (source : List Char) (scope : Nat) (t : ScopeTable) (item : Site) : ScopeTable :=
  (t.modifyScope scope fun s => { s with globals := s.globals ++ [item.node.text source] }).record
    source scope .globalDecl item

def declareNonlocal (source : List Char) (scope : Nat) (t : ScopeTable) (item : Site) :
    ScopeTable :=
  t.modifyScope scope fun s => { s with nonlocals := s.nonlocals ++ [item.node.text source] }

def bindPart (t : ScopeTable) (source : List Char) (scope : Nat) (r : Role) (site : Site) :
    ScopeTable :=
  match site.part? r with
  | some s => t.bindText source scope s
  | none => t

end ScopeTable

inductive Visit where
  | skip
  | code (scope : Nat)
  | classBody (outer : Nat)
  | parameters (inner outer : Nat)
  | parameter (inner outer : Nat)
  | pattern (scope : Nat)
  deriving DecidableEq, Repr

namespace Visit

def enterCode (source : List Char) (scope : Nat) (t : ScopeTable) (site : Site) :
    ScopeTable × (Node → Visit) :=
  match site.kind with
  | .functionDefinition =>
    let t := t.bindPart source scope .name site
    let inner := t.scopes.length
    (t.pushScope .function scope site, fun c =>
      match c.role with
      | some .parameters => .parameters inner scope
      | some .returnType => .code scope
      | some .body => .code inner
      | _ => .skip)
  | .lambdaExpr =>
    let inner := t.scopes.length
    (t.pushScope .function scope site, fun c =>
      match c.role with
      | some .parameters => .parameters inner scope
      | some .body => .code inner
      | _ => .skip)
  | .classDefinition =>
    (t.bindPart source scope .name site, fun c =>
      match c.role with
      | some .superclasses => .code scope
      | some .body => .classBody scope
      | _ => .skip)
  | .listComprehension | .setComprehension | .dictionaryComprehension | .generatorExpression =>
    let inner := t.scopes.length
    (t.pushScope .comprehension scope site, fun _ => .code inner)
  | .importStatement =>
    ((site.parts .name).foldl (ScopeTable.bindImport source scope) t, fun _ => .skip)
  | .importFromStatement | .futureImportStatement =>
    ((site.parts .name).foldl (ScopeTable.bindFromImport source scope) t, fun _ => .skip)
  | .globalStatement =>
    ((site.namedChildren.filter (·.kind == .identifier)).foldl
      (ScopeTable.declareGlobal source scope) t, fun _ => .skip)
  | .nonlocalStatement =>
    ((site.namedChildren.filter (·.kind == .identifier)).foldl
      (ScopeTable.declareNonlocal source scope) t, fun _ => .skip)
  | .attribute => (t, fun c => if c.role == some .object then .code scope else .skip)
  | .keywordArgument => (t, fun c => if c.role == some .value then .code scope else .skip)
  | .identifier =>
    if site.isStore then
      ((t.bindText source scope site).record source scope .store site, fun _ => .skip)
    else (t.record source scope .load site, fun _ => .skip)
  | _ => (t, fun _ => .code scope)

def enter (source : List Char) (v : Visit) (t : ScopeTable) (site : Site) :
    ScopeTable × (Node → Visit) :=
  match v with
  | .skip => (t, fun _ => .skip)
  | .code scope => enterCode source scope t site
  | .classBody outer =>
    let inner := t.scopes.length
    (t.pushScope .classBody outer (site.parent?.getD site), fun _ => .code inner)
  | .parameters inner outer => (t, fun _ => .parameter inner outer)
  | .parameter inner outer =>
    match site.kind with
    | .identifier => (t.bindText source inner site, fun _ => .skip)
    | .defaultParameter | .typedDefaultParameter =>
      (t, fun c =>
        match c.role with
        | some .name => .pattern inner
        | some .typeOf => .code outer
        | some .value => .code outer
        | _ => .skip)
    | .typedParameter =>
      (t, fun c => if c.kind == .typeExpr then .code outer else .pattern inner)
    | .listSplatPattern | .dictionarySplatPattern | .tuplePattern => (t, fun _ => .pattern inner)
    | _ => (t, fun _ => .skip)
  | .pattern scope =>
    match site.kind with
    | .identifier => (t.bindText source scope site, fun _ => .skip)
    | _ => (t, fun _ => .pattern scope)

mutual

def walk (source : List Char) : Node → Visit → Address → List Node → ScopeTable → ScopeTable
  | .mk r k s cs, v, address, above, t =>
    let node := Node.mk r k s cs
    let entered := v.enter source t ⟨node, address, above⟩
    walkAll source cs 0 entered.2 address (node :: above) entered.1

def walkAll (source : List Char) :
    List Node → Nat → (Node → Visit) → Address → List Node → ScopeTable → ScopeTable
  | [], _, _, _, _, t => t
  | c :: cs, i, next, address, above, t =>
    let t :=
      if c.isNamed && next c != .skip then walk source c (next c) (i :: address) above t else t
    walkAll source cs (i + 1) next address above t

end

end Visit

namespace ScopeTable

def moduleScope : Nat := 0

def build (root : Node) (source : List Char) : ScopeTable :=
  let top : Scope := ⟨.module, none, (Site.root root).landmark, [], [], []⟩
  Visit.walkAll source root.children 0 (fun _ => .code moduleScope) [] [root] ⟨[top], []⟩

def resolveLoop (t : ScopeTable) (name : String) : Nat → Bool → Nat → Nat
  | 0, _, _ => moduleScope
  | fuel + 1, innermost, current =>
    match t.scopes[current]? with
    | none => moduleScope
    | some s =>
      let outward :=
        match s.parent with
        | some parent => resolveLoop t name fuel false parent
        | none => moduleScope
      match s.kind with
      | .module => moduleScope
      | .classBody =>
        if s.globals.contains name then moduleScope
        else if innermost && s.binds name then current
        else outward
      | .function | .comprehension =>
        if s.globals.contains name then moduleScope
        else if !s.nonlocals.contains name && s.binds name then current
        else outward

/-- The scope that owns a name as seen from `scope`: a name that a function binds anywhere is its
own unless it is declared otherwise, and class bodies are not seen from the scopes inside them. -/
def resolve (t : ScopeTable) (scope : Nat) (name : String) : Nat :=
  t.resolveLoop name (scope + 1) true scope

end ScopeTable

end Reroot.Python
