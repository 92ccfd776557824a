import Reroot.Python.Cursor

/-!
Grammars as data. A grammar phrase reads from a cursor and works on the nodes that the enclosing
phrase has read so far, latest first; `pack` closes them into one node, so that a phrase can decide
what it has read after reading it, and left-nested nodes need no left recursion. Choice is ordered
and takes the first alternative that reads.
-/

namespace Reroot.Python

inductive Gram (ρ : Type) where
  | done
  | tok (text : String)
  | glued (text : String)
  | ident (reserved : List String)
  | number
  | then_ (first second : Gram ρ)
  | or_ (first second : Gram ρ)
  | many (phrase : Gram ρ)
  | call (rule : ρ)
  | fresh (phrase : Gram ρ)
  | tag (role : Role)
  | pack (kind : Kind)
  | packMany (kind : Kind)
  | target
  | latest (kinds : List Kind)
  | ahead (phrase : Gram ρ)
  | unless_ (phrase : Gram ρ)
  | settle (expect : Expect)
  | boundary
  | within (expect : Expect) (phrase : Gram ρ)
  | newline
  | indent
  | dedent
  | emptyBlock
  | stringOpen
  | stringText
  | stringClose
  | braceOpen
  | formatText
  | conversion
  | endOfText

namespace Gram

variable {ρ : Type}

instance : Append (Gram ρ) := ⟨then_⟩

instance : OrElse (Gram ρ) := ⟨fun a b => or_ a (b ())⟩

def opt (g : Gram ρ) : Gram ρ := g <|> done

def node (k : Kind) (g : Gram ρ) : Gram ρ := fresh (g ++ pack k)

def part (r : Role) (g : Gram ρ) : Gram ρ := g ++ tag r

def notTok (text : String) : Gram ρ := unless_ (tok text)

def oneOf : List String → Gram ρ
  | [] => tok ""
  | [t] => tok t
  | t :: ts => tok t <|> oneOf ts

end Gram

mutual

def Node.asTarget? : Node → Option Node
  | .mk r k s cs =>
    match k with
    | .identifier => some (.mk r k s cs)
    | .attribute => some (.mk r k s cs)
    | .subscript => some (.mk r k s cs)
    | .listSplat =>
      if cs.all fun c =>
        !c.isNamed || [Kind.identifier, .attribute, .subscript].contains c.kind
      then
        some (.mk r .listSplatPattern s cs)
      else none
    | .tuple => (targets? cs).map (.mk r .tuplePattern s)
    | .parenthesizedExpression => (targets? cs).map (.mk r .tuplePattern s)
    | .listDisplay => (targets? cs).map (.mk r .listPattern s)
    | .expressionList => (targets? cs).map (.mk r .patternList s)
    | .mark t => some (.mk r (.mark t) s cs)
    | _ => none

def targets? : List Node → Option (List Node)
  | [] => some []
  | c :: cs =>
    match c.asTarget?, targets? cs with
    | some d, some ds => some (d :: ds)
    | _, _ => none

end

namespace Cursor

def token? (c : Cursor) (text : String) : Option (Node × Cursor) :=
  if c.pending.isSome then none
  else
    match lexeme c.rest with
    | .word w n => if w == text then some (c.leaf (.mark text) n, c.advance n) else none
    | .mark m => if m == text then some (c.leaf (.mark text) m.length, c.advance m.length) else none
    | _ => none

def glued? (c : Cursor) (text : String) : Option (Node × Cursor) :=
  if c.pending.isNone && text.toList.isPrefixOf c.rest then
    some (c.leaf (.mark text) text.length, c.advance text.length)
  else none

def ident? (c : Cursor) (reserved : List String) : Option (Node × Cursor) :=
  if c.pending.isSome then none
  else
    match lexeme c.rest with
    | .word w n => if reserved.contains w then none else some (c.leaf .identifier n, c.advance n)
    | _ => none

def number? (c : Cursor) : Option (Node × Cursor) :=
  if c.pending.isSome then none
  else
    match lexeme c.rest with
    | .number k n => some (c.leaf k n, c.advance n)
    | _ => none

def stringOpen? (c : Cursor) : Option (Node × Cursor) :=
  if c.pending.isSome then none
  else
    match openingQuote c.rest with
    | some (q, n) =>
      some (c.leaf (.mark "\"") n,
        { c.advance n with quotes := q :: c.quotes, inFormat := q.format })
    | none => none

def stringText? (c : Cursor) : Option Cursor :=
  match c.quotes with
  | q :: _ => (textLength q c.rest).map c.advance
  | [] => none

def stringClose? (c : Cursor) : Option (Node × Cursor) :=
  match c.quotes with
  | q :: qs =>
    let n := if q.triple then 3 else 1
    if (List.replicate n q.close).isPrefixOf c.rest then
      some (c.leaf (.mark "\"") n, { c.advance n with quotes := qs, inFormat := false })
    else none
  | [] => none

def braceOpen? (c : Cursor) : Option (Node × Cursor) :=
  if c.quotes.head?.any (·.format) && c.rest.head? == some '\x7b' then
    some (c.leaf (.mark "\x7b") 1, c.advance 1)
  else none

def conversion? (c : Cursor) : Option (Node × Cursor) :=
  match c.rest with
  | '!' :: d :: _ =>
    if 'a' ≤ d && d ≤ 'z' then some (c.leaf .typeConversion 2, c.advance 2) else none
  | _ => none

def formatText (c : Cursor) : Cursor :=
  c.advance (c.rest.takeWhile fun d => d != '\x7b' && d != '\x7d').length

def newline? (c : Cursor) : Option Cursor :=
  if c.pending == some .newline then some { c with pending := none } else none

def indent? (c : Cursor) : Option Cursor :=
  match c.pending with
  | some (.indent column) => some { c with pending := none, columns := column :: c.columns }
  | _ => none

def dedent? (c : Cursor) : Option Cursor :=
  if c.pending == some .dedent then some { c with pending := none, columns := c.columns.drop 1 }
  else none

def emptyBlock? (c : Cursor) : Option (Node × Cursor) :=
  c.newline?.map fun c' => (c.leaf .block 0, c')

end Cursor

abbrev Progress := List Node × Cursor

def Progress.add (ns : List Node) : Option (Node × Cursor) → Option Progress
  | some (n, c) => some (n :: ns, c)
  | none => none

def Progress.move (ns : List Node) : Option Cursor → Option Progress
  | some c => some (ns, c)
  | none => none

def Gram.read {ρ : Type} (rules : ρ → Gram ρ) :
    Nat → Gram ρ → Expect → List Node → Cursor → Option Progress
  | 0, _, _, _, _ => none
  | fuel + 1, g, follow, ns, c =>
    match g with
    | .done => some (ns, c)
    | .tok t => (c.settle .token).bind fun c => Progress.add ns (c.token? t)
    | .glued t => (c.settle .token).bind fun c => Progress.add ns (c.glued? t)
    | .ident reserved => (c.settle .token).bind fun c => Progress.add ns (c.ident? reserved)
    | .number => (c.settle .token).bind fun c => Progress.add ns c.number?
    | .then_ a b =>
      match read rules fuel a follow ns c with
      | some (ns, c) => read rules fuel b follow ns c
      | none => none
    | .or_ a b =>
      match read rules fuel a follow ns c with
      | some p => some p
      | none => read rules fuel b follow ns c
    | .many a =>
      match read rules fuel a follow ns c with
      | some (ns, c) => read rules fuel (.many a) follow ns c
      | none => some (ns, c)
    | .call r => read rules fuel (rules r) follow ns c
    | .fresh a =>
      match read rules fuel a follow [] c with
      | some (ms, c) => some (ms ++ ns, c)
      | none => none
    | .tag r =>
      match ns with
      | n :: ns => some (n.withRole r :: ns, c)
      | [] => none
    | .pack k => some ([Node.spanning k c.pos ns.reverse], c)
    | .packMany k => some (if ns.length > 1 then [Node.spanning k c.pos ns.reverse] else ns, c)
    | .target => (targets? ns).map fun ns => (ns, c)
    | .latest kinds => if ns.head?.any (fun n => kinds.contains n.kind) then some (ns, c) else none
    | .ahead a => if (read rules fuel a follow ns c).isSome then some (ns, c) else none
    | .unless_ a => if (read rules fuel a follow ns c).isSome then none else some (ns, c)
    | .settle e => Progress.move ns (c.settle e)
    | .boundary => Progress.move ns (c.settle follow)
    | .within e a => read rules fuel a e ns c
    | .newline => Progress.move ns c.newline?
    | .indent => Progress.move ns c.indent?
    | .dedent => Progress.move ns c.dedent?
    | .emptyBlock => Progress.add ns c.emptyBlock?
    | .stringOpen => (c.settle .token).bind fun c => Progress.add ns c.stringOpen?
    | .stringText => Progress.move ns c.stringText?
    | .stringClose => Progress.add ns c.stringClose?
    | .braceOpen => Progress.add ns c.braceOpen?
    | .formatText => some (ns, c.formatText)
    | .conversion => (c.settle .token).bind fun c => Progress.add ns c.conversion?
    | .endOfText =>
      (c.settle .statement).bind fun c => if c.rest.isEmpty then some (ns, c) else none

end Reroot.Python
