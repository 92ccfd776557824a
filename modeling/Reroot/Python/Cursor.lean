import Reroot.Python.Node
import Reroot.Text.Basic
import Reroot.Text.Identifier

/-!
A position in a source text, with the layout that is open there: the columns of the enclosing
blocks and the string literals that are being read. Line ends and changes of column count only
where the grammar can use them; everywhere else they are blanks.
-/

namespace Reroot.Python

structure Expect where
  newline : Bool
  indent : Bool
  dedent : Bool
  close : Bool
  deriving DecidableEq, Repr

namespace Expect

def token : Expect := ⟨false, false, false, false⟩

def lineEnd : Expect := ⟨true, false, false, false⟩

def closing : Expect := ⟨false, false, false, true⟩

def statement : Expect := ⟨false, false, true, false⟩

def suite : Expect := ⟨true, true, false, false⟩

def usesLayout (e : Expect) : Bool :=
  e.newline || e.indent || e.dedent

end Expect

inductive Layout where
  | newline
  | indent (column : Nat)
  | dedent
  deriving DecidableEq, Repr

structure Quote where
  close : Char
  triple : Bool
  raw : Bool
  format : Bool
  bytes : Bool
  deriving DecidableEq, Repr

structure Cursor where
  rest : List Char
  pos : Nat
  columns : List Nat
  quotes : List Quote
  inFormat : Bool
  pending : Option Layout
  extras : List Node

namespace Cursor

def ofText (text : List Char) : Cursor :=
  ⟨text, 0, [0], [], false, none, []⟩

def column (c : Cursor) : Nat :=
  c.columns.head?.getD 0

def advance (c : Cursor) (n : Nat) : Cursor :=
  { c with rest := c.rest.drop n, pos := c.pos + Text.byteWidth (c.rest.take n) }

def leaf (c : Cursor) (k : Kind) (n : Nat) : Node :=
  .mk none k ⟨c.pos, c.pos + Text.byteWidth (c.rest.take n)⟩ []

end Cursor

structure Blank where
  eol : Bool
  column : Nat
  comment : Option Nat
  deriving DecidableEq, Repr

inductive BlankEnd where
  | next (blank : Blank) (char : Option Char)
  | broken
  deriving Repr

def scanBlanks (layout : Bool) : Blank → Bool → List Char → BlankEnd
  | b, _, [] => .next { b with eol := true, column := 0 } none
  | b, true, c :: cs =>
    if c == '\n' then scanBlanks layout { b with column := 0 } false cs
    else scanBlanks layout b true cs
  | b, false, '\n' :: cs => scanBlanks layout { b with eol := true, column := 0 } false cs
  | b, false, ' ' :: cs => scanBlanks layout { b with column := b.column + 1 } false cs
  | b, false, '\t' :: cs => scanBlanks layout { b with column := b.column + 8 } false cs
  | b, false, '\r' :: cs => scanBlanks layout { b with column := 0 } false cs
  | b, false, '\x0c' :: cs => scanBlanks layout { b with column := 0 } false cs
  | b, false, '#' :: cs =>
    if !layout then .next b (some '#')
    else if b.eol then
      scanBlanks layout { b with comment := b.comment <|> some b.column, column := 0 } true cs
    else .broken
  | b, false, '\\' :: '\r' :: '\n' :: cs => scanBlanks layout b false cs
  | b, false, '\\' :: '\n' :: cs => scanBlanks layout b false cs
  | b, false, ['\\'] => .next { b with eol := true, column := 0 } none
  | b, false, ['\\', '\r'] => .next { b with eol := true, column := 0 } none
  | b, false, c :: _ => if c == '\\' then .broken else .next b (some c)

def isQuoteMark (c : Char) : Bool :=
  c == '"' || c == '\'' || c == '\x60'

namespace Cursor

/-- The layout token in front of the next token, if the blanks there make one. A line that starts
left of the open block makes a dedent also where none is expected, unless the line end can be used,
a bracket can close or a string follows. -/
def layout? (c : Cursor) (e : Expect) : Option Layout :=
  match scanBlanks e.usesLayout ⟨false, 0, none⟩ false c.rest with
  | .broken => none
  | .next b char =>
    if !b.eol then none
    else if e.indent && c.column < b.column then some (.indent b.column)
    else if (e.dedent || (!e.newline && !(char.any isQuoteMark) && !e.close))
        && b.column < c.column && !c.inFormat && b.comment.all (· < c.column) then some .dedent
    else if e.newline then some .newline
    else none

def isBlank (c : Char) : Bool :=
  c == ' ' || ('\t' ≤ c && c ≤ '\r') || c == '\ufeff' || c == '\u2060' || c == '\u200b'

def extraLength : List Char → Option (Kind × Nat)
  | '#' :: cs => some (.comment, (cs.takeWhile (· != '\n')).length + 1)
  | '\\' :: '\r' :: '\n' :: _ => some (.lineContinuation, 3)
  | '\\' :: '\n' :: _ => some (.lineContinuation, 2)
  | ['\\'] => some (.lineContinuation, 1)
  | _ => none

def settleLoop (e : Expect) : Nat → Cursor → Option Cursor
  | 0, c => some c
  | fuel + 1, c =>
    match c.layout? e with
    | some .dedent => if e.dedent then some { c with pending := some .dedent } else none
    | some l => some { c with pending := some l }
    | none =>
      let c := c.advance (c.rest.takeWhile isBlank).length
      match extraLength c.rest with
      | some (k, n) => settleLoop e fuel { c.advance n with extras := c.leaf k n :: c.extras }
      | none => some c

def settle (c : Cursor) (e : Expect) : Option Cursor :=
  match c.pending with
  | some _ => some c
  | none => settleLoop e (c.rest.length + 1) c

end Cursor

def marks : List String :=
  ["**=", "//=", ">>=", "<<=", "...",
   "->", ":=", "+=", "-=", "*=", "/=", "@=", "%=", "&=", "^=", "|=", "==", "!=", "<=", ">=", "<>",
   "**", "//", "<<", ">>",
   "+", "-", "*", "/", "@", "%", "&", "|", "^", "~", "<", ">", "(", ")", "[", "]", "\x7b", "\x7d",
   ",", ":", ".", ";", "="]

def digitRun : List Char → Nat
  | [] => 0
  | [c] => if c.isDigit then 1 else 0
  | c :: d :: cs =>
    if c.isDigit then
      if d == '_' then 2 + digitRun cs else 1 + digitRun (d :: cs)
    else 0

def groupRun (p : Char → Bool) : List Char → Nat
  | [] => 0
  | [c] => if p c then 1 else 0
  | c :: d :: cs =>
    if p c then 1 + groupRun p (d :: cs)
    else if c == '_' && p d then 2 + groupRun p cs
    else 0

def isHexDigit (c : Char) : Bool :=
  c.isDigit || ('a' ≤ c && c ≤ 'f') || ('A' ≤ c && c ≤ 'F')

def isOctDigit (c : Char) : Bool :=
  '0' ≤ c && c ≤ '7'

def isBinDigit (c : Char) : Bool :=
  c == '0' || c == '1'

def suffixLength (p : Char → Bool) (cs : List Char) : Nat :=
  if cs.head?.any p then 1 else 0

def isLongSuffix (c : Char) : Bool :=
  c == 'l' || c == 'L'

def isImaginarySuffix (c : Char) : Bool :=
  c == 'j' || c == 'J'

def exponentLength : List Char → Nat
  | e :: cs =>
    if e == 'e' || e == 'E' then
      let sign := if cs.head?.any (fun c => c == '+' || c == '-') then 1 else 0
      let digits := digitRun (cs.drop sign)
      if digits == 0 then 0 else 1 + sign + digits
    else 0
  | [] => 0

def radixLength (p : Char → Bool) (cs : List Char) : Option Nat :=
  let n := groupRun p cs
  if n == 0 then none else some (2 + n + suffixLength isLongSuffix (cs.drop n))

def numberLength (cs : List Char) : Option (Kind × Nat) :=
  let radix : Option Nat :=
    match cs with
    | '0' :: x :: tail =>
      if x == 'x' || x == 'X' then radixLength isHexDigit tail
      else if x == 'o' || x == 'O' then radixLength isOctDigit tail
      else if x == 'b' || x == 'B' then radixLength isBinDigit tail
      else none
    | _ => none
  match radix with
  | some n => some (.integerLit, n)
  | none =>
    let whole := digitRun cs
    let tail := cs.drop whole
    let point := if tail.head? == some '.' then 1 else 0
    let fraction := if point == 1 then digitRun (tail.drop 1) else 0
    if whole == 0 && fraction == 0 then none
    else
      let exponent := exponentLength (tail.drop (point + fraction))
      let n := whole + point + fraction + exponent
      let after := cs.drop n
      if point == 0 && exponent == 0 then
        let long := suffixLength isLongSuffix after
        some (.integerLit, n + (if long == 1 then 1 else suffixLength isImaginarySuffix after))
      else some (.floatLit, n + suffixLength isImaginarySuffix after)

inductive Lexeme where
  | word (text : String) (length : Nat)
  | number (kind : Kind) (length : Nat)
  | mark (text : String)
  | nothing
  deriving Repr

def lexeme (cs : List Char) : Lexeme :=
  match cs with
  | [] => .nothing
  | c :: _ =>
    if Text.isIdentifierStart c then
      let w := cs.takeWhile Text.isIdentifierContinue
      .word (String.ofList w) w.length
    else
      match numberLength cs with
      | some (k, n) => .number k n
      | none =>
        match marks.find? (fun m => m.toList.isPrefixOf cs) with
        | some m => .mark m
        | none => .nothing

def isQuoteFlag (c : Char) : Bool :=
  c == 'f' || c == 'F' || c == 'r' || c == 'R' || c == 'b' || c == 'B' || c == 'u' || c == 'U'

def openingQuote (cs : List Char) : Option (Quote × Nat) :=
  let flags := cs.takeWhile isQuoteFlag
  match cs.drop flags.length with
  | q :: tail =>
    if isQuoteMark q then
      let triple := q != '\x60' && tail.take 2 == [q, q]
      let quote : Quote :=
        ⟨q, triple, flags.any (fun c => c == 'r' || c == 'R'),
          flags.any (fun c => c == 'f' || c == 'F'), flags.any (fun c => c == 'b' || c == 'B')⟩
      some (quote, flags.length + if triple then 3 else 1)
    else none
  | [] => none

def escapeLength : List Char → Nat
  | 'u' :: cs => if (cs.take 4).length == 4 && (cs.take 4).all isHexDigit then 5 else 0
  | 'U' :: cs => if (cs.take 8).length == 8 && (cs.take 8).all isHexDigit then 9 else 0
  | 'x' :: cs => if (cs.take 2).length == 2 && (cs.take 2).all isHexDigit then 3 else 0
  | '\r' :: '\n' :: _ => 2
  | 'N' :: '\x7b' :: cs =>
    let name := cs.takeWhile (· != '\x7d')
    if name.length == 0 || (cs.drop name.length).isEmpty then 0 else name.length + 3
  | c :: cs =>
    if c.isDigit then (((c :: cs).take 3).takeWhile Char.isDigit).length
    else if "\n'\"abfrntv\\".toList.contains c then 1
    else 0
  | [] => 0

/-- The text of a literal up to its end or to the next embedded expression, as the number of
characters. Outside triple quotes a line end is text only at the front of a stretch, that is
directly behind the delimiter, an escape or an embedded expression. -/
def textLoop (q : Quote) : Nat → Bool → Nat → List Char → Option Nat
  | 0, _, _, _ => none
  | _ + 1, _, _, [] => none
  | fuel + 1, front, n, c :: cs =>
    if q.format && c == '\x7b' then
      if cs.head? == some '\x7b' then textLoop q fuel true (n + 2) (cs.drop 1) else some n
    else if q.format && c == '\x7d' then
      if cs.head? == some '\x7d' then textLoop q fuel true (n + 2) (cs.drop 1) else none
    else if c == '\\' then
      if q.raw then
        let escaped := if cs.head?.any (fun d => d == q.close || d == '\\') then 1 else 0
        let tail := cs.drop escaped
        let line :=
          match tail with
          | '\r' :: '\n' :: _ => 2
          | '\r' :: _ => 1
          | '\n' :: _ => 1
          | _ => 0
        textLoop q fuel front (n + 1 + escaped + line) (tail.drop line)
      else if q.bytes && cs.head?.any (fun d => d == 'N' || d == 'u' || d == 'U') then
        textLoop q fuel false (n + 3) (cs.drop 2)
      else
        let k := escapeLength cs
        textLoop q fuel true (n + 1 + k) (cs.drop k)
    else if c == q.close then
      if !q.triple || cs.take 2 == [c, c] then some n
      else textLoop q fuel false (n + 1) cs
    else if c == '\n' && !front && !q.triple then none
    else if c.toNat == 0 then none
    else textLoop q fuel false (n + 1) cs

def textLength (q : Quote) (cs : List Char) : Option Nat :=
  textLoop q (cs.length + 1) true 0 cs

end Reroot.Python
