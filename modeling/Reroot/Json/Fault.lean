import Reroot.Double

namespace Reroot.Json

inductive Flaw where
  | endInList | endInObject | endInString | endInValue
  | colon | listComma | objectComma | ident | value
  | escape | number | numberRange | control | key | surrogate | trailingComma | trailing
  | hexEscape | depth
  deriving DecidableEq, Repr

def Flaw.message : Flaw → String
  | .endInList => "EOF while parsing a list"
  | .endInObject => "EOF while parsing an object"
  | .endInString => "EOF while parsing a string"
  | .endInValue => "EOF while parsing a value"
  | .colon => "expected \x60:\x60"
  | .listComma => "expected \x60,\x60 or \x60]\x60"
  | .objectComma => "expected \x60,\x60 or \x60\x7d\x60"
  | .ident => "expected ident"
  | .value => "expected value"
  | .escape => "invalid escape"
  | .number => "invalid number"
  | .numberRange => "number out of range"
  | .control => "control character (\\u0000-\\u001F) found while parsing a string"
  | .key => "key must be a string"
  | .surrogate => "lone leading surrogate in hex escape"
  | .trailingComma => "trailing comma"
  | .trailing => "trailing characters"
  | .hexEscape => "unexpected end of hex escape"
  | .depth => "recursion limit exceeded"

structure Fault where
  flaw : Flaw
  line : Nat
  column : Nat
  deriving DecidableEq, Repr

def Fault.message (f : Fault) : String :=
  f.flaw.message ++ " at line " ++ toString f.line ++ " column " ++ toString f.column

structure Reader where
  rest : List UInt8
  index : Nat

abbrev Stop := Flaw × Nat

namespace Reader

def byte (c : Char) : UInt8 := c.val.toUInt8

def peek (r : Reader) : Option UInt8 := r.rest.head?

def drop (r : Reader) (n : Nat) : Reader := ⟨r.rest.drop n, r.index + n⟩

def behind (r : Reader) (f : Flaw) : Stop := (f, r.index)

def ahead (r : Reader) (f : Flaw) : Stop := (f, if r.rest.isEmpty then r.index else r.index + 1)

def isBlank (b : UInt8) : Bool := b == 32 || b == 10 || b == 9 || b == 13

def skipBlanks (r : Reader) : Reader := r.drop (r.rest.takeWhile isBlank).length

def isDigit (b : UInt8) : Bool := 48 ≤ b && b ≤ 57

def skipDigits (r : Reader) : Reader := r.drop (r.rest.takeWhile isDigit).length

def word (r : Reader) : List Char → Except Stop Reader
  | [] => .ok r
  | c :: cs =>
    match r.rest with
    | [] => .error (r.behind .endInValue)
    | b :: _ => if b == byte c then word (r.drop 1) cs else .error ((r.drop 1).behind .ident)

def digits (bs : List UInt8) : Nat :=
  bs.foldl (fun n b => 10 * n + (b.toNat - 48)) 0

def exponent (r : Reader) (significand : Nat) (places : Nat) : Except Stop Reader :=
  let r := r.drop 1
  let negative := r.peek == some (byte '-')
  let r := if negative || r.peek == some (byte '+') then r.drop 1 else r
  match r.rest with
  | [] => .error (r.behind .endInValue)
  | b :: _ =>
    if !isDigit b then .error ((r.drop 1).behind .number)
    else
      let e := digits (r.rest.takeWhile isDigit)
      let r := r.skipDigits
      let power : Int := (if negative then -(e : Int) else e) - places
      if Double.isInfinite significand power then .error (r.behind .numberRange) else .ok r

def fraction (r : Reader) (whole : List UInt8) : Except Stop Reader :=
  let r := r.drop 1
  let decimals := r.rest.takeWhile isDigit
  if decimals.isEmpty then
    .error (r.ahead (if r.rest.isEmpty then .endInValue else .number))
  else
    let r := r.skipDigits
    if r.peek == some (byte 'e') || r.peek == some (byte 'E') then
      r.exponent (digits (whole ++ decimals)) decimals.length
    else if Double.isInfinite (digits (whole ++ decimals)) (-decimals.length) then
      .error (r.behind .numberRange)
    else .ok r

def number (r : Reader) : Except Stop Reader :=
  match r.rest with
  | [] => .error (r.behind .endInValue)
  | b :: bs =>
    if !isDigit b then .error ((r.drop 1).behind .number)
    else if b == 48 && bs.head?.any isDigit then .error ((r.drop 1).ahead .number)
    else
      let whole := r.rest.takeWhile isDigit
      let r := r.skipDigits
      if r.peek == some (byte '.') then r.fraction whole
      else if r.peek == some (byte 'e') || r.peek == some (byte 'E') then
        r.exponent (digits whole) 0
      else if Double.isInfinite (digits whole) 0 then .error (r.behind .numberRange)
      else .ok r

def hexValue? (b : UInt8) : Option Nat :=
  if isDigit b then some (b.toNat - 48)
  else if 97 ≤ b && b ≤ 102 then some (b.toNat - 87)
  else if 65 ≤ b && b ≤ 70 then some (b.toNat - 55)
  else none

def hexFour (r : Reader) : Except Stop (Nat × Reader) :=
  match r.rest with
  | a :: b :: c :: d :: _ =>
    match hexValue? a, hexValue? b, hexValue? c, hexValue? d with
    | some a, some b, some c, some d => .ok (((a * 16 + b) * 16 + c) * 16 + d, r.drop 4)
    | _, _, _, _ => .error ((r.drop 4).behind .escape)
  | rest => .error ((r.drop rest.length).behind .endInString)

def expectInEscape (r : Reader) (c : Char) : Except Stop Reader :=
  match r.rest with
  | [] => .error (r.behind .endInString)
  | b :: _ => if b == byte c then .ok (r.drop 1) else .error ((r.drop 1).behind .hexEscape)

def unicodeEscape (r : Reader) : Except Stop Reader := do
  let (n, r) ← r.hexFour
  if 0xDC00 ≤ n && n ≤ 0xDFFF then throw (r.behind .surrogate)
  if n < 0xD800 || 0xDBFF < n then return r
  let r ← r.expectInEscape '\\'
  let r ← r.expectInEscape 'u'
  let (m, r) ← r.hexFour
  if m < 0xDC00 || 0xDFFF < m then throw (r.behind .surrogate)
  return r

def string : Nat → Reader → Except Stop Reader
  | 0, r => .error (r.behind .endInString)
  | fuel + 1, r =>
    match r.rest with
    | [] => .error (r.behind .endInString)
    | b :: bs =>
      if b == byte '"' then .ok (r.drop 1)
      else if b == byte '\\' then
        match bs with
        | [] => .error ((r.drop 1).behind .endInString)
        | e :: _ =>
          if ("\"\\/bfnrt".toList.map byte).contains e then string fuel (r.drop 2)
          else if e == byte 'u' then
            match (r.drop 2).unicodeEscape with
            | .ok r => string fuel r
            | .error s => .error s
          else .error ((r.drop 2).behind .escape)
      else if b < 32 then .error ((r.drop 1).behind .control)
      else string fuel (r.drop 1)

inductive Task where
  | value
  | items (first : Bool)
  | members (first : Bool)
  deriving DecidableEq

def read : Nat → Nat → Task → Reader → Except Stop Reader
  | 0, _, _, r => .error (r.behind .endInValue)
  | fuel + 1, depth, .value, r =>
    let r := r.skipBlanks
    match r.rest with
    | [] => .error (r.ahead .endInValue)
    | b :: _ =>
      if b == byte 'n' then (r.drop 1).word "ull".toList
      else if b == byte 't' then (r.drop 1).word "rue".toList
      else if b == byte 'f' then (r.drop 1).word "alse".toList
      else if b == byte '-' then (r.drop 1).number
      else if isDigit b then r.number
      else if b == byte '"' then string (r.rest.length + 1) (r.drop 1)
      else if b == byte '[' then
        if depth ≤ 1 then .error (r.ahead .depth)
        else read fuel (depth - 1) (.items true) (r.drop 1)
      else if b == byte '\x7b' then
        if depth ≤ 1 then .error (r.ahead .depth)
        else read fuel (depth - 1) (.members true) (r.drop 1)
      else .error (r.ahead .value)
  | fuel + 1, depth, .items first, r =>
    let r := r.skipBlanks
    let item (r : Reader) : Except Stop Reader := do
      let r ← read fuel depth .value r
      read fuel depth (.items false) r
    match r.rest with
    | [] => .error (r.ahead .endInList)
    | b :: _ =>
      if b == byte ']' then .ok (r.drop 1)
      else if b == byte ',' && !first then
        let r := (r.drop 1).skipBlanks
        match r.rest with
        | [] => .error (r.ahead .endInValue)
        | c :: _ => if c == byte ']' then .error (r.ahead .trailingComma) else item r
      else if first then item r
      else .error (r.ahead .listComma)
  | fuel + 1, depth, .members first, r =>
    let r := r.skipBlanks
    let member (r : Reader) : Except Stop Reader := do
      let r := (← string (r.rest.length + 1) (r.drop 1)).skipBlanks
      match r.rest with
      | [] => .error (r.ahead .endInObject)
      | b :: _ =>
        if b == byte ':' then
          let r ← read fuel depth .value (r.drop 1)
          read fuel depth (.members false) r
        else .error (r.ahead .colon)
    match r.rest with
    | [] => .error (r.ahead .endInObject)
    | b :: _ =>
      if b == byte '\x7d' then .ok (r.drop 1)
      else if b == byte ',' && !first then
        let r := (r.drop 1).skipBlanks
        match r.rest with
        | [] => .error (r.ahead .endInValue)
        | c :: _ =>
          if c == byte '"' then member r
          else if c == byte '\x7d' then .error (r.ahead .trailingComma)
          else .error (r.ahead .key)
      else if first then
        if b == byte '"' then member r else .error (r.ahead .key)
      else .error (r.ahead .objectComma)

end Reader

def fault? (text : String) : Option Fault :=
  let bytes := text.toUTF8.toList
  let place (s : Stop) : Fault :=
    let before := bytes.take s.2
    ⟨s.1, 1 + before.count 10, (before.reverse.takeWhile (· != 10)).length⟩
  match Reader.read (3 * bytes.length + 8) 128 .value ⟨bytes, 0⟩ with
  | .error s => some (place s)
  | .ok r =>
    let r := r.skipBlanks
    if r.rest.isEmpty then none else some (place (r.ahead .trailing))

end Reroot.Json
