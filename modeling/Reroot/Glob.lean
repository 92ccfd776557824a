
namespace Reroot

namespace Glob

inductive Member where
  | single (c : Char)
  | range (lo hi : Char)
  deriving DecidableEq, Repr

inductive Token where
  | char (c : Char)
  | anyChar
  | anySequence
  | anyComponents
  | oneOf (members : List Member)
  | noneOf (members : List Member)
  deriving DecidableEq, Repr

inductive Fault where
  | wildcards (pos : Nat)
  | recursive (pos : Nat)
  | range (pos : Nat)
  | stated (text : String)
  deriving DecidableEq, Repr

def Fault.message : Fault → String
  | .wildcards pos =>
    "Pattern syntax error near position " ++ toString pos
      ++ ": wildcards are either regular \x60*\x60 or recursive \x60**\x60"
  | .recursive pos =>
    "Pattern syntax error near position " ++ toString pos
      ++ ": recursive wildcards must form a single path component"
  | .range pos =>
    "Pattern syntax error near position " ++ toString pos ++ ": invalid range pattern"
  | .stated text => text

def members : List Char → List Member
  | a :: '-' :: b :: cs => .range a b :: members cs
  | c :: cs => .single c :: members cs
  | [] => []

def untilBracket : List Char → Option (List Char × List Char)
  | [] => none
  | ']' :: cs => some ([], cs)
  | c :: cs => (untilBracket cs).map fun p => (c :: p.1, p.2)

/-- The class behind an opening bracket and the rest of the pattern. The first character of a class
belongs to it whatever it is. -/
def classToken : List Char → Option (Token × List Char)
  | '!' :: c :: d :: cs =>
    (untilBracket (d :: cs)).map fun p => (.noneOf (members (c :: p.1)), p.2)
  | '!' :: _ => none
  | c :: d :: cs => (untilBracket (d :: cs)).map fun p => (.oneOf (members (c :: p.1)), p.2)
  | _ => none

def addComponents (tokens : List Token) : List Token :=
  if 1 < tokens.length && tokens.head? == some .anyComponents then tokens
  else .anyComponents :: tokens

def parseLoop (length : Nat) : Nat → Option Char → List Char → List Token →
    Except Fault (List Token)
  | 0, _, _, tokens => .ok tokens.reverse
  | _ + 1, _, [], tokens => .ok tokens.reverse
  | fuel + 1, before, c :: cs, tokens =>
    let pos := length - (c :: cs).length
    if c == '?' then parseLoop length fuel (some c) cs (.anyChar :: tokens)
    else if c == '*' then
      let run := ((c :: cs).takeWhile (· == '*')).length
      let rest := (c :: cs).drop run
      if 2 < run then .error (.wildcards (pos + 2))
      else if run == 2 then
        if pos == 0 || before == some '/' then
          match rest with
          | [] => .ok (addComponents tokens).reverse
          | d :: ds =>
            if d == '/' then parseLoop length fuel (some '/') ds (addComponents tokens)
            else .error (.recursive (pos + 2))
        else .error (.recursive (pos - 1))
      else parseLoop length fuel (some '*') rest (.anySequence :: tokens)
    else if c == '[' then
      match classToken cs with
      | some (token, rest) => parseLoop length fuel (some ']') rest (token :: tokens)
      | none => .error (.range pos)
    else parseLoop length fuel (some c) cs (.char c :: tokens)

def Member.contains (c : Char) : Member → Bool
  | .single d => c == d
  | .range lo hi => lo ≤ c && c ≤ hi

def Token.takes (c : Char) : Token → Bool
  | .char d => c == d
  | .anyChar => true
  | .oneOf ms => ms.any (·.contains c)
  | .noneOf ms => !ms.any (·.contains c)
  | .anySequence => false
  | .anyComponents => false

def advance (takes : Char → Bool) : List Char → List Bool → List Bool
  | c :: cs, m :: ms => (m && takes c) :: advance takes cs ms
  | _, _ => []

def spread : Bool → List Bool → List Bool
  | _, [] => []
  | seen, m :: ms => (seen || m) :: spread (seen || m) ms

def spreadComponents : Bool → Bool → List Char → List Bool → List Bool
  | _, _, _, [] => []
  | seen, _, [], m :: _ => [seen || m]
  | seen, slash, c :: cs, m :: ms =>
    (m || (seen && slash)) :: spreadComponents (seen || m) (c == '/') cs ms

def Token.reach (cs : List Char) (marks : List Bool) : Token → List Bool
  | .anySequence => spread false marks
  | .anyComponents => spreadComponents false false cs marks
  | t => false :: advance (t.takes ·) cs marks

def covers (ts : List Token) (cs : List Char) : Bool :=
  (ts.foldl (fun marks t => t.reach cs marks) (true :: cs.map fun _ => false)).getLastD false

end Glob

structure Glob where
  tokens : List Glob.Token
  deriving DecidableEq, Repr

namespace Glob

def parse (pattern : String) : Except Fault Glob :=
  let cs := pattern.toList
  match parseLoop cs.length (cs.length + 1) none cs [] with
  | .ok tokens => .ok ⟨tokens⟩
  | .error fault => .error fault

def matchesPath (g : Glob) (path : String) : Bool :=
  covers g.tokens path.toList

def parseAll : List String → Except (String × Fault) (List Glob)
  | [] => .ok []
  | p :: ps =>
    match parse p with
    | .error fault => .error (p, fault)
    | .ok g =>
      match parseAll ps with
      | .error e => .error e
      | .ok gs => .ok (g :: gs)

def anyCovers (gs : List Glob) (path : String) : Bool :=
  gs.any (·.matchesPath path)

end Glob

end Reroot
