import Reroot.Text.Basic

namespace Reroot

def keywords : List String :=
  ["False", "None", "True", "and", "as", "assert", "async", "await", "break", "class", "continue",
   "def", "del", "elif", "else", "except", "finally", "for", "from", "global", "if", "import", "in",
   "is", "lambda", "nonlocal", "not", "or", "pass", "raise", "return", "try", "while", "with",
   "yield"]

def isKeyword (s : String) : Bool :=
  keywords.contains s

def isWord (s : String) : Bool :=
  match s.toList with
  | [] => false
  | c :: cs =>
    (c.isAlpha || c == '_') && cs.all fun d => d.isAlpha || d.isDigit || d == '_'

def isSegment (s : String) : Bool :=
  isWord s && !isKeyword s

def dotted (segments : List String) : String :=
  String.intercalate "." segments

def segmentsOf (s : String) : List String :=
  Text.split '.' s

structure QualifiedName where
  segments : List String
  nonempty : segments ≠ []
  valid : ∀ s ∈ segments, isSegment s = true
  deriving DecidableEq

inductive NameError where
  | malformed (name : String)
  | keyword (name word : String)
  deriving DecidableEq, Repr

def NameError.message : NameError → String
  | .malformed name => name
  | .keyword name word => name ++ " ('" ++ word ++ "' is a keyword)"

namespace QualifiedName

theorem isSegment_of_find?_isKeyword {segments : List String}
    (words : segments.all isWord = true) (free : segments.find? isKeyword = none) :
    ∀ s ∈ segments, isSegment s = true := by
  intro s hs
  have hw := List.all_eq_true.1 words s hs
  have hk := List.find?_eq_none.1 free s hs
  simp [isSegment, hw, hk]

def parse (name : String) : Except NameError QualifiedName :=
  let segments := segmentsOf name
  if words : segments.all isWord = true then
    match free : segments.find? isKeyword with
    | some word => .error (.keyword name word)
    | none =>
      .ok ⟨segments, Text.split_ne_nil '.' name, isSegment_of_find?_isKeyword words free⟩
  else .error (.malformed name)

def text (q : QualifiedName) : String :=
  dotted q.segments

def length (q : QualifiedName) : Nat :=
  q.segments.length

def first (q : QualifiedName) : String :=
  q.segments.head q.nonempty

def last (q : QualifiedName) : String :=
  q.segments.getLast q.nonempty

def parent? (q : QualifiedName) : Option String :=
  if q.length < 2 then none else some (dotted q.segments.dropLast)

def isPrefixOf (q : QualifiedName) (segments : List String) : Bool :=
  q.segments.isPrefixOf segments

def replace (old new : QualifiedName) (segments : List String) : String :=
  dotted (new.segments ++ segments.drop old.length)

def child (q : QualifiedName) (name : String) : Except NameError QualifiedName :=
  parse (q.text ++ "." ++ name)

end QualifiedName

end Reroot
