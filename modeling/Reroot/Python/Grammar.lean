import Reroot.Python.Gram

/-!
The grammar of Python source texts. Words become keywords only where the grammar has a use for
them, so a keyword may stand wherever nothing but a name can; the statement forms of the second
version of the language are read as well.
-/

namespace Reroot.Python

inductive Rule where
  | module | statement | simpleStatements | simpleStatement | compound | suite
  | importList | importItem | importTail | dottedName
  | expressionItems | expressions | assignTail | rightSide | yieldExpr
  | expression | lambdaExpr | conditional | aliased | disjunction | conjunction | negation
  | operand | named | comparison | bitOr | bitAnd | bitXor | shift | sum | product | unary | power
  | primary | atom | strings | string | interpolation | embedded | formatSpec
  | paren | bracket | brace | element | moreElements | dictItem | arguments | argument
  | subscriptItem | comprehension | forIn | iterable | iterableLambda | targets
  | parameterList | parameter | lambdaParameter | typeCore | typeExpr | typeParameter
  | elifClause | elseClause | exceptClause | exceptGroup | finallyClause | decorator
  | functionDefinition | classDefinition | matchStatement | caseClause
  | casePatterns | casePattern | simplePattern
  deriving DecidableEq, Repr

namespace Rule

open Gram

def compoundWords : List String :=
  ["if", "for", "while", "try", "with", "def", "class", "@"]

def simpleWords : List String :=
  ["import", "from", "assert", "return", "del", "raise", "pass", "break", "continue", "global",
   "nonlocal"]

def literalWords : List String :=
  ["True", "False", "None"]

def augmentedMarks : List String :=
  ["+=", "-=", "*=", "/=", "@=", "//=", "%=", "**=", ">>=", "<<=", "&=", "^=", "|="]

def comparisonMark : Gram Rule :=
  oneOf ["<", "<=", "==", "!=", ">=", ">", "<>", "in"] <|> (tok "not" ++ tok "in")
    <|> (tok "is" ++ tok "not") <|> tok "is"

def targetKinds : List Kind :=
  [.identifier, .attribute, .subscript]

def leftChain (next : Rule) (ops : List String) : Gram Rule :=
  fresh (call next ++ many (oneOf ops ++ call next ++ pack .binaryOperator))

def commaList (item : Gram Rule) : Gram Rule :=
  item ++ many (tok "," ++ boundary ++ item) ++ opt (tok "," ++ boundary)

def attributeTail : Gram Rule :=
  tag .object ++ tok "." ++ part .attribute (ident []) ++ pack .attribute

def subscriptTail : Gram Rule :=
  tok "[" ++ within .closing (commaList (call subscriptItem)) ++ tok "]" ++ pack .subscript

def callTail : Gram Rule :=
  call arguments ++ pack .callExpr

/-- The longest name, attribute or subscript behind a star: `*a.f()` calls `*a.f`. -/
def starred : Gram Rule :=
  fresh (call atom ++ boundary
    ++ many (many (callTail ++ boundary) ++ (attributeTail <|> subscriptTail) ++ boundary))
    ++ latest targetKinds

def statementEnd : Gram Rule :=
  ahead (tok ";" <|> newline)

def optElse : Gram Rule :=
  call elseClause <|> notTok "else"

def optFinally : Gram Rule :=
  call finallyClause <|> notTok "finally"

def identifierList (k : Kind) (keyword : String) : Gram Rule :=
  node k (tok keyword ++ ident [] ++ settle .lineEnd
    ++ many (tok "," ++ ident [] ++ settle .lineEnd))

def wordStatement (k : Kind) (keyword : String) : Gram Rule :=
  node k (tok keyword) ++ settle .lineEnd

def expressionStatement : Gram Rule :=
  fresh (within .lineEnd
    (call yieldExpr <|> (notTok "yield" ++ call expressionItems ++ opt (call assignTail)))
    ++ pack .expressionStatement)

def printStatement (args : Gram Rule) : Gram Rule :=
  node .printStatement (tok "print" ++ settle .lineEnd ++ within .lineEnd args)

def fromStatement : Gram Rule :=
  node .futureImportStatement
      (tok "from" ++ tok "__future__" ++ tok "import" ++ call importTail)
  <|> node .importFromStatement
      (tok "from"
        ++ within .token (part .moduleName
          (node .relativeImport
              (node .importPrefix (glued "." ++ many (glued "."))
                ++ opt (notTok "import" ++ call dottedName))
            <|> (notTok "__future__" ++ call dottedName)))
        ++ tok "import"
        ++ ((node .wildcardImport (tok "*") ++ settle .lineEnd) <|> call importTail))

def displayTail (close : String) (comprehensionKind single many' : Kind) : Gram Rule :=
  (call comprehension ++ tok close ++ pack comprehensionKind)
    <|> (tok close ++ pack single)
    <|> (call moreElements ++ tok close ++ pack many')

def embeddedBody : Gram Rule :=
  braceOpen
    ++ within .closing
      ((unless_ (ident [] ++ tok ":=") <|> ahead (call named)) ++ call embedded)
    ++ opt (tok "=") ++ opt conversion ++ opt (call formatSpec) ++ tok "\x7d"

def defaultTail : Gram Rule :=
  tag .name ++ tok "=" ++ call expression ++ tag .value ++ pack .defaultParameter

def starParameter (mark : String) (k : Kind) : Gram Rule :=
  tok mark ++ call primary ++ latest targetKinds ++ pack k

def tupleParameter : Gram Rule :=
  call paren ++ target ++ boundary ++ opt defaultTail

def patternGroup (opening closing : String) (k : Kind) (items : Gram Rule) : Gram Rule :=
  node k (tok opening ++ settle .closing ++ within .closing items ++ tok closing) ++ boundary

def starPattern : Gram Rule :=
  node .splatPattern ((tok "*" <|> tok "**") ++ (tok "_" <|> ident [])) ++ boundary

def phrase : Rule → Gram Rule
  | .module => node .module (many (call statement)) ++ endOfText
  | .statement =>
    settle .statement
      ++ (call compound <|> (unless_ (oneOf compoundWords) ++ call simpleStatements))
  | .simpleStatements =>
    call simpleStatement
      ++ many (tok ";" ++ settle .lineEnd ++ call simpleStatement)
      ++ opt (tok ";") ++ settle .lineEnd ++ newline
  | .simpleStatement =>
    node .importStatement (tok "import" ++ within .lineEnd (call importList))
    <|> fromStatement
    <|> node .assertStatement
        (tok "assert" ++ within .lineEnd (call expression ++ many (tok "," ++ call expression)))
    <|> node .returnStatement
        (tok "return" ++ settle .lineEnd ++ within .lineEnd (opt (call expressions)))
    <|> node .deleteStatement (tok "del" ++ within .lineEnd (call expressions))
    <|> node .raiseStatement
        (tok "raise" ++ settle .lineEnd
          ++ within .lineEnd
            (opt (notTok "from" ++ call expressions) ++ opt (tok "from" ++ call expression)))
    <|> wordStatement .passStatement "pass"
    <|> wordStatement .breakStatement "break"
    <|> wordStatement .continueStatement "continue"
    <|> identifierList .globalStatement "global"
    <|> identifierList .nonlocalStatement "nonlocal"
    <|> (node .typeAliasStatement
          (tok "type" ++ settle .lineEnd ++ within .token (call typeCore) ++ tok "="
            ++ within .lineEnd (call typeExpr))
        ++ statementEnd)
    <|> printStatement
        (node .chevron (tok ">>" ++ call expression)
          ++ many (tok "," ++ boundary ++ call expression)
          ++ opt (tok "," ++ boundary))
    <|> (unless_ (oneOf simpleWords) ++ expressionStatement ++ statementEnd)
    <|> printStatement (commaList (call expression))
    <|> node .execStatement
        (tok "exec" ++ settle .lineEnd
          ++ within .lineEnd
            ((call string <|> ident []) ++ boundary
              ++ opt (tok "in" ++ call expression ++ many (tok "," ++ call expression))))
  | .importList => commaList (call importItem)
  | .importItem =>
    fresh (call dottedName
      ++ opt (tag .name ++ tok "as" ++ ident [] ++ tag .asName ++ boundary ++ pack .aliasedImport)
      ++ tag .name)
  | .importTail =>
    (tok "(" ++ within .closing (call importList) ++ tok ")" ++ settle .lineEnd)
      <|> within .lineEnd (call importList)
  | .dottedName =>
    node .dottedName (ident [] ++ boundary ++ many (tok "." ++ ident [] ++ boundary))
  | .expressionItems => commaList (call expression)
  | .expressions => fresh (call expressionItems ++ packMany .expressionList)
  | .assignTail =>
    packMany .expressionList ++ target ++ tag .left
      ++ ((tok "=" ++ call rightSide ++ tag .right ++ pack .assignment)
        <|> (tok ":" ++ call typeExpr ++ tag .typeOf
            ++ opt (tok "=" ++ call rightSide ++ tag .right) ++ pack .assignment)
        <|> (oneOf augmentedMarks ++ call rightSide ++ tag .right ++ pack .augmentedAssignment))
  | .rightSide =>
    call yieldExpr
      <|> (notTok "yield"
          ++ fresh (call expressionItems ++ (call assignTail <|> packMany .expressionList)))
  | .yieldExpr =>
    node .yieldExpr (tok "yield" ++ boundary
      ++ ((tok "from" ++ call expression) <|> (notTok "from" ++ opt (call expressions))))
  | .expression => call lambdaExpr <|> (notTok "lambda" ++ call conditional)
  | .lambdaExpr =>
    node .lambdaExpr
      (tok "lambda"
        ++ opt (part .parameters
          (node .lambdaParameters
            (within .token (commaList (call lambdaParameter)))))
        ++ tok ":" ++ part .body (call expression))
  | .conditional =>
    fresh (call aliased
      ++ opt (tok "if" ++ within .token (call expression) ++ tok "else" ++ call expression
        ++ pack .conditionalExpression))
  | .aliased =>
    fresh (call disjunction
      ++ many (tok "as"
        ++ part .asName (node .asPatternTarget (call lambdaExpr <|> call disjunction))
        ++ pack .asPattern))
  | .disjunction =>
    fresh (call conjunction
      ++ many (tok "or" ++ (call lambdaExpr <|> (notTok "lambda" ++ call conjunction))
        ++ pack .booleanOperator))
  | .conjunction =>
    fresh (call negation ++ many (tok "and" ++ call operand ++ pack .booleanOperator))
  | .operand => call lambdaExpr <|> (notTok "lambda" ++ call negation)
  | .negation =>
    node .notOperator (tok "not" ++ call operand)
      <|> (notTok "not" ++ (call named <|> call comparison))
  | .named =>
    node .namedExpression
      (part .name (ident literalWords) ++ boundary ++ tok ":="
        ++ part .value (call lambdaExpr <|> (notTok "lambda" ++ call disjunction)))
  | .comparison =>
    fresh (call bitOr
      ++ opt (comparisonMark ++ call bitOr ++ many (comparisonMark ++ call bitOr)
        ++ pack .comparisonOperator))
  | .bitOr => leftChain bitAnd ["|"]
  | .bitAnd => leftChain bitXor ["&"]
  | .bitXor => leftChain shift ["^"]
  | .shift => leftChain sum ["<<", ">>"]
  | .sum => leftChain product ["+", "-"]
  | .product => leftChain unary ["*", "@", "/", "%", "//"]
  | .unary =>
    node .unaryOperator (oneOf ["+", "-", "~"] ++ call unary)
      <|> node .awaitExpr (tok "await" ++ boundary ++ call unary)
      <|> call power
  | .power => fresh (call primary ++ opt (tok "**" ++ call unary ++ pack .binaryOperator))
  | .primary =>
    fresh (call atom ++ boundary ++ many ((attributeTail <|> subscriptTail <|> callTail) ++ boundary))
  | .atom =>
    call strings
      <|> number
      <|> node .trueLit (tok "True")
      <|> node .falseLit (tok "False")
      <|> node .noneLit (tok "None")
      <|> node .ellipsis (tok "...")
      <|> call paren
      <|> call bracket
      <|> call brace
      <|> fresh (tok "*" ++ starred ++ pack .listSplat)
      <|> ident literalWords
  | .strings =>
    fresh (call string ++ boundary
      ++ opt (call string ++ boundary ++ many (call string ++ boundary)
        ++ pack .concatenatedString))
  | .string =>
    node .stringLit
      (stringOpen ++ stringText ++ many (call interpolation ++ stringText) ++ stringClose)
  | .interpolation => node .interpolation embeddedBody
  | .embedded => call yieldExpr <|> (notTok "yield" ++ call expressions)
  | .formatSpec =>
    node .formatSpecifier
      (glued ":" ++ formatText ++ many (node .formatExpression embeddedBody ++ formatText))
  | .paren =>
    fresh (tok "(" ++ settle .closing ++ within .closing
      ((tok ")" ++ pack .tuple)
        <|> (call element ++ displayTail ")" .generatorExpression .parenthesizedExpression .tuple)))
  | .bracket =>
    fresh (tok "[" ++ settle .closing ++ within .closing
      ((tok "]" ++ pack .listDisplay)
        <|> (call element ++ displayTail "]" .listComprehension .listDisplay .listDisplay)))
  | .brace =>
    fresh (tok "\x7b" ++ settle .closing ++ within .closing
      ((tok "\x7d" ++ pack .dictionary)
        <|> ((node .dictionarySplat (tok "**" ++ call expression)
              <|> fresh (call element ++ opt (tok ":" ++ call expression ++ pack .pair)))
          ++ ((latest [.pair] ++ call comprehension ++ tok "\x7d" ++ pack .dictionaryComprehension)
            <|> (latest [.pair, .dictionarySplat]
                ++ many (tok "," ++ boundary ++ call dictItem) ++ opt (tok "," ++ boundary)
                ++ tok "\x7d" ++ pack .dictionary)
            <|> displayTail "\x7d" .setComprehension .setDisplay .setDisplay))))
  | .element =>
    call yieldExpr
      <|> (notTok "yield" ++ (node .listSplat (tok "*" ++ call expression) <|> call expression))
  | .moreElements => many (tok "," ++ boundary ++ call element) ++ opt (tok "," ++ boundary)
  | .dictItem =>
    node .dictionarySplat (tok "**" ++ call expression)
      <|> node .pair (within .token (call expression) ++ tok ":" ++ call expression)
  | .arguments =>
    fresh (tok "(" ++ settle .closing ++ within .closing
      ((tok ")" ++ pack .argumentList)
        <|> (opt (tok ",") ++ tok ")" ++ pack .argumentList)
        <|> (call argument
          ++ ((call comprehension ++ tok ")" ++ pack .generatorExpression)
            <|> (many (tok "," ++ boundary ++ call argument) ++ opt (tok "," ++ boundary)
                ++ tok ")" ++ pack .argumentList)))))
  | .argument =>
    node .listSplat (tok "*" ++ call expression)
      <|> node .dictionarySplat (tok "**" ++ call expression)
      <|> node .keywordArgument
          (unless_ (oneOf ["not", "lambda"]) ++ part .name (ident literalWords) ++ boundary
            ++ tok "=" ++ part .value (call expression))
      <|> call expression
  | .subscriptItem =>
    let bound := settle .closing ++ opt (call expression)
    let rest := tok ":" ++ bound ++ opt (tok ":" ++ bound) ++ pack .slice
    fresh ((call expression ++ opt rest) <|> rest)
  | .comprehension =>
    call forIn
      ++ many (call forIn
        <|> node .ifClause (tok "if" ++ (call lambdaExpr <|> (notTok "lambda" ++ call aliased))))
  | .forIn =>
    node .forInClause
      (opt (tok "async") ++ tok "for" ++ within .token (call targets) ++ tag .left
        ++ tok "in" ++ call iterable ++ many (tok "," ++ boundary ++ call iterable)
        ++ opt (tok "," ++ boundary))
  | .iterable => call iterableLambda <|> (notTok "lambda" ++ call aliased)
  | .iterableLambda =>
    node .lambdaExpr
      (tok "lambda"
        ++ opt (part .parameters
          (node .lambdaParameters
            (within .token (commaList (call lambdaParameter)))))
        ++ tok ":" ++ part .body (call iterable))
  | .targets =>
    fresh (call primary ++ many (tok "," ++ notTok "in" ++ call primary) ++ opt (tok ",")
      ++ packMany .expressionList ++ target)
  | .parameterList => commaList (call parameter)
  | .parameter =>
    fresh
      ((starParameter "**" .dictionarySplatPattern
          ++ opt (tok ":" ++ call typeExpr ++ tag .typeOf ++ pack .typedParameter))
        <|> (starParameter "*" .listSplatPattern
          ++ opt (tok ":" ++ call typeExpr ++ tag .typeOf ++ pack .typedParameter))
        <|> (node .keywordSeparator (tok "*") ++ boundary)
        <|> (node .positionalSeparator (tok "/") ++ boundary)
        <|> tupleParameter
        <|> (ident [] ++ boundary
          ++ opt
            (defaultTail
              <|> (tag .name ++ tok ":" ++ call typeExpr ++ tag .typeOf
                ++ ((tok "=" ++ call expression ++ tag .value ++ pack .typedDefaultParameter)
                  <|> pack .typedParameter)))))
  | .lambdaParameter =>
    fresh
      (starParameter "**" .dictionarySplatPattern
        <|> starParameter "*" .listSplatPattern
        <|> (node .keywordSeparator (tok "*") ++ boundary)
        <|> (node .positionalSeparator (tok "/") ++ boundary)
        <|> tupleParameter
        <|> (ident [] ++ boundary ++ opt defaultTail))
  | .typeCore =>
    let generic := fresh (ident literalWords ++ boundary ++ call typeParameter ++ pack .genericType)
    let item := node .typeExpr
      (generic
        <|> (unless_ (ident literalWords ++ boundary ++ tok "[")
          ++ (call expression
            <|> node .splatType ((tok "*" <|> tok "**") ++ ident [] ++ boundary))))
    fresh (item
      ++ many ((tok "|" ++ item ++ pack .unionType ++ pack .typeExpr)
        <|> (tok "." ++ ident [] ++ boundary ++ pack .memberType ++ pack .typeExpr)))
  | .typeExpr =>
    fresh (call typeCore
      ++ opt (tok ":" ++ call typeExpr ++ pack .constrainedType ++ pack .typeExpr))
  | .typeParameter =>
    node .typeParameter (tok "[" ++ within .closing (commaList (call typeExpr)) ++ tok "]")
      ++ boundary
  | .suite =>
    tok ":" ++ settle .suite
      ++ ((indent ++ node .block (many (call statement)) ++ settle .statement ++ dedent)
        <|> emptyBlock
        <|> node .block (call simpleStatements))
      ++ settle .statement
  | .elifClause =>
    node .elifClause (tok "elif" ++ within .token (call expression) ++ call suite)
  | .elseClause => node .elseClause (tok "else" ++ call suite)
  | .exceptClause =>
    node .exceptClause
      (tok "except"
        ++ within .token
          (opt (call expression ++ opt ((tok "as" <|> tok ",") ++ call expression)))
        ++ call suite)
  | .exceptGroup =>
    node .exceptGroupClause
      (glued "except*" ++ within .token (call expression ++ opt (tok "as" ++ call expression))
        ++ call suite)
  | .finallyClause => node .finallyClause (tok "finally" ++ call suite)
  | .decorator =>
    node .decorator (tok "@" ++ within .lineEnd (call expression)) ++ settle .lineEnd ++ newline
  | .functionDefinition =>
    node .functionDefinition
      (opt (tok "async") ++ tok "def" ++ part .name (ident []) ++ opt (call typeParameter)
        ++ part .parameters
          (node .parameters
            (tok "(" ++ settle .closing ++ within .closing (opt (call parameterList)) ++ tok ")"))
        ++ opt (tok "->" ++ part .returnType (within .token (call typeCore)))
        ++ part .body (call suite))
  | .classDefinition =>
    node .classDefinition
      (tok "class" ++ part .name (ident []) ++ opt (call typeParameter)
        ++ opt (part .superclasses (call arguments))
        ++ part .body (call suite))
  | .compound =>
    node .ifStatement
      (tok "if" ++ within .token (call expression) ++ call suite
        ++ many (call elifClause) ++ notTok "elif" ++ optElse)
    <|> node .forStatement
      (opt (tok "async") ++ tok "for" ++ within .token (call targets) ++ tag .left
        ++ tok "in" ++ within .token (call expressions) ++ call suite ++ optElse)
    <|> node .whileStatement
      (tok "while" ++ within .token (call expression) ++ call suite ++ optElse)
    <|> node .tryStatement
      (tok "try" ++ call suite
        ++ ((call exceptGroup ++ many (call exceptGroup) ++ notTok "except" ++ optElse
            ++ optFinally)
          <|> (call exceptClause ++ many (call exceptClause) ++ notTok "except" ++ optElse
            ++ optFinally)
          <|> call finallyClause))
    <|> node .withStatement
      (opt (tok "async") ++ tok "with"
        ++ within .token
          (node .withClause (commaList (node .withItem (call expression))))
        ++ call suite)
    <|> call functionDefinition
    <|> call classDefinition
    <|> node .decoratedDefinition
      (call decorator ++ many (call decorator)
        ++ (call classDefinition <|> call functionDefinition))
    <|> call matchStatement
  | .matchStatement =>
    node .matchStatement
      (tok "match" ++ settle .lineEnd ++ within .token (commaList (call expression))
        ++ tok ":" ++ settle .suite
        ++ ((indent ++ node .block (many (call caseClause)) ++ settle .statement ++ dedent)
          <|> emptyBlock)
        ++ settle .statement)
  | .caseClause =>
    settle .statement
      ++ node .caseClause
        (tok "case" ++ within .token (call casePatterns)
          ++ opt (node .ifClause (tok "if" ++ within .token (call expression)))
          ++ call suite)
  | .casePatterns =>
    call casePattern ++ many (tok "," ++ boundary ++ notTok "if" ++ call casePattern)
      ++ opt (tok "," ++ boundary)
  | .casePattern =>
    let keyword := node .keywordPattern
      (ident literalWords ++ boundary ++ tok "=" ++ call simplePattern)
    let union := fresh (call simplePattern
      ++ opt (tok "|" ++ call simplePattern ++ many (tok "|" ++ call simplePattern)
        ++ pack .unionPattern))
    fresh ((keyword <|> union) ++ pack .casePattern
      ++ many (tok "as" ++ ident [] ++ boundary ++ pack .asPattern ++ pack .casePattern))
  | .simplePattern =>
    starPattern
      <|> patternGroup "[" "]" .listPattern (opt (call casePatterns))
      <|> patternGroup "(" ")" .tuplePattern (opt (call casePatterns))
      <|> patternGroup "\x7b" "\x7d" .dictPattern
          (opt (commaList (starPattern
            <|> (within .token (call simplePattern) ++ tok ":" ++ call casePattern))))
      <|> call strings
      <|> (node .trueLit (tok "True") ++ boundary)
      <|> (node .falseLit (tok "False") ++ boundary)
      <|> (node .noneLit (tok "None") ++ boundary)
      <|> fresh (opt (tok "-") ++ number ++ boundary
          ++ opt ((tok "+" <|> tok "-") ++ number ++ boundary ++ pack .complexPattern))
      <|> (tok "_" ++ boundary)
      <|> fresh (call dottedName
          ++ opt (tok "(" ++ settle .closing ++ within .closing (opt (call casePatterns)) ++ tok ")"
            ++ boundary ++ pack .classPattern))

end Rule

end Reroot.Python
