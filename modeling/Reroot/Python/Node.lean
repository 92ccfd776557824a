
namespace Reroot.Python

inductive Kind where
  | module | importStatement | importPrefix | relativeImport | futureImportStatement
  | importFromStatement | aliasedImport | wildcardImport | printStatement | chevron
  | assertStatement | expressionStatement | namedExpression | returnStatement | deleteStatement
  | raiseStatement | passStatement | breakStatement | continueStatement | ifStatement
  | elifClause | elseClause | matchStatement | caseClause | forStatement | whileStatement
  | tryStatement | exceptClause | exceptGroupClause | finallyClause | withStatement
  | withClause | withItem | functionDefinition | parameters | lambdaParameters | listSplat
  | dictionarySplat | globalStatement | nonlocalStatement | execStatement | typeAliasStatement
  | classDefinition | typeParameter | argumentList | decoratedDefinition | decorator | block
  | expressionList | dottedName | casePattern | unionPattern | listPattern | tuplePattern
  | dictPattern | keywordPattern | splatPattern | classPattern | complexPattern
  | defaultParameter | typedDefaultParameter | typedParameter | listSplatPattern
  | dictionarySplatPattern | asPattern | asPatternTarget | patternList | notOperator
  | booleanOperator | binaryOperator | unaryOperator | comparisonOperator | lambdaExpr
  | assignment | augmentedAssignment | yieldExpr | attribute | subscript | slice | ellipsis
  | callExpr | typeExpr | splatType | genericType | unionType | constrainedType | memberType
  | keywordArgument | listDisplay | setDisplay | tuple | dictionary | pair | listComprehension
  | dictionaryComprehension | setComprehension | generatorExpression | parenthesizedExpression
  | forInClause | ifClause | conditionalExpression | concatenatedString | stringLit
  | interpolation | formatSpecifier | formatExpression | typeConversion | integerLit | floatLit
  | identifier | trueLit | falseLit | noneLit | awaitExpr | comment | lineContinuation
  | positionalSeparator | keywordSeparator
  | mark (text : String)
  deriving DecidableEq, Repr

def Kind.label : Kind → String
  | .module => "module"
  | .importStatement => "import_statement"
  | .importPrefix => "import_prefix"
  | .relativeImport => "relative_import"
  | .futureImportStatement => "future_import_statement"
  | .importFromStatement => "import_from_statement"
  | .aliasedImport => "aliased_import"
  | .wildcardImport => "wildcard_import"
  | .printStatement => "print_statement"
  | .chevron => "chevron"
  | .assertStatement => "assert_statement"
  | .expressionStatement => "expression_statement"
  | .namedExpression => "named_expression"
  | .returnStatement => "return_statement"
  | .deleteStatement => "delete_statement"
  | .raiseStatement => "raise_statement"
  | .passStatement => "pass_statement"
  | .breakStatement => "break_statement"
  | .continueStatement => "continue_statement"
  | .ifStatement => "if_statement"
  | .elifClause => "elif_clause"
  | .elseClause => "else_clause"
  | .matchStatement => "match_statement"
  | .caseClause => "case_clause"
  | .forStatement => "for_statement"
  | .whileStatement => "while_statement"
  | .tryStatement => "try_statement"
  | .exceptClause => "except_clause"
  | .exceptGroupClause => "except_group_clause"
  | .finallyClause => "finally_clause"
  | .withStatement => "with_statement"
  | .withClause => "with_clause"
  | .withItem => "with_item"
  | .functionDefinition => "function_definition"
  | .parameters => "parameters"
  | .lambdaParameters => "lambda_parameters"
  | .listSplat => "list_splat"
  | .dictionarySplat => "dictionary_splat"
  | .globalStatement => "global_statement"
  | .nonlocalStatement => "nonlocal_statement"
  | .execStatement => "exec_statement"
  | .typeAliasStatement => "type_alias_statement"
  | .classDefinition => "class_definition"
  | .typeParameter => "type_parameter"
  | .argumentList => "argument_list"
  | .decoratedDefinition => "decorated_definition"
  | .decorator => "decorator"
  | .block => "block"
  | .expressionList => "expression_list"
  | .dottedName => "dotted_name"
  | .casePattern => "case_pattern"
  | .unionPattern => "union_pattern"
  | .listPattern => "list_pattern"
  | .tuplePattern => "tuple_pattern"
  | .dictPattern => "dict_pattern"
  | .keywordPattern => "keyword_pattern"
  | .splatPattern => "splat_pattern"
  | .classPattern => "class_pattern"
  | .complexPattern => "complex_pattern"
  | .defaultParameter => "default_parameter"
  | .typedDefaultParameter => "typed_default_parameter"
  | .typedParameter => "typed_parameter"
  | .listSplatPattern => "list_splat_pattern"
  | .dictionarySplatPattern => "dictionary_splat_pattern"
  | .asPattern => "as_pattern"
  | .asPatternTarget => "as_pattern_target"
  | .patternList => "pattern_list"
  | .notOperator => "not_operator"
  | .booleanOperator => "boolean_operator"
  | .binaryOperator => "binary_operator"
  | .unaryOperator => "unary_operator"
  | .comparisonOperator => "comparison_operator"
  | .lambdaExpr => "lambda"
  | .assignment => "assignment"
  | .augmentedAssignment => "augmented_assignment"
  | .yieldExpr => "yield"
  | .attribute => "attribute"
  | .subscript => "subscript"
  | .slice => "slice"
  | .ellipsis => "ellipsis"
  | .callExpr => "call"
  | .typeExpr => "type"
  | .splatType => "splat_type"
  | .genericType => "generic_type"
  | .unionType => "union_type"
  | .constrainedType => "constrained_type"
  | .memberType => "member_type"
  | .keywordArgument => "keyword_argument"
  | .listDisplay => "list"
  | .setDisplay => "set"
  | .tuple => "tuple"
  | .dictionary => "dictionary"
  | .pair => "pair"
  | .listComprehension => "list_comprehension"
  | .dictionaryComprehension => "dictionary_comprehension"
  | .setComprehension => "set_comprehension"
  | .generatorExpression => "generator_expression"
  | .parenthesizedExpression => "parenthesized_expression"
  | .forInClause => "for_in_clause"
  | .ifClause => "if_clause"
  | .conditionalExpression => "conditional_expression"
  | .concatenatedString => "concatenated_string"
  | .stringLit => "string"
  | .interpolation => "interpolation"
  | .formatSpecifier => "format_specifier"
  | .formatExpression => "format_expression"
  | .typeConversion => "type_conversion"
  | .integerLit => "integer"
  | .floatLit => "float"
  | .identifier => "identifier"
  | .trueLit => "true"
  | .falseLit => "false"
  | .noneLit => "none"
  | .awaitExpr => "await"
  | .comment => "comment"
  | .lineContinuation => "line_continuation"
  | .positionalSeparator => "positional_separator"
  | .keywordSeparator => "keyword_separator"
  | .mark text => text

inductive Role where
  | name | asName | moduleName | parameters | returnType | body | superclasses
  | left | right | typeOf | value | object | attribute
  deriving DecidableEq, Repr

structure Span where
  start : Nat
  stop : Nat
  deriving DecidableEq, Repr

inductive Node where
  | mk (role : Option Role) (kind : Kind) (span : Span) (children : List Node)
  deriving Repr

namespace Node

mutual

def decEq : (a b : Node) → Decidable (a = b)
  | mk r k s cs, mk r' k' s' cs' =>
    if h : r = r' ∧ k = k' ∧ s = s' then
      match decEqAll cs cs' with
      | .isTrue hcs => .isTrue (by rw [h.1, h.2.1, h.2.2, hcs])
      | .isFalse hcs => .isFalse fun heq => hcs (Node.mk.inj heq).2.2.2
    else .isFalse fun heq =>
      h ⟨(Node.mk.inj heq).1, (Node.mk.inj heq).2.1, (Node.mk.inj heq).2.2.1⟩

def decEqAll : (as bs : List Node) → Decidable (as = bs)
  | [], [] => .isTrue rfl
  | [], _ :: _ => .isFalse nofun
  | _ :: _, [] => .isFalse nofun
  | a :: as, b :: bs =>
    match decEq a b, decEqAll as bs with
    | .isTrue h, .isTrue hs => .isTrue (by rw [h, hs])
    | .isFalse h, _ => .isFalse fun heq => h (List.cons.inj heq).1
    | _, .isFalse hs => .isFalse fun heq => hs (List.cons.inj heq).2

end

instance : DecidableEq Node := decEq

def role : Node → Option Role
  | mk r _ _ _ => r

def kind : Node → Kind
  | mk _ k _ _ => k

def span : Node → Span
  | mk _ _ s _ => s

def children : Node → List Node
  | mk _ _ _ cs => cs

def start (n : Node) : Nat := n.span.start

def stop (n : Node) : Nat := n.span.stop

def withRole (n : Node) (r : Role) : Node :=
  mk (some r) n.kind n.span n.children

def isNamed (n : Node) : Bool :=
  match n.kind with
  | .mark _ => false
  | _ => true

def namedChildren (n : Node) : List Node :=
  n.children.filter isNamed

def parts (n : Node) (r : Role) : List Node :=
  n.children.filter fun c => c.role == some r

def part? (n : Node) (r : Role) : Option Node :=
  n.children.find? fun c => c.role == some r

def spanning (k : Kind) (here : Nat) (cs : List Node) : Node :=
  mk none k ⟨(cs.head?.map start).getD here, (cs.getLast?.map stop).getD here⟩ cs

mutual

def preorder : Node → List Node
  | mk r k s cs => mk r k s cs :: preorderAll cs

def preorderAll : List Node → List Node
  | [] => []
  | c :: cs => if c.isNamed then c.preorder ++ preorderAll cs else preorderAll cs

end

end Node

end Reroot.Python
