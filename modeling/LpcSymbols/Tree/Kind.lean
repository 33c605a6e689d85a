/-
The kinds of syntax elements.

Tokens and nodes of an LPC source tree carry a kind.  In a tree the kind is stored
as a number, its tag, and a tree may hold tags that no kind has; such an element
reads as `error`.
-/

namespace LpcSymbols

/-- The kind of a token or node. -/
inductive Kind where
  -- tokens
  | whitespace | comment | ident | intNumber | floatNumber | stringLit | charLit | headerName
  | lParen | rParen | lCurly | rCurly | lBrack | rBrack | semicolon | comma | colon | dot
  | star | eq | arrow | plus | minus | slash | percent | bang | lt | gt | eq2 | neq | amp2
  | pipe2 | closureOpen | closureClose | ifKw | elseKw | returnKw | whileKw | forKw | foreachKw
  | inheritKw | functionKw | typeKw | modifierKw | defineLine | includeKw | ppKeyword | ppText
  -- nodes
  | sourceFile | error | defineDirective | includeDirective | selectionDirective
  | inheritStatement | inheritTarget | functionDecl | functionHeader | modifierList | name
  | paramList | param | primitiveType | variableDecl | variableDeclarator | block
  | exprStatement | returnStatement | whileStatement | forStatement | foreachStatement
  | ifStatement | ifClause | elseIfClause | elseClause | condition | assignExpr | binaryExpr
  | prefixExpr | parenExpr | primaryExpr | identExpr | literal | methodInvocation
  | argumentList | indexExpr | inlineClosure
deriving DecidableEq, Inhabited

/-- The branch of an `if` statement that a clause stands for. -/
inductive Branch where
  | ifBranch
  | elseIf
  | elseBranch
deriving DecidableEq, Inhabited

namespace Branch

/-- Name of the branch. -/
def name : Branch → String
  | .ifBranch => "If"
  | .elseIf => "ElseIf"
  | .elseBranch => "Else"

/-- How labels of the branch begin, as in `elseif_42_1`. -/
def label : Branch → String
  | .ifBranch => "if"
  | .elseIf => "elseif"
  | .elseBranch => "else"

end Branch

namespace Kind

/-- All kinds, in the order of their tags. -/
def all : List Kind :=
  [.whitespace, .comment, .ident, .intNumber, .floatNumber, .stringLit, .charLit, .headerName,
  .lParen, .rParen, .lCurly, .rCurly, .lBrack, .rBrack, .semicolon, .comma, .colon, .dot,
  .star, .eq, .arrow, .plus, .minus, .slash, .percent, .bang, .lt, .gt, .eq2, .neq, .amp2,
  .pipe2, .closureOpen, .closureClose, .ifKw, .elseKw, .returnKw, .whileKw, .forKw, .foreachKw,
  .inheritKw, .functionKw, .typeKw, .modifierKw, .defineLine, .includeKw, .ppKeyword, .ppText,
  .sourceFile, .error, .defineDirective, .includeDirective, .selectionDirective,
  .inheritStatement, .inheritTarget, .functionDecl, .functionHeader, .modifierList, .name,
  .paramList, .param, .primitiveType, .variableDecl, .variableDeclarator, .block,
  .exprStatement, .returnStatement, .whileStatement, .forStatement, .foreachStatement,
  .ifStatement, .ifClause, .elseIfClause, .elseClause, .condition, .assignExpr, .binaryExpr,
  .prefixExpr, .parenExpr, .primaryExpr, .identExpr, .literal, .methodInvocation,
  .argumentList, .indexExpr, .inlineClosure]

/-- How the kind is shown. -/
def render : Kind → String
  | .whitespace => "WHITESPACE"
  | .comment => "COMMENT"
  | .ident => "IDENT"
  | .intNumber => "INT_NUMBER"
  | .floatNumber => "FLOAT_NUMBER"
  | .stringLit => "STRING_LIT"
  | .charLit => "CHAR_LIT"
  | .headerName => "HEADER_NAME"
  | .lParen => "L_PAREN"
  | .rParen => "R_PAREN"
  | .lCurly => "L_CURLY"
  | .rCurly => "R_CURLY"
  | .lBrack => "L_BRACK"
  | .rBrack => "R_BRACK"
  | .semicolon => "SEMICOLON"
  | .comma => "COMMA"
  | .colon => "COLON"
  | .dot => "DOT"
  | .star => "STAR"
  | .eq => "EQ"
  | .arrow => "ARROW"
  | .plus => "PLUS"
  | .minus => "MINUS"
  | .slash => "SLASH"
  | .percent => "PERCENT"
  | .bang => "BANG"
  | .lt => "LT"
  | .gt => "GT"
  | .eq2 => "EQ2"
  | .neq => "NEQ"
  | .amp2 => "AMP2"
  | .pipe2 => "PIPE2"
  | .closureOpen => "CLOSURE_OPEN"
  | .closureClose => "CLOSURE_CLOSE"
  | .ifKw => "IF_KW"
  | .elseKw => "ELSE_KW"
  | .returnKw => "RETURN_KW"
  | .whileKw => "WHILE_KW"
  | .forKw => "FOR_KW"
  | .foreachKw => "FOREACH_KW"
  | .inheritKw => "INHERIT_KW"
  | .functionKw => "FUNCTION_KW"
  | .typeKw => "TYPE_KW"
  | .modifierKw => "MODIFIER_KW"
  | .defineLine => "DEFINE_LINE"
  | .includeKw => "INCLUDE_KW"
  | .ppKeyword => "PP_KEYWORD"
  | .ppText => "PP_TEXT"
  | .sourceFile => "SOURCE_FILE"
  | .error => "ERROR"
  | .defineDirective => "DEFINE_DIRECTIVE"
  | .includeDirective => "INCLUDE_DIRECTIVE"
  | .selectionDirective => "SELECTION_DIRECTIVE"
  | .inheritStatement => "INHERIT_STATEMENT"
  | .inheritTarget => "INHERIT_TARGET"
  | .functionDecl => "FUNCTION_DECL"
  | .functionHeader => "FUNCTION_HEADER"
  | .modifierList => "MODIFIER_LIST"
  | .name => "NAME"
  | .paramList => "PARAM_LIST"
  | .param => "PARAM"
  | .primitiveType => "PRIMITIVE_TYPE"
  | .variableDecl => "VARIABLE_DECL"
  | .variableDeclarator => "VARIABLE_DECLARATOR"
  | .block => "BLOCK"
  | .exprStatement => "EXPR_STATEMENT"
  | .returnStatement => "RETURN_STATEMENT"
  | .whileStatement => "WHILE_STATEMENT"
  | .forStatement => "FOR_STATEMENT"
  | .foreachStatement => "FOREACH_STATEMENT"
  | .ifStatement => "IF_STATEMENT"
  | .ifClause => "IF_CLAUSE"
  | .elseIfClause => "ELSE_IF_CLAUSE"
  | .elseClause => "ELSE_CLAUSE"
  | .condition => "CONDITION"
  | .assignExpr => "ASSIGN_EXPR"
  | .binaryExpr => "BINARY_EXPR"
  | .prefixExpr => "PREFIX_EXPR"
  | .parenExpr => "PAREN_EXPR"
  | .primaryExpr => "PRIMARY_EXPR"
  | .identExpr => "IDENT_EXPR"
  | .literal => "LITERAL"
  | .methodInvocation => "METHOD_INVOCATION"
  | .argumentList => "ARGUMENT_LIST"
  | .indexExpr => "INDEX_EXPR"
  | .inlineClosure => "INLINE_CLOSURE"

/-- The number that stands for the kind in a tree. -/
def tag (k : Kind) : Nat := k.ctorIdx

/-- The kind that a number stands for.  A number without a kind stands for `error`. -/
def ofTag (tag : Nat) : Kind := all[tag]?.getD .error

/-- The kind of a name. -/
def ofName? (s : String) : Option Kind := all.find? (·.render == s)

/-- White space and comments. -/
def isTrivia : Kind → Bool
  | .whitespace | .comment => true
  | _ => false

/-- Nodes at which a search outward for a closure's name ends. -/
def endsStatement : Kind → Bool
  | .sourceFile | .block | .functionDecl | .exprStatement | .returnStatement | .variableDecl
  | .ifStatement | .whileStatement | .forStatement | .foreachStatement => true
  | _ => false

/-- The branch that a clause of an `if` statement stands for. -/
def branch? : Kind → Option Branch
  | .ifClause => some .ifBranch
  | .elseIfClause => some .elseIf
  | .elseClause => some .elseBranch
  | _ => none

theorem ofTag_tag (k : Kind) : ofTag k.tag = k := by cases k <;> rfl

end Kind

end LpcSymbols
