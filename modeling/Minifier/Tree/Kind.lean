/-!
# Kinds of syntax nodes

The kinds that the library knows, each with its name in documents and with the ordered list of
fields that may hold child nodes. A kind of any other name is kept as it is (`other`): such a
node and everything below it is opaque to every traversal.
-/

namespace Minifier

/-- The kind of a node. -/
inductive Kind where
  | program | expressionStatement | blockStatement | staticBlock | emptyStatement
  | debuggerStatement | withStatement | returnStatement | labeledStatement | breakStatement
  | continueStatement | ifStatement | switchStatement | switchCase | throwStatement
  | tryStatement | catchClause | whileStatement | doWhileStatement | forStatement
  | forInStatement | forOfStatement | functionDeclaration | variableDeclaration
  | variableDeclarator | classDeclaration | identifier | privateIdentifier | literal
  | thisExpression | super | arrayExpression | objectExpression | property | functionExpression
  | arrowFunctionExpression | unaryExpression | updateExpression | binaryExpression
  | assignmentExpression | logicalExpression | memberExpression | chainExpression
  | conditionalExpression | callExpression | newExpression | sequenceExpression
  | parenthesizedExpression | yieldExpression | awaitExpression | importExpression | metaProperty
  | spreadElement | templateLiteral | templateElement | taggedTemplateExpression
  | comprehensionBlock | comprehensionExpression | generatorExpression | objectPattern
  | arrayPattern | restElement | assignmentPattern | classExpression | classBody
  | methodDefinition | propertyDefinition | accessorProperty | importDeclaration
  | importSpecifier | importDefaultSpecifier | importNamespaceSpecifier | importAttribute
  | exportNamedDeclaration | exportSpecifier | exportDefaultDeclaration | exportAllDeclaration
  | jsxElement | jsxOpeningElement | jsxClosingElement | jsxAttribute | jsxSpreadAttribute
  | jsxFragment | jsxOpeningFragment | jsxClosingFragment | jsxExpressionContainer
  | jsxSpreadChild | jsxEmptyExpression | jsxIdentifier | jsxMemberExpression | jsxNamespacedName
  | jsxText
  | other (name : String)
deriving DecidableEq, Repr

namespace Kind

/-- The name of a kind in documents. -/
def name : Kind → String
  | .program => "Program"
  | .expressionStatement => "ExpressionStatement"
  | .blockStatement => "BlockStatement"
  | .staticBlock => "StaticBlock"
  | .emptyStatement => "EmptyStatement"
  | .debuggerStatement => "DebuggerStatement"
  | .withStatement => "WithStatement"
  | .returnStatement => "ReturnStatement"
  | .labeledStatement => "LabeledStatement"
  | .breakStatement => "BreakStatement"
  | .continueStatement => "ContinueStatement"
  | .ifStatement => "IfStatement"
  | .switchStatement => "SwitchStatement"
  | .switchCase => "SwitchCase"
  | .throwStatement => "ThrowStatement"
  | .tryStatement => "TryStatement"
  | .catchClause => "CatchClause"
  | .whileStatement => "WhileStatement"
  | .doWhileStatement => "DoWhileStatement"
  | .forStatement => "ForStatement"
  | .forInStatement => "ForInStatement"
  | .forOfStatement => "ForOfStatement"
  | .functionDeclaration => "FunctionDeclaration"
  | .variableDeclaration => "VariableDeclaration"
  | .variableDeclarator => "VariableDeclarator"
  | .classDeclaration => "ClassDeclaration"
  | .identifier => "Identifier"
  | .privateIdentifier => "PrivateIdentifier"
  | .literal => "Literal"
  | .thisExpression => "ThisExpression"
  | .super => "Super"
  | .arrayExpression => "ArrayExpression"
  | .objectExpression => "ObjectExpression"
  | .property => "Property"
  | .functionExpression => "FunctionExpression"
  | .arrowFunctionExpression => "ArrowFunctionExpression"
  | .unaryExpression => "UnaryExpression"
  | .updateExpression => "UpdateExpression"
  | .binaryExpression => "BinaryExpression"
  | .assignmentExpression => "AssignmentExpression"
  | .logicalExpression => "LogicalExpression"
  | .memberExpression => "MemberExpression"
  | .chainExpression => "ChainExpression"
  | .conditionalExpression => "ConditionalExpression"
  | .callExpression => "CallExpression"
  | .newExpression => "NewExpression"
  | .sequenceExpression => "SequenceExpression"
  | .parenthesizedExpression => "ParenthesizedExpression"
  | .yieldExpression => "YieldExpression"
  | .awaitExpression => "AwaitExpression"
  | .importExpression => "ImportExpression"
  | .metaProperty => "MetaProperty"
  | .spreadElement => "SpreadElement"
  | .templateLiteral => "TemplateLiteral"
  | .templateElement => "TemplateElement"
  | .taggedTemplateExpression => "TaggedTemplateExpression"
  | .comprehensionBlock => "ComprehensionBlock"
  | .comprehensionExpression => "ComprehensionExpression"
  | .generatorExpression => "GeneratorExpression"
  | .objectPattern => "ObjectPattern"
  | .arrayPattern => "ArrayPattern"
  | .restElement => "RestElement"
  | .assignmentPattern => "AssignmentPattern"
  | .classExpression => "ClassExpression"
  | .classBody => "ClassBody"
  | .methodDefinition => "MethodDefinition"
  | .propertyDefinition => "PropertyDefinition"
  | .accessorProperty => "AccessorProperty"
  | .importDeclaration => "ImportDeclaration"
  | .importSpecifier => "ImportSpecifier"
  | .importDefaultSpecifier => "ImportDefaultSpecifier"
  | .importNamespaceSpecifier => "ImportNamespaceSpecifier"
  | .importAttribute => "ImportAttribute"
  | .exportNamedDeclaration => "ExportNamedDeclaration"
  | .exportSpecifier => "ExportSpecifier"
  | .exportDefaultDeclaration => "ExportDefaultDeclaration"
  | .exportAllDeclaration => "ExportAllDeclaration"
  | .jsxElement => "JSXElement"
  | .jsxOpeningElement => "JSXOpeningElement"
  | .jsxClosingElement => "JSXClosingElement"
  | .jsxAttribute => "JSXAttribute"
  | .jsxSpreadAttribute => "JSXSpreadAttribute"
  | .jsxFragment => "JSXFragment"
  | .jsxOpeningFragment => "JSXOpeningFragment"
  | .jsxClosingFragment => "JSXClosingFragment"
  | .jsxExpressionContainer => "JSXExpressionContainer"
  | .jsxSpreadChild => "JSXSpreadChild"
  | .jsxEmptyExpression => "JSXEmptyExpression"
  | .jsxIdentifier => "JSXIdentifier"
  | .jsxMemberExpression => "JSXMemberExpression"
  | .jsxNamespacedName => "JSXNamespacedName"
  | .jsxText => "JSXText"
  | .other name => name

/-- All kinds that the library knows. -/
def known : List Kind :=
  [.program, .expressionStatement, .blockStatement, .staticBlock, .emptyStatement,
   .debuggerStatement, .withStatement, .returnStatement, .labeledStatement, .breakStatement,
   .continueStatement, .ifStatement, .switchStatement, .switchCase, .throwStatement,
   .tryStatement, .catchClause, .whileStatement, .doWhileStatement, .forStatement,
   .forInStatement, .forOfStatement, .functionDeclaration, .variableDeclaration,
   .variableDeclarator, .classDeclaration, .identifier, .privateIdentifier, .literal,
   .thisExpression, .super, .arrayExpression, .objectExpression, .property, .functionExpression,
   .arrowFunctionExpression, .unaryExpression, .updateExpression, .binaryExpression,
   .assignmentExpression, .logicalExpression, .memberExpression, .chainExpression,
   .conditionalExpression, .callExpression, .newExpression, .sequenceExpression,
   .parenthesizedExpression, .yieldExpression, .awaitExpression, .importExpression, .metaProperty,
   .spreadElement, .templateLiteral, .templateElement, .taggedTemplateExpression,
   .comprehensionBlock, .comprehensionExpression, .generatorExpression, .objectPattern,
   .arrayPattern, .restElement, .assignmentPattern, .classExpression, .classBody,
   .methodDefinition, .propertyDefinition, .accessorProperty, .importDeclaration,
   .importSpecifier, .importDefaultSpecifier, .importNamespaceSpecifier, .importAttribute,
   .exportNamedDeclaration, .exportSpecifier, .exportDefaultDeclaration, .exportAllDeclaration,
   .jsxElement, .jsxOpeningElement, .jsxClosingElement, .jsxAttribute, .jsxSpreadAttribute,
   .jsxFragment, .jsxOpeningFragment, .jsxClosingFragment, .jsxExpressionContainer,
   .jsxSpreadChild, .jsxEmptyExpression, .jsxIdentifier, .jsxMemberExpression, .jsxNamespacedName,
   .jsxText]

/-- The kind of a given name. -/
def ofName (name : String) : Kind := (known.find? (·.name == name)).getD (.other name)

/-- The kind is one that the library knows. -/
def isKnown : Kind → Bool
  | .other _ => false
  | _ => true

/-- The fields of a kind that may hold child nodes, in the order of traversal. -/
def fields : Kind → List String
  | .program => ["body"]
  | .expressionStatement => ["expression"]
  | .blockStatement => ["body"]
  | .staticBlock => ["body"]
  | .withStatement => ["object", "body"]
  | .returnStatement => ["argument"]
  | .labeledStatement => ["label", "body"]
  | .breakStatement => ["label"]
  | .continueStatement => ["label"]
  | .ifStatement => ["test", "consequent", "alternate"]
  | .switchStatement => ["discriminant", "cases"]
  | .switchCase => ["test", "consequent"]
  | .throwStatement => ["argument"]
  | .tryStatement => ["block", "handler", "finalizer"]
  | .catchClause => ["param", "body"]
  | .whileStatement => ["test", "body"]
  | .doWhileStatement => ["body", "test"]
  | .forStatement => ["init", "test", "update", "body"]
  | .forInStatement => ["left", "right", "body"]
  | .forOfStatement => ["left", "right", "body"]
  | .functionDeclaration => ["id", "params", "body"]
  | .variableDeclaration => ["declarations"]
  | .variableDeclarator => ["id", "init"]
  | .classDeclaration => ["id", "superClass", "body"]
  | .arrayExpression => ["elements"]
  | .objectExpression => ["properties"]
  | .property => ["key", "value"]
  | .functionExpression => ["id", "params", "body"]
  | .arrowFunctionExpression => ["params", "body"]
  | .unaryExpression => ["argument"]
  | .updateExpression => ["argument"]
  | .binaryExpression => ["left", "right"]
  | .assignmentExpression => ["left", "right"]
  | .logicalExpression => ["left", "right"]
  | .memberExpression => ["object", "property"]
  | .chainExpression => ["expression"]
  | .conditionalExpression => ["test", "consequent", "alternate"]
  | .callExpression => ["callee", "arguments"]
  | .newExpression => ["callee", "arguments"]
  | .sequenceExpression => ["expressions"]
  | .parenthesizedExpression => ["expression"]
  | .yieldExpression => ["argument"]
  | .awaitExpression => ["argument"]
  | .importExpression => ["source", "options"]
  | .metaProperty => ["meta", "property"]
  | .spreadElement => ["argument"]
  | .templateLiteral => ["quasis", "expressions"]
  | .taggedTemplateExpression => ["tag", "quasi"]
  | .comprehensionBlock => ["left", "right"]
  | .comprehensionExpression => ["blocks", "filter", "body"]
  | .generatorExpression => ["blocks", "filter", "body"]
  | .objectPattern => ["properties"]
  | .arrayPattern => ["elements"]
  | .restElement => ["argument"]
  | .assignmentPattern => ["left", "right"]
  | .classExpression => ["id", "superClass", "body"]
  | .classBody => ["body"]
  | .methodDefinition => ["key", "value"]
  | .propertyDefinition => ["key", "value"]
  | .accessorProperty => ["key", "value"]
  | .importDeclaration => ["specifiers", "source", "attributes"]
  | .importSpecifier => ["imported", "local"]
  | .importDefaultSpecifier => ["local"]
  | .importNamespaceSpecifier => ["local"]
  | .importAttribute => ["key", "value"]
  | .exportNamedDeclaration => ["declaration", "specifiers", "source", "attributes"]
  | .exportSpecifier => ["local", "exported"]
  | .exportDefaultDeclaration => ["declaration"]
  | .exportAllDeclaration => ["exported", "source", "attributes"]
  | .jsxElement => ["openingElement", "children", "closingElement"]
  | .jsxOpeningElement => ["name", "attributes"]
  | .jsxClosingElement => ["name"]
  | .jsxAttribute => ["name", "value"]
  | .jsxSpreadAttribute => ["argument"]
  | .jsxFragment => ["openingFragment", "children", "closingFragment"]
  | .jsxExpressionContainer => ["expression"]
  | .jsxSpreadChild => ["expression"]
  | .jsxMemberExpression => ["object", "property"]
  | .jsxNamespacedName => ["namespace", "name"]
  | _ => []

/-- The kind has no child-bearing fields. -/
def isLeaf (kind : Kind) : Bool := kind.fields.isEmpty

/-- Functions of every form. -/
def isFunction : Kind → Bool
  | .functionDeclaration | .functionExpression | .arrowFunctionExpression => true
  | _ => false

/-- Classes of both forms. -/
def isClass : Kind → Bool
  | .classDeclaration | .classExpression => true
  | _ => false

/-- Kinds that hold a list of statements visible to each other. -/
def isStatementList : Kind → Bool
  | .program | .blockStatement | .staticBlock => true
  | _ => false

/-- A kind is read back from its name. -/
@[simp] theorem name_ofName (s : String) : (ofName s).name = s := by
  unfold ofName
  cases h : known.find? (·.name == s) with
  | none => rfl
  | some kind => simpa using List.find?_some h

end Kind

end Minifier
