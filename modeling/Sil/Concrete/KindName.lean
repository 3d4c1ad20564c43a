import Sil.Text.LetterCase

/-!
The name of a node's kind in the syntax tree, from the name of its kind in the concrete tree.
-/
namespace Sil

/-- The kinds whose name is not their own in camel case. -/
def renamedKinds : List (String × String) :=
  [("array", "ArrayExpression"), ("object", "ObjectExpression"),
   ("arrow_function", "ArrowFunctionExpression"), ("function_expression", "FunctionExpression"),
   ("ternary_expression", "ConditionalExpression"), ("template_string", "TemplateLiteral"),
   ("do_statement", "DoWhileStatement"), ("subscript_expression", "MemberExpression"),
   ("regex", "RegExpLiteral"), ("this", "ThisExpression")]

def splitUnderscores : List Char → List (List Char)
  | [] => [[]]
  | '_' :: rest => [] :: splitUnderscores rest
  | c :: rest =>
    match splitUnderscores rest with
    | [] => [[c]]
    | part :: parts => (c :: part) :: parts

/-- The words of a kind, each with a capital, without the underscores between them. -/
def camelCase (kind : String) : String :=
  String.ofList ((splitUnderscores kind.toList).flatMap Text.capitalize)

def kindName (kind : String) : String := (renamedKinds.lookup kind).getD (camelCase kind)

end Sil
