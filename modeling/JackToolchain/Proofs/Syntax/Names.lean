import JackToolchain.Syntax.Tree

/-!
# Names of variables

The names in a tree that are looked up as variables. The receiver of a call is one of them, as it
may be a variable.
-/

namespace JackToolchain.Syntax

namespace Expression

mutual

def mentioned : Expression → List String
  | integer .. | string .. | boolean .. | null _ | this _ => []
  | var name _ => [name]
  | element array index _ => array :: index.mentioned
  | call receiver _ arguments _ => receiver.toList ++ mentionedInAll arguments
  | unary _ operand _ => operand.mentioned
  | binary _ left right _ => left.mentioned ++ right.mentioned

def mentionedInAll : List Expression → List String
  | [] => []
  | e :: es => e.mentioned ++ mentionedInAll es

end

end Expression

namespace Statement

mutual

def mentioned : Statement → List String
  | letVariable target value _ => target :: value.mentioned
  | letElement target index value _ => target :: (index.mentioned ++ value.mentioned)
  | ifThen condition consequent _ => condition.mentioned ++ mentionedInAll consequent
  | ifElse condition consequent alternate _ =>
    condition.mentioned ++ mentionedInAll consequent ++ mentionedInAll alternate
  | whileLoop condition body _ => condition.mentioned ++ mentionedInAll body
  | doCall call _ => call.toExpression.mentioned
  | «return» value _ => (value.map Expression.mentioned).getD []

def mentionedInAll : List Statement → List String
  | [] => []
  | s :: ss => s.mentioned ++ mentionedInAll ss

end

end Statement

end JackToolchain.Syntax
