import JackToolchain.Text.Decimal

/-!
# Symbol names

Names of labels, functions and addresses: ASCII letters, digits and the marks `_`, `.`, `:` and `$`,
with no digit in front.
-/

namespace JackToolchain.Text

def isNameStart (c : Char) : Bool :=
  ('a' ≤ c && c ≤ 'z') || ('A' ≤ c && c ≤ 'Z') || c == '_' || c == '.' || c == ':' || c == '$'

def isNameChar (c : Char) : Bool :=
  isNameStart c || isDigit c

def isName : List Char → Bool
  | [] => false
  | c :: rest => isNameStart c && rest.all isNameChar

@[simp] theorem isName_cons (c : Char) (rest : List Char) :
    isName (c :: rest) = (isNameStart c && rest.all isNameChar) := rfl

end JackToolchain.Text
