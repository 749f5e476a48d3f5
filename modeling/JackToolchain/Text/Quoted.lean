import JackToolchain.Text.Hidden

/-!
# Quoted text

Text between quotation marks as messages show it. What a reader could not see or tell apart is
written as an escape: control and format characters, blanks other than the space, marks that combine
with a character in front of them, and private characters.
-/

namespace JackToolchain.Text

def quotedChar (c : Char) : List Char :=
  if c = '"' then ['\\', '"']
  else if c = '\\' then ['\\', '\\']
  else if c = '\n' then ['\\', 'n']
  else if c = '\r' then ['\\', 'r']
  else if c = '\t' then ['\\', 't']
  else if c = '\x00' then ['\\', '0']
  else if isHidden c then ['\\', 'u', '\x7b'] ++ Nat.toDigits 16 c.toNat ++ ['\x7d']
  else [c]

def quoted (text : String) : String :=
  "\"" ++ String.ofList (text.toList.flatMap quotedChar) ++ "\""

end JackToolchain.Text
