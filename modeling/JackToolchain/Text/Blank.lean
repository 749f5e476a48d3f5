/-!
# Blank characters

The characters of the Unicode property `White_Space`, and the cuts of a text at them: the two ends
of a text, its words, and the text without any blank.
-/

namespace JackToolchain.Text

/-- The property `White_Space`. -/
def isBlank (c : Char) : Bool :=
  let n := c.toNat
  (9 ≤ n && n ≤ 13) || n == 0x20 || n == 0x85 || n == 0xA0 || n == 0x1680 ||
    (0x2000 ≤ n && n ≤ 0x200A) || n == 0x2028 || n == 0x2029 || n == 0x202F || n == 0x205F ||
    n == 0x3000

/-- The blanks among the ASCII characters that separate tokens: space, tab, line feed, form feed
and carriage return. -/
def isAsciiBlank (c : Char) : Bool :=
  c == ' ' || c == '\t' || c == '\n' || c == '\x0c' || c == '\r'

/-- The text without the blanks at its two ends. -/
def trimChars (text : List Char) : List Char :=
  ((text.dropWhile isBlank).reverse.dropWhile isBlank).reverse

def trim (text : String) : String :=
  String.ofList (trimChars text.toList)

/-- The maximal runs of characters that are not blank; `word` is the run in progress and `done` the
runs before it, all reversed. -/
def wordsFrom (word : List Char) (done : List (List Char)) : List Char → List (List Char)
  | [] => (if word.isEmpty then done else word.reverse :: done).reverse
  | c :: rest =>
    if isBlank c then
      wordsFrom [] (if word.isEmpty then done else word.reverse :: done) rest
    else wordsFrom (c :: word) done rest

def words (text : List Char) : List (List Char) :=
  wordsFrom [] [] text

end JackToolchain.Text
