/-!
# Lines

A line ends at a line feed. The line feed is not part of it, nor is one carriage return in front of
it; what follows the last line feed is a line if it is not empty.
-/

namespace JackToolchain.Text

/-- A reversed line without the carriage return that ends it. -/
def dropReturn : List Char → List Char
  | '\r' :: line => line
  | line => line

/-- Lines of a text; `line` is the line in progress and `done` the lines before it, both
reversed. -/
def linesFrom (line : List Char) (done : List String) : List Char → List String
  | [] => if line.isEmpty then done.reverse else (String.ofList line.reverse :: done).reverse
  | c :: rest =>
    if c = '\n' then linesFrom [] (String.ofList (dropReturn line).reverse :: done) rest
    else linesFrom (c :: line) done rest

def lines (text : String) : List String :=
  linesFrom [] [] text.toList

/-- The part of a line in front of the first `//`; `front` is what stands before the text,
reversed. -/
def beforeSlashesFrom (front : List Char) : List Char → List Char
  | '/' :: '/' :: _ => front.reverse
  | c :: rest => beforeSlashesFrom (c :: front) rest
  | [] => front.reverse

/-- A line without the comment that two slashes start. -/
def beforeSlashes (line : List Char) : List Char :=
  beforeSlashesFrom [] line

end JackToolchain.Text
