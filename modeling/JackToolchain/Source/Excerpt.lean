import JackToolchain.Source.Position

/-!
# Source excerpts

A named text cut into lines, and the excerpt that shows a message with the line it is about and a
row of carets under the span.
-/

namespace JackToolchain.Source

structure Listing where
  name : String
  lines : Array (List Char)

namespace Listing

/-- Every line feed ends a line, and what follows the last one is a line too. -/
def cutLines (line : List Char) (done : Array (List Char)) : List Char → Array (List Char)
  | [] => done.push line.reverse
  | c :: rest =>
    if c = '\n' then cutLines [] (done.push line.reverse) rest else cutLines (c :: line) done rest

def ofText (name : String) (text : List Char) : Listing :=
  ⟨name, cutLines [] #[] text⟩

/-- A line without the carriage returns at its end. -/
def withoutReturns (line : List Char) : List Char :=
  (line.reverse.dropWhile (· == '\r')).reverse

/-- The line with a number counted from one. -/
def line? (l : Listing) (number : Nat) : Option (List Char) :=
  if number = 0 then none else l.lines[number - 1]?.map withoutReturns

/-- How many carets stand under a line: the width of a span that ends in it, else all that follows
the start of the span. -/
def caretCount (span : Span) (line : List Char) : Nat :=
  max 1 (if span.start.line = span.stop.line then span.stop.column - span.start.column
    else line.length - (span.start.column - 1))

/-- Message, place and, if the listing has the line, the line with carets under the span. -/
def excerpt (l : Listing) (span : Span) (message : String) : String :=
  let head := s!"error: {message}\n  --> {l.name}:{span.start.text}\n"
  match l.line? span.start.line with
  | none => head
  | some line =>
    let number := toString span.start.line
    let pad := "".pushn ' ' number.length
    head ++ s!"{pad} |\n{number} | {String.ofList line}\n{pad} | " ++
      "".pushn ' ' (span.start.column - 1) ++ "".pushn '^' (caretCount span line) ++ "\n"

end Listing

end JackToolchain.Source
