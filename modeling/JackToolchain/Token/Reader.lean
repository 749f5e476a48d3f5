import JackToolchain.Token.Lexer

/-!
# Reading bytes

Bytes reach a lexer a line at a time, each line with its line feed. A line that is not UTF-8 cannot
be delivered.
-/

namespace JackToolchain

namespace Lexer

/-- The lines of some bytes; `line` is the line in progress and `done` the lines before it, both
reversed. -/
def byteLinesFrom (line : List UInt8) (done : List (List UInt8)) :
    List UInt8 → List (List UInt8)
  | [] => (if line.isEmpty then done else line.reverse :: done).reverse
  | b :: rest =>
    if b = 10 then byteLinesFrom [] ((b :: line).reverse :: done) rest
    else byteLinesFrom (b :: line) done rest

def byteLines (bytes : List UInt8) : List (List UInt8) :=
  byteLinesFrom [] [] bytes

def chunkOfBytes (bytes : List UInt8) : Chunk :=
  match String.fromUTF8? ⟨bytes.toArray⟩ with
  | some text => .ok text.toList
  | none => .error .invalidEncoding

/-- A lexer that reads bytes line by line. -/
def ofBytes (bytes : ByteArray) (detailed : Bool := true) : Lexer :=
  ofChunks ((byteLines bytes.data.toList).map chunkOfBytes) detailed

end Lexer

end JackToolchain
