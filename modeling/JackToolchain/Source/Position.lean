/-!
# Positions and spans

A position counts bytes from the start of a text, and lines and columns from one; a column is one
code point wide. Lines and columns are meant as numbers of 32 bits, and none is greater in a text of
fewer than `2 ^ 32 - 1` characters (`Position.advance_le`); files of more bytes than
`Limits.maxFileSize`, which is less, are not read. A span is the half-open range between two
positions.
-/

namespace JackToolchain.Source

structure Position where
  offset : Nat
  line : Nat
  column : Nat
  deriving DecidableEq, Repr, Inhabited

namespace Position

def origin : Position := ⟨0, 1, 1⟩

/-- The position after one more character. -/
def step (p : Position) (c : Char) : Position :=
  if c = '\n' then ⟨p.offset + c.utf8Size, p.line + 1, 1⟩
  else ⟨p.offset + c.utf8Size, p.line, p.column + 1⟩

/-- The position after a text. -/
def advance (p : Position) (text : List Char) : Position :=
  text.foldl step p

@[simp] theorem advance_nil (p : Position) : p.advance [] = p := rfl

@[simp] theorem advance_cons (p : Position) (c : Char) (text : List Char) :
    p.advance (c :: text) = (p.step c).advance text := rfl

theorem advance_append (p : Position) (a b : List Char) :
    p.advance (a ++ b) = (p.advance a).advance b := by
  simp [advance]

/-- Neither lines nor columns are counted faster than characters. -/
theorem advance_le (p : Position) (text : List Char) :
    (p.advance text).line ≤ p.line + text.length ∧
      (p.advance text).column ≤ p.column + text.length := by
  induction text generalizing p with
  | nil => exact ⟨Nat.le_refl _, Nat.le_refl _⟩
  | cons c text ih =>
    have hstep : (p.step c).line ≤ p.line + 1 ∧ (p.step c).column ≤ p.column + 1 := by
      unfold step
      split <;> simp
    have hrest := ih (p.step c)
    rw [advance_cons, List.length_cons]
    omega

/-- By offset, then line, then column. -/
def ble (p q : Position) : Bool :=
  p.offset < q.offset ||
    (p.offset == q.offset &&
      (p.line < q.line || (p.line == q.line && p.column ≤ q.column)))

def earlier (p q : Position) : Position := if p.ble q then p else q

def later (p q : Position) : Position := if p.ble q then q else p

def text (p : Position) : String :=
  s!"{p.line}:{p.column}"

end Position

structure Span where
  start : Position
  stop : Position
  deriving DecidableEq, Repr, Inhabited

namespace Span

/-- The span of a stream from which nothing has been taken. -/
def zero : Span := ⟨⟨0, 0, 0⟩, ⟨0, 0, 0⟩⟩

/-- The empty span at a position. -/
def point (p : Position) : Span := ⟨p, p⟩

/-- The least span that covers both. -/
def merge (a b : Span) : Span :=
  ⟨a.start.earlier b.start, a.stop.later b.stop⟩

/-- Length in bytes. -/
def length (s : Span) : Nat := s.stop.offset - s.start.offset

def isEmpty (s : Span) : Bool := s.length == 0

def text (s : Span) : String :=
  if s.start.line = s.stop.line then s!"{s.start.line}:{s.start.column}-{s.stop.column}"
  else s!"{s.start.text}-{s.stop.text}"

end Span

end JackToolchain.Source
