import JackToolchain.Text.Blank
import JackToolchain.Text.Decimal
import JackToolchain.Token.Basic
import JackToolchain.Token.Error

/-!
# Lexical rules

An ordered list of rules. Each one looks at the text at hand and either takes a lexeme off its
front, or declines, or owns the text while the end of its lexeme is still missing. The first rule
that does not decline decides. Comments stand before symbols, reserved words before identifiers.
-/

namespace JackToolchain.Token

open JackToolchain.Source JackToolchain.Text

inductive Rule
  | blank
  | lineComment
  | blockComment
  | keyword
  | symbol
  | identifier
  | string
  | integer
  deriving DecidableEq, Repr

/-- What a rule says about a text. -/
inductive Match
  | declined
  /-- The text is the lexeme followed by the rest. -/
  | lexeme (lexeme rest : List Char)
  /-- The rule owns the text, whose lexeme has not ended yet. -/
  | unfinished
  deriving DecidableEq, Repr

namespace Rule

def isLetter (c : Char) : Bool :=
  ('a' ≤ c && c ≤ 'z') || ('A' ≤ c && c ≤ 'Z') || c == '_'

def isWordChar (c : Char) : Bool :=
  isLetter c || isDigit c

def symbolChars : List Char :=
  ['{', '}', '(', ')', '[', ']', '.', ',', ';', '+', '-', '*', '/', '&', '|', '<', '>', '=', '~']

/-- The longest run in front of a text, as a lexeme unless it is empty. -/
def run (p : Char → Bool) (text : List Char) : Match :=
  let lexeme := text.takeWhile p
  if lexeme.isEmpty then .declined else .lexeme lexeme (text.dropWhile p)

/-- The longest word in front of a text. -/
def word (text : List Char) : Match :=
  match text with
  | c :: _ => if isLetter c then run isWordChar text else .declined
  | [] => .declined

/-- Takes a text up to the end of a block comment; `front` is what was taken before, reversed. -/
def closeComment (front : List Char) : List Char → Match
  | '*' :: '/' :: rest => .lexeme ('/' :: '*' :: front).reverse rest
  | c :: rest => closeComment (c :: front) rest
  | [] => .unfinished

/-- A string closes at its second quotation mark; a line feed in front of it makes it none. -/
def closeString (body : List Char) : Match :=
  let inside := fun c => c != '"' && c != '\n'
  match body.dropWhile inside with
  | '"' :: rest => .lexeme ('"' :: (body.takeWhile inside ++ ['"'])) rest
  | _ :: _ => .declined
  | [] => .unfinished

def apply : Rule → List Char → Match
  | blank, text => run isAsciiBlank text
  | lineComment, text =>
    match text with
    | '/' :: '/' :: _ => run (· != '\n') text
    | _ => .declined
  | blockComment, text =>
    match text with
    | '/' :: '*' :: rest => closeComment ['*', '/'] rest
    | _ => .declined
  | keyword, text =>
    match word text with
    | .lexeme lexeme rest =>
      if (Keyword.ofText? (String.ofList lexeme)).isSome then .lexeme lexeme rest else .declined
    | other => other
  | symbol, text =>
    match text with
    | '<' :: '=' :: rest => .lexeme ['<', '='] rest
    | '>' :: '=' :: rest => .lexeme ['>', '='] rest
    | c :: rest => if symbolChars.contains c then .lexeme [c] rest else .declined
    | [] => .declined
  | identifier, text => word text
  | string, text =>
    match text with
    | '"' :: body => closeString body
    | _ => .declined
  | integer, text => run isDigit text

/-- The rules in the order in which they are tried. -/
def order : List Rule :=
  [blank, lineComment, blockComment, keyword, symbol, identifier, string, integer]

/-- The first of some rules that does not decline, with what it says. -/
def firstOf (text : List Char) : List Rule → Option (Rule × Match)
  | [] => none
  | r :: rules =>
    match r.apply text with
    | .declined => firstOf text rules
    | found => some (r, found)

def first (text : List Char) : Option (Rule × Match) :=
  firstOf text order

theorem run_eq_append {p : Char → Bool} {text lexeme rest : List Char}
    (h : run p text = .lexeme lexeme rest) : text = lexeme ++ rest ∧ lexeme ≠ [] := by
  simp only [run] at h
  split at h
  · simp at h
  · next hne =>
    cases h
    exact ⟨List.takeWhile_append_dropWhile.symm, by simpa using hne⟩

theorem word_eq_append {text lexeme rest : List Char}
    (h : word text = .lexeme lexeme rest) : text = lexeme ++ rest ∧ lexeme ≠ [] := by
  unfold word at h
  split at h
  · split at h
    · exact run_eq_append h
    · simp at h
  · simp at h

theorem closeComment_eq_append {text front lexeme rest : List Char} (hf : front ≠ [])
    (h : closeComment front text = .lexeme lexeme rest) :
    front.reverse ++ text = lexeme ++ rest ∧ lexeme ≠ [] := by
  fun_induction closeComment front text with
  | case1 front tail =>
    cases h
    simp
  | case2 front c tail _ ih => simpa using ih (by simp) h
  | case3 => simp at h

theorem closeString_eq_append {body lexeme rest : List Char}
    (h : closeString body = .lexeme lexeme rest) :
    '"' :: body = lexeme ++ rest ∧ lexeme ≠ [] := by
  simp only [closeString] at h
  split at h
  · next tail heq =>
    cases h
    refine ⟨?_, by simp⟩
    have := List.takeWhile_append_dropWhile (p := fun c => c != '"' && c != '\n') (l := body)
    rw [heq] at this
    simpa using this.symm
  · simp at h
  · simp at h

/-- A rule takes a lexeme off the front of the text, and the lexeme is not empty. -/
theorem apply_eq_append {r : Rule} {text lexeme rest : List Char}
    (h : r.apply text = .lexeme lexeme rest) : text = lexeme ++ rest ∧ lexeme ≠ [] := by
  cases r with
  | blank => exact run_eq_append h
  | integer => exact run_eq_append h
  | identifier => exact word_eq_append h
  | lineComment =>
    simp only [apply] at h
    split at h
    · exact run_eq_append h
    · simp at h
  | blockComment =>
    simp only [apply] at h
    split at h
    · simpa using closeComment_eq_append (by simp) h
    · simp at h
  | keyword =>
    simp only [apply] at h
    split at h
    · next l t heq =>
      split at h
      · cases h
        exact word_eq_append heq
      · simp at h
    · exact word_eq_append h
  | symbol =>
    simp only [apply] at h
    split at h
    · cases h; simp
    · cases h; simp
    · split at h
      · cases h; simp
      · simp at h
    · simp at h
  | string =>
    simp only [apply] at h
    split at h
    · exact closeString_eq_append h
    · simp at h

theorem apply_of_firstOf {text : List Char} {rules : List Rule} {r : Rule} {m : Match}
    (h : firstOf text rules = some (r, m)) : r.apply text = m := by
  induction rules with
  | nil => simp [firstOf] at h
  | cons r' rules ih =>
    rw [firstOf] at h
    split at h
    · exact ih h
    · cases h
      rfl

theorem first_eq_append {text lexeme rest : List Char} {r : Rule}
    (h : first text = some (r, .lexeme lexeme rest)) : text = lexeme ++ rest ∧ lexeme ≠ [] :=
  apply_eq_append (apply_of_firstOf h)

/-- The value of a lexeme; blanks and comments have none. -/
def value? (r : Rule) (lexeme : List Char) (start : Position) : Except LexError (Option Kind) :=
  let text := String.ofList lexeme
  let unrecognized := LexError.unrecognized text start.line start.column
  match r with
  | blank | lineComment | blockComment => .ok none
  | keyword =>
    match Keyword.ofText? text with
    | some word => .ok (some (.keyword word))
    | none => .error unrecognized
  | symbol =>
    match Symbol.ofText? text with
    | some s => .ok (some (.symbol s))
    | none => .error unrecognized
  | identifier =>
    let length := text.utf8ByteSize
    if length > Limits.maxIdentifierLength then .error (.identifierTooLong length start.line)
    else .ok (some (.identifier text))
  | string =>
    let value := String.ofList (lexeme.drop 1).dropLast
    let size := value.utf8ByteSize
    if size > Limits.maxStringSize then .error (.stringTooLarge size start.line)
    else .ok (some (.stringLiteral value))
  | integer =>
    match readDigits? Limits.maxIntegerLiteral lexeme with
    | some n => .ok (some (.integerLiteral n))
    | none => .error (.integerOutOfRange text start.line start.column)

/-- The error for a text that no rule takes. -/
def unmatched (text : List Char) (at' : Position) : LexError :=
  match text with
  | '"' :: _ => .unterminatedString at'.line at'.column
  | '/' :: '*' :: _ => .unterminatedComment at'.line at'.column
  | _ =>
    let shown := ((text.take 16).takeWhile fun c => !isBlank c)
    .unrecognized (String.ofList shown) at'.line at'.column

/-- The rule's name in the trace of matched tokens. -/
def label : Kind → String
  | .keyword _ => "keyword"
  | .symbol _ => "symbol"
  | .identifier _ => "identifier"
  | .stringLiteral _ => "string"
  | .integerLiteral _ => "integer"

end Rule

end JackToolchain.Token
