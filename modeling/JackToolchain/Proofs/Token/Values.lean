import JackToolchain.Proofs.Text.Names
import JackToolchain.Proofs.Token.Chunks

/-!
# Values of tokens

An identifier of a lexer is a word, a number fits a constant, and a string is not too long.
-/

namespace JackToolchain

open JackToolchain.Source

namespace Token

open JackToolchain.Text

/-- Letters, digits and underscores, with no digit in front. -/
def isWord : List Char → Bool
  | [] => false
  | c :: rest => Rule.isLetter c && rest.all Rule.isWordChar

/-- A name that an identifier can have. -/
def IsWord (name : String) : Prop := isWord name.toList = true

instance (name : String) : Decidable (IsWord name) :=
  inferInstanceAs (Decidable (isWord name.toList = true))

theorem isNameStart_of_isLetter {c : Char} (h : Rule.isLetter c = true) : isNameStart c = true := by
  simp only [Rule.isLetter, Bool.or_eq_true] at h
  simp only [isNameStart, Bool.or_eq_true]
  exact .inl (.inl (.inl h))

theorem isNameChar_of_isWordChar {c : Char} (h : Rule.isWordChar c = true) :
    isNameChar c = true := by
  simp only [Rule.isWordChar, Bool.or_eq_true] at h
  rcases h with h | h
  · simp [isNameChar, isNameStart_of_isLetter h]
  · simp [isNameChar, h]

theorem exists_of_isWord {word : List Char} (h : isWord word = true) :
    ∃ c rest, word = c :: rest ∧ Rule.isLetter c = true ∧ ∀ d ∈ rest, Rule.isWordChar d = true := by
  cases word with
  | nil => cases h
  | cons c rest =>
      rw [isWord, Bool.and_eq_true, List.all_eq_true] at h
      exact ⟨c, rest, rfl, h⟩

namespace IsWord

variable {name : String}

theorem isWordChar (h : IsWord name) : ∀ c ∈ name.toList, Rule.isWordChar c = true := by
  obtain ⟨c, rest, hname, hc, hrest⟩ := exists_of_isWord h
  rw [hname]
  intro d hd
  rcases List.mem_cons.mp hd with rfl | hd
  · simp [Rule.isWordChar, hc]
  · exact hrest d hd

theorem isName (h : IsWord name) : isName name.toList = true := by
  obtain ⟨c, rest, hname, hc, hrest⟩ := exists_of_isWord h
  rw [hname, isName_cons, Bool.and_eq_true, List.all_eq_true]
  exact ⟨isNameStart_of_isLetter hc, fun d hd => isNameChar_of_isWordChar (hrest d hd)⟩

end IsWord

theorem utf8ByteSize_cons (c : Char) (cs : List Char) :
    (String.ofList (c :: cs)).utf8ByteSize = c.utf8Size + (String.ofList cs).utf8ByteSize := by
  have hcons : String.ofList (c :: cs) = String.singleton c ++ String.ofList cs := by
    rw [String.singleton_eq_ofList, ← String.ofList_append]
    rfl
  rw [hcons, String.utf8ByteSize_append, String.utf8ByteSize_singleton]

/-- Every character takes a byte. -/
theorem length_le_utf8ByteSize (value : String) : value.toList.length ≤ value.utf8ByteSize := by
  have hsize (cs : List Char) : cs.length ≤ (String.ofList cs).utf8ByteSize := by
    induction cs with
    | nil => exact Nat.zero_le _
    | cons c cs ih =>
        have hc := c.utf8Size_pos
        rw [utf8ByteSize_cons, List.length_cons]
        omega
  simpa using hsize value.toList

/-- The values that a lexer lets through. -/
def Kind.Proper : Kind → Prop
  | .identifier name => IsWord name
  | .stringLiteral value => value.utf8ByteSize ≤ Limits.maxStringSize
  | .integerLiteral value => value ≤ Limits.maxIntegerLiteral
  | .keyword _ | .symbol _ => True

namespace Rule

theorem isWord_of_word {text lexeme rest : List Char} (h : word text = .lexeme lexeme rest) :
    IsWord (String.ofList lexeme) := by
  unfold word at h
  split at h
  · rename_i c tail
    split at h
    · rename_i hc
      have hword : isWordChar c = true := by simp [isWordChar, hc]
      simp only [run] at h
      split at h
      · cases h
      · cases h
        rw [IsWord, String.toList_ofList, List.takeWhile_cons_of_pos hword, isWord,
          Bool.and_eq_true, List.all_eq_true]
        exact ⟨hc, fun d hd => List.mem_takeWhile_imp hd⟩
    · cases h
  · cases h

theorem proper_of_value? {r : Rule} {text lexeme rest : List Char} {start : Position} {k : Kind}
    (htext : r.apply text = .lexeme lexeme rest) (h : r.value? lexeme start = .ok (some k)) :
    k.Proper := by
  cases r with
  | blank | lineComment | blockComment => cases h
  | keyword =>
      simp only [value?] at h
      split at h
      · cases h
        trivial
      · cases h
  | symbol =>
      simp only [value?] at h
      split at h
      · cases h
        trivial
      · cases h
  | identifier =>
      simp only [value?] at h
      split at h
      · cases h
      · cases h
        exact isWord_of_word htext
  | string =>
      simp only [value?] at h
      split at h
      · cases h
      · rename_i hsize
        cases h
        exact Nat.le_of_not_lt hsize
  | integer =>
      simp only [value?] at h
      split at h
      · rename_i n hdigits
        cases h
        exact le_of_readDigits? hdigits
      · cases h

/-- An identifier is none of the reserved words, which are tried before. -/
theorem not_reserved_of_value? {r : Rule} {text lexeme rest : List Char} {start : Position}
    {name : String} (htext : first text = some (r, .lexeme lexeme rest))
    (h : r.value? lexeme start = .ok (some (.identifier name))) : Keyword.ofText? name = none := by
  cases r with
  | identifier =>
      simp only [value?] at h
      split at h
      · cases h
      · cases h
        have hword : word text = .lexeme lexeme rest := apply_of_firstOf htext
        rw [first_word hword] at htext
        by_contra hreserved
        rw [if_pos (Option.isSome_iff_ne_none.mpr hreserved)] at htext
        cases htext
  | blank | lineComment | blockComment => cases h
  | keyword | symbol | string | integer =>
      simp only [value?] at h
      split at h
      all_goals cases h

end Rule

end Token

namespace Lexer

open Token

/-- What holds of all lexemes and their values. -/
def OfLexemes (P : Kind → List Char → Prop) : Prop :=
  ∀ (r : Token.Rule) (text lexeme rest : List Char) (start : Position) (k : Kind),
    Token.Rule.first text = some (r, .lexeme lexeme rest) →
      r.value? lexeme start = .ok (some k) → P k lexeme

variable {P : Kind → List Char → Prop}

theorem OfLexemes.consume (hP : OfLexemes P) {lx next : Lexer} {r : Token.Rule}
    {text lexeme rest : List Char} {t : Token}
    (htext : Token.Rule.first text = some (r, .lexeme lexeme rest))
    (h : lx.consume r lexeme rest = .token t next) : P t.kind t.raw.toList := by
  simp only [Lexer.consume] at h
  split at h
  · cases h
  · cases h
  · rename_i k hvalue
    split at h
    · cases h
    · cases h
      rw [String.toList_ofList]
      exact hP r text lexeme rest _ k htext hvalue

theorem OfLexemes.scan (hP : OfLexemes P) {lx next : Lexer} {t : Token}
    (h : lx.scan = .token t next) : P t.kind t.raw.toList := by
  unfold Lexer.scan at h
  split at h
  · split at h <;> cases h
  · split at h
    · rename_i hfirst
      split at h
      · cases h
      · exact hP.consume hfirst h
    · split at h <;> cases h
    · cases h

theorem OfLexemes.next (hP : OfLexemes P) {lx lx' : Lexer} {t : Token}
    (h : lx.next = (.ok (some t), lx')) : P t.kind t.raw.toList := by
  fun_induction Lexer.next lx with
  | case1 lx t' after hs =>
      cases h
      exact hP.scan hs
  | case2 => simp at h
  | case3 => simp at h
  | case4 lx after hs _ ih => exact ih h
  | case5 => simp at h
  | case6 => simp at h
  | case7 lx hs after hp _ ih => exact ih h

theorem OfLexemes.drain (hP : OfLexemes P) {lx : Lexer} :
    ∀ t ∈ lx.drain.1, P t.kind t.raw.toList := by
  induction lx using drain_induct with
  | ended lx next hr hdrain | failed lx e next hr hdrain =>
      rw [hdrain]
      simp
  | token lx t next hr hdrain ih =>
      rw [hdrain]
      exact List.forall_mem_cons.mpr ⟨hP.next hr, ih⟩

/-- Tokens of a lexer have values that it lets through. -/
theorem proper_of_mem_drain {lx : Lexer} : ∀ t ∈ lx.drain.1, t.kind.Proper :=
  OfLexemes.drain (P := fun k _ => k.Proper) fun _ _ _ _ _ _ htext hvalue =>
    Token.Rule.proper_of_value? (Token.Rule.apply_of_firstOf htext) hvalue

theorem not_reserved_of_mem_drain {lx : Lexer} {name : String} :
    ∀ t ∈ lx.drain.1, t.kind = .identifier name → Keyword.ofText? name = none :=
  OfLexemes.drain (P := fun k _ => k = .identifier name → Keyword.ofText? name = none)
    fun _ _ _ _ _ _ htext hvalue hkind =>
      Token.Rule.not_reserved_of_value? htext (hkind ▸ hvalue)

end Lexer

end JackToolchain
