import JackToolchain.Proofs.Syntax.Congruence
import JackToolchain.Proofs.Syntax.Outline
import JackToolchain.Proofs.Syntax.Recognizer

/-!
# What rules take

A rule that succeeds has taken a front of the tokens that were to come. What it leaves is told of
all tokens taken since some point, so that a rule goes on from what the rules before it have taken.
-/

namespace JackToolchain.Syntax.Parser

open JackToolchain.Source JackToolchain.Diagnostics JackToolchain.Token Outline

variable {σ α β : Type} [TokenSource σ]

/-- If the rule succeeds in a state behind some tokens, its value goes with these and what it has
taken. -/
def TakesAt (s : State σ) (before : List Token) (p : Parser σ α) (Q : List Token → α → Prop) :
    Prop :=
  ∀ tokens a s', s.Delivers tokens → Token.Ordered (before ++ tokens) → p s = (.ok a, s') →
    ∃ taken rest, tokens = taken ++ rest ∧ s'.Delivers rest ∧ Q (before ++ taken) a

/-- The same from every state. -/
def Takes (before : List Token) (p : Parser σ α) (Q : List Token → α → Prop) : Prop :=
  ∀ s, TakesAt s before p Q

variable {s : State σ} {before : List Token} {p : Parser σ α} {f : α → Parser σ β} {t : Token}
  {P : List Token → α → Prop} {Q : List Token → β → Prop}

theorem advance_of_delivers {tokens : List Token} (hs : s.lookahead = some t)
    (hd : s.Delivers tokens) :
    ∃ rest s', tokens = t :: rest ∧ advance s = (.ok t, s') ∧ s'.Delivers rest := by
  obtain ⟨rest, rfl⟩ : ∃ rest, tokens = t :: rest := by
    rw [← List.head?_eq_some_iff, ← hd.lookahead, hs]
  obtain ⟨stream, hadvance, hrest, -⟩ := hd.advance
  refine ⟨rest, { s with toTokenStream := stream }, rfl, ?_, hrest⟩
  simp only [Parser.advance, bind_apply, get_apply, set_apply, hadvance, pure_apply]

theorem advance_ne_ok (hs : s.lookahead = none) {s' : State σ} : advance s ≠ (.ok t, s') := by
  intro h
  simp only [Parser.advance, TokenStream.advance, bind_apply, get_apply, set_apply, hs] at h
  cases hnext : TokenSource.next s.source with
  | mk answer source =>
      cases answer with
      | error e =>
          simp only [hnext] at h
          cases h
      | ok lookahead =>
          simp only [hnext] at h
          obtain ⟨e, he⟩ := unexpected_apply (α := Token) .token
            { s with source, lookahead := lookahead }
          rw [he] at h
          cases h

/-! ## At a state -/

namespace TakesAt

theorem failed {p : Parser σ β} (h : ∀ a s', p s ≠ (.ok a, s')) : TakesAt s before p Q :=
  fun _ a s' _ _ hp => (h a s' hp).elim

theorem unexpected (expected : Expected) :
    TakesAt s before (unexpected expected : Parser σ β) Q := by
  refine failed fun a s' h => ?_
  obtain ⟨e, he⟩ := unexpected_apply (α := β) expected s
  rw [he] at h
  cases h

/-- A rule goes on from one that has taken some of these tokens before. -/
theorem bind_rest {front : List Token} (hp : TakesAt s before p P)
    (hf : ∀ tokens a, P tokens a → Takes (front ++ tokens) (f a) Q) :
    TakesAt s (front ++ before) (p >>= f) Q := by
  intro tokens b s'' hd ho hpf
  rw [List.append_assoc] at ho
  rw [bind_apply] at hpf
  match hfirst : p s with
  | (.ok a, s') =>
      rw [hfirst] at hpf
      obtain ⟨taken, more, rfl, hmore, hP⟩ := hp tokens a s' hd ho.right hfirst
      obtain ⟨taken', rest, rfl, hrest, hQ⟩ :=
        hf _ a hP s' more b s'' hmore (by simpa using ho) hpf
      exact ⟨taken ++ taken', rest, by simp, hrest, by simpa using hQ⟩
  | (.error e, s') =>
      rw [hfirst] at hpf
      cases hpf

/-- A rule goes on from what the rule before it has taken. -/
theorem bind (hp : TakesAt s [] p P)
    (hf : ∀ taken a, P taken a → Takes (before ++ taken) (f a) Q) :
    TakesAt s before (p >>= f) Q := by
  rw [← List.append_nil before]
  exact bind_rest hp hf

theorem advance {f : Token → Parser σ β} (hs : s.lookahead = some t)
    (hf : Takes (before ++ [t]) (f t) Q) : TakesAt s before (advance >>= f) Q := by
  refine bind (P := fun taken u => taken = [t] ∧ u = t) ?_ ?_
  · intro tokens u s'' hd ho hadvance
    obtain ⟨rest, s', rfl, htaken, hrest⟩ := advance_of_delivers hs hd
    rw [htaken] at hadvance
    cases hadvance
    exact ⟨[t], rest, rfl, hrest, rfl, rfl⟩
  · rintro _ _ ⟨rfl, rfl⟩
    exact hf

theorem get {f : State σ → Parser σ β} (h : TakesAt s before (f s) Q) :
    TakesAt s before (get >>= f) Q :=
  h

theorem isSymbol {symbol : Symbol} {f : Bool → Parser σ β}
    (h : TakesAt s before (f (s.isSymbol symbol)) Q) : TakesAt s before (isSymbol symbol >>= f) Q :=
  h

theorem isKeyword {word : Keyword} {f : Bool → Parser σ β}
    (h : TakesAt s before (f (s.isKeyword word)) Q) : TakesAt s before (isKeyword word >>= f) Q :=
  h

end TakesAt

/-! ## Steps -/

namespace Takes

theorem pure {b : β} (h : Token.Ordered before → Q before b) :
    Takes before (pure b : Parser σ β) Q := by
  intro s tokens b' s' hd ho hp
  cases hp
  exact ⟨[], tokens, rfl, hd, by simpa using h ho.left⟩

theorem bind_rest {front : List Token} (hp : Takes before p P)
    (hf : ∀ tokens a, P tokens a → Takes (front ++ tokens) (f a) Q) :
    Takes (front ++ before) (p >>= f) Q :=
  fun s => (hp s).bind_rest hf

theorem bind (hp : Takes [] p P) (hf : ∀ taken a, P taken a → Takes (before ++ taken) (f a) Q) :
    Takes before (p >>= f) Q :=
  fun s => (hp s).bind hf

theorem imp {Q' : List Token → β → Prop} {p : Parser σ β} (h : Takes before p Q)
    (hQ : ∀ tokens b, Q tokens b → Q' tokens b) : Takes before p Q' := by
  intro s tokens b s' hd ho hp
  obtain ⟨taken, rest, rfl, hrest, hb⟩ := h s tokens b s' hd ho hp
  exact ⟨taken, rest, rfl, hrest, hQ _ b hb⟩

theorem pure_bind {a : α} (h : Takes before (f a) Q) :
    Takes before ((Pure.pure a : Parser σ α) >>= f) Q :=
  h

theorem get {f : State σ → Parser σ β} (h : ∀ s, TakesAt s before (f s) Q) :
    Takes before (get >>= f) Q :=
  fun s => h s

theorem unexpected (expected : Expected) : Takes before (unexpected expected : Parser σ β) Q :=
  fun _ => .unexpected expected

theorem tooDeep : Takes before (tooDeep : Parser σ β) Q :=
  fun _ => .failed fun _ _ h => by cases h

theorem advance {f : Token → Parser σ β} (hf : ∀ t, Takes (before ++ [t]) (f t) Q) :
    Takes before (advance >>= f) Q := by
  intro s
  cases hs : s.lookahead with
  | some t => exact .advance hs (hf t)
  | none =>
      refine .failed fun b s' h => ?_
      rw [bind_apply] at h
      match hadvance : Parser.advance s with
      | (.ok t, s'') => exact advance_ne_ok hs hadvance
      | (.error e, s'') =>
          rw [hadvance] at h
          cases h

theorem note {e : Event} {f : Unit → Parser σ β} (hf : Takes before (f ()) Q) :
    Takes before (note e >>= f) Q := by
  intro s tokens b s' hd ho hp
  refine hf { s with source := TokenSource.note e s.source } tokens b s' ?_ ho hp
  cases tokens with
  | nil => exact hd
  | cons t tokens => exact ⟨hd.1, hd.2.note e⟩

theorem nested {p : Parser σ β} (hp : Takes before p Q) : Takes before (nested p) Q := by
  intro s tokens b s' hd ho h
  simp only [Parser.nested] at h
  split at h
  · cases h
  · cases hopened : p { s with depth := s.depth + 1 } with
    | mk result s'' =>
        rw [hopened] at h
        cases h
        exact hp { s with depth := s.depth + 1 } tokens b s'' hd ho hopened

/-- What each step keeps is kept by all of them. -/
theorem iterate {step : α → Parser σ (Option α)} {I : List Token → α → Prop}
    (hstep : ∀ before a, I before a → Takes before (step a) fun tokens a? => I tokens (a?.getD a))
    {a : α} (h : I before a) : Takes before (iterate step a) I := by
  intro s tokens b s' hd ho hp
  induction hn : s.room using Nat.strongRecOn generalizing s before a tokens with
  | _ n ih =>
      rw [Parser.iterate] at hp
      cases hfirst : step a s with
      | mk result s'' =>
          rw [hfirst] at hp
          cases result with
          | error e => cases hp
          | ok a? =>
              obtain ⟨taken, more, rfl, hmore, hI⟩ := hstep before a h s tokens a? s'' hd ho hfirst
              cases a? with
              | none =>
                  cases hp
                  exact ⟨taken, more, rfl, hmore, hI⟩
              | some a' =>
                  simp only at hp
                  split at hp
                  · rename_i hless
                    obtain ⟨taken', rest, rfl, hrest, hlast⟩ :=
                      ih _ (hn ▸ hless) hI s'' more hmore (by simpa using ho) hp rfl
                    exact ⟨taken ++ taken', rest, by simp, hrest, by simpa using hlast⟩
                  · cases hp
                    exact ⟨taken, more, rfl, hmore, hI⟩

end Takes

/-! ## Expected tokens -/

/-- The lookahead of a kind is taken for its span. -/
theorem TakesAt.span {k : Kind} (hs : s.front = some k) :
    TakesAt s [] (Parser.advance >>= fun t => Pure.pure t.span) fun taken span =>
      ∃ t, taken = [t] ∧ t.kind = k ∧ t.span = span := by
  obtain ⟨t, ht, hkind⟩ := Option.map_eq_some_iff.mp hs
  exact .advance ht (.pure fun _ => ⟨t, rfl, hkind, rfl⟩)

namespace Takes

theorem isSymbol {symbol : Symbol} {f : Bool → Parser σ β}
    (hf : ∀ found, Takes before (f found) Q) : Takes before (isSymbol symbol >>= f) Q :=
  fun s => hf (s.isSymbol symbol) s

theorem isKeyword {word : Keyword} {f : Bool → Parser σ β}
    (hf : ∀ found, Takes before (f found) Q) : Takes before (isKeyword word >>= f) Q :=
  fun s => hf (s.isKeyword word) s

theorem eatSymbol {symbol : Symbol} {f : Bool → Parser σ β}
    (hfound : ∀ t, Takes (before ++ [t]) (f true) Q) (hother : Takes before (f false) Q) :
    Takes before (eatSymbol symbol >>= f) Q := by
  refine bind (P := fun taken found =>
    match found with
    | true => ∃ t, taken = [t]
    | false => taken = []) (isSymbol ?_) ?_
  · intro found
    cases found with
    | true => exact .advance fun t => .pure fun _ => ⟨t, rfl⟩
    | false => exact .pure fun _ => rfl
  · intro taken found htaken
    cases found with
    | true =>
        obtain ⟨t, rfl⟩ := htaken
        exact hfound t
    | false =>
        obtain rfl : taken = [] := htaken
        rwa [List.append_nil]

theorem expectSymbol {symbol : Symbol} {f : Span → Parser σ β}
    (hf : ∀ t, t.kind = .symbol symbol → Takes (before ++ [t]) (f t.span) Q) :
    Takes before (expectSymbol symbol >>= f) Q := by
  refine bind (P := fun taken span => ∃ t, taken = [t] ∧ t.kind = .symbol symbol ∧ t.span = span)
    (fun s => ?_) ?_
  · refine TakesAt.isSymbol ?_
    split
    · exact .span (isSymbol_iff.mp ‹_›)
    · exact .unexpected _
  · rintro _ _ ⟨t, rfl, hkind, rfl⟩
    exact hf t hkind

theorem expectKeyword {word : Keyword} {f : Span → Parser σ β}
    (hf : ∀ t, t.kind = .keyword word → Takes (before ++ [t]) (f t.span) Q) :
    Takes before (expectKeyword word >>= f) Q := by
  refine bind (P := fun taken span => ∃ t, taken = [t] ∧ t.kind = .keyword word ∧ t.span = span)
    (fun s => ?_) ?_
  · refine TakesAt.isKeyword ?_
    split
    · exact .span (isKeyword_iff.mp ‹_›)
    · exact .unexpected _
  · rintro _ _ ⟨t, rfl, hkind, rfl⟩
    exact hf t hkind

theorem expectIdentifier {f : String × Span → Parser σ β}
    (hf : ∀ t name, t.kind = .identifier name → Takes (before ++ [t]) (f (name, t.span)) Q) :
    Takes before (expectIdentifier >>= f) Q := by
  refine bind (P := fun taken name =>
    ∃ t, taken = [t] ∧ t.kind = .identifier name.1 ∧ t.span = name.2) (.get fun s => ?_) ?_
  · split
    · rename_i name hname
      obtain ⟨t, ht, hkind⟩ := Option.map_eq_some_iff.mp (Parser.identifier?_eq_some_iff.mp hname)
      exact .advance ht (.pure fun _ => ⟨t, rfl, hkind, rfl⟩)
    · exact .unexpected _
  · rintro _ ⟨name, _⟩ ⟨t, rfl, hkind, rfl⟩
    exact hf t name hkind

/-! ## Lists -/

theorem result {f : α → β} (h : Takes before p P) (hQ : ∀ tokens a, P tokens a → Q tokens (f a)) :
    Takes before (p >>= fun a => Pure.pure (f a)) Q := by
  intro s tokens b s'' hd ho hp
  rw [bind_apply] at hp
  match hresult : p s with
  | (.ok a, s') =>
      rw [hresult] at hp
      cases hp
      obtain ⟨taken, rest, rfl, hrest, ha⟩ := h s tokens a s'' hd ho hresult
      exact ⟨taken, rest, rfl, hrest, hQ _ a ha⟩
  | (.error e, s') =>
      rw [hresult] at hp
      cases hp

theorem map {f : α → β} (h : Takes before p P) (hQ : ∀ tokens a, P tokens a → Q tokens (f a)) :
    Takes before (f <$> p) Q := by
  rw [map_eq_pure_bind]
  exact result h hQ

section Lists

variable {item : Parser σ α} {parts : α → List Outline}
  (hitem : Takes [] item fun tokens a => Row tokens (parts a))

include hitem

theorem cons_item {items : List α} (h : Row before (items.reverse.flatMap parts)) :
    Takes before (item >>= fun a => Pure.pure (some (a :: items))) fun tokens items? =>
      Row tokens ((items?.getD items).reverse.flatMap parts) := by
  refine bind hitem fun taken a ha => .pure fun _ => ?_
  simpa using h.append ha

theorem many {starts : State σ → Bool} :
    Takes [] (many starts item) fun tokens items => Row tokens (items.flatMap parts) := by
  have hstep : ∀ before items, Row before (items.reverse.flatMap parts) →
      Takes before (oneMore starts item items) fun tokens items? =>
        Row tokens ((items?.getD items).reverse.flatMap parts) := by
    intro before items h
    refine .get fun s => ?_
    split
    · exact cons_item hitem h s
    · refine Takes.pure (fun _ => ?_) s
      exact h
  exact result (iterate hstep .nil) fun _ _ h => h

theorem separated :
    Takes [] (separated item) fun tokens items => Row tokens (items.flatMap parts) := by
  have hstep : ∀ before items, Row before (items.reverse.flatMap parts) →
      Takes before (afterComma item items) fun tokens items? =>
        Row tokens ((items?.getD items).reverse.flatMap parts) := by
    intro before items h
    exact .eatSymbol (fun t => cons_item hitem (h.snoc t)) (.pure fun _ => h)
  refine bind hitem fun taken first hfirst => result (iterate hstep ?_) fun _ _ h => h
  simpa using hfirst

theorem listed : Takes [] (listed item) fun tokens items => Row tokens (items.flatMap parts) := by
  refine .isSymbol fun found => ?_
  split
  · exact .pure fun _ => .nil
  · exact separated hitem

end Lists

end Takes

end JackToolchain.Syntax.Parser
