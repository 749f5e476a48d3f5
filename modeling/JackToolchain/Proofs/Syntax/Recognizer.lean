import JackToolchain.Proofs.Syntax.Delivery
import JackToolchain.Proofs.Syntax.Grammar

/-!
# Rules and the words they take

A rule recognizes a language when it takes exactly the words of the language off the front of a
stream, each with its tree, as long as what follows the word may follow it.
-/

namespace JackToolchain.Syntax

open JackToolchain.Source JackToolchain.Diagnostics JackToolchain.Token

/-- Words with the values that they stand for. -/
abbrev Language (α : Type) := Word → α → Prop

/-- Which token may come next, if any. -/
abbrev Follow := Option Kind → Prop

/-- The first kind of a word, or what comes after the word. -/
def Word.front (w : Word) (next : Option Kind) : Option Kind := w.head?.or next

@[simp] theorem Word.front_cons (k : Kind) (w : Word) (next : Option Kind) :
    Word.front (k :: w) next = some k := rfl

namespace Language

variable {α β : Type}

/-- The empty word. -/
def done (a : α) : Language α := fun w b => w = [] ∧ b = a

/-- A token before a word. -/
def after (k : Kind) (L : Language α) : Language α := fun w a => ∃ v, w = k :: v ∧ L v a

/-- An identifier before a word. -/
def named (L : String → Language α) : Language α :=
  fun w a => ∃ name v, w = .identifier name :: v ∧ L name v a

/-- A word before another one that may depend on its value. -/
def bind (L : Language α) (M : α → Language β) : Language β :=
  fun w b => ∃ u v a, w = u ++ v ∧ L u a ∧ M a v b

/-- A word of either language. -/
def or (L M : Language α) : Language α := fun w a => L w a ∨ M w a

/-- The words of a language inside of a level, if one more level can be opened. -/
def opened (L : Nat → Language α) : Nat → Language α
  | 0 => fun _ _ => False
  | n + 1 => L n

/-- One more value in front of the ones before. -/
def oneMore (L : Language α) (as : List α) : Language (List α) :=
  fun w bs => ∃ a, L w a ∧ bs = a :: as

/-- Words one after the other, each one going on from the value of the one before. -/
inductive Loop (S : α → Language α) : α → Language α
  | stop {a : α} : Loop S a [] a
  | more {a b c : α} {v w : Word} (h : S a v b) (hs : Loop S b w c) : Loop S a (v ++ w) c

theorem Loop.snoc {S : α → Language α} {a b c : α} {v w : Word} (h : Loop S a v b)
    (hlast : S b w c) : Loop S a (v ++ w) c := by
  induction h with
  | stop => simpa using Loop.more hlast .stop
  | more h hs ih =>
      rw [List.append_assoc]
      exact .more h (ih hlast)

end Language

namespace Parser

open JackToolchain.Syntax.Language

variable {σ α β γ δ : Type}

/-- The kind of the lookahead. -/
def State.front (s : State σ) : Option Kind := s.lookahead.map Token.kind

theorem isSymbol_iff {s : State σ} {symbol : Symbol} :
    s.isSymbol symbol = true ↔ s.front = some (.symbol symbol) := by
  rw [TokenStream.isSymbol, State.front]
  cases s.lookahead with
  | none => simp
  | some t => cases hk : t.kind <;> simp [Token.symbol?, hk]

theorem isKeyword_iff {s : State σ} {word : Keyword} :
    s.isKeyword word = true ↔ s.front = some (.keyword word) := by
  rw [TokenStream.isKeyword, State.front]
  cases s.lookahead with
  | none => simp
  | some t => cases hk : t.kind <;> simp [Token.keyword?, hk]

theorem keyword?_eq_some_iff {s : State σ} {word : Keyword} :
    s.lookahead.bind Token.keyword? = some word ↔ s.front = some (.keyword word) := by
  rw [State.front]
  cases s.lookahead with
  | none => simp
  | some t => cases hk : t.kind <;> simp [Token.keyword?, hk]

theorem identifier?_eq_some_iff {s : State σ} {name : String} :
    s.lookahead.bind Token.identifier? = some name ↔ s.front = some (.identifier name) := by
  rw [State.front]
  cases s.lookahead with
  | none => simp
  | some t => cases hk : t.kind <;> simp [Token.identifier?, hk]

variable [TokenSource σ]

/-- A state after some tokens, with the same levels open. -/
structure Reached (s s' : State σ) (us rest : List Token) : Prop where
  delivers : s'.Delivers rest
  depth : s'.depth = s.depth
  room : s'.room + us.length ≤ s.room

theorem Reached.refl {s : State σ} {ts : List Token} (h : s.Delivers ts) : Reached s s [] ts :=
  ⟨h, rfl, Nat.le_refl _⟩

theorem Reached.trans {s s' s'' : State σ} {us vs ts rest : List Token} (h : Reached s s' us ts)
    (h' : Reached s' s'' vs rest) : Reached s s'' (us ++ vs) rest := by
  refine ⟨h'.delivers, h'.depth.trans h.depth, ?_⟩
  have hroom := h.room
  have hroom' := h'.room
  rw [List.length_append]
  omega

/-- From a state, the rule takes the words of a language that something may follow. -/
structure RecognizesAt (value : α → β) (p : Parser σ α) (L : Language β) (F : Follow)
    (s : State σ) : Prop where
  sound : ∀ {ts : List Token} {a : α} {s' : State σ}, s.Delivers ts → p s = (.ok a, s') →
    ∃ us rest, ts = us ++ rest ∧ Reached s s' us rest ∧ L (us.map Token.kind) (value a)
  complete : ∀ {us rest : List Token} {b : β}, s.Delivers (us ++ rest) →
    L (us.map Token.kind) b → F (rest.head?.map Token.kind) →
      ∃ a s', p s = (.ok a, s') ∧ value a = b ∧ Reached s s' us rest

/-- The rule recognizes the language when `n` more levels may be opened. -/
def Recognizes (n : Nat) (value : α → β) (p : Parser σ α) (L : Language β) (F : Follow) : Prop :=
  ∀ s : State σ, Limits.maxParseDepth - s.depth = n → RecognizesAt value p L F s

theorem front_of_delivers {s : State σ} {us rest : List Token} (h : s.Delivers (us ++ rest)) :
    s.front = Word.front (us.map Token.kind) (rest.head?.map Token.kind) := by
  rw [State.front, h.lookahead]
  cases us <;> rfl

theorem unexpected_apply (expected : Expected) (s : State σ) :
    ∃ e, (unexpected expected : Parser σ α) s = (.error e, s) := by
  rw [unexpected, bind_apply]
  cases hs : s.lookahead with
  | none => exact ⟨.unexpectedEnd expected s.endPosition, by simp only [get_apply, hs]; rfl⟩
  | some t => exact ⟨.unexpectedToken expected t.raw t.span, by simp only [get_apply, hs]; rfl⟩

theorem eatSymbol_bind_of_front {symbol : Symbol} {p q : Parser σ α} {s : State σ}
    (h : s.front = some (.symbol symbol)) :
    (eatSymbol symbol >>= fun found => if found then p else q) s = (advance >>= fun _ => p) s := by
  rw [← isSymbol_iff] at h
  simp only [eatSymbol, bind_apply, isSymbol_apply, h, if_true]
  obtain ⟨e | t, s'⟩ := advance s <;> rfl

theorem eatSymbol_bind_of_ne {symbol : Symbol} {p q : Parser σ α} {s : State σ}
    (h : s.front ≠ some (.symbol symbol)) :
    (eatSymbol symbol >>= fun found => if found then p else q) s = q s := by
  rw [ne_eq, ← isSymbol_iff] at h
  simp only [eatSymbol, bind_apply, isSymbol_apply, h, Bool.false_eq_true, if_false, pure_apply]

namespace RecognizesAt

variable {value : α → β} {p q : Parser σ α} {L M : Language β} {F G : Follow} {s : State σ}

theorem of_eq (hpq : p s = q s) (h : RecognizesAt value q L F s) : RecognizesAt value p L F s :=
  ⟨fun hd hp => h.sound hd (hpq ▸ hp), fun hd hL hF => by
    rw [hpq]
    exact h.complete hd hL hF⟩

/-- The lookahead tells which words are at stake. -/
theorem congr (h : RecognizesAt value p L F s)
    (hLM : ∀ w b next, L w b → Word.front w next = s.front → M w b)
    (hML : ∀ w b next, M w b → Word.front w next = s.front → G next → L w b ∧ F next) :
    RecognizesAt value p M G s := by
  refine ⟨fun hd hp => ?_, fun hd hM hG => ?_⟩
  · obtain ⟨us, rest, rfl, hreached, hL⟩ := h.sound hd hp
    exact ⟨us, rest, rfl, hreached, hLM _ _ _ hL (front_of_delivers hd).symm⟩
  · obtain ⟨hL, hF⟩ := hML _ _ _ hM (front_of_delivers hd).symm hG
    exact h.complete hd hL hF

/-- A rule that fails takes no words. -/
theorem failed (h : ∀ a s', p s ≠ (.ok a, s')) : RecognizesAt value p (fun _ _ => False) F s :=
  ⟨fun _ hp => (h _ _ hp).elim, fun _ hL _ => hL.elim⟩

theorem unexpected (expected : Expected) :
    RecognizesAt value (unexpected expected) (fun _ _ => False) F s := by
  refine failed fun a s' h => ?_
  obtain ⟨e, he⟩ := unexpected_apply (α := α) expected s
  rw [he] at h
  cases h

theorem get {f : State σ → Parser σ α} (h : RecognizesAt value (f s) L F s) :
    RecognizesAt value (get >>= f) L F s :=
  of_eq (q := f s) rfl h

/-- Takes the lookahead. -/
theorem take {k : Kind} {f : Token → Parser σ α} {n : Nat}
    (hn : Limits.maxParseDepth - s.depth = n) (hk : s.front = some k)
    (hf : ∀ t : Token, t.kind = k → Recognizes n value (f t) L F) :
    RecognizesAt value (advance >>= f) (after k L) F s := by
  obtain ⟨t, ht, hkind⟩ := Option.map_eq_some_iff.1 hk
  have hstep : ∀ ts, s.Delivers (t :: ts) →
      ∃ s', advance s = (.ok t, s') ∧ Reached s s' [t] ts := by
    intro ts hd
    obtain ⟨tokens, hadvance, hd', hroom⟩ := hd.advance
    refine ⟨{ s with toTokenStream := tokens }, ?_, hd', rfl, hroom⟩
    simp only [Parser.advance, bind_apply, get_apply, set_apply, hadvance, pure_apply]
  refine ⟨fun {ts a s''} hd hp => ?_, fun {us rest b} hd hL hF => ?_⟩
  · obtain ⟨ts, rfl⟩ : ∃ ts', ts = t :: ts' := by
      rw [← List.head?_eq_some_iff, ← hd.lookahead, ht]
    obtain ⟨s', hadvance, hreached⟩ := hstep ts hd
    rw [bind_apply, hadvance] at hp
    obtain ⟨us, rest, rfl, hreached', hL⟩ :=
      (hf t hkind s' (hreached.depth ▸ hn)).sound hreached.delivers hp
    exact ⟨t :: us, rest, rfl, hreached.trans hreached', us.map Token.kind,
      by rw [List.map_cons, hkind], hL⟩
  · obtain ⟨v, hv, hL⟩ := hL
    obtain ⟨t', us, rfl, -, rfl⟩ := List.map_eq_cons_iff.1 hv
    obtain rfl : t = t' := by simpa [ht] using hd.lookahead
    obtain ⟨s', hadvance, hreached⟩ := hstep (us ++ rest) hd
    obtain ⟨a, s'', hp, hb, hreached'⟩ :=
      (hf t hkind s' (hreached.depth ▸ hn)).complete hreached.delivers hL hF
    refine ⟨a, s'', ?_, hb, hreached.trans hreached'⟩
    rw [bind_apply, hadvance]
    exact hp

/-- A rule after another one. -/
theorem bind {value' : γ → δ} {M : β → Language δ} {f : α → Parser σ γ} {n : Nat}
    (hp : RecognizesAt value p L F s) (hn : Limits.maxParseDepth - s.depth = n)
    (hf : ∀ a, Recognizes n value' (f a) (M (value a)) G)
    (hF : ∀ b w c next, M b w c → G next → F (Word.front w next)) :
    RecognizesAt value' (p >>= f) (L.bind M) G s := by
  refine ⟨fun {ts c s''} hd hpf => ?_, fun {us rest c} hd hL hG => ?_⟩
  · rw [bind_apply] at hpf
    match hp' : p s with
    | (.ok a, s') =>
        rw [hp'] at hpf
        obtain ⟨us, ts', rfl, hreached, hL⟩ := hp.sound hd hp'
        obtain ⟨vs, rest, rfl, hreached', hM⟩ :=
          (hf a s' (hreached.depth ▸ hn)).sound hreached.delivers hpf
        exact ⟨us ++ vs, rest, by rw [List.append_assoc], hreached.trans hreached',
          us.map Token.kind, vs.map Token.kind, value a, List.map_append, hL, hM⟩
    | (.error e, s') =>
        rw [hp'] at hpf
        cases hpf
  · obtain ⟨u, v, b, huv, hL, hM⟩ := hL
    obtain ⟨us, vs, rfl, rfl, rfl⟩ := List.map_eq_append_iff.1 huv
    rw [List.append_assoc] at hd
    have hfollow := hF b _ c _ hM hG
    have hfront : Word.front (vs.map Token.kind) (rest.head?.map Token.kind) =
        (vs ++ rest).head?.map Token.kind := by cases vs <;> rfl
    rw [hfront] at hfollow
    obtain ⟨a, s', hp', rfl, hreached⟩ := hp.complete hd hL hfollow
    obtain ⟨c', s'', hf', hc, hreached'⟩ :=
      (hf a s' (hreached.depth ▸ hn)).complete hreached.delivers hM hG
    refine ⟨c', s'', ?_, hc, hreached.trans hreached'⟩
    rw [bind_apply, hp']
    exact hf'

theorem pure (a : α) : RecognizesAt value (pure a) (done (value a)) F s := by
  refine ⟨fun {ts a' s'} hd hp => ?_, fun {us rest b} hd hL _ => ?_⟩
  · cases hp
    exact ⟨[], ts, rfl, .refl hd, rfl, rfl⟩
  · obtain ⟨hnil, rfl⟩ := hL
    obtain rfl := List.map_eq_nil_iff.1 hnil
    exact ⟨a, s, rfl, rfl, .refl hd⟩

theorem map_result {value' : γ → δ} {f : α → γ} {g : β → δ} (hp : RecognizesAt value p L F s)
    (hfg : ∀ a, value' (f a) = g (value a)) :
    RecognizesAt value' (p >>= fun a => Pure.pure (f a)) (fun w c => ∃ b, L w b ∧ c = g b) F s := by
  have hpure : ∀ a, Recognizes (Limits.maxParseDepth - s.depth) value'
      (Pure.pure (f a) : Parser σ γ) (done (g (value a))) F :=
    fun a _ _ => hfg a ▸ pure (f a)
  have hbind := hp.bind (M := fun b => done (g b)) rfl hpure
    (by rintro b w c next ⟨rfl, -⟩ hF; exact hF)
  refine hbind.congr (fun w c _ h _ => ?_) fun w c next h _ hF => ⟨?_, hF⟩
  · obtain ⟨u, v, b, rfl, hL, rfl, rfl⟩ := h
    exact ⟨b, by simpa using hL, rfl⟩
  · obtain ⟨b, hL, rfl⟩ := h
    exact ⟨w, [], b, by simp, hL, rfl, rfl⟩

/-- Adds what a rule recognizes to a list. -/
theorem cons_result (hp : RecognizesAt value p L F s) (items : List α) :
    RecognizesAt (Option.map (List.map value)) (do return some ((← p) :: items))
      (fun w cs? => ∃ cs, cs? = some cs ∧ L.oneMore (items.map value) w cs) F s := by
  have hresult : RecognizesAt (Option.map (List.map value)) (do return some ((← p) :: items))
      (fun w cs? => ∃ b, L w b ∧ cs? = some (b :: items.map value)) F s := by
    refine hp.map_result fun a => ?_
    rfl
  refine hresult.congr (fun w cs? _ h _ => ?_) fun w cs? next h _ hF => ⟨?_, hF⟩
  · obtain ⟨b, hL, rfl⟩ := h
    exact ⟨_, rfl, b, hL, rfl⟩
  · obtain ⟨cs, rfl, b, hL, rfl⟩ := h
    exact ⟨b, hL, rfl⟩

/-- The first token of a word tells which words it may start. -/
theorem of_first {rest : Kind → Language β} (hL : ∀ w b, L w b ↔ ∃ k, after k (rest k) w b) {k : Kind}
    (hk : s.front = some k) (h : RecognizesAt value p (after k (rest k)) F s) :
    RecognizesAt value p L F s := by
  refine h.congr (fun w b _ h _ => (hL w b).2 ⟨k, h⟩) fun w b next h hfront hF => ⟨?_, hF⟩
  obtain ⟨k', v, rfl, hv⟩ := (hL w b).1 h
  obtain rfl : k' = k := by simpa [hk] using hfront
  exact ⟨v, rfl, hv⟩

theorem of_first_failed {rest : Kind → Language β}
    (hL : ∀ w b, L w b ↔ ∃ k, after k (rest k) w b)
    (hk : ∀ k, s.front = some k → ∀ v b, ¬ rest k v b)
    (h : RecognizesAt value p (fun _ _ => False) F s) : RecognizesAt value p L F s := by
  refine h.congr (fun w b _ h _ => h.elim) fun w b next h hfront hF => ?_
  obtain ⟨k, v, rfl, hv⟩ := (hL w b).1 h
  exact (hk k hfront.symm v b hv).elim

end RecognizesAt

namespace Recognizes

variable {n : Nat} {value : α → β} {p q : Parser σ α} {L M : Language β} {F G : Follow}

theorem congr (h : Recognizes n value p L F) (hLM : ∀ w b, L w b ↔ M w b) :
    Recognizes n value p M F :=
  fun s hn => (h s hn).congr (fun w b _ hL _ => (hLM w b).1 hL)
    fun w b _ hM _ hF => ⟨(hLM w b).2 hM, hF⟩

theorem follow (h : Recognizes n value p L F) (hGF : ∀ next, G next → F next) :
    Recognizes n value p L G :=
  fun s hn => (h s hn).congr (fun _ _ _ hL _ => hL) fun _ _ next hL _ hG => ⟨hL, hGF next hG⟩

theorem pure (a : α) : Recognizes n value (pure a : Parser σ α) (done (value a)) F :=
  fun _ _ => .pure a

theorem result {a : α} {b : β} (h : value a = b) :
    Recognizes n value (Pure.pure a : Parser σ α) (done b) F :=
  h ▸ pure a

theorem pure_bind {f : γ → Parser σ α} {c : γ} (h : Recognizes n value (f c) L F) :
    Recognizes n value (Pure.pure c >>= f) L F :=
  fun s hn => .of_eq rfl (h s hn)

theorem bind {value' : γ → δ} {M : β → Language δ} {f : α → Parser σ γ}
    (hp : Recognizes n value p L F) (hf : ∀ a, Recognizes n value' (f a) (M (value a)) G)
    (hF : ∀ b w c next, M b w c → G next → F (Word.front w next)) :
    Recognizes n value' (p >>= f) (L.bind M) G :=
  fun s hn => (hp s hn).bind hn hf hF

theorem map_result {value' : γ → δ} {f : α → γ} {g : β → δ} (hp : Recognizes n value p L F)
    (hfg : ∀ a, value' (f a) = g (value a)) :
    Recognizes n value' (p >>= fun a => Pure.pure (f a)) (fun w c => ∃ b, L w b ∧ c = g b) F :=
  fun s hn => (hp s hn).map_result hfg

/-- A choice by the lookahead. -/
theorem choice {r : Parser σ α} {k : Kind} {f : Token → Parser σ α}
    (hthen : ∀ s : State σ, s.front = some k → r s = (advance >>= f) s)
    (helse : ∀ s : State σ, s.front ≠ some k → r s = q s)
    (hf : ∀ t : Token, t.kind = k → Recognizes n value (f t) L F) (hq : Recognizes n value q M F)
    (hM : ∀ w b next, M w b → F next → Word.front w next ≠ some k) :
    Recognizes n value r ((after k L).or M) F := by
  intro s hn
  by_cases hk : s.front = some k
  · refine (RecognizesAt.of_eq (hthen s hk) (.take hn hk hf)).congr (fun _ _ _ hL _ => .inl hL) ?_
    rintro w b next (hL | hM') hfront hF
    · exact ⟨hL, hF⟩
    · exact (hM w b next hM' hF (hfront.trans hk)).elim
  · refine (RecognizesAt.of_eq (helse s hk) (hq s hn)).congr (fun _ _ _ hM _ => .inr hM) ?_
    rintro w b next (⟨v, rfl, -⟩ | hM') hfront hF
    · exact (hk hfront.symm).elim
    · exact ⟨hM', hF⟩

/-- A token that must be there. -/
theorem expect {r : Parser σ α} {k : Kind} {f : Token → Parser σ α}
    (hthen : ∀ s : State σ, s.front = some k → r s = (advance >>= f) s)
    (helse : ∀ s : State σ, s.front ≠ some k → ∃ e, r s = (.error e, s))
    (hf : ∀ t : Token, t.kind = k → Recognizes n value (f t) L F) :
    Recognizes n value r (after k L) F := by
  intro s hn
  by_cases hk : s.front = some k
  · exact .of_eq (hthen s hk) (.take hn hk hf)
  · obtain ⟨e, he⟩ := helse s hk
    have hfail : RecognizesAt value r (fun _ _ => False) F s :=
      .failed fun a s' h => by
        rw [he] at h
        cases h
    refine hfail.congr (fun _ _ _ h => h.elim) ?_
    rintro w b next ⟨v, rfl, -⟩ hfront hF
    exact (hk hfront.symm).elim

theorem expectSymbol {symbol : Symbol} {f : Span → Parser σ α}
    (hf : ∀ span, Recognizes n value (f span) L F) :
    Recognizes n value (expectSymbol symbol >>= f) (after (.symbol symbol) L) F := by
  refine expect (f := fun t => f t.span) (fun s hs => ?_) (fun s hs => ?_) fun t _ => hf t.span
  · rw [← isSymbol_iff] at hs
    simp only [Parser.expectSymbol, bind_apply, isSymbol_apply, hs, if_true]
    obtain ⟨e | t, s'⟩ := advance s <;> rfl
  · rw [ne_eq, ← isSymbol_iff] at hs
    obtain ⟨e, he⟩ := unexpected_apply (α := Span) (.symbol symbol) s
    refine ⟨e, ?_⟩
    simp only [Parser.expectSymbol, bind_apply, isSymbol_apply, hs, Bool.false_eq_true, if_false, he]

theorem expectKeyword {word : Keyword} {f : Span → Parser σ α}
    (hf : ∀ span, Recognizes n value (f span) L F) :
    Recognizes n value (expectKeyword word >>= f) (after (.keyword word) L) F := by
  refine expect (f := fun t => f t.span) (fun s hs => ?_) (fun s hs => ?_) fun t _ => hf t.span
  · rw [← isKeyword_iff] at hs
    simp only [Parser.expectKeyword, bind_apply, isKeyword_apply, hs, if_true]
    obtain ⟨e | t, s'⟩ := advance s <;> rfl
  · rw [ne_eq, ← isKeyword_iff] at hs
    obtain ⟨e, he⟩ := unexpected_apply (α := Span) (.keyword word) s
    refine ⟨e, ?_⟩
    simp only [Parser.expectKeyword, bind_apply, isKeyword_apply, hs, Bool.false_eq_true, if_false,
      he]

/-- A rule after a symbol that may be there. -/
theorem eatSymbol {symbol : Symbol} (hp : Recognizes n value p L F) (hq : Recognizes n value q M F)
    (hM : ∀ w b next, M w b → F next → Word.front w next ≠ some (.symbol symbol)) :
    Recognizes n value (eatSymbol symbol >>= fun found => if found then p else q)
      ((after (.symbol symbol) L).or M) F :=
  choice (f := fun _ => p) (fun _ hs => eatSymbol_bind_of_front hs)
    (fun _ hs => eatSymbol_bind_of_ne hs) (fun _ _ => hp) hq hM

/-- A rule after a reserved word that may be there. -/
theorem eatKeyword {word : Keyword} (hp : Recognizes n value p L F) (hq : Recognizes n value q M F)
    (hM : ∀ w b next, M w b → F next → Word.front w next ≠ some (.keyword word)) :
    Recognizes n value
      (isKeyword word >>= fun found => if found then advance >>= fun _ => p else q)
      ((after (.keyword word) L).or M) F := by
  refine choice (f := fun _ => p) (fun s hs => ?_) (fun s hs => ?_) (fun _ _ => hp) hq hM
  · rw [← isKeyword_iff] at hs
    simp only [bind_apply, isKeyword_apply, hs, if_true]
  · rw [ne_eq, ← isKeyword_iff] at hs
    simp only [bind_apply, isKeyword_apply, hs, Bool.false_eq_true, if_false]

/-- A rule unless a symbol comes next, which stays. -/
theorem unlessSymbol {symbol : Symbol} (hp : Recognizes n value p L F)
    (hq : Recognizes n value q M F) (hF : ∀ next, F next → next = some (.symbol symbol))
    (hL : ∀ w b, L w b → w = [])
    (hM : ∀ w b next, M w b → F next → Word.front w next ≠ some (.symbol symbol)) :
    Recognizes n value (isSymbol symbol >>= fun found => if found then p else q) (L.or M) F := by
  intro s hn
  by_cases hk : s.isSymbol symbol = true
  · have heq : (isSymbol symbol >>= fun found => if found then p else q) s = p s := by
      simp only [bind_apply, isSymbol_apply, hk, if_true]
    refine (RecognizesAt.of_eq heq (hp s hn)).congr (fun _ _ _ hL _ => .inl hL) ?_
    rintro w b next (hL' | hM') hfront hF'
    · exact ⟨hL', hF'⟩
    · exact (hM w b next hM' hF' (hfront.trans (isSymbol_iff.1 hk))).elim
  · have heq : (isSymbol symbol >>= fun found => if found then p else q) s = q s := by
      simp only [bind_apply, isSymbol_apply, hk, Bool.false_eq_true, if_false]
    refine (RecognizesAt.of_eq heq (hq s hn)).congr (fun _ _ _ hM _ => .inr hM) ?_
    rintro w b next (hL' | hM') hfront hF'
    · obtain rfl := hL w b hL'
      exact (hk (isSymbol_iff.2 (hfront.symm.trans (hF next hF')))).elim
    · exact ⟨hM', hF'⟩

theorem expectIdentifier {L : String → Language β} {f : String × Span → Parser σ α}
    (hf : ∀ name span, Recognizes n value (f (name, span)) (L name) F) :
    Recognizes n value (expectIdentifier >>= f) (named L) F := by
  intro s hn
  cases hk : s.lookahead.bind Token.identifier? with
  | none =>
      obtain ⟨e, he⟩ := unexpected_apply (α := String × Span) .identifier s
      have hfail : RecognizesAt value (Parser.expectIdentifier >>= f) (fun _ _ => False) F s :=
        .failed fun a s' h => by
          simp only [Parser.expectIdentifier, bind_apply, get_apply, hk, he] at h
          cases h
      refine hfail.congr (fun _ _ _ h => h.elim) ?_
      rintro w b next ⟨name, v, rfl, -⟩ hfront hF
      rw [Word.front_cons, eq_comm, ← identifier?_eq_some_iff, hk] at hfront
      cases hfront
  | some name =>
      have hfront : s.front = some (.identifier name) := identifier?_eq_some_iff.1 hk
      have heq : (Parser.expectIdentifier >>= f) s = (advance >>= fun t => f (name, t.span)) s := by
        simp only [Parser.expectIdentifier, bind_apply, get_apply, hk]
        obtain ⟨e | t, s'⟩ := advance s <;> rfl
      refine (RecognizesAt.of_eq heq (.take hn hfront fun t _ => hf name t.span)).congr ?_ ?_
      · rintro w b next ⟨v, rfl, hL⟩ -
        exact ⟨name, v, rfl, hL⟩
      · rintro w b next ⟨name', v, rfl, hL⟩ hfront' hF
        rw [Word.front_cons, hfront] at hfront'
        cases hfront'
        exact ⟨⟨v, rfl, hL⟩, hF⟩

/-- Opens a level. -/
theorem nested {L : Nat → Language β} (hp : ∀ m, n = m + 1 → Recognizes m value p (L m) F) :
    Recognizes n value (nested p) (opened L n) F := by
  intro s hn
  cases n with
  | zero =>
      refine .failed fun a s' h => ?_
      have hdeep : s.depth + 1 > Limits.maxParseDepth := by omega
      simp only [Parser.nested, hdeep, if_true, tooDeep, bind_apply, get_apply] at h
      cases h
  | succ m =>
      have hdepth : ¬ s.depth + 1 > Limits.maxParseDepth := by omega
      have hat := hp m rfl { s with depth := s.depth + 1 } (by simp only; omega)
      refine ⟨fun {ts a s'} hd h => ?_, fun {us rest b} hd hL hF => ?_⟩
      · simp only [Parser.nested, hdepth, if_false] at h
        match hrule : p { s with depth := s.depth + 1 } with
        | (.error e, s'') =>
            rw [hrule] at h
            cases h
        | (.ok a', s'') =>
            rw [hrule] at h
            cases h
            obtain ⟨us, rest, rfl, hreached, hL⟩ := hat.sound hd hrule
            refine ⟨us, rest, rfl, ⟨hreached.delivers, ?_, hreached.room⟩, hL⟩
            simp only [hreached.depth, Nat.add_sub_cancel]
      · obtain ⟨a, s', hok, hb, hreached⟩ := hat.complete hd hL hF
        refine ⟨a, { s' with depth := s'.depth - 1 }, ?_, hb, hreached.delivers, ?_, hreached.room⟩
        · simp only [Parser.nested, hdepth, if_false, hok]
        · simp only [hreached.depth, Nat.add_sub_cancel]

theorem note (e : Event) (hp : Recognizes n value p L F) :
    Recognizes n value (note e >>= fun _ => p) L F := by
  intro s hn
  have hat := hp { s with source := TokenSource.note e s.source } hn
  have hreached : ∀ ts, s.Delivers ts →
      Reached s { s with source := TokenSource.note e s.source } [] ts := by
    intro ts hd
    refine ⟨?_, rfl, ?_⟩
    · cases ts with
      | nil => exact hd
      | cons t ts => exact ⟨hd.1, hd.2.note e⟩
    · simp only [TokenStream.room, TokenSource.room_note]
      exact Nat.le_refl _
  refine ⟨fun {ts a s'} hd h => ?_, fun {us rest b} hd hL hF => ?_⟩
  · obtain ⟨us, rest, rfl, hreached', hL⟩ := hat.sound (hreached ts hd).delivers h
    exact ⟨us, rest, rfl, (hreached _ hd).trans hreached', hL⟩
  · obtain ⟨a, s', hok, hb, hreached'⟩ := hat.complete (hreached _ hd).delivers hL hF
    exact ⟨a, s', hok, hb, (hreached _ hd).trans hreached'⟩

/-! ## Repetition -/

section Repetition

variable (starts : Kind → Bool) {S : β → Language β} {step : α → Parser σ (Option α)}

/-- The words of a loop start like the words of its step. -/
theorem loop_front (hS : ∀ b w c, S b w c → ∃ k v, w = k :: v ∧ starts k = true) {b c : β}
    {w : Word} (h : Loop S b w c) : w = [] ∨ ∃ k v, w = k :: v ∧ starts k = true := by
  cases h with
  | stop => exact .inl rfl
  | more h hs =>
      obtain ⟨k, v, rfl, hk⟩ := hS _ _ _ h
      exact .inr ⟨k, _, rfl, hk⟩

variable (hstop : ∀ a (s : State σ), s.front.any starts = false → step a s = (.ok none, s))
  (hstep : ∀ a (s : State σ), Limits.maxParseDepth - s.depth = n → s.front.any starts = true →
    RecognizesAt (Option.map value) (step a) (fun w c? => ∃ c, c? = some c ∧ S (value a) w c) G s)

include hstop hstep

theorem iterate_sound {a b : α} {s s'' : State σ} {ts : List Token}
    (hn : Limits.maxParseDepth - s.depth = n) (hd : s.Delivers ts)
    (h : Parser.iterate step a s = (.ok b, s'')) :
    ∃ us rest, ts = us ++ rest ∧ Reached s s'' us rest ∧
      Loop S (value a) (us.map Token.kind) (value b) := by
  induction hr : s.room using Nat.strong_induction_on generalizing s a ts with
  | _ r ih =>
      rw [Parser.iterate] at h
      by_cases hfront : s.front.any starts = true
      · match hs : step a s with
        | (.error e, s') =>
            rw [hs] at h
            cases h
        | (.ok none, s') =>
            obtain ⟨us, rest, -, -, c, hc, -⟩ := (hstep a s hn hfront).sound hd hs
            simp at hc
        | (.ok (some a'), s') =>
            obtain ⟨us, rest, rfl, hreached, c, hc, hL⟩ := (hstep a s hn hfront).sound hd hs
            obtain rfl : value a' = c := by simpa using hc
            rw [hs] at h
            simp only at h
            split at h
            · next hlt =>
                obtain ⟨vs, rest', rfl, hreached', hloop⟩ :=
                  ih _ (hr ▸ hlt) (hreached.depth ▸ hn) hreached.delivers h rfl
                refine ⟨us ++ vs, rest', by rw [List.append_assoc], hreached.trans hreached', ?_⟩
                rw [List.map_append]
                exact .more hL hloop
            · cases h
              refine ⟨us, rest, rfl, hreached, ?_⟩
              simpa using Loop.more hL .stop
      · rw [hstop a s (by simpa using hfront)] at h
        cases h
        exact ⟨[], ts, rfl, .refl hd, .stop⟩

variable (hS : ∀ b w c, S b w c → ∃ k v, w = k :: v ∧ starts k = true)
  (hG : ∀ k, starts k = true → G (some k))
  (hF : ∀ next, F next → G next ∧ next.any starts = false)

include hS hG hF

theorem iterate_complete {c c' : β} {w : Word} (hloop : Loop S c w c') {a : α} {s : State σ}
    {us rest : List Token} (hn : Limits.maxParseDepth - s.depth = n)
    (hd : s.Delivers (us ++ rest)) (ha : value a = c) (hw : us.map Token.kind = w)
    (hnext : F (rest.head?.map Token.kind)) :
    ∃ b s'', Parser.iterate step a s = (.ok b, s'') ∧ value b = c' ∧ Reached s s'' us rest := by
  induction hloop generalizing a s us with
  | stop =>
      obtain rfl := List.map_eq_nil_iff.1 hw
      refine ⟨a, s, ?_, ha, .refl hd⟩
      rw [Parser.iterate, hstop a s (front_of_delivers hd ▸ (hF _ hnext).2)]
  | @more c c' c'' v w h hs ih =>
      obtain ⟨us, vs, rfl, rfl, rfl⟩ := List.map_eq_append_iff.1 hw
      subst ha
      rw [List.append_assoc] at hd
      obtain ⟨k, v, hv, hk⟩ := hS _ _ _ h
      have hfront : s.front.any starts = true := by
        rw [front_of_delivers hd, hv, Word.front_cons]
        exact hk
      have hfollow : G ((vs ++ rest).head?.map Token.kind) := by
        rcases loop_front starts hS hs with hnil | ⟨k', v', hcons, hk'⟩
        · rw [List.map_eq_nil_iff.1 hnil, List.nil_append]
          exact (hF _ hnext).1
        · obtain ⟨t, vs, rfl, rfl, -⟩ := List.map_eq_cons_iff.1 hcons
          exact hG _ hk'
      obtain ⟨a?, s', hs', ha?, hreached⟩ :=
        (hstep a s hn hfront).complete hd ⟨c', rfl, h⟩ hfollow
      obtain ⟨a', rfl, ha'⟩ := Option.map_eq_some_iff.1 ha?
      obtain ⟨b, s'', hiter, hb, hreached'⟩ :=
        ih (hreached.depth ▸ hn) hreached.delivers ha' rfl
      refine ⟨b, s'', ?_, hb, hreached.trans hreached'⟩
      have hroom : s'.room < s.room := by
        have hlength := hreached.room
        have hus : us.length = (k :: v).length := by rw [← hv, List.length_map]
        simp only [List.length_cons] at hus
        omega
      rw [Parser.iterate, hs']
      simp only [hroom, if_true, hiter]

/-- A step that goes on at some tokens, from a value to the next one. -/
theorem iterate (a : α) :
    Recognizes n value (Parser.iterate step a) (Loop S (value a)) F :=
  fun _ hn =>
    ⟨fun hd h => iterate_sound starts hstop hstep hn hd h,
      fun hd hloop hnext => iterate_complete starts hstop hstep hS hG hF hloop hn hd rfl rfl hnext⟩

end Repetition

theorem loop_oneMore_iff {bs cs : List β} {w : Word} :
    Loop (L.oneMore) bs w cs ↔ ∃ ds, Sequence L w ds ∧ cs = ds.reverse ++ bs := by
  constructor
  · intro h
    induction h with
    | stop => exact ⟨[], .nil, rfl⟩
    | more h hs ih =>
        obtain ⟨b, hL, rfl⟩ := h
        obtain ⟨ds, hds, rfl⟩ := ih
        exact ⟨b :: ds, .cons hL hds, by simp⟩
  · rintro ⟨ds, h, rfl⟩
    induction h generalizing bs with
    | nil => exact .stop
    | cons h hs ih =>
        rw [List.reverse_cons, List.append_assoc]
        exact .more ⟨_, h, rfl⟩ ih

theorem loop_oneMore_reverse {w : Word} {cs : List β} :
    (∃ bs, Loop (L.oneMore) [] w bs ∧ cs = bs.reverse) ↔ Sequence L w cs := by
  constructor
  · rintro ⟨bs, hloop, rfl⟩
    obtain ⟨ds, hds, rfl⟩ := loop_oneMore_iff.1 hloop
    simpa using hds
  · intro h
    exact ⟨cs.reverse, loop_oneMore_iff.2 ⟨cs, h, by simp⟩, by simp⟩

theorem many {item : Parser σ α} {atItem : State σ → Bool} (starts : Kind → Bool)
    (hitem : ∀ s : State σ, Limits.maxParseDepth - s.depth = n → s.front.any starts = true →
      RecognizesAt value item L G s)
    (hat : ∀ s, atItem s = s.front.any starts)
    (hL : ∀ w b, L w b → ∃ k v, w = k :: v ∧ starts k = true)
    (hG : ∀ k, starts k = true → G (some k))
    (hF : ∀ next, F next → G next ∧ next.any starts = false) :
    Recognizes n (List.map value) (many atItem item) (Sequence L) F := by
  have hloop : Recognizes n (List.map value) (Parser.iterate (Parser.oneMore atItem item) [])
      (Loop (L.oneMore) []) F := by
    refine iterate starts (fun items s hs => ?_) (fun items s hn hs => ?_) ?_ hG hF []
    · simp only [Parser.oneMore, bind_apply, get_apply, hat, hs, Bool.false_eq_true, if_false, pure_apply]
    · refine .of_eq ?_ (RecognizesAt.cons_result (hitem s hn hs) items)
      simp only [Parser.oneMore, bind_apply, get_apply, hat, hs, if_true]
    · rintro bs w cs ⟨b, hb, -⟩
      exact hL w b hb
  exact (hloop.map_result fun items => List.map_reverse).congr fun w cs => loop_oneMore_reverse

theorem separated_iff {w : Word} {bs : List β} :
    Separated L w bs ↔
      ∃ u v b cs, w = u ++ v ∧ L u b ∧ Sequence (after (.symbol .comma) L) v cs ∧ bs = b :: cs := by
  constructor
  · intro h
    induction h with
    | one h => exact ⟨_, [], _, [], by simp, h, .nil, rfl⟩
    | more h hs ih =>
        obtain ⟨u, v, b, cs, rfl, hb, hcs, rfl⟩ := ih
        exact ⟨_, _, _, _, rfl, h, .cons ⟨u, rfl, hb⟩ hcs, rfl⟩
  · rintro ⟨u, v, b, cs, rfl, hb, hcs, rfl⟩
    induction hcs generalizing u b with
    | nil =>
        rw [List.append_nil]
        exact .one hb
    | cons h hs ih =>
        obtain ⟨v', rfl, hL⟩ := h
        exact .more hb (ih v' _ hL)

theorem separated {item : Parser σ α} (hitem : Recognizes n value item L G)
    (hG : G (some (.symbol .comma)))
    (hF : ∀ next, F next → G next ∧ next ≠ some (.symbol .comma)) :
    Recognizes n (List.map value) (separated item) (Separated L) F := by
  have hloop : ∀ a, Recognizes n (List.map value) (Parser.iterate (afterComma item) [a])
      (Loop (Language.oneMore (after (.symbol .comma) L)) [value a]) F := by
    intro a
    refine iterate (· == .symbol .comma) (fun items s hs => ?_) (fun items s hn hs => ?_) ?_ ?_ ?_
      [a] (G := G)
    · have hfront : s.front ≠ some (.symbol .comma) := by
        intro hfront
        simp [hfront] at hs
      exact eatSymbol_bind_of_ne hfront
    · have hfront : s.front = some (.symbol .comma) := by
        cases hk : s.front <;> simp_all
      have htake := RecognizesAt.take hn hfront fun _ _ s hn => RecognizesAt.cons_result (hitem s hn) items
      refine (RecognizesAt.of_eq (eatSymbol_bind_of_front hfront) htake).congr ?_ ?_
      · rintro w cs? next ⟨v, rfl, cs, rfl, b, hL, rfl⟩ -
        exact ⟨_, rfl, b, ⟨v, rfl, hL⟩, rfl⟩
      · rintro w cs? next ⟨cs, rfl, b, ⟨v, rfl, hL⟩, rfl⟩ - hnext
        exact ⟨⟨v, rfl, _, rfl, b, hL, rfl⟩, hnext⟩
    · rintro bs w cs ⟨b, ⟨v, rfl, -⟩, -⟩
      exact ⟨_, v, rfl, beq_self_eq_true _⟩
    · intro k hk
      rwa [beq_iff_eq.1 hk]
    · intro next h
      refine ⟨(hF next h).1, ?_⟩
      have hne := (hF next h).2
      cases next with
      | none => rfl
      | some k => simpa using hne
  have hrest : ∀ a, Recognizes n (List.map value)
      (do
        let items ← Parser.iterate (afterComma item) [a]
        return items.reverse)
      (fun w cs => ∃ ds, Sequence (after (.symbol .comma) L) w ds ∧ cs = value a :: ds) F := by
    refine fun a => ((hloop a).map_result fun items => List.map_reverse).congr fun w cs => ?_
    constructor
    · rintro ⟨bs, hloop, rfl⟩
      obtain ⟨ds, hds, rfl⟩ := loop_oneMore_iff.1 hloop
      exact ⟨ds, hds, by simp⟩
    · rintro ⟨ds, hds, rfl⟩
      exact ⟨_, loop_oneMore_iff.2 ⟨ds, hds, rfl⟩, by simp⟩
  have hbind := hitem.bind
    (M := fun b w cs => ∃ ds, Sequence (after (.symbol .comma) L) w ds ∧ cs = b :: ds) hrest ?_
  · refine hbind.congr fun w bs => ?_
    rw [separated_iff]
    constructor
    · rintro ⟨u, v, b, rfl, hb, ds, hds, rfl⟩
      exact ⟨u, v, b, ds, rfl, hb, hds, rfl⟩
    · rintro ⟨u, v, b, ds, rfl, hb, hds, rfl⟩
      exact ⟨u, v, b, rfl, hb, ds, hds, rfl⟩
  · rintro b w cs next ⟨ds, hds, rfl⟩ hnext
    cases hds with
    | nil => exact (hF next hnext).1
    | cons h _ =>
        obtain ⟨v, rfl, -⟩ := h
        exact hG

theorem listed {item : Parser σ α} (hitem : Recognizes n value item L G)
    (hG : G (some (.symbol .comma)))
    (hF : ∀ next, F next → G next ∧ next = some (.symbol .rightParen))
    (hL : ∀ w b, L w b → ∃ k v, w = k :: v ∧ k ≠ .symbol .rightParen) :
    Recognizes n (List.map value) (listed item) (Listed L) F := by
  have hempty : Recognizes n (List.map value) (Pure.pure [] : Parser σ (List α)) (done []) F := pure []
  have hsome : Recognizes n (List.map value) (Parser.separated item) (Separated L) F :=
    separated hitem hG fun next h => ⟨(hF next h).1, by simp [(hF next h).2]⟩
  refine (unlessSymbol hempty hsome (fun next h => (hF next h).2) (fun w b h => h.1) ?_).congr
    fun w bs => ⟨?_, ?_⟩
  · intro w b next h hF' hfront
    cases h with
    | one h =>
        obtain ⟨k, v, rfl, hk⟩ := hL _ _ h
        exact hk (by simpa using hfront)
    | more h hs =>
        obtain ⟨k, v, rfl, hk⟩ := hL _ _ h
        exact hk (by simpa using hfront)
  · rintro (⟨rfl, rfl⟩ | h)
    · exact .none
    · exact .some h
  · rintro (_ | h)
    · exact .inl ⟨rfl, rfl⟩
    · exact .inr h

end Recognizes

end Parser

end JackToolchain.Syntax
